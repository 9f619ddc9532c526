import HeaderOutline.Event
import HeaderOutline.Note
import HeaderOutline.SourceLine
/-!
# The state of a reading

A header is read fragment by fragment. The pending lines are taken from the front; what is left of a
line behind a match, and a line joined with the next, go back to the front, so at most the first of
them differs from the lines of the header.

Results: `weight_requeue`, what goes back weighs no more than its text and two.
-/
namespace HeaderOutline
open Text

/-- What a reading puts out, in order: callbacks and log notes. -/
inductive Entry where
  | callback (item : Callback)
  | note (item : Note)
  deriving DecidableEq, Repr

/-- The counts of a reading. -/
structure Tally where
  /-- Fragments that were dispatched. -/
  dispatched : Nat
  /-- Constructs that were reported. -/
  constructs : Nat
  /-- Lines that were joined to the one before. -/
  merges : Nat
  /-- Fragments that were given up. -/
  discarded : Nat
  deriving DecidableEq, Repr

/-- A reading in progress. `group` is the line whose fragments are being dispatched. Mirrors
`HeaderVisitor` and its `LineQueue`. -/
structure State where
  pending : List SourceLine
  scopes : ScopeStack
  group : Option SourceLine
  tally : Tally
  deriving DecidableEq, Repr

/-- A closing brace without an open scope. -/
structure UnbalancedBrace where
  line : Nat
  deriving DecidableEq, Repr

def UnbalancedBrace.message (e : UnbalancedBrace) : String :=
  "Unbalanced closing brace at line " ++ toString e.line ++ ": no open scope"

namespace State

def start (lines : List SourceLine) : State :=
  ⟨lines, [], none, ⟨0, 0, 0, 0⟩⟩

def line (s : State) : Nat :=
  (s.group.map (·.number)).getD 0

def callback (s : State) (event : Event) : Entry :=
  .callback ⟨event, s.line, s.scopes⟩

def push (frame : Frame) (s : State) : State :=
  { s with scopes := frame :: s.scopes }

def countConstruct (s : State) : State :=
  { s with tally := { s.tally with constructs := s.tally.constructs + 1 } }

def countMerges (n : Nat) (s : State) : State :=
  { s with tally := { s.tally with merges := s.tally.merges + n } }

def countDiscarded (s : State) : State :=
  { s with tally := { s.tally with discarded := s.tally.discarded + 1 } }

def countDispatched (s : State) : State :=
  { s with tally := { s.tally with dispatched := s.tally.dispatched + 1 } }

end State

/-! ## Pending lines -/

/-- What bounds the work left in pending lines: every dispatch takes some of it. -/
def weight : List SourceLine → Nat
  | [] => 0
  | l :: ls => l.text.length + 2 + weight ls

/-- The pending lines with the text behind a match in front, unless it is blank. Mirrors
`requeue`. -/
def requeue (number : Nat) (rest : List Char) (pending : List SourceLine) : List SourceLine :=
  let text := trimStart rest
  if text.isEmpty then pending else ⟨number, text⟩ :: pending

theorem weight_cons (l : SourceLine) (ls : List SourceLine) :
    weight (l :: ls) = l.text.length + 2 + weight ls :=
  rfl

theorem weight_requeue (number : Nat) (rest : List Char) (pending : List SourceLine) :
    weight (requeue number rest pending) ≤ rest.length + 2 + weight pending := by
  have h := length_trimStart_le rest
  unfold requeue
  simp only
  split
  · omega
  · rw [weight_cons]
    simp only
    omega

end HeaderOutline
