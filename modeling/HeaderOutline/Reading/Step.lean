import HeaderOutline.Reading.State
/-!
# One step of a reading

A step takes the first pending line. When its number is new, the line before ends and this one
begins. The fragment is then dispatched: a match is acted upon and the text behind it goes back to
the front; a fragment that no rule matches is joined with the next line, or given up when there is
none.

An enum is read at once: lines are joined until its body is complete, until a semicolon ends it
without one, or until no line is left. A macro takes the lines that its backslashes continue it
onto.

A brace opens the frame on top when its head has just been read, and is skipped otherwise. A closing
brace first gives up the heads on top whose brace never came, and then closes the frame below;
without one it is an error.

Results: `weight_step`, every step makes the pending lines lighter.
-/
namespace HeaderOutline
open Text Declaration

namespace State

/-! ## Lines -/

/-- The state once a line has come to the front, with the ends and starts of lines. Mirrors what
`run` does before each `step`. -/
def enter (line : SourceLine) (s : State) : List Entry × State :=
  if s.group.map (·.number) = some line.number then ([], s)
  else
    let ended := match s.group with
      | some l => [s.callback (.lineEnd (String.ofList l.text))]
      | none => []
    let s := { s with group := some line }
    (ended ++ [s.callback (.lineStart (String.ofList line.text))], s)

/-! ## Constructs -/

/-- Reports a construct; a frame follows it when it has a body. -/
def report (event : Event) (body : Option Frame) (s : State) : List Entry × State :=
  ([s.callback event],
    { s with scopes := body.toList ++ s.scopes }.countConstruct)

/-- A macro's value and the pending lines after it. While the value ends in a backslash, the next
line takes its place. Mirrors `on_macro`. -/
def joinLines (value : List Char) : List SourceLine → List Char × List SourceLine
  | [] => (value, [])
  | l :: ls =>
    if value.getLast? = some '\\' then joinLines (value.dropLast ++ l.text) ls else (value, l :: ls)

/-- The event of an opening brace, told by the frame that it opens. -/
def startEvent? : Frame → Option Event
  | .nameSpace name _ => some (.nameSpaceStart name)
  | .classBody c => some (.classStart c.name)
  | _ => none

/-- The event of a closing brace, told by the frame that it closes. -/
def endEvent? : Frame → Option Event
  | .nameSpace name _ => some (.nameSpaceEnd name)
  | .classBody c => some (.classEnd c.name)
  | _ => none

/-- Mirrors `open_brace`. -/
def openBrace (s : State) : List Entry × State :=
  match s.scopes with
  | [] => ([], s.push .skip)
  | f :: fs =>
    if f.isOpened then ([], s.push .skip)
    else
      let s := { s with scopes := f.opening :: fs }
      ((startEvent? f).toList.map s.callback, s)

/-- A closing brace in the line of the given number. Mirrors `close_brace`. -/
def closeBrace (number : Nat) (s : State) : List Entry × Except UnbalancedBrace State :=
  let notes := (s.scopes.takeWhile (!·.isOpened)).map fun f => Entry.note (.dropped number f.kind)
  let s := { s with scopes := s.scopes.dropWhile (!·.isOpened) }
  match s.scopes with
  | [] => (notes, .error ⟨number⟩)
  | f :: fs => (notes ++ (endEvent? f).toList.map s.callback, .ok { s with scopes := fs })

/-- What a construct does, apart from enums and closing braces. Mirrors the arms of `step`. -/
def perform (s : State) : Construct → List Entry × State
  | .define name value =>
    let (joined, pending) := joinLines value s.pending
    { s with pending }.report (.define ⟨name, String.ofList joined⟩) none
  | .access level => ([], { s with scopes := s.scopes.setAccess level })
  | .linkage block => ([], if block then s.push (.linkage false) else s)
  | .nameSpace name => s.report (.nameSpace name) (some (.nameSpace name false))
  | .classHead head =>
    s.report (.classHead head) (some (.classBody (.ofHead head.name head.key head.template)))
  | .function f true => s.report (.functionDecl f) none
  | .function f false => s.report (.functionDef f) (some (.functionBody f.name false))
  | .constructor c true => s.report (.constructorDecl c.name c.params) none
  | .constructor c false =>
    s.report (.constructorDef c.name c.params) (some (.functionBody c.name false))
  | .destructor name true => s.report (.destructorDecl name) none
  | .destructor name false => s.report (.destructorDef name) (some (.functionBody name false))
  | .openBrace => s.openBrace
  | .directive | .statement | .enumHead | .closeBrace => ([], s)

/-! ## Enums -/

/-- How the reading of an enum ends: with its body, without one, or for want of lines. -/
inductive EnumEnd where
  | body (decl : EnumDecl)
  | bodiless
  | outOfLines
  deriving DecidableEq, Repr

/-- An enum that has been read: how it ended, the text behind it, the number of lines that were
joined, and the lines that are left. -/
structure GatheredEnum where
  found : EnumEnd
  rest : List Char
  merges : Nat
  pending : List SourceLine
  deriving DecidableEq, Repr

/-- Joins lines to the text of an enum until it ends; `merges` have been joined already. Mirrors the
loop in `parse_enum`. -/
def gatherEnum (merges : Nat) (text : List Char) (pending : List SourceLine) : GatheredEnum :=
  match enumDecl? text with
  | some (decl, rest) => ⟨.body decl, rest, merges, pending⟩
  | none =>
    match afterStatement? text with
    | some rest => ⟨.bodiless, rest, merges, pending⟩
    | none =>
      match pending with
      | [] => ⟨.outOfLines, [], merges, []⟩
      | l :: ls => gatherEnum (merges + 1) (text ++ ' ' :: l.text) ls

/-- Reads an enum. The text behind it goes back to the front. Mirrors `parse_enum`, with
`report_enum`. -/
def readEnum (line : SourceLine) (s : State) : List Entry × State :=
  let g := gatherEnum 0 line.text s.pending
  let s := { s with pending := requeue line.number g.rest g.pending }.countMerges g.merges
  match g.found with
  | .body decl => s.report (.enum decl) none
  | .bodiless => ([.note (.enumSkipped line.number)], s)
  | .outOfLines => ([.note (.enumDiscarded line.number)], s.countDiscarded)

/-! ## Fragments -/

/-- A fragment that no rule matches. Mirrors `merge_unmatched`. -/
def unmatched (line : SourceLine) (s : State) : List Entry × State :=
  match s.pending with
  | [] =>
    ([.note (.textDiscarded line.number (String.ofList line.text))], s.countDiscarded)
  | next :: later =>
    ([.note (.merged line.number)],
      { s with pending := ⟨line.number, line.text ++ ' ' :: next.text⟩ :: later }.countMerges 1)

/-- Puts the text behind a match back to the front. -/
def putBack (number : Nat) (rest : List Char) (s : State) : List Entry × State :=
  let note := if (trimStart rest).isEmpty then [] else [Entry.note (.requeued number)]
  (note, { s with pending := requeue number rest s.pending })

/-- Acts upon a match. `rest` is the text behind it. -/
def act (line : SourceLine) (rest : List Char) (k : Construct) (s : State) :
    List Entry × Except UnbalancedBrace State :=
  match k with
  | .enumHead =>
    let (entries, s) := s.readEnum line
    (entries, .ok s)
  | .closeBrace =>
    match s.closeBrace line.number with
    | (entries, .error e) => (entries, .error e)
    | (entries, .ok s) =>
      let (notes, s) := s.putBack line.number rest
      (entries ++ notes, .ok s)
  | _ =>
    let (entries, s) := s.perform k
    let (notes, s) := s.putBack line.number rest
    (entries ++ notes, .ok s)

/-- Dispatches a fragment. Mirrors `step`. -/
def dispatch (line : SourceLine) (s : State) : List Entry × Except UnbalancedBrace State :=
  let s := s.countDispatched
  match Rule.match? s.scopes.context (s.scopes.topClass?.map (·.name)) line.text with
  | none =>
    let (entries, s) := s.unmatched line
    (entries, .ok s)
  | some (rule, k, rest) =>
    let acted := s.act line rest k
    (.note (.matched line.number rule) :: acted.1, acted.2)

/-- One step: `line` is taken from the front, `later` are the other pending lines. Mirrors one round
of the loop in `run`. -/
def step (line : SourceLine) (later : List SourceLine) (s : State) :
    List Entry × Except UnbalancedBrace State :=
  let entered := { s with pending := later }.enter line
  let dispatched := entered.2.dispatch line
  (entered.1 ++ dispatched.1, dispatched.2)

/-! ## Weights -/

theorem pending_enter (line : SourceLine) (s : State) : (s.enter line).2.pending = s.pending := by
  unfold enter
  split <;> rfl

theorem weight_joinLines (value : List Char) (pending : List SourceLine) :
    weight (joinLines value pending).2 ≤ weight pending := by
  fun_induction joinLines value pending with
  | case1 => exact Nat.le_refl _
  | case2 value l ls _ ih => rw [weight_cons]; omega
  | case3 => exact Nat.le_refl _

theorem weight_perform (s : State) (k : Construct) :
    weight (s.perform k).2.pending ≤ weight s.pending := by
  unfold perform
  split <;> try exact Nat.le_refl _
  · exact weight_joinLines ..
  · split <;> exact Nat.le_refl _
  · unfold openBrace
    split
    · exact Nat.le_refl _
    · split <;> exact Nat.le_refl _

theorem weight_gatherEnum (number merges : Nat) (text : List Char) (pending : List SourceLine) :
    weight (requeue number (gatherEnum merges text pending).rest
      (gatherEnum merges text pending).pending) < text.length + 2 + weight pending := by
  fun_induction gatherEnum merges text pending with
  | case1 pending merges text decl rest h =>
    have h1 := length_of_enumDecl? h
    have h2 := weight_requeue number rest pending
    simp only
    omega
  | case2 pending merges text _ rest h =>
    have h1 := length_of_afterStatement? h
    have h2 := weight_requeue number rest pending
    simp only
    omega
  | case3 => simp [requeue, trimStart, weight]
  | case4 merges text _ _ l ls ih =>
    rw [weight_cons]
    simp only [List.length_append, List.length_cons] at ih
    omega

theorem weight_readEnum (line : SourceLine) (s : State) :
    weight (s.readEnum line).2.pending < line.text.length + 2 + weight s.pending := by
  have h := weight_gatherEnum line.number 0 line.text s.pending
  unfold readEnum
  simp only
  split <;> exact h

theorem pending_closeBrace {number : Nat} {s s' : State} (h : (s.closeBrace number).2 = .ok s') :
    s'.pending = s.pending := by
  unfold closeBrace at h
  simp only at h
  split at h
  · cases h
  · cases h
    rfl

theorem weight_putBack (number : Nat) (rest : List Char) (s : State) :
    weight (s.putBack number rest).2.pending ≤ rest.length + 2 + weight s.pending :=
  weight_requeue ..

theorem weight_unmatched (line : SourceLine) (s : State) :
    weight (s.unmatched line).2.pending < line.text.length + 2 + weight s.pending := by
  unfold unmatched
  split
  · next h => simp [countDiscarded, h, weight]
  · next next later h =>
    simp only [countMerges, h, weight_cons, List.length_append, List.length_cons]
    omega

theorem weight_act {line : SourceLine} {rest : List Char} {k : Construct} {s s' : State}
    (hr : k ≠ .enumHead → rest.length < line.text.length) (h : (s.act line rest k).2 = .ok s') :
    weight s'.pending < line.text.length + 2 + weight s.pending := by
  unfold act at h
  split at h
  · cases h
    exact weight_readEnum line s
  · have hr := hr (by simp)
    split at h
    · cases h
    · next s1 h1 =>
      have hs : s' = (s1.putBack line.number rest).2 := by cases h; rfl
      have h2 := weight_putBack line.number rest s1
      have h3 : s1.pending = s.pending := pending_closeBrace (by rw [h1])
      rw [h3] at h2
      rw [hs]
      omega
  · next hk _ =>
    have hr := hr hk
    have hs : s' = ((s.perform k).2.putBack line.number rest).2 := by cases h; rfl
    have h2 := weight_putBack line.number rest (s.perform k).2
    have h3 := weight_perform s k
    rw [hs]
    omega

theorem weight_dispatch {line : SourceLine} {s s' : State} (h : (s.dispatch line).2 = .ok s') :
    weight s'.pending < line.text.length + 2 + weight s.pending := by
  unfold dispatch at h
  simp only at h
  split at h
  · cases h
    exact weight_unmatched line s.countDispatched
  · next rule k rest hm =>
    exact weight_act (s := s.countDispatched) (fun hk => Rule.length_of_match? hm hk) h

/-- Every step makes the pending lines lighter. -/
theorem weight_step {line : SourceLine} {later : List SourceLine} {s s' : State}
    (h : (s.step line later).2 = .ok s') : weight s'.pending < weight (line :: later) := by
  unfold step at h
  simp only at h
  have h1 := weight_dispatch h
  rw [pending_enter] at h1
  rw [weight_cons]
  exact h1

end State

end HeaderOutline
