import HeaderOutline.Reading.Run
/-!
# The course of a reading

`Reads s es t`: from the state `s` some number of steps lead to `t` and put out `es`. A reading goes
on until no line is pending or a step fails, so `run` and `parse` are a course and one more move.

Of what is put out, `calls` keeps the constructs: every callback but those of the lines and of the
parse itself, each with the scopes it was made in.

Results:
* `exists_reads`, `run_of_reads`: a run is a course that ends without pending lines or in an error.
* `parse_cases`: the same for whole headers.
-/
namespace HeaderOutline

/-- The event reports a construct, not a line or the parse itself. -/
def Event.isStructural : Event → Bool
  | .parseStart | .parseEnd | .lineStart _ | .lineEnd _ => false
  | _ => true

/-- A construct that is reported, and the scopes as they stand then. -/
abbrev Call := Event × ScopeStack

def Entry.call? : Entry → Option Call
  | .callback c => if c.event.isStructural then some (c.event, c.scopes) else none
  | .note _ => none

def calls (es : List Entry) : List Call :=
  es.filterMap Entry.call?

def Reading.calls (r : Reading) : List Call :=
  HeaderOutline.calls r.entries

@[simp] theorem calls_nil : calls [] = [] := rfl

@[simp] theorem calls_append (es fs : List Entry) : calls (es ++ fs) = calls es ++ calls fs :=
  List.filterMap_append

@[simp] theorem calls_note (n : Note) (es : List Entry) : calls (.note n :: es) = calls es := rfl

theorem calls_eq_nil {es : List Entry} (h : ∀ e ∈ es, e.call? = none) : calls es = [] :=
  List.filterMap_eq_nil_iff.mpr h

theorem mem_calls {r : Reading} {c : Callback} (hc : c ∈ r.callbacks)
    (hk : c.event.isStructural = true) : (c.event, c.scopes) ∈ r.calls := by
  simp only [Reading.callbacks, List.mem_filterMap] at hc
  obtain ⟨e, he, heq⟩ := hc
  refine List.mem_filterMap.mpr ⟨e, he, ?_⟩
  cases e with
  | note n => cases heq
  | callback c' => cases heq; simp [Entry.call?, hk]

namespace State

@[simp] theorem calls_callback (s : State) (e : Event) (es : List Entry) :
    calls (s.callback e :: es) = (if e.isStructural then [(e, s.scopes)] else []) ++ calls es := by
  cases h : e.isStructural <;> simp [calls, callback, Entry.call?, h]

/-! ## Courses -/

/-- Steps lead from the first state to the last and put out the entries. -/
inductive Reads : State → List Entry → State → Prop
  | refl (s : State) : Reads s [] s
  | next {s t u : State} {line : SourceLine} {later : List SourceLine} {es fs : List Entry} :
      s.pending = line :: later → s.step line later = (es, .ok t) → Reads t fs u →
        Reads s (es ++ fs) u

theorem Reads.one {s t : State} {line : SourceLine} {later : List SourceLine} {es : List Entry}
    (hp : s.pending = line :: later) (hs : s.step line later = (es, .ok t)) : Reads s es t := by
  simpa using Reads.next hp hs (.refl t)

theorem Reads.trans {s t u : State} {es fs : List Entry} (h : Reads s es t) (h' : Reads t fs u) :
    Reads s (es ++ fs) u := by
  induction h with
  | refl => exact h'
  | next hp hs _ ih => simpa only [List.append_assoc] using Reads.next hp hs (ih h')

theorem run_of_pending_nil {s : State} (h : s.pending = []) : s.run = (s.close, .ok s) := by
  rw [run]
  split
  · rfl
  · next h' => rw [h] at h'; cases h'

theorem run_of_step {s t : State} {line : SourceLine} {later : List SourceLine} {es : List Entry}
    (hp : s.pending = line :: later) (hs : s.step line later = (es, .ok t)) :
    s.run = (es ++ t.run.1, t.run.2) := by
  rw [run]
  split
  · next h' => rw [hp] at h'; cases h'
  · next h' =>
    rw [hp] at h'
    cases h'
    split
    · next h' => rw [hs] at h'; cases h'
    · next h' => rw [hs] at h'; cases h'; rfl

theorem run_of_error {s : State} {line : SourceLine} {later : List SourceLine} {es : List Entry}
    {e : UnbalancedBrace} (hp : s.pending = line :: later)
    (hs : s.step line later = (es, .error e)) : s.run = (es, .error e) := by
  rw [run]
  split
  · next h' => rw [hp] at h'; cases h'
  · next h' =>
    rw [hp] at h'
    cases h'
    split
    · next h' => rw [hs] at h'; cases h'; rfl
    · next h' => rw [hs] at h'; cases h'

theorem run_of_reads {s t : State} {es : List Entry} (h : Reads s es t) (ht : t.pending = []) :
    s.run = (es ++ t.close, .ok t) := by
  induction h with
  | refl => exact run_of_pending_nil ht
  | next hp hs _ ih => rw [run_of_step hp hs, ih ht, List.append_assoc]

theorem run_of_reads_error {s t : State} {line : SourceLine} {later : List SourceLine}
    {es fs : List Entry} {e : UnbalancedBrace} (h : Reads s es t) (hp : t.pending = line :: later)
    (hs : t.step line later = (fs, .error e)) : s.run = (es ++ fs, .error e) := by
  induction h with
  | refl => exact run_of_error hp hs
  | next hp' hs' _ ih => rw [run_of_step hp' hs', ih hp hs, List.append_assoc]

/-- A course ends without pending lines, or before a step that fails. -/
theorem exists_reads (s : State) : ∃ es t, Reads s es t ∧ (t.pending = [] ∨
    ∃ line later fs e, t.pending = line :: later ∧ t.step line later = (fs, .error e)) := by
  generalize hw : weight s.pending = w
  induction w using Nat.strongRecOn generalizing s with
  | ind w ih =>
    cases hp : s.pending with
    | nil => exact ⟨[], s, .refl s, .inl hp⟩
    | cons line later =>
      rcases hs : s.step line later with ⟨es, e | t⟩
      · exact ⟨[], s, .refl s, .inr ⟨line, later, es, e, hp, hs⟩⟩
      · have hlt : weight t.pending < w := by
          rw [← hw, hp]
          exact weight_step (by rw [hs])
        obtain ⟨fs, u, hr, hu⟩ := ih _ hlt t rfl
        exact ⟨es ++ fs, u, .next hp hs hr, hu⟩

end State

/-! ## Whole headers -/

open State

/-- The state in which the reading of a header starts. -/
def startOf (source : String) : State :=
  State.start (SourceLine.ofSource source.toList)

/-- The states of a reading: the first one, and those after every dispatched fragment. -/
def Reachable (source : String) (s : State) : Prop :=
  ∃ es, Reads (startOf source) es s

theorem parse_of_reads {source : String} {es : List Entry} {t : State}
    (h : Reads (startOf source) es t) (ht : t.pending = []) :
    (parse source).entries = (startOf source).callback .parseStart :: (es ++ t.close) ++
        [.note (.finished t.tally.constructs t.tally.merges t.tally.discarded)] ∧
      (parse source).result = .ok ⟨⟨(Text.lines source.toList).length, t.tally.constructs,
        t.scopes.length⟩, t.tally, (SourceLine.ofSource source.toList).length⟩ := by
  have hr := run_of_reads h ht
  rw [startOf] at hr
  simp only [parse, hr]
  exact ⟨rfl, trivial⟩

theorem parse_of_reads_error {source : String} {es fs : List Entry} {t : State}
    {line : SourceLine} {later : List SourceLine} {e : UnbalancedBrace}
    (h : Reads (startOf source) es t) (hp : t.pending = line :: later)
    (hs : t.step line later = (fs, .error e)) :
    (parse source).entries = (startOf source).callback .parseStart :: (es ++ fs) ∧
      (parse source).result = .error e := by
  have hr := run_of_reads_error h hp hs
  rw [startOf] at hr
  simp only [parse, hr]
  exact ⟨rfl, trivial⟩

theorem calls_close (s : State) : calls s.close = [] := by
  refine calls_eq_nil fun e he => ?_
  simp only [State.close, List.mem_append, List.mem_singleton] at he
  rcases he with (he | he) | rfl
  · split at he
    · rw [List.mem_singleton] at he; subst he; rfl
    · cases he
  · split at he
    · cases he
    · rw [List.mem_singleton] at he; subst he; rfl
  · rfl

/-- The reading of a header is a course to its end, or to a step that fails. -/
theorem parse_cases (source : String) :
    ∃ es t, Reads (startOf source) es t ∧
      ((t.pending = [] ∧ (parse source).calls = calls es ∧
        ∃ f, (parse source).result = .ok f ∧ f.summary.unclosedScopes = t.scopes.length ∧
          f.tally = t.tally) ∨
      ∃ line later fs e, t.pending = line :: later ∧ t.step line later = (fs, .error e) ∧
        (parse source).calls = calls es ++ calls fs ∧ (parse source).result = .error e) := by
  obtain ⟨es, t, hr, ht⟩ := exists_reads (startOf source)
  refine ⟨es, t, hr, ?_⟩
  rcases ht with ht | ⟨line, later, fs, e, hp, hs⟩
  · obtain ⟨h1, h2⟩ := parse_of_reads hr ht
    refine .inl ⟨ht, ?_, _, h2, rfl, rfl⟩
    simp [Reading.calls, h1, calls_close, Event.isStructural]
  · obtain ⟨h1, h2⟩ := parse_of_reads_error hr hp hs
    refine .inr ⟨line, later, fs, e, hp, hs, ?_, h2⟩
    simp [Reading.calls, h1, Event.isStructural]

end HeaderOutline
