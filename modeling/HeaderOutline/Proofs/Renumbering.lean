import HeaderOutline.Proofs.Course
/-!
# Line numbers

Line numbers only go along: a reading compares them for equality, when a line comes to the front,
and otherwise puts them into what it reports. Nor does it look at its counts. So a reading whose
lines bear other numbers, and whose counts begin elsewhere, takes the same course.

Results:
* `step_renumber`: a step commutes with renumbering, as long as different lines keep different
  numbers.
* `reads_renumber`, `close_renumber`: the same for courses and for the end.
-/
namespace HeaderOutline

/-- The line under its new number. -/
def SourceLine.renumber (ρ : Nat → Nat) (l : SourceLine) : SourceLine :=
  ⟨ρ l.number, l.text⟩

def Callback.renumber (ρ : Nat → Nat) (c : Callback) : Callback :=
  { c with line := ρ c.line }

def Note.renumber (ρ : Nat → Nat) : Note → Note
  | matched line rule => matched (ρ line) rule
  | requeued line => requeued (ρ line)
  | merged line => merged (ρ line)
  | enumSkipped line => enumSkipped (ρ line)
  | dropped line kind => dropped (ρ line) kind
  | enumDiscarded line => enumDiscarded (ρ line)
  | textDiscarded line text => textDiscarded (ρ line) text
  | leftOpen count innermost => leftOpen count innermost
  | finished constructs merges discarded => finished constructs merges discarded

def Entry.renumber (ρ : Nat → Nat) : Entry → Entry
  | callback c => callback (c.renumber ρ)
  | note n => note (n.renumber ρ)

def UnbalancedBrace.renumber (ρ : Nat → Nat) (e : UnbalancedBrace) : UnbalancedBrace :=
  ⟨ρ e.line⟩

instance : Add Tally where
  add a b := ⟨a.dispatched + b.dispatched, a.constructs + b.constructs, a.merges + b.merges,
    a.discarded + b.discarded⟩

namespace State

/-- The state with new line numbers, and with counts that began at `b`. -/
def renumber (ρ : Nat → Nat) (b : Tally) (s : State) : State :=
  ⟨s.pending.map (.renumber ρ), s.scopes, s.group.map (.renumber ρ), b + s.tally⟩

/-- What is put out and what comes next, under new numbers. -/
def renumbered (ρ : Nat → Nat) (b : Tally) (p : List Entry × State) : List Entry × State :=
  (p.1.map (.renumber ρ), p.2.renumber ρ b)

def renumberedResult (ρ : Nat → Nat) (b : Tally) (p : List Entry × Except UnbalancedBrace State) :
    List Entry × Except UnbalancedBrace State :=
  (p.1.map (.renumber ρ), match p.2 with
    | .ok s => .ok (s.renumber ρ b)
    | .error e => .error (e.renumber ρ))

variable {ρ : Nat → Nat} {b : Tally} {s : State}

@[simp] theorem scopes_renumber : (s.renumber ρ b).scopes = s.scopes := rfl

@[simp] theorem pending_renumber : (s.renumber ρ b).pending = s.pending.map (.renumber ρ) := rfl

@[simp] theorem group_renumber : (s.renumber ρ b).group = s.group.map (.renumber ρ) := rfl

theorem countMerges_renumber (n : Nat) :
    (s.renumber ρ b).countMerges n = (s.countMerges n).renumber ρ b := by
  have h : b.merges + s.tally.merges + n = b.merges + (s.tally.merges + n) :=
    Nat.add_assoc ..
  simp only [countMerges, renumber]
  congr 1
  exact congrArg (fun m => (⟨_, _, m, _⟩ : Tally)) h

/-! ## Parts of a step -/

/-- Once a line has been entered, callbacks carry its new number. -/
theorem callback_renumber (hg : s.group.isSome = true) (e : Event) :
    (s.renumber ρ b).callback e = (s.callback e).renumber ρ := by
  obtain ⟨l, hl⟩ := Option.isSome_iff_exists.mp hg
  simp [callback, line, hl, Entry.renumber, Callback.renumber, SourceLine.renumber]

theorem map_callback_renumber (hg : s.group.isSome = true) (es : List Event) :
    es.map (s.renumber ρ b).callback = (es.map s.callback).map (.renumber ρ) := by
  rw [List.map_map]
  exact List.map_congr_left fun e _ => callback_renumber hg e

theorem report_renumber (hg : s.group.isSome = true) (e : Event) (body : Option Frame) :
    (s.renumber ρ b).report e body = renumbered ρ b (s.report e body) := by
  simp only [report, callback_renumber hg]
  rfl

theorem requeue_renumber (number : Nat) (rest : List Char) (pending : List SourceLine) :
    requeue (ρ number) rest (pending.map (.renumber ρ)) =
      (requeue number rest pending).map (.renumber ρ) := by
  unfold requeue
  simp only
  split <;> rfl

theorem joinLines_renumber (value : List Char) (ls : List SourceLine) :
    joinLines value (ls.map (.renumber ρ)) =
      ((joinLines value ls).1, (joinLines value ls).2.map (.renumber ρ)) := by
  fun_induction joinLines value ls with
  | case1 => rfl
  | case2 value l ls h ih => rw [List.map_cons, joinLines, if_pos h]; exact ih
  | case3 value l ls h => rw [List.map_cons, joinLines, if_neg h]

theorem gatherEnum_renumber (merges : Nat) (text : List Char) (ls : List SourceLine) :
    gatherEnum merges text (ls.map (.renumber ρ)) =
      { gatherEnum merges text ls with
        pending := (gatherEnum merges text ls).pending.map (.renumber ρ) } := by
  fun_induction gatherEnum merges text ls with
  | case1 ls merges text decl rest h => rw [gatherEnum.eq_def, h]
  | case2 ls merges text h rest h' => rw [gatherEnum.eq_def, h, h']
  | case3 merges text h h' => rw [List.map_nil, gatherEnum.eq_def, h, h']
  | case4 merges text h h' l ls ih => rw [List.map_cons, gatherEnum.eq_def, h, h']; exact ih

theorem openBrace_renumber (hg : s.group.isSome = true) :
    (s.renumber ρ b).openBrace = renumbered ρ b s.openBrace := by
  unfold openBrace
  rw [scopes_renumber]
  split
  · rfl
  · next f fs h =>
    split
    · rfl
    · have hc := map_callback_renumber (ρ := ρ) (b := b)
        (s := { s with scopes := f.opening :: fs }) hg (startEvent? f).toList
      exact Prod.ext hc rfl

theorem closeBrace_renumber (hg : s.group.isSome = true) (number : Nat) :
    (s.renumber ρ b).closeBrace (ρ number) = renumberedResult ρ b (s.closeBrace number) := by
  have hn : (s.scopes.takeWhile (!·.isOpened)).map
      (fun f => Entry.note (.dropped (ρ number) f.kind)) =
      ((s.scopes.takeWhile (!·.isOpened)).map
        fun f => Entry.note (.dropped number f.kind)).map (.renumber ρ) := by
    rw [List.map_map]
    rfl
  unfold closeBrace
  simp only [scopes_renumber, hn]
  split
  · rfl
  · next f fs h =>
    have hc := map_callback_renumber (ρ := ρ) (b := b)
      (s := { s with scopes := s.scopes.dropWhile (!·.isOpened) }) hg (endEvent? f).toList
    refine Prod.ext ?_ rfl
    simp only [renumberedResult, List.map_append]
    exact congrArg _ hc

theorem perform_renumber (hg : s.group.isSome = true) (k : Construct) :
    (s.renumber ρ b).perform k = renumbered ρ b (s.perform k) := by
  cases k with
  | define name value =>
    simp only [perform, pending_renumber, joinLines_renumber]
    exact report_renumber (s := { s with pending := (joinLines value s.pending).2 }) hg _ _
  | access | directive | statement | enumHead | closeBrace => rfl
  | linkage block => cases block <;> rfl
  | nameSpace | classHead => exact report_renumber hg _ _
  | function _ terminated | constructor _ terminated | destructor _ terminated =>
    cases terminated <;> exact report_renumber hg _ _
  | openBrace => exact openBrace_renumber hg

theorem readEnum_renumber (hg : s.group.isSome = true) (l : SourceLine) :
    (s.renumber ρ b).readEnum (l.renumber ρ) = renumbered ρ b (s.readEnum l) := by
  unfold readEnum
  simp only [pending_renumber, SourceLine.renumber, gatherEnum_renumber]
  generalize gatherEnum 0 l.text s.pending = g
  let joined := countMerges g.merges { s with pending := requeue l.number g.rest g.pending }
  have hj : countMerges g.merges { s.renumber ρ b with
      pending := requeue (ρ l.number) g.rest (g.pending.map (.renumber ρ)) } =
      joined.renumber ρ b := by
    rw [requeue_renumber, ← countMerges_renumber]
    rfl
  have hg' : joined.group.isSome = true := hg
  rw [hj]
  split
  · exact report_renumber hg' _ _
  · rfl
  · rfl

theorem unmatched_renumber (l : SourceLine) :
    (s.renumber ρ b).unmatched (l.renumber ρ) = renumbered ρ b (s.unmatched l) := by
  unfold unmatched
  rw [pending_renumber]
  cases s.pending with
  | nil => rfl
  | cons next later => rfl

theorem putBack_renumber (number : Nat) (rest : List Char) :
    (s.renumber ρ b).putBack (ρ number) rest = renumbered ρ b (s.putBack number rest) := by
  unfold putBack
  simp only [pending_renumber, requeue_renumber]
  split <;> rfl

/-! ## Steps -/

theorem act_renumber (hg : s.group.isSome = true) (l : SourceLine) (rest : List Char)
    (k : Construct) :
    (s.renumber ρ b).act (l.renumber ρ) rest k = renumberedResult ρ b (s.act l rest k) := by
  unfold act
  split
  · rw [readEnum_renumber hg]
    rfl
  · rw [show (l.renumber ρ).number = ρ l.number from rfl, closeBrace_renumber hg]
    rcases s.closeBrace l.number with ⟨es, e | t⟩
    · rfl
    · simp only [renumberedResult, putBack_renumber, renumbered, List.map_append]
  · rw [perform_renumber hg]
    simp only [renumbered, show (l.renumber ρ).number = ρ l.number from rfl, putBack_renumber,
      renumberedResult, List.map_append]

theorem dispatch_renumber (hg : s.group.isSome = true) (l : SourceLine) :
    (s.renumber ρ b).dispatch (l.renumber ρ) = renumberedResult ρ b (s.dispatch l) := by
  have hc : (s.renumber ρ b).countDispatched = s.countDispatched.renumber ρ b := rfl
  unfold dispatch
  simp only [hc, scopes_renumber, show (l.renumber ρ).text = l.text from rfl]
  split
  · rw [unmatched_renumber]
    rfl
  · rw [act_renumber (s := s.countDispatched) hg]
    rfl

/-- Lines of different numbers keep them apart, so the same lines begin and end. -/
theorem enter_renumber (hρ : Function.Injective ρ) (l : SourceLine) :
    (s.renumber ρ b).enter (l.renumber ρ) = renumbered ρ b (s.enter l) := by
  have hn : (s.renumber ρ b).group.map (·.number) = some (l.renumber ρ).number ↔
      s.group.map (·.number) = some l.number := by
    cases hg : s.group with
    | none => simp [hg]
    | some g => simp [hg, SourceLine.renumber, hρ.eq_iff]
  unfold enter
  simp only [hn]
  split
  · rfl
  · cases hg : s.group with
    | none => simp [hg, renumbered, renumber, callback, line, Entry.renumber, Callback.renumber,
        SourceLine.renumber]
    | some g => simp [hg, renumbered, renumber, callback, line, Entry.renumber, Callback.renumber,
        SourceLine.renumber]

theorem group_enter (l : SourceLine) (s : State) : (s.enter l).2.group.isSome = true := by
  unfold enter
  split
  · next h =>
    obtain ⟨g, hg, -⟩ := Option.map_eq_some_iff.mp h
    rw [hg]
    rfl
  · rfl

/-- A step commutes with renumbering. -/
theorem step_renumber (hρ : Function.Injective ρ) (l : SourceLine) (later : List SourceLine) :
    (s.renumber ρ b).step (l.renumber ρ) (later.map (.renumber ρ)) =
      renumberedResult ρ b (s.step l later) := by
  have he := enter_renumber (b := b) (s := { s with pending := later }) hρ l
  have hs : { s.renumber ρ b with pending := later.map (.renumber ρ) } =
      ({ s with pending := later }).renumber ρ b := rfl
  have hd := dispatch_renumber (ρ := ρ) (b := b) (group_enter l { s with pending := later }) l
  unfold step
  simp only [hs, he, renumbered, hd, renumberedResult, List.map_append]

theorem step_renumber_ok (hρ : Function.Injective ρ) {l : SourceLine} {later : List SourceLine}
    {es : List Entry} {t : State} (h : s.step l later = (es, .ok t)) :
    (s.renumber ρ b).step (l.renumber ρ) (later.map (.renumber ρ)) =
      (es.map (.renumber ρ), .ok (t.renumber ρ b)) := by
  rw [step_renumber hρ, h]
  rfl

theorem step_renumber_error (hρ : Function.Injective ρ) {l : SourceLine} {later : List SourceLine}
    {es : List Entry} {e : UnbalancedBrace} (h : s.step l later = (es, .error e)) :
    (s.renumber ρ b).step (l.renumber ρ) (later.map (.renumber ρ)) =
      (es.map (.renumber ρ), .error (e.renumber ρ)) := by
  rw [step_renumber hρ, h]
  rfl

/-! ## Courses -/

/-- A course under new numbers. -/
theorem reads_renumber (hρ : Function.Injective ρ) {s t : State} {es : List Entry}
    (h : Reads s es t) : Reads (s.renumber ρ b) (es.map (.renumber ρ)) (t.renumber ρ b) := by
  induction h with
  | refl => exact .refl _
  | next hp hs _ ih =>
    rw [List.map_append]
    exact .next (by rw [pending_renumber, hp]; rfl) (step_renumber_ok hρ hs) ih

/-- The end under new numbers. -/
theorem close_renumber (hg : s.group.isSome = true) :
    (s.renumber ρ b).close = s.close.map (.renumber ρ) := by
  obtain ⟨g, hl⟩ := Option.isSome_iff_exists.mp hg
  have hc := fun e => callback_renumber (ρ := ρ) (b := b) hg e
  unfold close
  simp only [group_renumber, scopes_renumber, hl, Option.map_some, hc]
  cases s.scopes <;> rfl

end State

end HeaderOutline
