import HeaderOutline.Proofs.Dispatches
/-!
# Looking ahead

A step looks past its line in three places: an unmatched fragment takes the next line, a macro takes
the lines that its backslashes continue it onto, and an enum takes lines until it ends. Each of them
stops at the first line that it does not need. Only where the lines run out could one more make a
difference: text is given up, or a macro ends in a backslash. A reading in which neither happens
takes the same course before any further lines.

Results: `step_withLater`, `reads_withLater`.
-/
namespace HeaderOutline

/-- The event is a macro whose value ends in a backslash. -/
def Event.endsOpen : Event → Bool
  | .define item => item.value.toList.getLast? == some '\\'
  | _ => false

/-- The entry reports no macro whose value ends in a backslash. -/
def Entry.IsSettled : Entry → Prop
  | callback c => c.event.endsOpen = false
  | note _ => True

namespace State

/-- The state with further lines behind the pending ones. -/
def withLater (ms : List SourceLine) (s : State) : State :=
  { s with pending := s.pending ++ ms }

variable {s t : State} {ms : List SourceLine} {line : SourceLine} {es : List Entry}

/-! ## Parts of a step -/

theorem requeue_append (number : Nat) (rest : List Char) (ls ms : List SourceLine) :
    requeue number rest (ls ++ ms) = requeue number rest ls ++ ms := by
  unfold requeue
  simp only
  split <;> rfl

theorem joinLines_append {value : List Char} {ls : List SourceLine}
    (h : (joinLines value ls).1.getLast? ≠ some '\\') (ms : List SourceLine) :
    joinLines value (ls ++ ms) = ((joinLines value ls).1, (joinLines value ls).2 ++ ms) := by
  fun_induction joinLines value ls with
  | case1 value =>
    cases ms with
    | nil => rfl
    | cons m ms => rw [List.nil_append, joinLines, if_neg h]
  | case2 value l ls hb ih => rw [List.cons_append, joinLines, if_pos hb]; exact ih h
  | case3 value l ls hb => rw [List.cons_append, joinLines, if_neg hb]

theorem gatherEnum_append {n : Nat} {text : List Char} {ls : List SourceLine}
    (h : (gatherEnum n text ls).found ≠ .outOfLines) (ms : List SourceLine) :
    gatherEnum n text (ls ++ ms) =
      { gatherEnum n text ls with pending := (gatherEnum n text ls).pending ++ ms } := by
  fun_induction gatherEnum n text ls with
  | case1 ls n text decl rest hd => rw [gatherEnum.eq_def, hd]
  | case2 ls n text hd rest hs => rw [gatherEnum.eq_def, hd, hs]
  | case3 => exact absurd rfl h
  | case4 n text hd hs l ls ih => rw [List.cons_append, gatherEnum.eq_def, hd, hs]; exact ih h

theorem openBrace_withLater :
    (s.withLater ms).openBrace = (s.openBrace.1, s.openBrace.2.withLater ms) := by
  have hs : (s.withLater ms).scopes = s.scopes := rfl
  unfold openBrace
  rw [hs]
  split
  · rfl
  · split <;> rfl

theorem closeBrace_withLater {number : Nat} (h : s.closeBrace number = (es, .ok t)) :
    (s.withLater ms).closeBrace number = (es, .ok (t.withLater ms)) := by
  have hs : (s.withLater ms).scopes = s.scopes := rfl
  unfold closeBrace at h ⊢
  simp only [hs] at h ⊢
  split at h
  · cases h
  · cases h
    rfl

theorem perform_withLater {k : Construct} (h : ∀ e ∈ (s.perform k).1, e.IsSettled) :
    (s.withLater ms).perform k = ((s.perform k).1, (s.perform k).2.withLater ms) := by
  cases k with
  | define name value =>
    have hv : (joinLines value s.pending).1.getLast? ≠ some '\\' := by
      have he := h _ List.mem_cons_self
      simp only [callback, Entry.IsSettled, Event.endsOpen, String.toList_ofList,
        beq_eq_false_iff_ne] at he
      exact he
    have hp : (s.withLater ms).pending = s.pending ++ ms := rfl
    simp only [perform, hp, joinLines_append hv]
    rfl
  | access | nameSpace | classHead | directive | statement | enumHead | closeBrace => rfl
  | linkage block => cases block <;> rfl
  | function _ terminated | constructor _ terminated | destructor _ terminated =>
    cases terminated <;> rfl
  | openBrace => exact openBrace_withLater

theorem readEnum_withLater (h : (s.readEnum line).2.tally.discarded = s.tally.discarded) :
    (s.withLater ms).readEnum line = ((s.readEnum line).1, (s.readEnum line).2.withLater ms) := by
  have hf : (gatherEnum 0 line.text s.pending).found ≠ .outOfLines := by
    intro hf
    simp only [readEnum, hf] at h
    exact absurd h (Nat.succ_ne_self _)
  have hp : (s.withLater ms).pending = s.pending ++ ms := rfl
  unfold readEnum
  simp only [hp, gatherEnum_append hf, requeue_append]
  split <;> rfl

theorem unmatched_withLater (h : (s.unmatched line).2.tally.discarded = s.tally.discarded) :
    (s.withLater ms).unmatched line =
      ((s.unmatched line).1, (s.unmatched line).2.withLater ms) := by
  have hp : (s.withLater ms).pending = s.pending ++ ms := rfl
  unfold unmatched at h ⊢
  rw [hp]
  cases hq : s.pending with
  | nil =>
    rw [hq] at h
    exact absurd h (Nat.succ_ne_self _)
  | cons next later => rfl

theorem putBack_withLater (number : Nat) (rest : List Char) :
    (s.withLater ms).putBack number rest =
      ((s.putBack number rest).1, (s.putBack number rest).2.withLater ms) := by
  have hp : (s.withLater ms).pending = s.pending ++ ms := rfl
  unfold putBack
  simp only [hp, requeue_append]
  rfl

/-! ## Steps -/

theorem act_withLater {rest : List Char} {k : Construct} (h : s.act line rest k = (es, .ok t))
    (hd : t.tally.discarded = s.tally.discarded) (he : ∀ e ∈ es, e.IsSettled) :
    (s.withLater ms).act line rest k = (es, .ok (t.withLater ms)) := by
  unfold act at h ⊢
  split at h
  · simp only [Prod.mk.injEq, Except.ok.injEq] at h
    obtain ⟨rfl, rfl⟩ := h
    simp only [readEnum_withLater hd]
  · split at h
    · cases h
    · next u hc =>
      simp only [Prod.mk.injEq, Except.ok.injEq] at h
      obtain ⟨rfl, rfl⟩ := h
      simp only [closeBrace_withLater hc, putBack_withLater]
  · simp only [Prod.mk.injEq, Except.ok.injEq] at h
    obtain ⟨rfl, rfl⟩ := h
    simp only [perform_withLater fun e hm => he e (List.mem_append_left _ hm), putBack_withLater]

theorem dispatch_withLater (h : s.dispatch line = (es, .ok t))
    (hd : t.tally.discarded = s.tally.discarded) (he : ∀ e ∈ es, e.IsSettled) :
    (s.withLater ms).dispatch line = (es, .ok (t.withLater ms)) := by
  have hc : (s.withLater ms).countDispatched = s.countDispatched.withLater ms := rfl
  have hf : (s.withLater ms).found? line = s.found? line := rfl
  rcases dispatch_cases h with ⟨hm, hu⟩ | ⟨rule, k, rest, fs, hm, rfl, ha⟩
  · have hd' : (s.countDispatched.unmatched line).2.tally.discarded =
        s.countDispatched.tally.discarded := by rw [hu]; exact hd
    rw [dispatch_of_not_found? (hf.trans hm), hc, unmatched_withLater hd', hu]
  · rw [dispatch_of_found? (hf.trans hm), hc,
      act_withLater ha hd fun e hm => he e (List.mem_cons_of_mem _ hm)]

theorem enter_withLater (line : SourceLine) :
    (s.withLater ms).enter line = ((s.enter line).1, (s.enter line).2.withLater ms) := by
  have hg : (s.withLater ms).group = s.group := rfl
  unfold enter
  rw [hg]
  split <;> rfl

/-- A step that gives nothing up and leaves no macro open is the same before further lines. -/
theorem step_withLater {later : List SourceLine} (h : s.step line later = (es, .ok t))
    (hd : t.tally.discarded = s.tally.discarded) (he : ∀ e ∈ es, e.IsSettled) :
    (s.withLater ms).step line (later ++ ms) = (es, .ok (t.withLater ms)) := by
  unfold step at h ⊢
  simp only [Prod.mk.injEq] at h
  obtain ⟨rfl, ht⟩ := h
  have hs : { s.withLater ms with pending := later ++ ms } =
      ({ s with pending := later }).withLater ms := rfl
  have hu := (enter_fields line { s with pending := later }).2.2
  have hd' : (({ s with pending := later }.enter line).2.withLater ms).dispatch line = _ :=
    dispatch_withLater (Prod.ext rfl ht) (by rw [hu]; exact hd)
      fun e hm => he e (List.mem_append_right _ hm)
  simp only [hs, enter_withLater, hd']

/-! ## Courses -/

theorem discarded_le_of_reads (h : Reads s es t) : s.tally.discarded ≤ t.tally.discarded := by
  rcases discarded_of_reads h with h | ⟨h, -⟩ <;> omega

/-- A course that gives nothing up and leaves no macro open is the same before further lines. -/
theorem reads_withLater (h : Reads s es t) (hd : t.tally.discarded = s.tally.discarded)
    (he : ∀ e ∈ es, e.IsSettled) : Reads (s.withLater ms) es (t.withLater ms) := by
  induction h with
  | refl => exact .refl _
  | @next s u t line later es fs hp hs hr ih =>
    have h1 := discarded_le_of_reads (.one hp hs)
    have h2 := discarded_le_of_reads hr
    refine .next (by rw [withLater, hp]; rfl) (step_withLater hs (by omega) fun e hm => ?_)
      (ih (by omega) fun e hm => ?_)
    · exact he e (List.mem_append_left _ hm)
    · exact he e (List.mem_append_right _ hm)

end State

end HeaderOutline
