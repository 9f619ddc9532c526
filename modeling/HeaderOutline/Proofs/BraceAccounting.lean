import HeaderOutline.Proofs.Effects
import Mathlib.Data.Finset.Card
import Mathlib.Data.Finset.Image
/-!
# Accounts of the braces

Every match is noted with its rule, so the notes of a reading tell how many braces it has matched.
The opened frames are the opening braces less the closing ones, whatever heads lie between them, and
a closing brace fails just when there is none.

The other frames are heads whose brace never came. A head stands at a level of the stack, and the
way from its push to the end of the reading takes one of three turns: a brace opens the head at its
level (`HeadWaits`), a closing brace takes it away unopened (`Drops`), or the level stands unopened
to the end (`Stays`). The heads of the last kind are as many as the unopened frames of the last
stack: this is shown from the end of the course backwards, by counting the levels that stay
unopened from a state on (`unopened_of_reads`).

Results:
* `countP_isOpened_of_reads`, `step_error_iff`: the opened frames, and the closing braces that fail.
* `stays_iff`: what becomes of a head.
* `braces_accounted`: the accounts of whole headers.
-/
namespace HeaderOutline

def Entry.rule? : Entry → Option Rule
  | .note (.matched _ rule) => some rule
  | _ => none

def matchedRules (es : List Entry) : List Rule :=
  es.filterMap Entry.rule?

theorem matchedRules_append (es fs : List Entry) :
    matchedRules (es ++ fs) = matchedRules es ++ matchedRules fs :=
  List.filterMap_append

theorem matchedRules_eq_nil {es : List Entry} (h : ∀ e ∈ es, e.rule? = none) :
    matchedRules es = [] :=
  List.filterMap_eq_nil_iff.mpr h

namespace State

variable {s t u v w : State} {line : SourceLine} {later : List SourceLine} {es fs : List Entry}
  {n : Nat}

/-! ## Matches and their notes -/

theorem matchedRules_callbacks (events : List Event) (s : State) :
    matchedRules (events.map s.callback) = [] := by
  refine matchedRules_eq_nil fun e he => ?_
  obtain ⟨_, -, rfl⟩ := List.mem_map.mp he
  rfl

theorem matchedRules_enter (line : SourceLine) (s : State) :
    matchedRules (s.enter line).1 = [] := by
  unfold enter
  split
  · rfl
  · simp only
    split <;> rfl

theorem matchedRules_perform (k : Construct) (s : State) : matchedRules (s.perform k).1 = [] := by
  cases k with
  | openBrace =>
    show matchedRules s.openBrace.1 = []
    unfold openBrace
    split
    · rfl
    · split
      · rfl
      · exact matchedRules_callbacks _ _
  | function _ terminated | constructor _ terminated | destructor _ terminated =>
    cases terminated <;> rfl
  | _ => rfl

theorem matchedRules_putBack (number : Nat) (rest : List Char) (s : State) :
    matchedRules (s.putBack number rest).1 = [] := by
  unfold putBack
  simp only
  split <;> rfl

theorem matchedRules_closeBrace (number : Nat) (s : State) :
    matchedRules (s.closeBrace number).1 = [] := by
  have hdropped : matchedRules ((s.scopes.takeWhile (!·.isOpened)).map fun f =>
      Entry.note (.dropped number f.kind)) = [] := by
    refine matchedRules_eq_nil fun e he => ?_
    obtain ⟨_, -, rfl⟩ := List.mem_map.mp he
    rfl
  unfold closeBrace
  simp only
  split
  · exact hdropped
  · rw [matchedRules_append, hdropped, matchedRules_callbacks, List.append_nil]

theorem matchedRules_act (line : SourceLine) (rest : List Char) (k : Construct) (s : State) :
    matchedRules (s.act line rest k).1 = [] := by
  unfold act
  split
  · unfold readEnum
    simp only
    split <;> rfl
  · have hclose := matchedRules_closeBrace line.number s
    split
    · next hc => rwa [hc] at hclose
    · next hc =>
      rw [hc] at hclose
      rw [matchedRules_append, hclose, matchedRules_putBack, List.append_nil]
  · rw [matchedRules_append, matchedRules_perform, matchedRules_putBack, List.append_nil]

/-- A step notes its match, also when it fails. -/
theorem matchedRules_step {r : Except UnbalancedBrace State} (h : s.step line later = (es, r)) :
    matchedRules es = ((s.found? line).map (·.1)).toList := by
  simp only [step, Prod.mk.injEq] at h
  obtain ⟨rfl, -⟩ := h
  have hf := found?_enter later line s
  rw [matchedRules_append, matchedRules_enter, List.nil_append, ← hf]
  generalize ({ s with pending := later }.enter line).2 = v
  cases hm : v.found? line with
  | none =>
    rw [dispatch_of_not_found? hm]
    unfold unmatched
    split <;> rfl
  | some found =>
    obtain ⟨rule, k, rest⟩ := found
    rw [dispatch_of_found? hm]
    show rule :: matchedRules (v.countDispatched.act line rest k).1 = [rule]
    rw [matchedRules_act]

theorem matchedRules_close (s : State) : matchedRules s.close = [] := by
  unfold close
  simp only
  split <;> split <;> rfl

/-! ## The opened frames -/

/-- The opened frames are the opening braces less the closing ones. -/
theorem countP_isOpened_step (h : s.step line later = (es, .ok t)) :
    t.scopes.countP Frame.isOpened + (matchedRules es).count .closeBrace =
      s.scopes.countP Frame.isOpened + (matchedRules es).count .openBrace := by
  have hcount := openCount_step h
  rw [matchedRules_step h]
  cases hf : s.found? line with
  | none =>
    have hseen : seen [s.piece line later] = [] := by simp [piece, hf, seen]
    rw [hseen, openCount, openCount, Brace.net_nil] at hcount
    simp only [Option.map_none, Option.toList_none, List.count_nil]
    omega
  | some found =>
    obtain ⟨rule, k, rest⟩ := found
    have hseen : seen [s.piece line later] = rule.braces := by simp [piece, hf, seen]
    have hbraces : Brace.net rule.braces =
        ([rule].count .openBrace : Nat) - ([rule].count .closeBrace : Nat) := by
      cases rule <;> rfl
    rw [hseen, hbraces, openCount, openCount] at hcount
    simp only [Option.map_some, Option.toList_some]
    omega

theorem countP_isOpened_of_reads (h : Reads s es t) :
    t.scopes.countP Frame.isOpened + (matchedRules es).count .closeBrace =
      s.scopes.countP Frame.isOpened + (matchedRules es).count .openBrace := by
  induction h with
  | refl => rfl
  | next _ hs _ ih =>
    have hstep := countP_isOpened_step hs
    rw [matchedRules_append, List.count_append, List.count_append]
    omega

/-- A closing brace fails just when no frame is opened. -/
theorem step_error_iff {k : Construct} {rest : List Char}
    (hm : s.found? line = some (.closeBrace, k, rest)) :
    (∃ e, (s.step line later).2 = .error e) ↔ s.scopes.countP Frame.isOpened = 0 := by
  constructor
  · rintro ⟨e, he⟩
    have hs : s.step line later = ((s.step line later).1, .error e) := Prod.ext rfl he
    have hnone := (step_error hs).2.2
    exact List.countP_eq_zero.mpr fun f hf => by simp [hnone f hf]
  · intro hzero
    rcases hs : s.step line later with ⟨es, e | t⟩
    · exact ⟨e, rfl⟩
    · have hstep := countP_isOpened_step hs
      rw [matchedRules_step hs, hm, hzero] at hstep
      exact absurd hstep (by simp)

theorem found?_of_step_error {e : UnbalancedBrace} (h : s.step line later = (es, .error e)) :
    ∃ k rest, s.found? line = some (.closeBrace, k, rest) := by
  obtain ⟨rule, rest, hm, -⟩ := piece_error h
  have hb := Rule.braces_of_recognize? (Rule.recognize?_of_match? hm).2
  obtain rfl : rule = .closeBrace := by
    cases rule <;> first | rfl | cases hb
  exact ⟨_, rest, hm⟩

/-! ## What becomes of a head -/

/-- The next dispatch pushes a head: a namespace, a class, a linkage block, or the definition of a
function, a constructor or a destructor. -/
structure PushesHead (s t : State) : Prop where
  next : s.next? = some t
  head : ∃ f, s.matched?.bind Construct.head? = some f

/-- The way from a head on top of the scopes to the closing brace that takes it away unopened. -/
structure Drops (s : State) (ks : List Construct) (u : State) : Prop where
  waits : Waits s.scopes.length s ks u
  unopened : ¬ OpenedAt s.scopes.length u.scopes
  closes : u.matched? = some .closeBrace
  taken : ∃ t, u.next? = some t ∧ t.scopes.length < s.scopes.length

/-- The frame at the level `n` stands to the end, and it is not opened there. -/
def Stays (n : Nat) (s u : State) : Prop :=
  (∃ ks, Waits n s ks u) ∧ ¬ OpenedAt n u.scopes

def after? : Nat → State → Option State
  | 0, s => some s
  | i + 1, s => s.next?.bind (after? i)

/-- The head that the dispatch number `i` pushes is neither opened nor taken away by a closing
brace. -/
def LeftHead (s : State) (i : Nat) : Prop :=
  ∃ t u, s.after? i = some t ∧ t.PushesHead u ∧ (¬ ∃ ks v, HeadWaits u ks v) ∧
    ¬ ∃ ks v, Drops u ks v

theorem next?_of_pending_nil (h : s.pending = []) : s.next? = none := by
  simp [next?, h]

theorem PushesHead.exists_scopes (h : PushesHead s t) :
    ∃ f, t.scopes = f :: s.scopes ∧ f.isOpened = false := by
  obtain ⟨f, hf⟩ := h.head
  obtain ⟨k, -, hk⟩ := Option.bind_eq_some_iff.mp hf
  exact ⟨f, (effect_of_next h.next).eq_cons_of_head? hf, Construct.isOpened_of_head? hk⟩

theorem PushesHead.not_openedAt (h : PushesHead s t) : ¬ OpenedAt t.scopes.length t.scopes := by
  rintro ⟨g, gs, hsuffix, hlength, hg⟩
  obtain ⟨f, ht, hf⟩ := h.exists_scopes
  have heq := (hsuffix.eq_of_length hlength).trans ht
  rw [(List.cons.inj heq).1, hf] at hg
  cases hg

/-- Two ways of one course: the longer one goes on from the end of the shorter one. -/
theorem Waits.rest {ks ms : List Construct} (h : Waits n s ks w) (h' : Waits n s ms u)
    (hu : u.next? = none) : ∃ js, Waits n w js u := by
  induction h generalizing ms with
  | refl => exact ⟨ms, h'⟩
  | next _ _ _ hnext _ ih =>
    cases h' with
    | refl => rw [hu] at hnext; cases hnext
    | next _ _ _ hnext' hw =>
      obtain rfl := Option.some.inj (hnext.symm.trans hnext')
      exact ih hw

/-- A way that does not end here goes through the next state. -/
theorem Waits.tail {ks : List Construct} (h : Waits n s ks u) (hnext : s.next? = some t)
    (hu : u.next? = none) : ∃ ms, Waits n t ms u := by
  cases h with
  | refl => rw [hu] at hnext; cases hnext
  | next _ _ _ hnext' hw =>
    obtain rfl := Option.some.inj (hnext.symm.trans hnext')
    exact ⟨_, hw⟩

theorem Waits.cons {ks : List Construct} (hn : n ≤ s.scopes.length) (hnext : s.next? = some t)
    (h : Waits n t ks u) : ∃ ms, Waits n s ms u := by
  obtain ⟨line, later, es, hp, -⟩ := exists_step_of_next? hnext
  exact ⟨_, .next hn hp rfl hnext h⟩

/-- An unopened frame stays so to the end, or a brace opens it, or a closing brace takes it away. -/
theorem fates (h : Reads s es u) (hn : n ≤ s.scopes.length) (ho : ¬ OpenedAt n s.scopes) :
    Stays n s u ∨ (∃ ks w, Waits n s ks w ∧ w.scopes.length = n ∧ w.Opens) ∨
      ∃ ks w t, Waits n s ks w ∧ ¬ OpenedAt n w.scopes ∧ w.matched? = some .closeBrace ∧
        w.next? = some t ∧ t.scopes.length < n := by
  induction h with
  | refl => exact .inl ⟨⟨[], .refl hn⟩, ho⟩
  | @next s t u line later es fs hp hs _ ih =>
    have hnext := next?_of_step hp hs
    have heffect := effect_of_next hnext
    by_cases hnt : n ≤ t.scopes.length
    · by_cases hot : OpenedAt n t.scopes
      · obtain ho' | ⟨f, below, htop, hlength, hf, ht⟩ := heffect.openedAt hn hot
        · exact absurd ho' ho
        · exact .inr (.inl ⟨[], s, .refl hn, hlength, t, f, below, hnext, htop, hf, ht⟩)
      · rcases ih hnt hot with ⟨⟨ks, hw⟩, hu⟩ | ⟨ks, w, hw, hrest⟩ | ⟨ks, w, x, hw, hrest⟩
        · exact .inl ⟨hw.cons hn hnext, hu⟩
        · obtain ⟨ms, hw⟩ := hw.cons hn hnext
          exact .inr (.inl ⟨ms, w, hw, hrest⟩)
        · obtain ⟨ms, hw⟩ := hw.cons hn hnext
          exact .inr (.inr ⟨ms, w, x, hw, hrest⟩)
    · exact .inr (.inr ⟨[], s, t, .refl hn, ho, heffect.eq_closeBrace (by omega), hnext, by omega⟩)

/-- A head that has been pushed stays unopened to the end exactly when no brace opens it and no
closing brace takes it away. -/
theorem stays_iff (hpush : PushesHead s t) (h : Reads t es u) (hu : u.next? = none) :
    Stays t.scopes.length t u ↔
      (¬ ∃ ks w, HeadWaits t ks w) ∧ ¬ ∃ ks w, Drops t ks w := by
  constructor
  · rintro ⟨⟨ks, hw⟩, ho⟩
    refine ⟨?_, ?_⟩
    · -- The frame would be opened to the end.
      rintro ⟨ms, w, hwaits⟩
      obtain ⟨js, hrest⟩ := hwaits.waits.rest hw hu
      obtain ⟨x, f, below, hnext, htop, -, hx⟩ := hwaits.opens
      obtain ⟨is, hrest⟩ := hrest.tail hnext hu
      have hlevel := hwaits.level
      rw [htop, List.length_cons] at hlevel
      exact ho (hrest.openedAt ⟨f.opening, below, hx ▸ List.suffix_refl _, hlevel,
        f.isOpened_opening⟩)
    · -- The level would not be kept.
      rintro ⟨ms, w, hdrops⟩
      obtain ⟨js, hrest⟩ := hdrops.waits.rest hw hu
      obtain ⟨x, hnext, hlt⟩ := hdrops.taken
      obtain ⟨is, hrest⟩ := hrest.tail hnext hu
      have hle := hrest.le_length
      omega
  · rintro ⟨hopens, hdrops⟩
    rcases fates h (Nat.le_refl _) hpush.not_openedAt with hstays | ⟨ks, w, hw, hlevel, ho⟩ |
      ⟨ks, w, x, hw, ho, hclose, hnext, hlt⟩
    · exact hstays
    · obtain ⟨f, ht, hf⟩ := hpush.exists_scopes
      refine absurd ⟨ks, w, ?_, hw, hlevel, ho⟩ hopens
      rw [ht]
      rintro g hg
      cases hg
      exact hf
    · exact absurd ⟨ks, w, hw, ho, hclose, x, hnext, hlt⟩ hdrops

/-! ## Counting the heads that are left -/

theorem openedAt_cons_iff {f : Frame} {fs : ScopeStack} (hn : n ≤ fs.length) :
    OpenedAt n (f :: fs) ↔ OpenedAt n fs := by
  constructor
  · rintro ⟨g, gs, hsuffix, hlength, hg⟩
    exact ⟨g, gs, suffix_tail hsuffix (by simp only [List.length_cons]; omega), hlength, hg⟩
  · rintro ⟨g, gs, hsuffix, hlength, hg⟩
    exact ⟨g, gs, hsuffix.trans (List.suffix_cons ..), hlength, hg⟩

theorem openedAt_top_iff {f : Frame} {fs : ScopeStack} :
    OpenedAt (fs.length + 1) (f :: fs) ↔ f.isOpened = true := by
  constructor
  · rintro ⟨g, gs, hsuffix, hlength, hg⟩
    have heq := hsuffix.eq_of_length (by simpa using hlength)
    exact (List.cons.inj heq).1 ▸ hg
  · intro hf
    exact ⟨f, fs, List.suffix_refl _, rfl, hf⟩

/-- The levels of the unopened frames are as many as these frames. -/
theorem exists_levels (fs : ScopeStack) : ∃ levels : Finset Nat,
    (∀ n, n ∈ levels ↔ n < fs.length ∧ ¬ OpenedAt (n + 1) fs) ∧
      fs.countP (!·.isOpened) = levels.card := by
  induction fs with
  | nil => exact ⟨∅, by simp, rfl⟩
  | cons f fs ih =>
    obtain ⟨levels, hmem, hcard⟩ := ih
    have hcases : ∀ n, n < (f :: fs).length ∧ ¬ OpenedAt (n + 1) (f :: fs) ↔
        n ∈ levels ∨ n = fs.length ∧ f.isOpened = false := by
      intro n
      rw [hmem, List.length_cons, Nat.lt_succ_iff_lt_or_eq, or_and_right]
      refine or_congr (and_congr_right fun hn => ?_) (and_congr_right fun hn => ?_)
      · rw [openedAt_cons_iff hn]
      · rw [hn, openedAt_top_iff, Bool.not_eq_true]
    cases hf : f.isOpened with
    | true =>
      refine ⟨levels, fun n => ?_, by simp [hf, hcard]⟩
      rw [hcases, hf]
      simp
    | false =>
      have hnot : fs.length ∉ levels := fun hin => Nat.lt_irrefl _ ((hmem _).mp hin).1
      refine ⟨insert fs.length levels, fun n => ?_, ?_⟩
      · rw [hcases, hf, Finset.mem_insert]
        simp [or_comm]
      · rw [Finset.card_insert_of_notMem hnot, ← hcard]
        simp [hf]

/-- A level below the top stays unopened from a state on if it does so from the next. -/
theorem stays_step (hnext : s.next? = some t) (hn : n ≤ s.scopes.length) (hu : u.next? = none) :
    Stays n s u ↔ Stays n t u := by
  constructor
  · rintro ⟨⟨ks, hw⟩, ho⟩
    exact ⟨hw.tail hnext hu, ho⟩
  · rintro ⟨⟨ks, hw⟩, ho⟩
    exact ⟨hw.cons hn hnext, ho⟩

theorem leftHead_succ (hnext : s.next? = some t) (i : Nat) :
    s.LeftHead (i + 1) ↔ t.LeftHead i := by
  simp [LeftHead, after?, hnext]

/-- The first dispatch leaves a head exactly if the level above the scopes stays unopened. -/
theorem leftHead_zero (hnext : s.next? = some t) (h : Reads t es u) (hu : u.next? = none) :
    s.LeftHead 0 ↔ Stays (s.scopes.length + 1) t u := by
  constructor
  · rintro ⟨_, v, heq, hpush, hfate⟩
    obtain rfl := Option.some.inj heq
    obtain rfl := Option.some.inj (hnext.symm.trans hpush.next)
    obtain ⟨f, ht, -⟩ := hpush.exists_scopes
    have hstays := (stays_iff hpush h hu).mpr hfate
    rwa [ht, List.length_cons] at hstays
  · rintro ⟨⟨ks, hw⟩, ho⟩
    have hpush : PushesHead s t := by
      refine ⟨hnext, ?_⟩
      rcases (effect_of_next hnext).pushed hw.le_length with ⟨f, hf, -⟩ | hskip
      · exact ⟨f, hf⟩
      · -- A skipped brace is opened from the start.
        exact absurd (hw.openedAt ⟨.skip, s.scopes, hskip ▸ List.suffix_refl _, rfl, rfl⟩) ho
    obtain ⟨f, ht, -⟩ := hpush.exists_scopes
    refine ⟨s, t, rfl, hpush, (stays_iff hpush h hu).mp ?_⟩
    rw [ht]
    exact ⟨⟨ks, hw⟩, ho⟩

/-- The unopened frames at the end are those that were there before and stay unopened, and the heads
that are left. -/
theorem unopened_of_reads (h : Reads s es u) (hu : u.pending = []) :
    ∃ levels left : Finset Nat, (∀ n, n ∈ levels ↔ Stays (n + 1) s u) ∧
      (∀ i, i ∈ left ↔ s.LeftHead i) ∧
      u.scopes.countP (!·.isOpened) = levels.card + left.card := by
  have hend := next?_of_pending_nil hu
  induction h with
  | refl s =>
    obtain ⟨levels, hmem, hcard⟩ := exists_levels s.scopes
    refine ⟨levels, ∅, fun n => ?_, fun i => ?_, hcard⟩
    · rw [hmem]
      refine ⟨fun ⟨hn, ho⟩ => ⟨⟨[], .refl hn⟩, ho⟩, fun ⟨⟨ks, hw⟩, ho⟩ => ⟨hw.le_length, ho⟩⟩
    · -- No dispatch is left.
      simp only [Finset.notMem_empty, false_iff]
      rintro ⟨t, v, ht, hpush, -⟩
      cases i with
      | zero =>
        obtain rfl := Option.some.inj ht
        cases hend.symm.trans hpush.next
      | succ i => simp [after?, hend] at ht
  | @next s t u line later es fs hp hs hr ih =>
    obtain ⟨levels, left, hlevels, hleft, hcount⟩ := ih hu hend
    have hnext := next?_of_step hp hs
    -- The level above the scopes is not one of those before.
    have hmem : ∀ n, n ∈ levels.erase s.scopes.length ↔ Stays (n + 1) s u := by
      intro n
      rw [Finset.mem_erase, hlevels]
      constructor
      · rintro ⟨hne, hstays⟩
        obtain ⟨ks, hw⟩ := hstays.1
        have hle := hw.le_length
        have hgrows := (effect_of_next hnext).length_le
        exact (stays_step hnext (by omega) hend).mpr hstays
      · intro hstays
        obtain ⟨ks, hw⟩ := hstays.1
        have hle := hw.le_length
        exact ⟨by omega, (stays_step hnext hle hend).mp hstays⟩
    have hshift : ∀ i, i + 1 ∈ left.image (· + 1) ↔ s.LeftHead (i + 1) := by
      intro i
      rw [leftHead_succ hnext, ← hleft]
      simp
    have hfirst : 0 ∉ left.image (· + 1) := by simp
    have hzero := leftHead_zero hnext hr hend
    rw [← hlevels] at hzero
    by_cases hin : s.scopes.length ∈ levels
    · refine ⟨_, insert 0 (left.image (· + 1)), hmem, fun i => ?_, ?_⟩
      · cases i with
        | zero => simpa [hzero] using hin
        | succ i => simpa using hshift i
      · have hcard := Finset.card_erase_add_one hin
        rw [Finset.card_insert_of_notMem hfirst,
          Finset.card_image_of_injective _ Nat.succ_injective, hcount]
        omega
    · refine ⟨_, left.image (· + 1), hmem, fun i => ?_, ?_⟩
      · cases i with
        | zero => simpa [hzero] using hin
        | succ i => exact hshift i
      · rw [Finset.erase_eq_of_notMem hin, Finset.card_image_of_injective _ Nat.succ_injective,
          hcount]

end State

/-! ## Whole headers -/

open State

/-- When a header is read to its end, the scopes left are the opening braces less the closing ones,
and the heads that are left. -/
theorem exists_leftHeads_of_result {source : String} {f : Finished}
    (hf : (parse source).result = .ok f) :
    ∃ left : Finset Nat, (∀ i, i ∈ left ↔ (startOf source).LeftHead i) ∧
      f.summary.unclosedScopes + (matchedRules (parse source).entries).count .closeBrace =
        (matchedRules (parse source).entries).count .openBrace + left.card := by
  obtain ⟨es, t, hr, ht | ⟨line, later, fs, e, hp, hs⟩⟩ := exists_reads (startOf source)
  · obtain ⟨hentries, hresult⟩ := parse_of_reads hr ht
    have hrules : matchedRules (parse source).entries = matchedRules es := by
      rw [hentries, matchedRules_append]
      show matchedRules (es ++ t.close) ++ [] = _
      rw [matchedRules_append, matchedRules_close, List.append_nil, List.append_nil]
    rw [hresult] at hf
    cases hf
    obtain ⟨levels, left, hlevels, hleft, hcount⟩ := unopened_of_reads hr ht
    refine ⟨left, hleft, ?_⟩
    have hnone : levels = ∅ := Finset.eq_empty_of_forall_notMem fun n hn => by
      obtain ⟨⟨ks, hw⟩, -⟩ := (hlevels n).mp hn
      exact absurd hw.le_length (Nat.not_succ_le_zero n)
    have hopened := countP_isOpened_of_reads hr
    have hlength := List.length_eq_countP_add_countP Frame.isOpened (l := t.scopes)
    rw [hnone, Finset.card_empty, Nat.zero_add] at hcount
    rw [show (startOf source).scopes.countP Frame.isOpened = 0 from rfl, Nat.zero_add] at hopened
    have hsplit : t.scopes.countP (fun f => ¬ f.isOpened) = left.card := by
      rw [← hcount]
      exact List.countP_congr fun f _ => by simp
    rw [hrules]
    show t.scopes.length + _ = _
    omega
  · rw [(parse_of_reads_error hr hp hs).2] at hf
    cases hf

/-- After every fragment the opened frames are the opening braces that have been matched less the
closing ones. A closing brace fails exactly when no frame is opened, whatever heads lie on the
stack; nothing else fails, and the error carries the number of the fragment. When a header is read
to its end, the scopes left are this difference and the heads that no brace has opened and no
closing brace has taken away. -/
theorem braces_accounted (source : String) :
    (∀ es s, Reads (startOf source) es s →
      s.scopes.countP Frame.isOpened + (matchedRules es).count .closeBrace =
        (matchedRules es).count .openBrace ∧
      ∀ line later, s.pending = line :: later →
        (∀ k rest, s.found? line = some (.closeBrace, k, rest) →
          ((∃ e, (s.step line later).2 = .error e) ↔ s.scopes.countP Frame.isOpened = 0)) ∧
        ∀ e, (s.step line later).2 = .error e →
          (∃ k rest, s.found? line = some (.closeBrace, k, rest)) ∧ e = ⟨line.number⟩ ∧
            (parse source).result = .error e) ∧
    ∀ f, (parse source).result = .ok f →
      ∃ left : Finset Nat, (∀ i, i ∈ left ↔ (startOf source).LeftHead i) ∧
        f.summary.unclosedScopes + (matchedRules (parse source).entries).count .closeBrace =
          (matchedRules (parse source).entries).count .openBrace + left.card := by
  refine ⟨fun es s hr => ⟨?_, fun line later hp => ⟨fun k rest hm => step_error_iff hm,
    fun e he => ?_⟩⟩, fun f hf => exists_leftHeads_of_result hf⟩
  · have hcount := countP_isOpened_of_reads hr
    rwa [show (startOf source).scopes.countP Frame.isOpened = 0 from rfl, Nat.zero_add] at hcount
  · have hs : s.step line later = ((s.step line later).1, .error e) := Prod.ext rfl he
    exact ⟨found?_of_step_error hs, (step_error hs).2.1, (parse_of_reads_error hr hp hs).2⟩

end HeaderOutline
