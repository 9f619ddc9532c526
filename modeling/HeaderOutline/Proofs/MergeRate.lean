import HeaderOutline.Proofs.LineAccounting
import HeaderOutline.Proofs.SessionHistory
import Mathlib.Algebra.BigOperators.Group.List.Basic
/-!
# Joined lines for each dispatch

The merge rate divides the lines that were joined by the fragments that were dispatched. It is meant
to be a fraction: a fragment that no rule matches is joined with one line and comes back as another
fragment, and nothing that a macro takes along is counted. But an enum takes along all the lines
that its body needs, and it does so within the one dispatch of its head. So a header that is little
more than an enum with a line for each member has more joined lines than dispatches, and the rate is
greater than one.

What enums take along beyond a first line has to be made up for by dispatches that take none.

Results:
* `Dispatch.merges_le_one`: nothing but an enum takes more than one line along.
* `counts_of_reads`: a course counts its dispatches and the lines that they take along.
* `merges_add_spare`: what the lines and the dispatches differ by.
* `lineMerges_le_iff`: when there are no more joined lines than dispatches over a whole session.
-/
namespace HeaderOutline
open Text

/-- A fragment that is dispatched: the state that it is dispatched in, and the lines that are
pending behind it. -/
structure Dispatch where
  state : State
  line : SourceLine
  later : List SourceLine

namespace Dispatch

/-- How many lines are joined to the fragment and counted. -/
def merges (d : Dispatch) : Nat :=
  (d.state.joinedTo false d.line d.later).length

def isEnum (d : Dispatch) : Bool :=
  match d.state.found? d.line with
  | some (_, .enumHead, _) => true
  | _ => false

/-- Nothing but an enum takes more than one line along. -/
theorem merges_le_one {d : Dispatch} (h : d.isEnum = false) : d.merges ≤ 1 := by
  unfold isEnum at h
  unfold merges State.joinedTo State.definesMacro State.joined
  rcases hf : d.state.found? d.line with - | ⟨rule, k, rest⟩
  · simp
  · rw [hf] at h
    cases k with
    | enumHead => cases h
    | _ => simp

end Dispatch

namespace State

variable {s t : State} {line : SourceLine} {later : List SourceLine} {es : List Entry}

/-- The dispatches of a reading from here on, in order. -/
def dispatches (s : State) : List Dispatch :=
  match _hs : s.pending with
  | [] => []
  | line :: later =>
    match _h : s.step line later with
    | (_, .error _) => [⟨s, line, later⟩]
    | (_, .ok next) => ⟨s, line, later⟩ :: dispatches next
termination_by weight s.pending
decreasing_by
  rw [_hs]
  exact weight_step (by rw [_h])

theorem dispatches_of_pending_nil (h : s.pending = []) : s.dispatches = [] := by
  rw [dispatches]
  split
  · rfl
  · next h' => rw [h] at h'; cases h'

theorem dispatches_of_step (hp : s.pending = line :: later)
    (hs : s.step line later = (es, .ok t)) :
    s.dispatches = ⟨s, line, later⟩ :: t.dispatches := by
  rw [dispatches]
  split
  · next h' => rw [hp] at h'; cases h'
  · next h' =>
    rw [hp] at h'
    cases h'
    split
    · next h' => rw [hs] at h'; cases h'
    · next h' => rw [hs] at h'; cases h'; rfl

end State

/-! ## Lines and dispatches -/

def mergesOf (ds : List Dispatch) : Nat :=
  (ds.map Dispatch.merges).sum

/-- The lines that the enums among some dispatches take along, beyond the first one of each. -/
def surplus (ds : List Dispatch) : Nat :=
  ((ds.filter Dispatch.isEnum).map (·.merges - 1)).sum

def spare (ds : List Dispatch) : Nat :=
  ds.countP (·.merges == 0)

@[simp] theorem mergesOf_append (ds ds' : List Dispatch) :
    mergesOf (ds ++ ds') = mergesOf ds + mergesOf ds' := by
  rw [mergesOf, List.map_append, List.sum_append]
  rfl

/-- A dispatch takes one line along, but for what enums take beyond it and for those that take
none. -/
theorem merges_add_spare (ds : List Dispatch) :
    mergesOf ds + spare ds = ds.length + surplus ds := by
  induction ds with
  | nil => rfl
  | cons d ds ih =>
    simp only [mergesOf, spare, surplus, List.map_cons, List.sum_cons, List.countP_cons,
      List.filter_cons, List.length_cons, beq_iff_eq] at ih ⊢
    cases hd : d.isEnum with
    | false =>
      have hle := d.merges_le_one hd
      simp only [Bool.false_eq_true, if_false]
      split <;> omega
    | true =>
      simp only [if_true, List.map_cons, List.sum_cons]
      split <;> omega

theorem merges_le_length_iff (ds : List Dispatch) :
    mergesOf ds ≤ ds.length ↔ surplus ds ≤ spare ds := by
  have h := merges_add_spare ds
  omega

/-- Enums that take one line along at most take none beyond the first. -/
theorem surplus_eq_zero {ds : List Dispatch} (h : ∀ d ∈ ds, d.isEnum = true → d.merges ≤ 1) :
    surplus ds = 0 := by
  refine List.sum_eq_zero fun n hn => ?_
  obtain ⟨d, hd, rfl⟩ := List.mem_map.mp hn
  obtain ⟨hd, he⟩ := List.mem_filter.mp hd
  exact Nat.sub_eq_zero_of_le (h d hd he)

/-! ## Whole headers -/

open State

/-- What a course has counted and what it still has to dispatch add up to the same everywhere. -/
theorem counts_of_reads {s t : State} {es : List Entry} (h : Reads s es t) :
    t.tally.dispatched + t.dispatches.length = s.tally.dispatched + s.dispatches.length ∧
      t.tally.merges + mergesOf t.dispatches = s.tally.merges + mergesOf s.dispatches := by
  induction h with
  | refl => exact ⟨rfl, rfl⟩
  | @next s t u line later es fs hp hs _ ih =>
    obtain ⟨hd, hm⟩ := ih
    have hstep := (tally_step hs).1
    have hjoin : t.tally.merges = s.tally.merges + Dispatch.merges ⟨s, line, later⟩ :=
      (counts_step hs).2
    have hsum : mergesOf s.dispatches =
        Dispatch.merges ⟨s, line, later⟩ + mergesOf t.dispatches := by
      rw [dispatches_of_step hp hs]
      rfl
    refine ⟨?_, by omega⟩
    rw [dispatches_of_step hp hs, List.length_cons]
    omega

def dispatchesOf (source : String) : List Dispatch :=
  (startOf source).dispatches

theorem counts_of_result {source : String} {f : Finished} (h : (parse source).result = .ok f) :
    f.tally.dispatched = (dispatchesOf source).length ∧
      f.tally.merges = mergesOf (dispatchesOf source) := by
  obtain ⟨es, t, hr, ht, hf, -⟩ := exists_reads_of_result h
  obtain ⟨hd, hm⟩ := counts_of_reads hr
  have h0 : (startOf source).tally = ⟨0, 0, 0, 0⟩ := rfl
  rw [dispatches_of_pending_nil ht, h0] at hd hm
  rw [hf]
  exact ⟨hd.trans (Nat.zero_add _), hm.trans (Nat.zero_add _)⟩

/-- The counts of a header are bounded by the length of its text. -/
theorem counts_le_of_result {source : String} {f : Finished} (h : (parse source).result = .ok f) :
    2 * f.tally.dispatched ≤ 3 * (source.utf8ByteSize + 1) ∧
      2 * f.tally.merges ≤ 3 * (source.utf8ByteSize + 1) := by
  obtain ⟨es, t, hr, ht, hf, -, hread, -⟩ := exists_reads_of_result h
  have hw := SourceLine.weight_ofSource_le source
  have hlen := SourceLine.two_mul_length_le_weight (SourceLine.ofSource source.toList)
  have hd := dispatched_of_reads hr
  have hl := (accounted_of_result h).linesRead
  have h0 : (startOf source).tally.dispatched = 0 := rfl
  have hp : (startOf source).pending = SourceLine.ofSource source.toList := rfl
  rw [h0, hp] at hd
  rw [hf] at hl ⊢
  omega

/-! ## Whole sessions -/

namespace Session

/-- The headers that a session has counted after some requests. -/
def counted (rs : List Request) : List String :=
  (readSince rs).filter succeeds

/-- The dispatches of all the headers that a session has counted. -/
def countedDispatches (rs : List Request) : List Dispatch :=
  (counted rs).flatMap dispatchesOf

/-- The headers are short enough for all that is counted to fit in a word of 64 bits. -/
def Short (rs : List Request) : Prop :=
  ((counted rs).map fun source => source.utf8ByteSize + 1).sum < 2 ^ 63

theorem freshCounts_of_succeeds {source : String} (h : succeeds source = true) :
    (freshCounts source).fragmentsDispatched = (dispatchesOf source).length.toUInt64 ∧
      (freshCounts source).lineMerges = (mergesOf (dispatchesOf source)).toUInt64 := by
  obtain ⟨f, hf⟩ := exists_result_of_succeeds h
  obtain ⟨hd, hm⟩ := counts_of_result hf
  rw [freshCounts_of_result hf, ← hd, ← hm]
  exact ⟨rfl, rfl⟩

/-- What some headers count one after the other, in words. -/
theorem sum_freshCounts {sources : List String} (h : ∀ source ∈ sources, succeeds source = true) :
    (sources.map (Metrics.fragmentsDispatched ∘ freshCounts)).sum =
        (sources.flatMap dispatchesOf).length.toUInt64 ∧
      (sources.map (Metrics.lineMerges ∘ freshCounts)).sum =
        (mergesOf (sources.flatMap dispatchesOf)).toUInt64 := by
  induction sources with
  | nil => exact ⟨rfl, rfl⟩
  | cons source sources ih =>
    obtain ⟨hd, hm⟩ := freshCounts_of_succeeds (h source List.mem_cons_self)
    obtain ⟨ihd, ihm⟩ := ih fun x hx => h x (List.mem_cons_of_mem _ hx)
    rw [List.map_cons, List.map_cons, List.sum_cons, List.sum_cons, ihd, ihm, List.flatMap_cons,
      List.length_append, mergesOf_append]
    simp only [Function.comp_apply, hd, hm]
    exact ⟨(UInt64.ofNat_add ..).symm, (UInt64.ofNat_add ..).symm⟩

/-- The joined lines and the dispatches of a session are those of the headers that it has counted,
as far as words hold them. -/
theorem counts_of_session (config : Config) (rs : List Request) :
    ((start config).afterAll rs).metrics.fragmentsDispatched =
        (countedDispatches rs).length.toUInt64 ∧
      ((start config).afterAll rs).metrics.lineMerges =
        (mergesOf (countedDispatches rs)).toUInt64 := by
  have hzero : (start config).metrics = .zero := by unfold start; split <;> rfl
  obtain ⟨hd, hm⟩ := sum_freshCounts fun source (h : source ∈ counted rs) =>
    (List.mem_filter.mp h).2
  constructor
  · rw [metrics_afterAll (f := Metrics.fragmentsDispatched) (by simp [Metrics.counters]), hzero]
    exact (congrArg _ hd).trans (by simp [Metrics.zero, countedDispatches])
  · rw [metrics_afterAll (f := Metrics.lineMerges) (by simp [Metrics.counters]), hzero]
    exact (congrArg _ hm).trans (by simp [Metrics.zero, countedDispatches])

/-- The counts of some headers are bounded by the length of their texts. -/
theorem counts_le_of_succeed {sources : List String}
    (h : ∀ source ∈ sources, succeeds source = true) :
    2 * (sources.flatMap dispatchesOf).length ≤
        3 * (sources.map fun source => source.utf8ByteSize + 1).sum ∧
      2 * mergesOf (sources.flatMap dispatchesOf) ≤
        3 * (sources.map fun source => source.utf8ByteSize + 1).sum := by
  induction sources with
  | nil => exact ⟨Nat.le_refl _, Nat.le_refl _⟩
  | cons source sources ih =>
    obtain ⟨f, hf⟩ := exists_result_of_succeeds (h source List.mem_cons_self)
    obtain ⟨hd, hm⟩ := counts_of_result hf
    obtain ⟨hdle, hmle⟩ := counts_le_of_result hf
    obtain ⟨ihd, ihm⟩ := ih fun x hx => h x (List.mem_cons_of_mem _ hx)
    rw [List.flatMap_cons, List.length_append, mergesOf_append, List.map_cons, List.sum_cons,
      ← hd, ← hm]
    omega

theorem counts_lt_of_short {rs : List Request} (h : Short rs) :
    (countedDispatches rs).length < 2 ^ 64 ∧ mergesOf (countedDispatches rs) < 2 ^ 64 := by
  obtain ⟨hd, hm⟩ := counts_le_of_succeed fun source (h : source ∈ counted rs) =>
    (List.mem_filter.mp h).2
  unfold Short at h
  unfold countedDispatches
  omega

/-- Over a session, no more lines are joined than fragments are dispatched, if and only if the lines
that enums take along beyond the first one of each are made up for by dispatches that take none. So
the merge rate is a fraction as long as no enum takes more than one line along. -/
theorem lineMerges_le_iff (config : Config) {rs : List Request} (h : Short rs) :
    let m := ((start config).afterAll rs).metrics
    let ds := countedDispatches rs
    m.lineMerges.toNat = mergesOf ds ∧ m.fragmentsDispatched.toNat = ds.length ∧
      (m.lineMerges ≤ m.fragmentsDispatched ↔ surplus ds ≤ spare ds) ∧
      ((∀ d ∈ ds, d.isEnum = true → d.merges ≤ 1) → m.lineMerges ≤ m.fragmentsDispatched) := by
  intro m ds
  obtain ⟨hd, hm⟩ := counts_of_session config rs
  obtain ⟨hdlt, hmlt⟩ := counts_lt_of_short h
  have hmerges : m.lineMerges.toNat = mergesOf ds := by
    rw [hm]
    exact UInt64.toNat_ofNat_of_lt' hmlt
  have hdispatched : m.fragmentsDispatched.toNat = ds.length := by
    rw [hd]
    exact UInt64.toNat_ofNat_of_lt' hdlt
  have hiff : m.lineMerges ≤ m.fragmentsDispatched ↔ surplus ds ≤ spare ds := by
    rw [UInt64.le_iff_toNat_le, hmerges, hdispatched, merges_le_length_iff]
  refine ⟨hmerges, hdispatched, hiff, fun hone => hiff.mpr ?_⟩
  rw [surplus_eq_zero hone]
  exact Nat.zero_le _

/-- An enum with a line for each member. -/
def longEnum : String := "enum E \x7b\nA,\nB\n\x7d;\n"

/-- An enum with a line for each member is one dispatch that takes three lines along. -/
theorem lineMerges_le_iff_longEnum :
    let m := ((start .standard).afterAll [.read longEnum]).metrics
    Short [.read longEnum] ∧ m.lineMerges.toNat = 3 ∧ m.fragmentsDispatched.toNat = 1 ∧
      ¬ m.lineMerges ≤ m.fragmentsDispatched := by
  have hs : Short [.read longEnum] := by unfold Short; decide +kernel
  obtain ⟨hm, hd, hiff, -⟩ := lineMerges_le_iff .standard hs
  have hmerges : mergesOf (countedDispatches [.read longEnum]) = 3 := by decide +kernel
  have hlength : (countedDispatches [.read longEnum]).length = 1 := by decide +kernel
  have hsurplus : surplus (countedDispatches [.read longEnum]) = 2 := by decide +kernel
  have hspare : spare (countedDispatches [.read longEnum]) = 0 := by decide +kernel
  refine ⟨hs, hm.trans hmerges, hd.trans hlength, ?_⟩
  rw [hiff, hsurplus, hspare]
  decide

end Session

end HeaderOutline
