import HeaderOutline.Proofs.SessionHistory
import Mathlib.Algebra.BigOperators.Group.List.Basic
/-!
# The average time of a file

The average is asked of the metrics of many readings, folded into one. The number of files is a word
of 64 bits, and zero is looked for in all of it; but only its low half divides the time. So the
average is right up to 2^32 - 1 files. Beyond, a number of files whose low half is zero has no
average at all, and any other is divided by too little: the result is right only where both it and
the true average are less than a nanosecond.

Results:
* `toNat_total`, `totalTime_total`: as long as nothing overflows, what is folded is what adds up.
* `div_mod_eq_div_iff`: when a divisor may be cut.
* `averageNanos?_total`: when the average of folded metrics is defined, and when it is right.
-/
namespace HeaderOutline
namespace Metrics

def total (ms : List Metrics) : Metrics :=
  ms.foldl merge .zero

def filesOf (ms : List Metrics) : Nat :=
  (ms.map (·.filesParsed.toNat)).sum

/-- The time that some metrics count. -/
def timeOf (ms : List Metrics) : Nat :=
  (ms.map totalTime).sum

/-- No field overflows when the metrics are folded: the counts are words of 64 bits, and so are the
seconds of the time. -/
structure Fits (ms : List Metrics) : Prop where
  counts : ∀ f ∈ counters, (ms.map fun m => (f m).toNat).sum < 2 ^ 64
  time : timeOf ms < 2 ^ 64 * 10 ^ 9

/-- The time for one of some files, rounded down to the nanosecond. -/
def meanNanos (files time : Nat) : Nat :=
  if files = 0 then 0 else time / files

/-! ## Folded metrics -/

theorem toNat_foldl_merge {f : Metrics → UInt64} (hf : f ∈ counters) {ms : List Metrics}
    {m : Metrics} (h : (f m).toNat + (ms.map fun m => (f m).toNat).sum < 2 ^ 64) :
    (f (ms.foldl merge m)).toNat = (f m).toNat + (ms.map fun m => (f m).toNat).sum := by
  induction ms generalizing m with
  | nil => rfl
  | cons a ms ih =>
    rw [List.map_cons, List.sum_cons, ← Nat.add_assoc] at h ⊢
    have hstep : (f (m.merge a)).toNat = (f m).toNat + (f a).toNat := by
      rw [(counters_spec hf).2, UInt64.toNat_add]
      exact Nat.mod_eq_of_lt (by omega)
    rw [List.foldl_cons, ih (by rw [hstep]; exact h), hstep]

/-- A count that does not overflow is the sum of the counts. -/
theorem toNat_total {f : Metrics → UInt64} (hf : f ∈ counters) {ms : List Metrics}
    (h : (ms.map fun m => (f m).toNat).sum < 2 ^ 64) :
    (f (total ms)).toNat = (ms.map fun m => (f m).toNat).sum := by
  have hzero : (f .zero).toNat = 0 := congrArg UInt64.toNat (counters_spec hf).1
  have hfold := toNat_foldl_merge hf (m := .zero) (by rw [hzero, Nat.zero_add]; exact h)
  rwa [hzero, Nat.zero_add] at hfold

theorem totalTime_foldl_merge (ms : List Metrics) (m : Metrics) :
    (ms.foldl merge m).totalTime = m.totalTime + timeOf ms := by
  induction ms generalizing m with
  | nil => rfl
  | cons a ms ih =>
    rw [List.foldl_cons, ih]
    simp only [merge, timeOf, List.map_cons, List.sum_cons, Nat.add_assoc]

theorem totalTime_total (ms : List Metrics) : (total ms).totalTime = timeOf ms :=
  (totalTime_foldl_merge ms .zero).trans (Nat.zero_add _)

/-! ## A divisor that is cut -/

/-- A divisor that is cut to its low part leaves the quotient as it was if and only if nothing was
cut off, or the quotient is zero either way. -/
theorem div_mod_eq_div_iff {n b : Nat} (hb : 0 < b) (h : n % b ≠ 0) (t : Nat) :
    t / (n % b) = t / n ↔ n < b ∨ t < n % b := by
  have hle : n % b ≤ n := Nat.mod_le n b
  constructor
  · intro heq
    by_contra hno
    obtain ⟨hn, ht⟩ : b ≤ n ∧ n % b ≤ t := by omega
    -- What was cut off is more than what is left, so the true quotient is at most half of it.
    have htwice : n % b * 2 ≤ n := by
      have hlt := Nat.mod_lt n hb
      have hsplit := Nat.mod_add_div n b
      have hone : b * 1 ≤ b * (n / b) := Nat.mul_le_mul_left b (Nat.div_pos hn hb)
      omega
    have hhalf : t / n ≤ t / (n % b) / 2 := by
      rw [Nat.div_div_eq_div_mul]
      exact Nat.div_le_div_left htwice (by omega)
    have hpos : 0 < t / (n % b) := Nat.div_pos ht (by omega)
    omega
  · rintro (hn | ht)
    · rw [Nat.mod_eq_of_lt hn]
    · rw [Nat.div_eq_of_lt ht, Nat.div_eq_of_lt (by omega)]

/-! ## The average -/

/-- The low half of the number of files divides the time. -/
theorem averageNanos?_eq_div {m : Metrics} (h : m.filesParsed.toNat % 2 ^ 32 ≠ 0) :
    m.averageNanos? = some (m.totalTime / (m.filesParsed.toNat % 2 ^ 32)) := by
  have hfiles : m.filesParsed ≠ 0 := fun h0 => by
    rw [h0] at h
    exact h rfl
  unfold averageNanos?
  rw [if_neg hfiles]
  split
  · next hr => exact absurd hr h
  · rfl

theorem averageNanos?_eq_some_meanNanos_iff (m : Metrics) :
    m.averageNanos? = some (meanNanos m.filesParsed.toNat m.totalTime) ↔
      m.filesParsed.toNat < 2 ^ 32 ∨ m.totalTime < m.filesParsed.toNat % 2 ^ 32 := by
  have hzero : m.filesParsed = 0 ↔ m.filesParsed.toNat = 0 := by
    rw [← UInt64.toNat_inj]
    rfl
  unfold meanNanos
  by_cases h0 : m.filesParsed.toNat = 0
  · simp [averageNanos?, hzero.mpr h0]
  rw [if_neg h0]
  by_cases hr : m.filesParsed.toNat % 2 ^ 32 = 0
  · -- No average: the low half is zero, and the number itself is not.
    rw [(averageNanos?_eq_none_iff m).mpr ⟨mt hzero.mp h0, hr⟩]
    simp only [reduceCtorEq, false_iff]
    omega
  · rw [averageNanos?_eq_div hr, Option.some.injEq]
    exact div_mod_eq_div_iff (by decide) hr _

/-- Of metrics that are folded without overflow, all fields add up. Their average is missing if and
only if they count some files and this number is a multiple of 2^32, and it is the time divided by
the number of files if and only if there are less than 2^32 of these or the low half of their number
exceeds the time. -/
theorem averageNanos?_total {ms : List Metrics} (h : Fits ms) :
    (∀ f ∈ counters, (f (total ms)).toNat = (ms.map fun m => (f m).toNat).sum) ∧
      (total ms).totalTime = timeOf ms ∧
      ((total ms).averageNanos? = none ↔ filesOf ms ≠ 0 ∧ 2 ^ 32 ∣ filesOf ms) ∧
      ((total ms).averageNanos? = some (meanNanos (filesOf ms) (timeOf ms)) ↔
        filesOf ms < 2 ^ 32 ∨ timeOf ms < filesOf ms % 2 ^ 32) := by
  have hcounts : ∀ f ∈ counters, (f (total ms)).toNat = (ms.map fun m => (f m).toNat).sum :=
    fun f hf => toNat_total hf (h.counts f hf)
  have hfiles : (total ms).filesParsed.toNat = filesOf ms := hcounts _ (by simp [counters])
  have htime := totalTime_total ms
  refine ⟨hcounts, htime, ?_, ?_⟩
  · rw [averageNanos?_eq_none_iff, ← hfiles, Nat.dvd_iff_mod_eq_zero, Ne, Ne, ← UInt64.toNat_inj]
    rfl
  · rw [← hfiles, ← htime]
    exact averageNanos?_eq_some_meanNanos_iff _

def steady (files : UInt64) : Metrics :=
  { zero with filesParsed := files, totalTime := files.toNat * 1000 }

/-- With the file that makes 2^32 of them, the average is lost. -/
theorem averageNanos?_total_lastFile :
    let ms := [steady (2 ^ 32 - 1), steady 1]
    Fits ms ∧ meanNanos (filesOf ms) (timeOf ms) = 1000 ∧ (total ms).averageNanos? = none ∧
      (total ms).averageNanos? ≠ some 1000 := by
  have hfits : Fits [steady (2 ^ 32 - 1), steady 1] := ⟨by decide, by decide⟩
  obtain ⟨-, -, hnone, hmean⟩ := averageNanos?_total hfits
  have hthousand : meanNanos (filesOf [steady (2 ^ 32 - 1), steady 1])
      (timeOf [steady (2 ^ 32 - 1), steady 1]) = 1000 := by decide
  refine ⟨hfits, hthousand, hnone.mpr (by decide), ?_⟩
  rw [← hthousand, Ne, hmean]
  decide

end Metrics

end HeaderOutline
