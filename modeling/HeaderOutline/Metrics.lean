import HeaderOutline.Reading.Run
/-!
# Metrics

Counts that are kept over several readings. They are words of 64 bits and wrap; the time is counted
in nanoseconds.

Only the low half of the number of files divides the time, so a number of files that is a multiple
of 2^32 and not zero has no average.

Result: `averageNanos?_eq_none_iff`, exactly these have none.
-/
namespace HeaderOutline

/-- What was counted over several readings. -/
structure Metrics where
  /-- Headers that were read to their end. -/
  filesParsed : UInt64
  /-- Lines that were left after comments were stripped. -/
  linesRead : UInt64
  fragmentsDispatched : UInt64
  constructsRecognized : UInt64
  lineMerges : UInt64
  fragmentsDiscarded : UInt64
  /-- In nanoseconds. -/
  totalTime : Nat
  deriving DecidableEq, Repr

namespace Metrics

/-- Nothing has been read. -/
def zero : Metrics :=
  ⟨0, 0, 0, 0, 0, 0, 0⟩

/-- The counts of one reading. Its time is not measured. -/
def ofFinished (f : Finished) : Metrics :=
  ⟨1, f.linesRead.toUInt64, f.tally.dispatched.toUInt64, f.tally.constructs.toUInt64,
    f.tally.merges.toUInt64, f.tally.discarded.toUInt64, 0⟩

/-- The counts of both. Mirrors `merge`. -/
def merge (a b : Metrics) : Metrics :=
  ⟨a.filesParsed + b.filesParsed, a.linesRead + b.linesRead,
    a.fragmentsDispatched + b.fragmentsDispatched, a.constructsRecognized + b.constructsRecognized,
    a.lineMerges + b.lineMerges, a.fragmentsDiscarded + b.fragmentsDiscarded,
    a.totalTime + b.totalTime⟩

/-- Lines that were joined for every fragment that was dispatched. Mirrors `merge_rate`. -/
def mergeRate (m : Metrics) : Float :=
  if m.fragmentsDispatched = 0 then 0.0
  else m.lineMerges.toFloat / m.fragmentsDispatched.toFloat

/-- The time for one file in whole nanoseconds, rounded down. Without files it is zero. Mirrors
`avg_parse_time`. -/
def averageNanos? (m : Metrics) : Option Nat :=
  if m.filesParsed = 0 then some 0
  else match m.filesParsed.toNat % UInt32.size with
    | 0 => none
    | files => some (m.totalTime / files)

theorem averageNanos?_eq_none_iff (m : Metrics) :
    m.averageNanos? = none ↔ m.filesParsed ≠ 0 ∧ m.filesParsed.toNat % UInt32.size = 0 := by
  unfold averageNanos?
  split
  · simp_all
  · split <;> simp_all

end Metrics

end HeaderOutline
