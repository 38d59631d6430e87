import Mathlib

/-!
# Time points

`system_clock` counts signed 64-bit nanoseconds since the epoch.  Deadlines
travel through the log as whole milliseconds; the conversion there truncates
toward zero, the conversion back multiplies and wraps.
-/

namespace ByteCacheDB

/-- `StorageEngine::TimePoint`: nanosecond ticks since the epoch. -/
abbrev TimePoint := Int64

/-- A value `Clock::now()` can return.  The system clock never stands before the
epoch, while a deadline may. -/
abbrev Instant := {t : TimePoint // (0 : TimePoint) ≤ t}

theorem epoch_nonneg : (0 : TimePoint) ≤ 0 := Int64.le_refl 0

def toEpochMillis (timePoint : TimePoint) : Int64 := timePoint / 1000000

def fromEpochMillis (millis : Int64) : TimePoint := millis * 1000000

/-- `now + std::chrono::seconds(s)`. -/
def addSeconds (now : TimePoint) (seconds : Int64) : TimePoint := now + seconds * 1000000000

/-- The deadline that comes back from the log or from a snapshot. -/
def truncMillis (timePoint : TimePoint) : TimePoint := fromEpochMillis (toEpochMillis timePoint)

theorem toInt_million : (1000000 : Int64).toInt = 1000000 := by decide

/-- Whole milliseconds of a number of nanoseconds, on both sides of zero. -/
theorem tdiv_million (z : ℤ) :
    (0 ≤ z ∧ z.tdiv 1000000 = z / 1000000) ∨ (z ≤ 0 ∧ z.tdiv 1000000 = -(-z / 1000000)) := by
  rcases Int.le_total 0 z with hz | hz
  · exact Or.inl ⟨hz, Int.tdiv_eq_ediv_of_nonneg hz⟩
  · refine Or.inr ⟨hz, ?_⟩
    rw [← Int.tdiv_eq_ediv_of_nonneg (by omega), Int.neg_tdiv, Int.neg_neg]

theorem toInt_toEpochMillis (t : TimePoint) :
    (toEpochMillis t).toInt = t.toInt.tdiv 1000000 := by
  have hlo := t.le_toInt
  have hhi := t.toInt_lt
  have hdiv := tdiv_million t.toInt
  rw [toEpochMillis, Int64.toInt_div, toInt_million]
  apply Int.bmod_eq_of_le <;> omega

theorem toInt_truncMillis (t : TimePoint) :
    (truncMillis t).toInt = t.toInt.tdiv 1000000 * 1000000 := by
  have hlo := t.le_toInt
  have hhi := t.toInt_lt
  have hdiv := tdiv_million t.toInt
  rw [truncMillis, fromEpochMillis, Int64.toInt_mul, toInt_toEpochMillis, toInt_million]
  apply Int.bmod_eq_of_le <;> omega

/-- Truncation never moves a deadline behind a clock reading: it shortens a
deadline after the epoch and keeps one before it before the epoch. -/
theorem truncMillis_le_of_le {t now : TimePoint} (hnow : 0 ≤ now) (h : t ≤ now) :
    truncMillis t ≤ now := by
  have hzero : (0 : Int64).toInt = 0 := by decide
  have hdiv := tdiv_million t.toInt
  rw [Int64.le_iff_toInt_le] at *
  rw [toInt_truncMillis]
  omega

theorem truncMillis_truncMillis (t : TimePoint) : truncMillis (truncMillis t) = truncMillis t := by
  apply Int64.toInt_inj.mp
  have hdiv := tdiv_million t.toInt
  have hdiv' := tdiv_million (t.toInt.tdiv 1000000 * 1000000)
  rw [toInt_truncMillis, toInt_truncMillis]
  omega

theorem lt_of_lt_truncMillis {t now : TimePoint} (hnow : 0 ≤ now) (h : now < truncMillis t) :
    now < t := by
  by_contra hle
  have htrunc := truncMillis_le_of_le hnow (Int64.not_lt.mp hle)
  exact Int64.not_lt.mpr htrunc h

end ByteCacheDB
