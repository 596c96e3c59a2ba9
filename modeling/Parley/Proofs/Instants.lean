import Parley.Time

/-!
Arithmetic on the clock where nothing goes beyond 64 bits.
-/
namespace Parley

/-- An integer that 64 bits with a sign hold. -/
def Fits (n : Int) : Prop := -0x8000000000000000 ≤ n ∧ n < 0x8000000000000000

theorem wrap64_of_fits {n : Int} (h : Fits n) : wrap64 n = n := by
  obtain ⟨low, high⟩ := h
  exact Int.bmod_eq_of_le (by omega) (by omega)

theorem wrap64_le_self {n : Int} (h : -0x8000000000000000 ≤ n) : wrap64 n ≤ n := by
  unfold wrap64
  rw [Int.bmod_def]
  split <;> omega

theorem wrap64_le {n : Int} (h : 0 ≤ n) : wrap64 n ≤ n := wrap64_le_self (by omega)

theorem le_wrap64 (n : Int) : -0x8000000000000000 ≤ wrap64 n := by
  unfold wrap64
  rw [Int.bmod_def]
  split <;> omega

theorem wrap64_lt (n : Int) : wrap64 n < 0x8000000000000000 := by
  unfold wrap64
  rw [Int.bmod_def]
  split <;> omega

/-- What comes out is what should exactly if 64 bits hold it. -/
theorem wrap64_eq_self_iff {n : Int} : wrap64 n = n ↔ Fits n := by
  constructor
  · intro same
    rw [← same]
    exact ⟨le_wrap64 n, wrap64_lt n⟩
  · exact wrap64_of_fits

theorem nanos_of_fits {ms : Millis} (h : Fits (ms * 1000000)) : Millis.nanos ms = ms * 1000000 :=
  wrap64_of_fits h

/-- What is so many milliseconds later is not later than that, whether it wraps or not. -/
theorem plusMillis_le {t : Instant} (start : 0 ≤ t) {ms : Millis}
    (large : -0x8000000000000000 ≤ ms * 1000000) : t.plusMillis ms ≤ t + ms * 1000000 := by
  have span : Millis.nanos ms ≤ ms * 1000000 := wrap64_le_self large
  have least : -0x8000000000000000 ≤ Millis.nanos ms := le_wrap64 _
  have sum : t.plusMillis ms ≤ t + Millis.nanos ms :=
    wrap64_le_self (by unfold Instant Nanos at *; omega)
  unfold Instant Nanos at *
  omega

/-- The whole milliseconds of a time that is not negative. -/
theorem toMillis_of_nonneg {d : Nanos} (h : 0 ≤ d) : toMillis d = d / 1000000 :=
  Int.tdiv_eq_ediv_of_nonneg h

theorem remainingUntil_of_fits {deadline now : Instant} (h : Fits (deadline - now)) :
    remainingUntil deadline now = toMillis (max 0 (deadline - now)) := by
  unfold remainingUntil
  split
  · next reached =>
    rw [Int.max_eq_left (Int.sub_nonpos_of_le reached)]
    rfl
  · next ahead =>
    rw [Instant.since, wrap64_of_fits h, Int.max_eq_right]
    exact Int.sub_nonneg_of_le (Int.le_of_lt (Int.not_le.mp ahead))

/-- The whole milliseconds until a deadline are no more than the time until it. -/
theorem remainingUntil_mul_le (deadline now : Instant) :
    remainingUntil deadline now * 1000000 ≤ max 0 (deadline - now) := by
  unfold remainingUntil
  by_cases late : deadline ≤ now
  · rw [if_pos late]
    exact Int.le_max_left ..
  · rw [if_neg late]
    have wrapped : Instant.since deadline now ≤ deadline - now :=
      wrap64_le (by unfold Instant at *; omega)
    unfold Instant Nanos Millis at *
    rcases Int.le_total 0 (Instant.since deadline now) with nonneg | negative
    · rw [toMillis_of_nonneg nonneg]
      omega
    · have none : 0 ≤ -toMillis (Instant.since deadline now) := by
        rw [toMillis, ← Int.neg_tdiv]
        exact Int.tdiv_nonneg (Int.neg_nonneg_of_nonpos negative) (by decide)
      unfold Millis at none
      omega

/-- Less time has passed than a number of milliseconds, if the clock tells so. -/
theorem sub_lt_of_since_lt {t start : Instant} {ms : Millis} (order : start ≤ t)
    (start_nonneg : 0 ≤ start) (t_lt : t < 0x8000000000000000) (ms_nonneg : 0 ≤ ms)
    (h : Instant.since t start < Millis.nanos ms) : t - start < ms * 1000000 := by
  have fits : Fits (t - start) := by
    unfold Instant at *
    exact ⟨by omega, by omega⟩
  have bound : Millis.nanos ms ≤ ms * 1000000 := wrap64_le (by unfold Millis at *; omega)
  rw [Instant.since, wrap64_of_fits fits] at h
  exact Int.lt_of_lt_of_le h bound

end Parley
