import Mathlib.Algebra.Order.Ring.Rat
import Mathlib.Tactic.Positivity
import Parley.Backoff
import Parley.RetryAfter

/-!
Waits are not negative. A server cannot ask for less than no time, and neither does the backoff,
as long as it stays in the range where a double becomes a 64-bit number; beyond that range there is
one negative result only.
-/
namespace Parley

namespace Double

theorem twoPow_nonneg (e : Int) : 0 ≤ twoPow e := by
  unfold twoPow
  split <;> positivity

@[simp] theorem isNegative_finite (x : Rat) : (Double.finite x).isNegative = decide (x < 0) := rfl

@[simp] theorem isNegative_infinite (s : Bool) : (Double.infinite s).isNegative = s := rfl

@[simp] theorem isNegative_nan : Double.nan.isNegative = false := rfl

theorem ofRat_isNegative {x : Rat} (h : 0 ≤ x) : (ofRat x).isNegative = false := by
  have num : ¬ x.num < 0 := by simpa using h
  unfold ofRat
  split
  · rfl
  · simp only [num, decide_false]
    split
    · rfl
    · rw [isNegative_finite, decide_eq_false_iff_not, not_lt]
      exact mul_nonneg (by positivity) (twoPow_nonneg _)

theorem ofInt_isNegative {i : Int} (h : 0 ≤ i) : (ofInt i).isNegative = false :=
  ofRat_isNegative (by exact_mod_cast h)

theorem powTwo_isNegative (k : Nat) : (powTwo k).isNegative = false := by
  unfold powTwo
  split
  · simp
  · rfl

section Operations
variable {x y : Double}

theorem mul_isNegative (hx : x.isNegative = false) (hy : y.isNegative = false) :
    (mul x y).isNegative = false := by
  rcases x with _ | s | x <;> rcases y with _ | t | y
  case finite.finite =>
    simp only [isNegative_finite, decide_eq_false_iff_not, not_lt] at hx hy
    exact ofRat_isNegative (mul_nonneg hx hy)
  all_goals simp only [mul]
  all_goals first | rfl | (split <;> simp [hx, hy])

theorem add_isNegative (hx : x.isNegative = false) (hy : y.isNegative = false) :
    (add x y).isNegative = false := by
  rcases x with _ | s | x <;> rcases y with _ | t | y
  case finite.finite =>
    simp only [isNegative_finite, decide_eq_false_iff_not, not_lt] at hx hy
    exact ofRat_isNegative (add_nonneg hx hy)
  case infinite.infinite =>
    simp only [add]
    split <;> simp_all
  all_goals simp_all [add]

theorem min_isNegative (hx : x.isNegative = false) (hy : y.isNegative = false) :
    (Double.min x y).isNegative = false := by
  unfold Double.min
  split
  · exact hy
  · exact hx

/-- Whatever a double is, it is not negative once it has been compared with zero. -/
theorem max_zero_isNegative (x : Double) : (Double.max x (.finite 0)).isNegative = false := by
  rcases x with _ | s | x <;> simp only [Double.max, less]
  · rfl
  · cases s <;> rfl
  · by_cases h : x < 0 <;> simp [h]

theorem truncate_nonneg (h : x.isNegative = false) : 0 ≤ x.truncate ∨ x.truncate = leastInt64 := by
  rcases x with _ | s | x
  · exact .inr rfl
  · exact .inr rfl
  · simp only [isNegative_finite, decide_eq_false_iff_not, not_lt] at h
    simp only [truncate]
    split
    · exact .inl (Int.tdiv_nonneg (by simpa using h) (by positivity))
    · exact .inr rfl

theorem roundHalfUp_nonneg (h : x.isNegative = false) : 0 ≤ x.roundHalfUp := by
  rcases x with _ | s | x
  · exact Int.le_refl 0
  · exact Int.le_refl 0
  · have num : 0 ≤ x.num := by simpa using h
    exact Int.ediv_nonneg (by positivity) (by positivity)

end Operations

end Double

open Double

/-- The delay before another attempt is not negative, unless it left the range of 64 bits. -/
theorem backoffDelay_cases (attempt : Int) {base cap : Millis} (hb : 0 ≤ base) (hc : 0 ≤ cap)
    (fraction : Double) :
    0 ≤ backoffDelay attempt base cap fraction ∨
      backoffDelay attempt base cap fraction = leastInt64 := by
  have share := min_isNegative (max_zero_isNegative fraction)
    (show (Double.finite 1).isNegative = false by rfl)
  have ratio : (ofRat jitterRatio).isNegative = false :=
    ofRat_isNegative (by unfold jitterRatio; positivity)
  have delay := mul_isNegative (ofInt_isNegative hb) (powTwo_isNegative (max attempt 1 - 1).toNat)
  have jitter := mul_isNegative (mul_isNegative delay ratio) share
  exact truncate_nonneg (min_isNegative (add_isNegative delay jitter) (ofInt_isNegative hc))

theorem Backoff.delayFor_cases (b : Backoff) (attempt : Int) (hb : 0 ≤ b.base) (hc : 0 ≤ b.cap) :
    0 ≤ (b.delayFor attempt).1 ∨ (b.delayFor attempt).1 = leastInt64 :=
  backoffDelay_cases attempt hb hc _

theorem RetryAfter.parse_nonneg (value : Bytes) : 0 ≤ RetryAfter.parse value := by
  unfold RetryAfter.parse
  split
  · decide
  · next whole places _ =>
    split
    · next s seconds =>
      have positive : 0 ≤ RetryAfter.seconds whole places := by
        unfold RetryAfter.seconds
        positivity
      have finite := ofRat_isNegative positive
      rw [seconds] at finite
      have bounded := min_isNegative finite
        (show (Double.finite RetryAfter.longest).isNegative = false by rfl)
      exact roundHalfUp_nonneg (mul_isNegative bounded (ofInt_isNegative (by decide)))
    · decide

end Parley
