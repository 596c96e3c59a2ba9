import Parley.Proofs.Delays
import Parley.Proofs.Rounding

/-!
The delay before another attempt as it comes out in doubles.

* `Spread`: what a number with its jitter comes to: twice the number at most, or infinity;
* `LosesValue`, `jittered_cases`: when the sum of a delay and its jitter is no number at all;
* `cutOff`, `delay_cases`: what the cap and the conversion to 64 bits make of it;
* `backoffDelay_converts`: exactly when the conversion has a result, and exactly when this lies
  between zero and the cap.
-/
namespace Parley

namespace Double
variable {x y : Rat}

/-- An integer of 64 bits has a finite double. -/
theorem ofInt_eq {i : Int} (hi : 0 ≤ i) (bounded : i < 2 ^ 63) : ofInt i = .finite (nearest i) := by
  have positive : (0 : Rat) ≤ i := by exact_mod_cast hi
  have rounded : nearest i ≤ 2 ^ 63 := nearest_le positive (exact_two_pow 63) (by
    exact_mod_cast bounded.le)
  rw [ofInt, ofRat_of_nonneg positive,
    if_neg (not_le.mpr (rounded.trans_lt (two_pow_lt (by decide))))]

theorem nearest_intCast_cases {i : Int} (hi : 0 ≤ i) :
    i = 0 ∧ nearest i = 0 ∨ 0 < i ∧ 1 ≤ nearest i := by
  rcases hi.eq_or_lt with rfl | positive
  · exact .inl ⟨rfl, by simpa using nearest_zero⟩
  · have one_le : (1 : Rat) ≤ i := by exact_mod_cast positive
    exact .inr ⟨positive, le_nearest (zero_le_one.trans one_le) exact_one one_le⟩

/-- Part of a number is not more than the number, in doubles too. -/
theorem mul_part (hx : Exact x) (bounded : x < 2 ^ 1024) (hy : 0 ≤ y) (part : y ≤ 1) :
    ∃ z, mul (.finite x) (.finite y) = .finite z ∧ Exact z ∧ z ≤ x := by
  have positive : 0 ≤ x * y := mul_nonneg hx.nonneg hy
  have le : nearest (x * y) ≤ x := nearest_le positive hx (mul_le_of_le_one_right hx.nonneg part)
  refine ⟨nearest (x * y), ?_, exact_nearest positive, le⟩
  rw [mul, ofRat_of_nonneg positive, if_neg (not_le.mpr (le.trans_lt bounded))]

theorem mul_infinite (hy : 0 < y) : mul (.infinite false) (.finite y) = .infinite false := by
  simp [mul, isZero, isNegative, hy.ne', hy.le]

/-- A number that is doubled `k` times. From 1024 times on the factor is infinite, and zero times it
has no value. -/
theorem mul_powTwo (hx : Exact x) (least : x = 0 ∨ 1 ≤ x) (k : Nat) :
    mul (.finite x) (powTwo k) =
      if x = 0 ∧ 1024 ≤ k then .nan
      else if 2 ^ 1024 ≤ x * 2 ^ k then .infinite false
      else .finite (x * 2 ^ k) := by
  have doubled : Exact (x * 2 ^ k) := hx.mul_two_pow k
  rw [powTwo]
  split
  · next few =>
    have product : ((Nat.pow 2 k : Nat) : Rat) = 2 ^ k := Nat.cast_pow ..
    rw [if_neg fun h => few.not_ge h.2, mul, product, ofRat_of_nonneg doubled.nonneg,
      nearest_of_exact doubled]
  · next many =>
    rw [not_lt] at many
    rcases least with rfl | one_le
    · rw [if_pos ⟨rfl, many⟩]
      rfl
    · have positive := zero_lt_one.trans_le one_le
      have large : (2 : Rat) ^ 1024 ≤ x * 2 ^ k :=
        calc (2 : Rat) ^ 1024
          _ = 1 * 2 ^ 1024 := (one_mul _).symm
          _ ≤ x * 2 ^ k := by
            gcongr
            exact one_le_two
      rw [if_neg fun h => positive.ne' h.1, if_pos large]
      simp [mul, isZero, isNegative, positive.ne', positive.le]

@[simp] theorem mul_nan (x : Double) : mul x .nan = .nan := by cases x <;> rfl

@[simp] theorem add_nan (x : Double) : add x .nan = .nan := by cases x <;> rfl

/-- The double of a tenth is a part, and not nothing. -/
theorem ofRat_jitterRatio : ∃ r, ofRat jitterRatio = .finite r ∧ 0 < r ∧ r ≤ 1 := by
  have positive : 0 ≤ jitterRatio := by
    unfold jitterRatio
    positivity
  have most : nearest jitterRatio ≤ 1 := nearest_le positive exact_one (by
    unfold jitterRatio
    norm_num)
  have least : (2 : Rat) ^ (-4 : Int) ≤ nearest jitterRatio :=
    le_nearest positive ⟨1, -4, by norm_num, by norm_num, by simp⟩ (by
      unfold jitterRatio
      norm_num)
  refine ⟨nearest jitterRatio, ?_, lt_of_lt_of_le (by positivity) least, most⟩
  rw [ofRat_of_nonneg positive,
    if_neg (not_le.mpr (most.trans_lt (one_lt_pow₀ one_lt_two (by decide))))]

/-- What a number with up to as much added to it comes to: twice the number at most. -/
def Spread (x : Rat) (s : Double) : Prop :=
  (∃ y, s = .finite y ∧ x ≤ y ∧ y ≤ 2 * x ∧ x < 2 ^ 1024) ∨ s = .infinite false ∧ 2 ^ 1024 ≤ 2 * x

theorem add_spread (hx : Exact x) (bounded : x < 2 ^ 1024) (hy : 0 ≤ y) (le : y ≤ x) :
    Spread x (add (.finite x) (.finite y)) := by
  have positive : 0 ≤ x + y := add_nonneg hx.nonneg hy
  have most : nearest (x + y) ≤ 2 * x :=
    nearest_le positive (by simpa [mul_comm] using hx.mul_two_pow 1) (by linarith)
  have least : x ≤ nearest (x + y) := le_nearest positive hx (by linarith)
  rw [add, ofRat_of_nonneg positive]
  split
  · next large => exact .inr ⟨rfl, large.trans most⟩
  · exact .inl ⟨_, rfl, least, most, bounded⟩

/-- A number and a share of a part of it. -/
theorem add_share_spread {z : Rat} (hx : Exact x) (bounded : x < 2 ^ 1024) (hy : 0 ≤ y)
    (part : y ≤ 1) (hz : 0 ≤ z) (share : z ≤ 1) :
    Spread x (add (.finite x) (mul (mul (.finite x) (.finite y)) (.finite z))) := by
  obtain ⟨u, first, exact_u, u_le⟩ := mul_part hx bounded hy part
  obtain ⟨v, second, exact_v, v_le⟩ := mul_part exact_u (u_le.trans_lt bounded) hz share
  rw [first, second]
  exact add_spread hx bounded exact_v.nonneg (v_le.trans u_le)

/-- Where a double is cut off by a limit. -/
def cutOff (limit : Rat) : Double → Rat
  | .finite y => Min.min y limit
  | _ => limit

/-- The double becomes a 64-bit number: it is finite, and its integer part is in range. -/
def IsConvertible (s : Double) : Prop := ∃ q : Rat, s = .finite q ∧ -2 ^ 63 ≤ q ∧ q < 2 ^ 63

theorem truncate_of_lt (hx : 0 ≤ x) (bounded : x < 2 ^ 63) : truncate (.finite x) = ⌊x⌋ := by
  have floor_eq := tdiv_eq_floor hx
  have least : 0 ≤ ⌊x⌋ := Int.floor_nonneg.mpr hx
  have most : ⌊x⌋ < 2 ^ 63 := Int.floor_lt.mpr (by exact_mod_cast bounded)
  simp only [truncate, floor_eq, leastInt64]
  rw [if_pos]
  simp only [Bool.and_eq_true, decide_eq_true_eq]
  omega

theorem truncate_of_le (hx : 2 ^ 63 ≤ x) : truncate (.finite x) = leastInt64 := by
  have floor_eq := tdiv_eq_floor (le_trans (by norm_num) hx)
  have least : 2 ^ 63 ≤ ⌊x⌋ := Int.le_floor.mpr (by exact_mod_cast hx)
  simp only [truncate, floor_eq, leastInt64]
  rw [if_neg]
  simp only [Bool.and_eq_true, decide_eq_true_eq]
  omega

namespace Spread
variable {s s' : Double} {limit : Rat}

theorem value (h : Spread x s) : s ≠ .nan := by
  rcases h with ⟨y, rfl, -⟩ | ⟨rfl, -⟩ <;> simp

theorem min_eq (h : Spread x s) : Double.min s (.finite limit) = .finite (cutOff limit s) := by
  rcases h with ⟨y, rfl, -⟩ | ⟨rfl, -⟩
  · exact min_finite y limit
  · rfl

theorem cutOff_nonneg (h : Spread x s) (hx : 0 ≤ x) (hl : 0 ≤ limit) : 0 ≤ cutOff limit s := by
  rcases h with ⟨y, rfl, least, -⟩ | ⟨rfl, -⟩
  · exact le_min (hx.trans least) hl
  · exact hl

theorem cutOff_le (h : Spread x s) : cutOff limit s ≤ limit := by
  rcases h with ⟨y, rfl, -⟩ | ⟨rfl, -⟩
  · exact min_le_right ..
  · exact le_rfl

theorem cutOff_lt_iff (h : Spread x s) {q : Rat} :
    cutOff limit s < q ↔ limit < q ∨ less s (.finite q) := by
  rcases h with ⟨y, rfl, -⟩ | ⟨rfl, -⟩
  · simp only [cutOff, min_lt_iff, less, decide_eq_true_eq]
    exact or_comm
  · simp [cutOff, less]

/-- What starts from twice as much stays ahead, whatever is added to either. -/
theorem cutOff_mono (h : Spread x s) (h' : Spread y s') (le : 2 * x ≤ y) :
    cutOff limit s ≤ cutOff limit s' := by
  rcases h' with ⟨z', rfl, least, -, bounded⟩ | ⟨rfl, -⟩
  · rcases h with ⟨z, rfl, -, most, -⟩ | ⟨rfl, large⟩
    · exact min_le_min_right limit (most.trans (le.trans least))
    · exact absurd (large.trans le) (not_le.mpr bounded)
  · exact h.cutOff_le

end Spread

end Double

open Double

namespace RoundedDelay
variable {n : Int} {base cap : Millis}

/-- The sum of the delay and its jitter has no value: the fraction has none, or a factor of a
product is zero and the other one has grown beyond all doubles. -/
def LosesValue (attempt : Int) (base : Millis) (fraction : Double) : Prop :=
  fraction = .nan ∨ base = 0 ∧ 1025 ≤ attempt ∨
    less (.finite 0) fraction = false ∧ 2 ^ 1024 ≤ nearest base * 2 ^ doublings attempt

theorem doubles_unjittered (hb : 0 ≤ base) (bounded : base < 2 ^ 63) :
    doubles.unjittered n base =
      if base = 0 ∧ 1025 ≤ n then .nan
      else if 2 ^ 1024 ≤ nearest base * 2 ^ doublings n then .infinite false
      else .finite (nearest base * 2 ^ doublings n) := by
  have rounded : Exact (nearest base) := exact_nearest (by exact_mod_cast hb)
  have start : doubles.unjittered n base = mul (.finite (nearest base)) (powTwo (doublings n)) := by
    rw [← ofInt_eq hb bounded]
    rfl
  have often : 1024 ≤ doublings n ↔ 1025 ≤ n := by
    unfold doublings
    omega
  rcases nearest_intCast_cases hb with ⟨rfl, none⟩ | ⟨some, one_le⟩
  · rw [start, mul_powTwo rounded (.inl none)]
    simp only [none, often, true_and]
  · have positive := zero_lt_one.trans_le one_le
    rw [start, mul_powTwo rounded (.inr one_le)]
    simp only [positive.ne', some.ne', false_and, if_false]

/-- What is drawn, once it lies between none and all of the jitter. -/
theorem doubles_share (f : Double) :
    f = .nan ∧ doubles.share f = .nan ∨
      f ≠ .nan ∧ ∃ x, doubles.share f = .finite x ∧ 0 ≤ x ∧ x ≤ 1 ∧
        (x = 0 ↔ less (.finite 0) f = false) := by
  rcases f with _ | _ | y
  case nan => exact .inl ⟨rfl, rfl⟩
  case infinite negative =>
    right
    cases negative with
    | true => exact ⟨by simp, 0, rfl, le_rfl, zero_le_one, by decide⟩
    | false => exact ⟨by simp, 1, rfl, zero_le_one, le_rfl, by decide⟩
  case finite =>
    refine .inr ⟨by simp, ?_⟩
    simp only [Arithmetic.share, Arithmetic.lesser, Arithmetic.greater, doubles, less,
      decide_eq_true_eq, decide_eq_false_iff_not, not_lt]
    by_cases below : y < 0
    · simp only [below, if_true]
      exact ⟨0, rfl, le_rfl, zero_le_one, by simp [below.le]⟩
    · simp only [below, if_false]
      by_cases above : 1 < y
      · simp only [above]
        exact ⟨1, rfl, zero_le_one, le_rfl, by simp [zero_lt_one.trans above]⟩
      · simp only [above]
        refine ⟨y, rfl, not_lt.mp below, not_lt.mp above, ?_⟩
        exact ⟨le_of_eq, fun h => le_antisymm h (not_lt.mp below)⟩

theorem jittered_cases (hb : 0 ≤ base) (bounded : base < 2 ^ 63) (f : Double) :
    LosesValue n base f ∧ doubles.jittered n base f = .nan ∨
      ¬ LosesValue n base f ∧
        Spread (nearest base * 2 ^ doublings n) (doubles.jittered n base f) := by
  have positive : (0 : Rat) ≤ base := by exact_mod_cast hb
  have exact_delay := (exact_nearest positive).mul_two_pow (doublings n)
  obtain ⟨r, ratio, ratio_pos, ratio_le⟩ := ofRat_jitterRatio
  have sum : doubles.jittered n base f = add (doubles.unjittered n base)
      (mul (mul (doubles.unjittered n base) (.finite r)) (doubles.share f)) := by
    rw [← ratio]
    rfl
  rw [sum, doubles_unjittered hb bounded]
  by_cases lost : base = 0 ∧ 1025 ≤ n
  · rw [if_pos lost]
    exact .inl ⟨.inr (.inl lost), rfl⟩
  rw [if_neg lost]
  rcases doubles_share f with ⟨rfl, drawn⟩ | ⟨value, x, drawn, least, most, none_iff⟩
  · rw [drawn]
    exact .inl ⟨.inl rfl, by simp only [mul_nan, add_nan]⟩
  rw [drawn]
  split
  · next large =>
    rw [mul_infinite ratio_pos]
    rcases least.eq_or_lt with rfl | some
    · exact .inl ⟨.inr (.inr ⟨none_iff.mp rfl, large⟩), rfl⟩
    · rw [mul_infinite some]
      have large' := large.trans (le_mul_of_one_le_left exact_delay.nonneg one_le_two)
      refine .inr ⟨?_, .inr ⟨rfl, large'⟩⟩
      rintro (rfl | lost' | ⟨none, _⟩)
      · exact value rfl
      · exact lost lost'
      · exact some.ne' (none_iff.mpr none)
  · next small =>
    have spread := add_share_spread exact_delay (not_le.mp small) ratio_pos.le ratio_le least most
    refine .inr ⟨?_, spread⟩
    rintro (rfl | lost' | ⟨_, large⟩)
    · exact value rfl
    · exact lost lost'
    · exact small large

/-- The delay in doubles: the sum is cut off at the double of the cap, and the fraction is dropped,
unless the sum has no value or the result is beyond 64 bits. -/
theorem delay_cases (hb : 0 ≤ base) (hc : 0 ≤ cap) (base_lt : base < 2 ^ 63) (cap_lt : cap < 2 ^ 63)
    (n : Int) (f : Double) :
    LosesValue n base f ∧ doubles.jittered n base f = .nan ∧
        doubles.capped n base cap f = .nan ∧ backoffDelay n base cap f = leastInt64 ∨
      ¬ LosesValue n base f ∧
        Spread (nearest base * 2 ^ doublings n) (doubles.jittered n base f) ∧
        ∃ c, c = cutOff (nearest cap) (doubles.jittered n base f) ∧ 0 ≤ c ∧
          doubles.capped n base cap f = .finite c ∧
          backoffDelay n base cap f = if c < 2 ^ 63 then ⌊c⌋ else leastInt64 := by
  have base_nonneg : (0 : Rat) ≤ base := by exact_mod_cast hb
  have cap_nonneg : (0 : Rat) ≤ cap := by exact_mod_cast hc
  have capped : doubles.capped n base cap f =
      Double.min (doubles.jittered n base f) (.finite (nearest cap)) := by
    rw [← ofInt_eq hc cap_lt]
    rfl
  rcases jittered_cases (n := n) hb base_lt f with ⟨lost, sum⟩ | ⟨kept, spread⟩
  · rw [sum] at capped
    refine .inl ⟨lost, sum, capped, ?_⟩
    rw [backoffDelay_eq, Arithmetic.delay, capped]
    rfl
  · rw [spread.min_eq] at capped
    have nonneg := spread.cutOff_nonneg ((exact_nearest base_nonneg).mul_two_pow _).nonneg
      (exact_nearest cap_nonneg).nonneg
    refine .inr ⟨kept, spread, _, rfl, nonneg, capped, ?_⟩
    rw [backoffDelay_eq, Arithmetic.delay, capped]
    split
    · next small => exact truncate_of_lt nonneg small
    · next large => exact truncate_of_le (not_lt.mp large)

end RoundedDelay

open RoundedDelay in
/-- When a delay has become a 64-bit number, and where it lies then: every way in which it can fail
to lie between zero and the cap. -/
theorem backoffDelay_converts {base cap : Millis} (hb : 0 ≤ base) (ordered : base ≤ cap)
    (cap_lt : cap < 2 ^ 63) (n : Int) (f : Double) :
    (doubles.jittered n base f = .nan ↔ LosesValue n base f) ∧
    ((doubles.capped n base cap f).IsConvertible ↔ ¬ LosesValue n base f ∧
      (nearest cap < 2 ^ 63 ∨ less (doubles.jittered n base f) (.finite (2 ^ 63)))) ∧
    (¬ (doubles.capped n base cap f).IsConvertible → backoffDelay n base cap f = leastInt64) ∧
    ((doubles.capped n base cap f).IsConvertible →
      0 ≤ backoffDelay n base cap f ∧ backoffDelay n base cap f ≤ nearest cap ∧
        (backoffDelay n base cap f ≤ cap ↔
          nearest cap < cap + 1 ∨ less (doubles.jittered n base f) (.finite (cap + 1)))) ∧
    (cap ≤ 2 ^ 53 → ¬ LosesValue n base f → (doubles.capped n base cap f).IsConvertible ∧
      0 ≤ backoffDelay n base cap f ∧ backoffDelay n base cap f ≤ cap) := by
  have hc : 0 ≤ cap := hb.trans ordered
  rcases delay_cases hb hc (ordered.trans_lt cap_lt) cap_lt n f with
    ⟨lost, sum, capped, delay⟩ | ⟨kept, spread, c, cut, nonneg, capped, delay⟩
  · have stuck : ¬ (doubles.capped n base cap f).IsConvertible := by
      rw [capped]
      rintro ⟨q, h, -⟩
      cases h
    exact ⟨iff_of_true sum lost, iff_of_false stuck fun h => h.1 lost, fun _ => delay,
      fun h => absurd h stuck, fun _ h => absurd lost h⟩
  · have convertible : (doubles.capped n base cap f).IsConvertible ↔ c < 2 ^ 63 := by
      rw [capped]
      constructor
      · rintro ⟨q, h, -, bounded⟩
        cases h
        exact bounded
      · intro bounded
        exact ⟨c, rfl, le_trans (by norm_num) nonneg, bounded⟩
    have inside (bounded : c < 2 ^ 63) : 0 ≤ backoffDelay n base cap f ∧
        backoffDelay n base cap f ≤ nearest cap ∧
        (backoffDelay n base cap f ≤ cap ↔
          nearest cap < cap + 1 ∨ less (doubles.jittered n base f) (.finite (cap + 1))) := by
      rw [delay, if_pos bounded, ← spread.cutOff_lt_iff, ← cut, Int.floor_le_iff]
      exact ⟨Int.floor_nonneg.mpr nonneg, (Int.floor_le c).trans (cut ▸ spread.cutOff_le), Iff.rfl⟩
    refine ⟨iff_of_false spread.value kept, ?_, fun stuck => ?_, fun h => ?_, fun small _ => ?_⟩
    · rw [convertible, cut, spread.cutOff_lt_iff]
      exact (and_iff_right kept).symm
    · rw [delay, if_neg (mt convertible.mpr stuck)]
    · exact inside (convertible.mp h)
    · have same : nearest cap = cap := nearest_of_exact (exact_intCast hc small)
      have bounded : c < 2 ^ 63 := by
        have le : c ≤ cap := by
          rw [← same, cut]
          exact spread.cutOff_le
        exact le.trans_lt (by exact_mod_cast cap_lt)
      obtain ⟨least, -, within⟩ := inside bounded
      exact ⟨convertible.mpr bounded, least, within.mpr (.inl (by rw [same]; linarith))⟩

open RoundedDelay in
theorem backoffDelay_converts_at_zero :
    let f := Double.finite (7 / 10)
    (0 : Millis) ≤ 0 ∧ (0 : Millis) < 2 ^ 63 ∧ LosesValue 1025 0 f ∧
      ¬ (doubles.capped 1025 0 0 f).IsConvertible ∧ backoffDelay 1025 0 0 f = leastInt64 := by
  intro f
  have lost : LosesValue 1025 0 f := .inr (.inl ⟨rfl, by decide⟩)
  obtain ⟨-, convertible, otherwise, -⟩ :=
    backoffDelay_converts (le_refl (0 : Millis)) (le_refl (0 : Millis)) (by norm_num) 1025 f
  have stuck := fun h => (convertible.mp h).1 lost
  exact ⟨le_rfl, by norm_num, lost, stuck, otherwise stuck⟩

end Parley
