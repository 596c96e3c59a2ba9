import Mathlib.Algebra.Order.Field.Power
import Mathlib.Data.Int.Log
import Mathlib.Data.Rat.Floor
import Mathlib.Tactic.FieldSimp
import Mathlib.Tactic.Linarith
import Mathlib.Tactic.NormNum
import Mathlib.Tactic.Positivity
import Mathlib.Tactic.Ring
import Parley.Double

/-!
Rounding to doubles, for numbers that are not negative.

* `le_roundEven_iff`: when a quotient rounds to `k` or more; all that follows about rounding is
  derived from this;
* `nearest`, `Exact`: the nearest double, and the numbers that are doubles already, both without
  regard to the largest exponent;
* `nearest_le`, `le_nearest`, `nearest_mono`: rounding keeps the order, and passes by no exact
  number;
* `overflows_iff`, `ofRat_of_nonneg`: what is too large for a double, and what becomes of the rest.
-/
namespace Parley

theorem twoPow_eq (e : Int) : twoPow e = (2 : Rat) ^ e := by
  unfold twoPow
  split
  · next h =>
    lift e to Nat using h
    simp
  · next h =>
    obtain ⟨k, rfl⟩ : ∃ k : Nat, e = -k := ⟨(-e).toNat, by omega⟩
    simp

/-- Rounding reaches `k` from half a unit below on, and at just half a unit only if `k` is even. -/
theorem le_roundEven_iff {n d k : Nat} (hd : 0 < d) :
    k ≤ roundEven n d ↔
      (k : Rat) - 1 / 2 < n / d ∨ (k : Rat) - 1 / 2 = n / d ∧ k % 2 = 0 := by
  have hd' : (0 : Rat) < d := by exact_mod_cast hd
  have lt_iff : (k : Rat) - 1 / 2 < n / d ↔ (2 * k - 1 : Int) * d < 2 * n := by
    rw [lt_div_iff₀ hd', ← Int.cast_lt (R := Rat)]
    push_cast
    constructor <;> intro h <;> linarith
  have eq_iff : (k : Rat) - 1 / 2 = n / d ↔ (2 * k - 1 : Int) * d = 2 * n := by
    rw [eq_div_iff hd'.ne', ← Int.cast_inj (α := Rat)]
    push_cast
    constructor <;> intro h <;> linarith
  have parts : (n : Int) = d * (n / d : Nat) + (n % d : Nat) := by
    exact_mod_cast (Nat.div_add_mod n d).symm
  have rest : n % d < d := Nat.mod_lt n hd
  rw [lt_iff, eq_iff, parts]
  simp only [roundEven]
  generalize n / d = q at *
  generalize n % d = r at *
  rcases Nat.lt_trichotomy k (q + 1) with below | rfl | above
  · have reached : (2 * k - 1 : Int) * d < 2 * (d * q + r) := by nlinarith
    split_ifs <;> omega
  · have next : (2 * (q + 1 : Nat) - 1 : Int) * d = 2 * (d * q) + d := by push_cast; ring
    rw [next]
    split_ifs <;> omega
  · have missed : 2 * (d * q + r : Int) < (2 * k - 1 : Int) * d := by nlinarith
    split_ifs <;> omega

namespace Double

theorem inUnits_pos (num : Nat) {den : Nat} (h : 0 < den) (e : Int) :
    0 < (inUnits num den e).2 := by
  unfold inUnits
  split
  · exact Nat.mul_pos h (Nat.pow_pos Nat.two_pos)
  · exact h

theorem inUnits_div (num den : Nat) (e : Int) :
    ((inUnits num den e).1 : Rat) / (inUnits num den e).2 = num / den / 2 ^ e := by
  unfold inUnits
  split
  · next h =>
    lift e to Nat using h
    simp [div_div]
  · next h =>
    obtain ⟨k, rfl⟩ : ∃ k : Nat, e = -k := ⟨(-e).toNat, by omega⟩
    simp [div_mul_eq_mul_div]

theorem binade_bounds {num den : Nat} (hn : 0 < num) (hd : 0 < den) :
    (2 : Rat) ^ binade num den ≤ num / den ∧ (num / den : Rat) < 2 ^ (binade num den + 1) := by
  have hd' : (0 : Rat) < den := by exact_mod_cast hd
  have num_le : (2 : Rat) ^ num.log2 ≤ num := by exact_mod_cast Nat.log2_self_le hn.ne'
  have lt_num : (num : Rat) < 2 ^ (num.log2 + 1) := by exact_mod_cast Nat.lt_log2_self
  have den_le : (2 : Rat) ^ den.log2 ≤ den := by exact_mod_cast Nat.log2_self_le hd.ne'
  have lt_den : (den : Rat) < 2 ^ (den.log2 + 1) := by exact_mod_cast Nat.lt_log2_self
  have guess (e : Int) :
      (inUnits num den e).1 < (inUnits num den e).2 ↔ (num / den : Rat) < 2 ^ e := by
    have positive : (0 : Rat) < (inUnits num den e).2 := by exact_mod_cast inUnits_pos num hd e
    rw [← Nat.cast_lt (α := Rat), ← div_lt_one positive, inUnits_div, div_lt_one (by positivity)]
  have lower : (2 : Rat) ^ ((num.log2 : Int) - den.log2 - 1) ≤ num / den := by
    rw [le_div_iff₀ hd']
    calc (2 : Rat) ^ ((num.log2 : Int) - den.log2 - 1) * den
      _ ≤ 2 ^ ((num.log2 : Int) - den.log2 - 1) * 2 ^ (den.log2 + 1) := by gcongr
      _ = 2 ^ num.log2 := by
        rw [← zpow_natCast, ← zpow_natCast, ← zpow_add₀ two_ne_zero]
        congr 1
        push_cast
        ring
      _ ≤ num := num_le
  have upper : (num / den : Rat) < 2 ^ ((num.log2 : Int) - den.log2 + 1) := by
    rw [div_lt_iff₀ hd']
    calc (num : Rat)
      _ < 2 ^ (num.log2 + 1) := lt_num
      _ = 2 ^ ((num.log2 : Int) - den.log2 + 1) * 2 ^ den.log2 := by
        rw [← zpow_natCast, ← zpow_natCast, ← zpow_add₀ two_ne_zero]
        congr 1
        push_cast
        ring
      _ ≤ 2 ^ ((num.log2 : Int) - den.log2 + 1) * den := by gcongr
  simp only [binade]
  split
  · next below => exact ⟨lower, by simpa using (guess _).mp below⟩
  · next reached => exact ⟨not_lt.mp (mt (guess _).mpr reached), upper⟩

theorem binade_eq_log {num den : Nat} (hn : 0 < num) (hd : 0 < den) :
    binade num den = Int.log 2 (num / den : Rat) := by
  obtain ⟨lower, upper⟩ := binade_bounds hn hd
  have positive : (0 : Rat) < num / den := by positivity
  have le := (Int.zpow_le_iff_le_log Nat.one_lt_two positive).mp (by exact_mod_cast lower)
  have lt := (Int.lt_zpow_iff_log_lt Nat.one_lt_two positive).mp (by exact_mod_cast upper)
  omega

section Nearest
variable {x y : Rat}

/-- The exponent of the last place of the doubles around a number. -/
def place (x : Rat) : Int := lastPlace x.num.natAbs x.den

/-- The double nearest to a number that is not negative, if doubles had no largest exponent. -/
def nearest (x : Rat) : Rat := significand x.num.natAbs x.den * 2 ^ place x

theorem natAbs_num_div_den (hx : 0 ≤ x) : (x.num.natAbs : Rat) / x.den = x := by
  have num : (x.num.natAbs : Int) = x.num := Int.natAbs_of_nonneg (Rat.num_nonneg.mpr hx)
  rw [← Int.cast_natCast, num, Rat.num_div_den]

theorem place_eq (hx : 0 < x) : place x = Max.max (Int.log 2 x - 52) (-1074) := by
  have num : 0 < x.num.natAbs := Int.natAbs_pos.mpr (Rat.num_pos.mpr hx).ne'
  rw [place, lastPlace, binade_eq_log num x.den_pos, natAbs_num_div_den hx.le]

theorem place_bounds (hx : 0 < x) :
    x < 2 ^ 53 * 2 ^ place x ∧ (2 ^ 52 * 2 ^ place x ≤ x ∨ place x = -1074) := by
  have two : (1 : Nat) < 2 := Nat.one_lt_two
  rw [← zpow_natCast, ← zpow_natCast, ← zpow_add₀ two_ne_zero, ← zpow_add₀ two_ne_zero,
    place_eq hx]
  refine ⟨(Int.lt_zpow_iff_log_lt two hx).mpr (by push_cast; omega), ?_⟩
  rcases le_total (Int.log 2 x - 52) (-1074) with small | large
  · exact .inr (max_eq_right small)
  · exact .inl ((Int.zpow_le_iff_le_log two hx).mpr (by push_cast; omega))

theorem le_significand_iff (hx : 0 ≤ x) (k : Nat) :
    k ≤ significand x.num.natAbs x.den ↔
      ((k : Rat) - 1 / 2) * 2 ^ place x < x ∨
        ((k : Rat) - 1 / 2) * 2 ^ place x = x ∧ k % 2 = 0 := by
  have positive : (0 : Rat) < 2 ^ place x := by positivity
  simp only [significand]
  rw [le_roundEven_iff (inUnits_pos _ x.den_pos _), inUnits_div, natAbs_num_div_den hx,
    ← place, lt_div_iff₀ positive, eq_div_iff positive.ne']

/-- Half a unit more or less than a number: there is where its neighbours begin. -/
theorem mul_le_nearest (hx : 0 ≤ x) {k : Nat} (h : (k : Rat) * 2 ^ place x ≤ x) :
    (k : Rat) * 2 ^ place x ≤ nearest x := by
  have positive : (0 : Rat) < 2 ^ place x := by positivity
  have reached := (le_significand_iff hx k).mpr (.inl (by linarith))
  unfold nearest
  gcongr

theorem nearest_le_mul (hx : 0 ≤ x) {k : Nat} (h : x ≤ (k : Rat) * 2 ^ place x) :
    nearest x ≤ (k : Rat) * 2 ^ place x := by
  have positive : (0 : Rat) < 2 ^ place x := by positivity
  have bound : significand x.num.natAbs x.den ≤ k := by
    by_contra above
    rw [not_le, ← Nat.succ_le_iff, le_significand_iff hx] at above
    push_cast at above
    rcases above with less | ⟨same, _⟩ <;> linarith
  unfold nearest
  gcongr

/-- A number with at most 53 significant bits, none of them below the least double: a double, but
for the largest exponent. -/
def Exact (y : Rat) : Prop := ∃ (m : Nat) (e : Int), m ≤ 2 ^ 53 ∧ -1074 ≤ e ∧ y = m * 2 ^ e

theorem Exact.nonneg (h : Exact y) : 0 ≤ y := by
  obtain ⟨m, e, -, -, rfl⟩ := h
  positivity

/-- Among numbers as large as `x`, those that are exact are multiples of its last place. -/
theorem Exact.multiple_or (h : Exact y) (hx : 0 < x) :
    (∃ k : Nat, y = k * 2 ^ place x) ∨ y ≤ 2 ^ 52 * 2 ^ place x ∧ 2 ^ 52 * 2 ^ place x ≤ x := by
  obtain ⟨m, e, hm, he, rfl⟩ := h
  by_cases fine : place x ≤ e
  · left
    obtain ⟨n, rfl⟩ : ∃ n : Nat, e = place x + n := ⟨(e - place x).toNat, by omega⟩
    refine ⟨m * 2 ^ n, ?_⟩
    rw [zpow_add₀ two_ne_zero, zpow_natCast]
    push_cast
    ring
  · right
    refine ⟨?_, (place_bounds hx).2.resolve_right (by omega)⟩
    calc (m : Rat) * 2 ^ e
      _ ≤ 2 ^ 53 * 2 ^ (place x - 1) := by
        gcongr
        · exact_mod_cast hm
        · exact one_le_two
        · omega
      _ = 2 ^ 52 * 2 ^ place x := by
        rw [zpow_sub_one₀ two_ne_zero]
        ring

theorem nearest_zero : nearest 0 = 0 := by
  have none : significand 0 1 = 0 := by decide
  simp [nearest, none]

/-- Rounding up does not pass by an exact number. -/
theorem nearest_le (hx : 0 ≤ x) (h : Exact y) (le : x ≤ y) : nearest x ≤ y := by
  rcases hx.eq_or_lt with rfl | positive
  · rwa [nearest_zero]
  · obtain ⟨k, rfl⟩ : ∃ k : Nat, y = k * 2 ^ place x := by
      rcases h.multiple_or positive with multiple | ⟨above, below⟩
      · exact multiple
      · exact ⟨2 ^ 52, by push_cast; linarith⟩
    exact nearest_le_mul hx le

/-- Rounding down does not pass by an exact number. -/
theorem le_nearest (hx : 0 ≤ x) (h : Exact y) (le : y ≤ x) : y ≤ nearest x := by
  rcases hx.eq_or_lt with rfl | positive
  · rwa [nearest_zero]
  · rcases h.multiple_or positive with ⟨k, rfl⟩ | ⟨above, below⟩
    · exact mul_le_nearest hx le
    · have reached := mul_le_nearest (k := 2 ^ 52) hx (by exact_mod_cast below)
      push_cast at reached
      exact above.trans reached

theorem nearest_of_exact (h : Exact x) : nearest x = x :=
  le_antisymm (nearest_le h.nonneg h le_rfl) (le_nearest h.nonneg h le_rfl)

theorem le_place (hx : 0 < x) : -1074 ≤ place x := by
  rw [place_eq hx]
  exact le_max_right ..

theorem significand_le (hx : 0 < x) : significand x.num.natAbs x.den ≤ 2 ^ 53 := by
  have unit : (0 : Rat) < 2 ^ place x := by positivity
  have bound := nearest_le_mul (k := 2 ^ 53) hx.le (by
    push_cast
    exact (place_bounds hx).1.le)
  exact_mod_cast le_of_mul_le_mul_right bound unit

theorem exact_nearest (hx : 0 ≤ x) : Exact (nearest x) := by
  rcases hx.eq_or_lt with rfl | positive
  · exact ⟨0, 0, by norm_num, by norm_num, by simp [nearest_zero]⟩
  · exact ⟨_, _, significand_le positive, le_place positive, rfl⟩

theorem nearest_mono_of_place_eq (hx : 0 < x) (h : x ≤ y) (same : place x = place y) :
    nearest x ≤ nearest y := by
  have bound : significand x.num.natAbs x.den ≤ significand y.num.natAbs y.den := by
    rw [le_significand_iff (hx.le.trans h), ← same]
    rcases (le_significand_iff hx.le _).mp le_rfl with less | ⟨half, even⟩
    · exact .inl (less.trans_le h)
    · rcases h.eq_or_lt with rfl | less
      · exact .inr ⟨half, even⟩
      · exact .inl (half.trans_lt less)
  unfold nearest
  rw [same]
  gcongr

theorem nearest_mono (hx : 0 ≤ x) (h : x ≤ y) : nearest x ≤ nearest y := by
  rcases hx.eq_or_lt with rfl | positive
  · rw [nearest_zero]
    exact (exact_nearest h).nonneg
  · have positive' := positive.trans_le h
    have log_le : Int.log 2 x ≤ Int.log 2 y := Int.log_mono_right positive h
    have places := place_eq positive
    have places' := place_eq positive'
    rcases eq_or_ne (place x) (place y) with same | differ
    · exact nearest_mono_of_place_eq positive h same
    · -- Between numbers with different last places there is a power of two.
      have power : Exact ((2 : Rat) ^ Int.log 2 y) :=
        ⟨1, Int.log 2 y, by norm_num, by omega, by simp⟩
      calc nearest x
        _ ≤ 2 ^ Int.log 2 y :=
          nearest_le hx power ((Int.lt_zpow_iff_log_lt Nat.one_lt_two positive).mpr (by omega)).le
        _ ≤ nearest y :=
          le_nearest positive'.le power (Int.zpow_log_le_self Nat.one_lt_two positive')

/-- The last place of the doubles from `2 ^ 1023` on. -/
theorem two_pow_place (high : (2 : Rat) ^ 1023 ≤ x) (bounded : x < (2 : Rat) ^ 1024) :
    (2 : Rat) ^ place x = 2 * 2 ^ 970 := by
  have positive : 0 < x := lt_of_lt_of_le (by positivity) high
  have log_eq : Int.log 2 x = 1023 := by
    refine le_antisymm (Int.lt_add_one_iff.mp ?_) ?_
    · exact (Int.lt_zpow_iff_log_lt Nat.one_lt_two positive).mp bounded
    · exact (Int.zpow_le_iff_le_log Nat.one_lt_two positive).mp high
  rw [place_eq positive, log_eq, ← pow_succ']
  rfl

/-- A number has no finite double if half a unit in the last place takes it to `2 ^ 1024`. -/
theorem overflows_iff (hx : 0 ≤ x) :
    (2 : Rat) ^ 1024 ≤ nearest x ↔ (2 : Rat) ^ 1024 - 2 ^ 970 ≤ x := by
  have least : Exact ((2 : Rat) ^ 1024) := ⟨1, 1024, by norm_num, by norm_num, by simp⟩
  have half : Exact ((2 : Rat) ^ 1023) := ⟨1, 1023, by norm_num, by norm_num, by simp⟩
  have top := two_pow_place (x := x)
  have unit : (0 : Rat) < 2 ^ 970 := by positivity
  rw [show (2 : Rat) ^ 1024 = 2 ^ 54 * 2 ^ 970 by rw [← pow_add]] at *
  rw [show (2 : Rat) ^ 1023 = 2 ^ 53 * 2 ^ 970 by rw [← pow_add]] at *
  generalize (2 : Rat) ^ 970 = u at *
  rcases le_or_gt (2 ^ 54 * u) x with large | bounded
  · exact iff_of_true (le_nearest hx least large) (by linarith)
  rcases le_or_gt x (2 ^ 53 * u) with low | high
  · have rounded := nearest_le hx half low
    exact iff_of_false (by linarith) (by linarith)
  · have unit_eq := top high.le bounded
    calc 2 ^ 54 * u ≤ nearest x
      _ ↔ ((2 ^ 53 : Nat) : Rat) * 2 ^ place x ≤ nearest x := by
        rw [unit_eq]
        push_cast
        constructor <;> intro h <;> linarith
      _ ↔ 2 ^ 53 ≤ significand x.num.natAbs x.den := by
        rw [nearest, mul_le_mul_iff_left₀ (by rw [unit_eq]; positivity), Nat.cast_le]
      _ ↔ 2 ^ 54 * u - u ≤ x := by
        rw [le_significand_iff hx, unit_eq]
        push_cast
        constructor
        · rintro (less | ⟨same, _⟩) <;> linarith
        · intro h
          rcases h.lt_or_eq with less | same
          · exact .inl (by linarith)
          · exact .inr ⟨by linarith, by norm_num⟩

/-- The bits of a double, counted on past the largest one, reach those of infinity where its value
reaches `2 ^ 1024`. -/
theorem infinityBits_le {n m : Nat} (most : m ≤ 2 ^ 53) (least : n = 0 ∨ 2 ^ 52 ≤ m) :
    infinityBits ≤ n * leadingBit + m ↔ (2 : Rat) ^ 1024 ≤ m * 2 ^ (n - 1074 : Int) := by
  simp only [infinityBits, leadingBit]
  rcases Nat.lt_trichotomy n 2045 with below | rfl | above
  · refine iff_of_false (by omega) (not_le.mpr ?_)
    calc (m : Rat) * 2 ^ (n - 1074 : Int)
      _ ≤ 2 ^ 53 * 2 ^ (970 : Int) := by
        gcongr
        · exact_mod_cast most
        · exact one_le_two
        · omega
      _ = 2 ^ 1023 := by rw [← zpow_natCast, ← zpow_add₀ two_ne_zero]; rfl
      _ < 2 ^ 1024 := pow_lt_pow_right₀ one_lt_two (Nat.lt_succ_self _)
  · have value : (2 : Rat) ^ 1024 = (2 ^ 53 : Nat) * 2 ^ ((2045 : Nat) - 1074 : Int) := by
      rw [Nat.cast_pow, ← zpow_natCast, ← zpow_natCast, Nat.cast_two, ← zpow_add₀ two_ne_zero]
      rfl
    rw [value, mul_le_mul_iff_left₀ (by positivity), Nat.cast_le]
    omega
  · refine iff_of_true (by omega) ?_
    calc (2 : Rat) ^ 1024
      _ = 2 ^ 52 * 2 ^ (972 : Int) := by
        rw [← zpow_natCast, ← zpow_natCast, ← zpow_add₀ two_ne_zero]
        rfl
      _ ≤ m * 2 ^ (n - 1074 : Int) := by
        gcongr
        · exact_mod_cast least.resolve_left (by omega)
        · exact one_le_two
        · omega

theorem magnitudeBits_eq (hx : 0 < x) :
    magnitudeBits x.num.natAbs x.den =
      (place x + 1074).toNat * leadingBit + significand x.num.natAbs x.den :=
  if_neg (Int.natAbs_ne_zero.mpr (Rat.num_pos.mpr hx).ne')

theorem le_significand (hx : 0 < x) :
    place x = -1074 ∨ 2 ^ 52 ≤ significand x.num.natAbs x.den := by
  rcases (place_bounds hx).2 with reached | subnormal
  · have unit : (0 : Rat) < 2 ^ place x := by positivity
    have bound := mul_le_nearest (k := 2 ^ 52) hx.le (by exact_mod_cast reached)
    exact .inr (by exact_mod_cast le_of_mul_le_mul_right bound unit)
  · exact .inl subnormal

theorem isInfinite_iff (hx : 0 < x) :
    infinityBits ≤ magnitudeBits x.num.natAbs x.den ↔ (2 : Rat) ^ 1024 ≤ nearest x := by
  obtain ⟨n, place_eq⟩ : ∃ n : Nat, place x = n - 1074 :=
    ⟨(place x + 1074).toNat, by have := le_place hx; omega⟩
  have least := le_significand hx
  rw [magnitudeBits_eq hx, nearest, place_eq, Int.sub_add_cancel, Int.toNat_natCast]
  exact infinityBits_le (significand_le hx) (least.imp_left (by omega))

theorem ofRat_of_nonneg (hx : 0 ≤ x) :
    ofRat x = if (2 : Rat) ^ 1024 ≤ nearest x then .infinite false else .finite (nearest x) := by
  rcases hx.eq_or_lt with rfl | positive
  · rw [nearest_zero, if_neg (not_le.mpr (by positivity))]
    rfl
  · have num : 0 < x.num := Rat.num_pos.mpr positive
    have sign : ¬ x.num < 0 := not_lt.mpr num.le
    simp only [ofRat, if_neg num.ne', isInfinite_iff positive, sign, decide_false, if_false,
      twoPow_eq]
    rfl

theorem Exact.mul_two_pow (h : Exact x) (k : Nat) : Exact (x * 2 ^ k) := by
  obtain ⟨m, e, hm, he, rfl⟩ := h
  refine ⟨m, e + k, hm, by omega, ?_⟩
  rw [zpow_add₀ two_ne_zero, zpow_natCast, mul_assoc]

theorem exact_two_pow (k : Nat) : Exact (2 ^ k) := by
  simpa using Exact.mul_two_pow (x := 1) ⟨1, 0, by norm_num, by norm_num, by simp⟩ k

theorem exact_one : Exact 1 := exact_two_pow 0

theorem exact_intCast {i : Int} (hi : 0 ≤ i) (small : i ≤ 2 ^ 53) : Exact i := by
  lift i to Nat using hi
  exact ⟨i, 0, by exact_mod_cast small, by norm_num, by simp⟩

theorem two_pow_lt {k : Nat} (h : k < 1024) : (2 : Rat) ^ k < 2 ^ 1024 :=
  pow_lt_pow_right₀ one_lt_two h

theorem ofRat_of_exact (h : Exact x) (bounded : x < 2 ^ 1024) : ofRat x = .finite x := by
  rw [ofRat_of_nonneg h.nonneg, nearest_of_exact h, if_neg (not_le.mpr bounded)]

theorem ofRat_of_le (hx : 0 ≤ x) (h : Exact y) (le : x ≤ y) (bounded : y < 2 ^ 1024) :
    ofRat x = .finite (nearest x) := by
  rw [ofRat_of_nonneg hx, if_neg (not_le.mpr ((nearest_le hx h le).trans_lt bounded))]

theorem min_finite (x y : Rat) :
    Double.min (.finite x) (.finite y) = .finite (Min.min x y) := by
  simp only [Double.min, less, decide_eq_true_eq]
  split
  · next h => rw [min_eq_right h.le]
  · next h => rw [min_eq_left (not_lt.mp h)]

end Nearest

end Double

end Parley
