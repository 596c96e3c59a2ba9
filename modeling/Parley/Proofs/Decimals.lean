import Mathlib.Algebra.Order.Floor.Ring
import Mathlib.Data.Rat.Floor
import Mathlib.Tactic.FieldSimp
import Mathlib.Tactic.GCongr
import Mathlib.Tactic.Linarith
import Mathlib.Tactic.NormNum
import Mathlib.Tactic.Positivity
import Mathlib.Tactic.Ring
import Parley.Proofs.Cuts
import Parley.Proofs.Rounding
import Parley.RetryAfter

/-!
The time a server asks for in plain decimals.

* `Decimal`: a plain decimal of any length among blanks, its text and the number it denotes;
* `Decimal.split_text`, `Decimal.seconds_eq`: such a text is taken apart as it was put together, and
  read as the number it denotes;
* `millis`, `parse_text`: the time it means, unless the number is too large for a double;
* `parse_grows`: more seconds never mean less time, up to the numbers that are too large.
-/
namespace Parley

namespace Bytes

theorem decimalValue_concat (s : Bytes) (b : UInt8) :
    decimalValue (s ++ [b]) = 10 * decimalValue s + digitValue b := by
  simp [decimalValue]

theorem decimalValue_append (s t : Bytes) :
    decimalValue (s ++ t) = decimalValue s * 10 ^ t.length + decimalValue t := by
  induction t using List.reverseRecOn with
  | nil => simp [decimalValue]
  | append_singleton t b ih =>
    rw [← List.append_assoc, decimalValue_concat, ih, decimalValue_concat, List.length_append,
      List.length_singleton, pow_succ]
    ring

end Bytes

namespace RetryAfter

theorem isBlank_of_isDigit {b : UInt8} (h : Bytes.isDigit b) : isBlank b = false := by
  rw [isBlank, Bool.or_eq_false_iff]
  constructor <;> refine decide_eq_false ?_ <;> rintro rfl <;> exact absurd h (by decide)

theorem dropWhile_unblank {s : Bytes} (h : ∀ b ∈ s, isBlank b = false) :
    s.dropWhile isBlank = s := by
  cases s with
  | nil => rfl
  | cons b s => exact List.dropWhile_cons_of_neg (by simp [h b List.mem_cons_self])

theorem trim_padded {before text after : Bytes} (hb : ∀ b ∈ before, isBlank b)
    (ha : ∀ b ∈ after, isBlank b) (ne : text ≠ []) (h : ∀ b ∈ text, isBlank b = false) :
    trim (before ++ (text ++ after)) = text := by
  have start : (text ++ after).dropWhile isBlank = text ++ after := by
    cases text with
    | nil => exact absurd rfl ne
    | cons b s => exact List.dropWhile_cons_of_neg (by simp [h b List.mem_cons_self])
  have stop : text.reverse.dropWhile isBlank = text.reverse :=
    dropWhile_unblank fun b member => h b (List.mem_reverse.mp member)
  rw [trim, List.dropWhile_append_of_pos hb, start, Bytes.trimEnd, List.reverse_append,
    List.dropWhile_append_of_pos fun b member => ha b (List.mem_reverse.mp member), stop,
    List.reverse_reverse]

theorem isNumeric_of_isDigit {b : UInt8} (h : Bytes.isDigit b) : isNumeric b = true := by
  rw [isNumeric, h, Bool.true_or]

theorem span_all_digits {digits : Bytes} (h : ∀ b ∈ digits, Bytes.isDigit b) :
    digits.span Bytes.isDigit = (digits, []) := by
  have none : ∀ b ∈ ([] : Bytes).head?, Bytes.isDigit b = false := by simp
  simpa using Bytes.span_append h none

theorem leading_digits {whole : Bytes} (h : ∀ b ∈ whole, Bytes.isDigit b) :
    leading whole = ((whole, []), []) := by
  rw [leading, span_all_digits h]

theorem leading_point {whole places : Bytes} (h : ∀ b ∈ whole, Bytes.isDigit b)
    (h' : ∀ b ∈ places, Bytes.isDigit b) :
    leading (whole ++ byte '.' :: places) = ((whole, places), []) := by
  rw [leading, Bytes.span_append h (by simp [Bytes.isDigit])]
  simp only [if_true, span_all_digits h']

/-- A plain decimal among blanks: digits, and possibly a point with more digits after it. -/
structure Decimal where
  before : Bytes
  whole : Bytes
  /-- What follows the point, if there is one. -/
  places : Option Bytes
  after : Bytes
  before_blank : ∀ b ∈ before, isBlank b
  whole_ne : whole ≠ []
  whole_digits : ∀ b ∈ whole, Bytes.isDigit b
  places_digits : ∀ digits ∈ places, ∀ b ∈ digits, Bytes.isDigit b
  after_blank : ∀ b ∈ after, isBlank b

namespace Decimal
variable (d : Decimal)

/-- The point and what follows it. -/
def fraction : Bytes :=
  match d.places with
  | none => []
  | some digits => byte '.' :: digits

def text : Bytes := d.before ++ (d.whole ++ d.fraction ++ d.after)

/-- The number it denotes. -/
def value : Rat :=
  Bytes.decimalValue d.whole +
    Bytes.decimalValue (d.places.getD []) / 10 ^ (d.places.getD []).length

theorem fraction_numeric : ∀ b ∈ d.fraction, isNumeric b := by
  unfold fraction
  cases hp : d.places with
  | none => simp
  | some digits =>
    refine List.forall_mem_cons.mpr ⟨rfl, fun b member => ?_⟩
    exact isNumeric_of_isDigit (d.places_digits digits hp b member)

theorem trim_text : trim d.text = d.whole ++ d.fraction := by
  refine trim_padded d.before_blank d.after_blank (by simp [d.whole_ne]) fun b member => ?_
  rcases List.mem_append.mp member with digit | later
  · exact isBlank_of_isDigit (d.whole_digits b digit)
  · cases hp : d.places with
    | none => simp [fraction, hp] at later
    | some digits =>
      rw [fraction, hp, List.mem_cons] at later
      rcases later with rfl | digit
      · rfl
      · exact isBlank_of_isDigit (d.places_digits digits hp b digit)

theorem split_text : split? (trim d.text) = some (d.whole, d.places.getD []) := by
  obtain ⟨b, others, whole_eq⟩ := List.exists_cons_of_ne_nil d.whole_ne
  have first : (d.whole ++ d.fraction).head?.any Bytes.isDigit = true := by
    rw [whole_eq]
    exact d.whole_digits b (whole_eq ▸ List.mem_cons_self)
  have numeric : (d.whole ++ d.fraction).all isNumeric = true := by
    refine List.all_eq_true.mpr fun b member => ?_
    rcases List.mem_append.mp member with digit | later
    · exact isNumeric_of_isDigit (d.whole_digits b digit)
    · exact d.fraction_numeric b later
  have number : leading (d.whole ++ d.fraction) = ((d.whole, d.places.getD []), []) := by
    cases hp : d.places with
    | none => simpa [fraction, hp] using leading_digits d.whole_digits
    | some digits =>
      simpa [fraction, hp] using leading_point d.whole_digits (d.places_digits digits hp)
  rw [trim_text, split?, first, numeric, number]
  rfl

theorem seconds_eq : seconds d.whole (d.places.getD []) = d.value := by
  have power : ((Nat.pow 10 (d.places.getD []).length : Nat) : Rat) =
      10 ^ (d.places.getD []).length := Nat.cast_pow ..
  rw [seconds, value, power, Bytes.decimalValue_append]
  push_cast
  field_simp

theorem value_nonneg : 0 ≤ d.value := by
  unfold value
  positivity

end Decimal

section Rounded
open Double
variable {v w : Rat}

/-- The milliseconds that a number of seconds comes to: rounded to a double, cut off at the longest
time, multiplied and rounded again, and then rounded to an integer. -/
def millis (v : Rat) : Int := ⌊nearest (min (nearest v) longest * 1000) + 1 / 2⌋

theorem longest_exact : Exact longest := by
  simpa [longest] using exact_intCast (i := 1000000000) (by norm_num) (by norm_num)

theorem millis_mono (hv : 0 ≤ v) (h : v ≤ w) : millis v ≤ millis w := by
  have rounded := nearest_mono hv h
  have positive : 0 ≤ min (nearest v) longest :=
    le_min (exact_nearest hv).nonneg longest_exact.nonneg
  have product : min (nearest v) longest * 1000 ≤ min (nearest w) longest * 1000 := by gcongr
  exact Int.floor_le_floor (add_le_add_left (nearest_mono (by positivity) product) _)

theorem millis_of_le (h : longest ≤ v) : millis v = 1000000000000 := by
  have reached : longest ≤ nearest v :=
    le_nearest (longest_exact.nonneg.trans h) longest_exact h
  have product : nearest (longest * 1000) = 1000000000000 := by
    have eq : longest * 1000 = ((1000000000000 : Int) : Rat) := by norm_num [longest]
    rw [eq, nearest_of_exact (exact_intCast (by norm_num) (by norm_num))]
    norm_num
  rw [millis, min_eq_right reached, product]
  norm_num

theorem roundHalfUp_eq (x : Rat) : roundHalfUp (.finite x) = ⌊x + 1 / 2⌋ := by
  have den : (x.den : Rat) ≠ 0 := by exact_mod_cast x.den_ne_zero
  have eq : x + 1 / 2 = ((2 * x.num + x.den : Int) : Rat) / ((2 * x.den : Nat) : Rat) := by
    nth_rewrite 1 [← Rat.num_div_den x]
    push_cast
    field_simp
  rw [roundHalfUp, eq, Rat.floor_intCast_div_natCast]

end Rounded

open Double in
theorem parse_text (d : Decimal) :
    parse d.text = if 2 ^ 1024 - 2 ^ 970 ≤ d.value then fallback else millis d.value := by
  have positive := d.value_nonneg
  have rounded : 0 ≤ Min.min (nearest d.value) longest :=
    le_min (exact_nearest positive).nonneg longest_exact.nonneg
  have thousand : ofInt 1000 = .finite 1000 := by
    have small : ((1000 : Int) : Rat) < 2 ^ 10 := by norm_num
    rw [ofInt, ofRat_of_exact (exact_intCast (by norm_num) (by norm_num))
      (small.trans (two_pow_lt (by norm_num)))]
    norm_num
  have product : Min.min (nearest d.value) longest * 1000 ≤ 2 ^ 40 := by
    have most : Min.min (nearest d.value) longest ≤ 1000000000 := min_le_right ..
    linarith
  rw [parse, d.split_text]
  dsimp only
  rw [d.seconds_eq, ofRat_of_nonneg positive]
  by_cases large : (2 : Rat) ^ 1024 ≤ nearest d.value
  · rw [if_pos large, if_pos ((overflows_iff positive).mp large)]
  · rw [if_neg large, if_neg (mt (overflows_iff positive).mpr large)]
    dsimp only
    rw [min_finite, thousand, mul, ofRat_of_le (by positivity) (exact_two_pow 40) product
      (two_pow_lt (by norm_num)), roundHalfUp_eq, millis]

/-- Among plain decimals more seconds never mean less time, and a thousand million seconds or more
mean the longest time. This ends with the numbers that round beyond all doubles: they mean one
second. -/
theorem parse_grows (d : Decimal) :
    (d.value < 2 ^ 1024 - 2 ^ 970 →
      (∀ e : Decimal, e.value ≤ d.value → parse e.text ≤ parse d.text) ∧
      (10 ^ 9 ≤ d.value → parse d.text = 10 ^ 12)) ∧
    (2 ^ 1024 - 2 ^ 970 ≤ d.value → parse d.text = 1000) := by
  refine ⟨fun bounded => ⟨fun e le => ?_, fun long => ?_⟩, fun large => ?_⟩
  · rw [parse_text, parse_text, if_neg (not_le.mpr bounded),
      if_neg (not_le.mpr (le.trans_lt bounded))]
    exact millis_mono e.value_nonneg le
  · have long' : longest ≤ d.value := le_trans (by norm_num [longest]) long
    rw [parse_text, if_neg (not_le.mpr bounded), millis_of_le long']
    norm_num
  · rw [parse_text, if_pos large, fallback]

theorem parse_grows_until :
    let d : Decimal := {
      before := [], whole := byte '1' :: List.replicate 309 (byte '0'), places := none, after := []
      before_blank := by simp, whole_ne := List.cons_ne_nil _ _, whole_digits := by decide +kernel
      places_digits := by simp, after_blank := by simp }
    2 ^ 1024 - 2 ^ 970 ≤ d.value ∧ parse d.text = 1000 ∧ parse (ascii "2") = 2000 := by
  intro d
  have value : d.value = ((10 ^ 309 : Nat) : Rat) := by
    have digits : Bytes.decimalValue d.whole = 10 ^ 309 := by decide +kernel
    have places :
        (Bytes.decimalValue (d.places.getD []) : Rat) / 10 ^ (d.places.getD []).length = 0 :=
      zero_div _
    rw [Decimal.value, digits, places, add_zero]
  have large : (2 : Rat) ^ 1024 - 2 ^ 970 ≤ d.value :=
    calc (2 : Rat) ^ 1024 - 2 ^ 970
      _ ≤ 2 ^ 1024 := sub_le_self _ (by positivity)
      _ = ((2 ^ 1024 : Nat) : Rat) := by rw [Nat.cast_pow, Nat.cast_two]
      _ ≤ ((10 ^ 309 : Nat) : Rat) := Nat.cast_le.mpr (by decide +kernel)
      _ = d.value := value.symm
  exact ⟨large, (parse_grows d).2 large, by decide +kernel⟩

end RetryAfter

end Parley
