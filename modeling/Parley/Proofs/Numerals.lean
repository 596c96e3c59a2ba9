import Mathlib.Data.List.TakeWhile
import Parley.Proofs.Decimals
import Parley.Proofs.Waits

/-!
Which texts are taken for a time, and how long that can get.

* `of_leading`, `of_split`: what is left of a text that has passed all tests is digits, and possibly
  a point with more digits after it;
* `taken_iff`: the texts that are taken are the plain decimals among blanks;
* `millis_le`, `millis_natCast`: the longest time, and whole seconds;
* `parse_reads`: the bounds of the time for any text at all, what is not taken, and what is exact.
-/
namespace Parley

namespace Bytes

theorem decimalValue_zeros {s : Bytes} (h : ∀ b ∈ s, b = byte '0') : decimalValue s = 0 := by
  induction s using List.reverseRecOn with
  | nil => rfl
  | append_singleton s b ih =>
    obtain rfl : b = byte '0' := h b (List.mem_append_right s List.mem_cons_self)
    rw [decimalValue_concat, ih fun b member => h b (List.mem_append_left _ member)]
    rfl

end Bytes

namespace RetryAfter

variable {s whole places : Bytes}

/-- A text that is one number to its end is digits, and possibly a point with more digits. -/
theorem of_leading (h : leading s = ((whole, places), [])) :
    (∀ b ∈ whole, Bytes.isDigit b) ∧ (∀ b ∈ places, Bytes.isDigit b) ∧
      (s = whole ∧ places = [] ∨ s = whole ++ byte '.' :: places) := by
  have joined : s.takeWhile Bytes.isDigit ++ s.dropWhile Bytes.isDigit = s :=
    List.takeWhile_append_dropWhile
  rw [leading, List.span_eq_takeWhile_dropWhile] at h
  cases rest : s.dropWhile Bytes.isDigit with
  | nil =>
    rw [rest, List.append_nil] at joined
    simp only [rest, Prod.mk.injEq, and_true] at h
    obtain ⟨rfl, rfl⟩ := h
    exact ⟨fun _ => List.mem_takeWhile_imp, by simp, .inl ⟨joined.symm, rfl⟩⟩
  | cons b others =>
    rw [rest] at joined
    by_cases point : b = byte '.'
    · simp only [rest, point, if_true, List.span_eq_takeWhile_dropWhile, Prod.mk.injEq] at h
      obtain ⟨⟨rfl, rfl⟩, ended⟩ := h
      have all : others.takeWhile Bytes.isDigit ++ others.dropWhile Bytes.isDigit = others :=
        List.takeWhile_append_dropWhile
      rw [ended, List.append_nil] at all
      refine ⟨fun _ => List.mem_takeWhile_imp, fun _ => List.mem_takeWhile_imp, .inr ?_⟩
      rw [all, ← point, joined]
    · simp only [rest, if_neg point] at h
      cases h

theorem of_split (h : split? s = some (whole, places)) :
    whole ≠ [] ∧ (∀ b ∈ whole, Bytes.isDigit b) ∧ (∀ b ∈ places, Bytes.isDigit b) ∧
      (s = whole ∧ places = [] ∨ s = whole ++ byte '.' :: places) := by
  rw [split?] at h
  split at h
  · next tests =>
    rcases number_eq : leading s with ⟨number, rest⟩
    rw [number_eq] at h
    cases rest with
    | cons b rest => cases h
    | nil =>
      cases h
      obtain ⟨digits, more, shape⟩ := of_leading number_eq
      refine ⟨?_, digits, more, shape⟩
      rintro rfl
      -- a text that begins with a digit does not begin with a point
      rcases shape with ⟨rfl, -⟩ | rfl
      · cases tests
      · cases tests
  · cases h

theorem trim_divides (s : Bytes) : ∃ before after, (∀ b ∈ before, isBlank b) ∧
    (∀ b ∈ after, isBlank b) ∧ s = before ++ (trim s ++ after) := by
  refine ⟨s.takeWhile isBlank, ((s.dropWhile isBlank).reverse.takeWhile isBlank).reverse,
    fun _ => List.mem_takeWhile_imp,
    fun _ member => List.mem_takeWhile_imp (List.mem_reverse.mp member), ?_⟩
  rw [trim, Bytes.trimEnd, ← List.reverse_append, List.takeWhile_append_dropWhile,
    List.reverse_reverse, List.takeWhile_append_dropWhile]

/-- The texts that are taken for a number are the plain decimals among blanks. -/
theorem taken_iff (value : Bytes) :
    (split? (trim value)).isSome ↔ ∃ d : Decimal, d.text = value := by
  constructor
  · intro taken
    obtain ⟨⟨whole, places⟩, split⟩ := Option.isSome_iff_exists.mp taken
    obtain ⟨whole_ne, digits, more, shape⟩ := of_split split
    obtain ⟨before, after, before_blank, after_blank, value_eq⟩ := trim_divides value
    rcases shape with ⟨trim_eq, -⟩ | trim_eq
    · rw [trim_eq] at value_eq
      exact ⟨⟨before, whole, none, after, before_blank, whole_ne, digits, by simp, after_blank⟩,
        by simp [Decimal.text, Decimal.fraction, value_eq]⟩
    · rw [trim_eq] at value_eq
      have places_digits : ∀ digits ∈ some places, ∀ b ∈ digits, Bytes.isDigit b := by
        simpa using more
      exact ⟨⟨before, whole, some places, after, before_blank, whole_ne, digits, places_digits,
        after_blank⟩, by simp [Decimal.text, Decimal.fraction, value_eq]⟩
  · rintro ⟨d, rfl⟩
    rw [d.split_text]
    rfl

section Rounded
open Double
variable {v : Rat}

theorem millis_le (hv : 0 ≤ v) : millis v ≤ 1000000000000 := by
  rcases le_total v longest with short | long
  · exact (millis_mono hv short).trans_eq (millis_of_le le_rfl)
  · exact (millis_of_le long).le

/-- Whole seconds are not rounded. -/
theorem millis_natCast {n : Nat} (h : n ≤ 10 ^ 9) : millis n = 1000 * n := by
  have short : (n : Rat) ≤ longest := by
    rw [longest]
    exact_mod_cast h
  have seconds : Exact (n : Rat) := by
    exact_mod_cast exact_intCast (i := n) (by omega) (by omega)
  have product : (n : Rat) * 1000 = ((1000 * n : Int) : Rat) := by
    push_cast
    ring
  have exact : Exact ((1000 * n : Int) : Rat) := exact_intCast (by omega) (by omega)
  rw [millis, nearest_of_exact seconds, min_eq_left short, product, nearest_of_exact exact,
    Int.floor_intCast_add]
  norm_num

end Rounded

theorem Decimal.value_of_zeros {d : Decimal} (zeros : ∀ b ∈ d.places.getD [], b = byte '0') :
    d.value = Bytes.decimalValue d.whole := by
  rw [value, Bytes.decimalValue_zeros zeros, Nat.cast_zero, zero_div, add_zero]

/-- Whatever a server asks for, the time is between nothing and a thousand million seconds. It is
one second unless the text is a plain decimal among blanks, and a whole number of seconds up to a
thousand million is taken exactly. -/
theorem parse_reads (value : Bytes) :
    (0 ≤ parse value ∧ parse value ≤ 10 ^ 12) ∧
      ((∀ d : Decimal, d.text ≠ value) → parse value = 1000) ∧
      ∀ d : Decimal, d.text = value → Bytes.decimalValue d.whole ≤ 10 ^ 9 →
        (∀ b ∈ d.places.getD [], b = byte '0') →
          parse value = 1000 * Bytes.decimalValue d.whole := by
  have other (foreign : ∀ d : Decimal, d.text ≠ value) : parse value = 1000 := by
    have refused : split? (trim value) = none := by
      rw [← Option.not_isSome_iff_eq_none, taken_iff]
      rintro ⟨d, text_eq⟩
      exact foreign d text_eq
    rw [parse, refused]
    rfl
  refine ⟨⟨parse_nonneg value, ?_⟩, other, ?_⟩
  · by_cases taken : ∃ d : Decimal, d.text = value
    · obtain ⟨d, rfl⟩ := taken
      rw [parse_text]
      split
      · decide
      · exact millis_le d.value_nonneg
    · rw [other fun d text_eq => taken ⟨d, text_eq⟩]
      decide
  · rintro d rfl small zeros
    have whole := Decimal.value_of_zeros zeros
    have bounded : ¬ (2 : Rat) ^ 1024 - 2 ^ 970 ≤ d.value := by
      have most : (Bytes.decimalValue d.whole : Rat) ≤ 10 ^ 9 := by exact_mod_cast small
      have large : (10 : Rat) ^ 9 < 2 ^ 1024 - 2 ^ 970 := by
        have one : (1 : Rat) ≤ 2 ^ 970 := one_le_pow₀ one_le_two
        have power : (2 : Rat) ^ 1024 = 2 ^ 54 * 2 ^ 970 := by rw [← pow_add]
        rw [power]
        generalize (2 : Rat) ^ 970 = step at one
        linarith
      rw [whole, not_le]
      exact most.trans_lt large
    rw [parse_text, if_neg bounded, whole, millis_natCast small]

/-- Twelve seconds among blanks, and a text with two points. -/
theorem parse_reads_padded :
    let d : Decimal := {
      before := ascii " \t", whole := ascii "0012", places := some (ascii "000")
      after := ascii "\t", before_blank := by decide +kernel, whole_ne := List.cons_ne_nil _ _
      whole_digits := by decide +kernel, places_digits := by decide +kernel
      after_blank := by decide +kernel }
    d.text = ascii " \t0012.000\t" ∧ parse (ascii " \t0012.000\t") = 12000 ∧
      (∀ d : Decimal, d.text ≠ ascii "1.2.3") ∧ parse (ascii "1.2.3") = 1000 := by
  intro d
  have text_eq : d.text = ascii " \t0012.000\t" := by decide +kernel
  have two : ∀ d : Decimal, d.text ≠ ascii "1.2.3" := by
    have refused : ¬ (split? (trim (ascii "1.2.3"))).isSome := by decide +kernel
    exact fun d text_eq => refused ((taken_iff _).mpr ⟨d, text_eq⟩)
  have whole := (parse_reads (ascii " \t0012.000\t")).2.2 d text_eq (by decide +kernel)
    (by decide +kernel)
  exact ⟨text_eq, whole, two, (parse_reads (ascii "1.2.3")).2.1 two⟩

end RetryAfter

end Parley
