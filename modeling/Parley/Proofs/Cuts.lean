import Mathlib.Data.List.DropRight
import Mathlib.Data.List.Infix
import Mathlib.Data.List.TakeDrop
import Mathlib.Data.List.TakeWhile
import Parley.Bytes

/-!
Where byte strings are cut, and what the parts are.

* `span_append`: where bytes of one kind end;
* `splitFirst?_divides`, `splitLast?_divides`: at the first separator and at the last one;
* `trimEnd_append`, `trimEnd_trimEnd_append`: before the bytes of one kind that a string ends in.
-/
namespace Parley

namespace Bytes

/-- Bytes of one kind are cut off where those of another kind begin. -/
theorem span_append {p : UInt8 → Bool} {front rest : Bytes} (all : ∀ b ∈ front, p b)
    (stops : ∀ b ∈ rest.head?, p b = false) : (front ++ rest).span p = (front, rest) := by
  rw [List.span_eq_takeWhile_dropWhile, List.takeWhile_append_of_pos all,
    List.dropWhile_append_of_pos all]
  cases rest with
  | nil => simp
  | cons b rest => simp [stops b rfl]

theorem after?_eq (start s : Bytes) :
    after? start s = if start.isPrefixOf s then some (s.drop start.length) else none := by
  induction start generalizing s with
  | nil => simp [after?]
  | cons a start ih =>
    cases s with
    | nil => rfl
    | cons b s =>
      by_cases h : a = b
      · simpa [after?, List.isPrefixOf, h] using ih s
      · simp [after?, List.isPrefixOf, h]

section Split
variable {separator head rest s : Bytes} {b : UInt8}

/-- What precedes the first occurrence of a separator has none in it. -/
theorem splitFirst?_divides (ne : separator ≠ [])
    (h : splitFirst? separator s = some (head, rest)) :
    s = head ++ (separator ++ rest) ∧ ¬ separator <:+: head := by
  induction s generalizing head with
  | nil => cases h
  | cons b s ih =>
    rw [splitFirst?, after?_eq] at h
    by_cases starts : separator.isPrefixOf (b :: s)
    · rw [if_pos starts] at h
      cases h
      obtain ⟨after, same⟩ := List.isPrefixOf_iff_prefix.mp starts
      constructor
      · rw [← same, List.drop_left, List.nil_append]
      · simpa using ne
    · rw [if_neg starts] at h
      obtain ⟨⟨front, after⟩, found, same⟩ := Option.map_eq_some_iff.mp h
      cases same
      obtain ⟨s_eq, free⟩ := ih found
      constructor
      · rw [s_eq, List.cons_append]
      · rw [List.infix_cons_iff]
        rintro (begins | inside)
        · apply starts
          rw [List.isPrefixOf_iff_prefix, s_eq, ← List.cons_append]
          exact begins.trans (List.prefix_append _ _)
        · exact free inside

theorem splitLast?_eq_none_iff : splitLast? b s = none ↔ b ∉ s := by
  induction s with
  | nil => simp [splitLast?]
  | cons c s ih =>
    rw [splitLast?, List.mem_cons, not_or, ← ih]
    cases splitLast? b s with
    | none => by_cases same : c = b <;> simp [same, Ne.symm]
    | some divided => simp

/-- What follows the last occurrence of a byte has none in it. -/
theorem splitLast?_divides (h : splitLast? b s = some (head, rest)) :
    s = head ++ b :: rest ∧ b ∉ rest := by
  induction s generalizing head with
  | nil => cases h
  | cons c s ih =>
    rw [splitLast?] at h
    cases later : splitLast? b s with
    | none =>
      rw [later] at h
      by_cases same : c = b
      · simp only [if_pos same] at h
        cases h
        exact ⟨by rw [same, List.nil_append], splitLast?_eq_none_iff.mp later⟩
      · simp only [if_neg same] at h
        cases h
    | some divided =>
      rw [later] at h
      cases h
      obtain ⟨s_eq, free⟩ := ih later
      exact ⟨by rw [s_eq, List.cons_append], free⟩

theorem splitLast?_append (head : Bytes) (free : b ∉ rest) :
    splitLast? b (head ++ b :: rest) = some (head, rest) := by
  induction head with
  | nil => simp [splitLast?, splitLast?_eq_none_iff.mpr free]
  | cons c head ih => rw [List.cons_append, splitLast?, ih]

end Split

section Trim
variable (p : UInt8 → Bool) (s t : Bytes)

theorem trimEnd_eq_rdropWhile : trimEnd p s = s.rdropWhile p := rfl

theorem trimEnd_append :
    trimEnd p (s ++ t) = if trimEnd p t = [] then trimEnd p s else s ++ trimEnd p t := by
  simp only [trimEnd, List.reverse_append, List.dropWhile_append, List.reverse_eq_nil_iff,
    List.isEmpty_iff]
  split
  · rfl
  · rw [List.reverse_append, List.reverse_reverse]

theorem trimEnd_trimEnd_append : trimEnd p (trimEnd p s ++ t) = trimEnd p s ++ trimEnd p t := by
  rw [trimEnd_append]
  by_cases blank : trimEnd p t = []
  · rw [if_pos blank, blank, List.append_nil]
    exact List.rdropWhile_idempotent p s
  · rw [if_neg blank]

end Trim

end Bytes

end Parley
