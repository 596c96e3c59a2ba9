import Mathlib.Data.List.Basic
import Parley.EventLines
import Parley.Proofs.Cuts

/-!
The payloads of a whole body, and what a search through a part of it has to do with them.

* `payloads` reads a body that is there in one piece;
* `search_divides`: a search cuts the payloads of every body that begins with the text it is given;
* `LineBuffer.next_divides`, `LineBuffer.flush_last`: the same for what a line buffer has yet to
  look at, and for a last line without a newline.
-/
namespace Parley

namespace EventLines

/-- The payloads of a body, in order: of every line that begins with the data mark, what follows
it. What follows the last newline is a line too. -/
def payloads (body : Bytes) : List Bytes :=
  (((body.splitOn newline).map stripReturn).filter dataMark.isPrefixOf).map
    (·.drop dataMark.length)

/-- The payloads of the complete lines of a text; what follows the last newline is none. -/
def completePayloads (text : Bytes) : List Bytes :=
  (((text.splitOn newline).dropLast.map stripReturn).filter dataMark.isPrefixOf).map
    (·.drop dataMark.length)

theorem payloads_of_lines (lines : List Bytes) :
    ((lines.map stripReturn).filter dataMark.isPrefixOf).map (·.drop dataMark.length) =
      lines.filterMap payload? := by
  unfold payload?
  induction lines with
  | nil => rfl
  | cons line lines ih =>
    simp only [List.map_cons, List.filter_cons, List.filterMap_cons, Bytes.after?_eq] at ih ⊢
    by_cases h : dataMark.isPrefixOf (stripReturn line) = true
    · simp only [h, if_true, List.map_cons, ih]
    · simp only [h, if_false, ih, Bool.false_eq_true]

theorem payloads_eq_filterMap (body : Bytes) :
    payloads body = (body.splitOn newline).filterMap payload? := payloads_of_lines _

theorem completePayloads_eq_filterMap (text : Bytes) :
    completePayloads text = (text.splitOn newline).dropLast.filterMap payload? :=
  payloads_of_lines _

theorem payloads_line {line : Bytes} (h : newline ∉ line) (rest : Bytes) :
    payloads (line ++ newline :: rest) = (payload? line).toList ++ payloads rest := by
  rw [payloads_eq_filterMap, payloads_eq_filterMap, List.splitOn_append_cons_self_of_not_mem h]
  cases hp : payload? line <;> simp [hp]

theorem payloads_last {line : Bytes} (h : newline ∉ line) :
    payloads line = (payload? line).toList := by
  rw [payloads_eq_filterMap, List.splitOn_eq_singleton h]
  cases hp : payload? line <;> simp [hp]

@[simp] theorem payloads_nil : payloads [] = [] := rfl

theorem completePayloads_line {line : Bytes} (h : newline ∉ line) (rest : Bytes) :
    completePayloads (line ++ newline :: rest) =
      (payload? line).toList ++ completePayloads rest := by
  have more : rest.splitOn newline ≠ [] := List.splitOn_ne_nil _ _
  rw [completePayloads_eq_filterMap, completePayloads_eq_filterMap,
    List.splitOn_append_cons_self_of_not_mem h, List.dropLast_cons_of_ne_nil more]
  cases hp : payload? line <;> simp [hp]

theorem completePayloads_last {line : Bytes} (h : newline ∉ line) : completePayloads line = [] := by
  rw [completePayloads_eq_filterMap, List.splitOn_eq_singleton h]
  rfl

/-- Every complete line takes a byte at least. -/
theorem length_completePayloads_le (text : Bytes) :
    (completePayloads text).length ≤ text.length := by
  have lines_le : (text.splitOn newline).length ≤ text.length + 1 := by
    induction text with
    | nil => simp
    | cons b text ih =>
      rw [List.splitOn_cons_eq_if_modifyHead]
      split <;> simp <;> omega
  calc (completePayloads text).length
    _ ≤ (text.splitOn newline).dropLast.length := by
      rw [completePayloads_eq_filterMap]
      exact List.length_filterMap_le ..
    _ ≤ text.length := by
      rw [List.length_dropLast]
      omega

variable {α : Type}

/-- How a search divides a text: the payloads it passes over, the one it stops at, if there is one,
the part it looks at and the rest. It divides in the same way the payloads of every body that begins
with the text, and those of the complete lines of every such text. -/
structure Divides (accept : Bytes → Option α) (text : Bytes) (passed : List Bytes)
    (hit : Option Bytes) (seen rest : Bytes) : Prop where
  covers : text = seen ++ rest
  useless : ∀ q ∈ passed, accept q = none
  useful : ∀ q ∈ hit, accept q ≠ none
  exhausted : hit = none → newline ∉ rest
  payloads_eq : ∀ tail, payloads (text ++ tail) = passed ++ hit.toList ++ payloads (rest ++ tail)
  complete_eq : ∀ tail, completePayloads (text ++ tail) =
    passed ++ hit.toList ++ completePayloads (rest ++ tail)

namespace Divides

variable {accept : Bytes → Option α} {line text : Bytes}

/-- A search stops only at a payload that can be used. -/
theorem none_of_bind {passed : List Bytes} {hit : Option Bytes} {seen rest : Bytes}
    (d : Divides accept text passed hit seen rest) (useless : hit.bind accept = none) :
    hit = none := by
  cases hit with
  | none => rfl
  | some q => exact absurd useless (d.useful q rfl)

/-- Of a line whose newline has not been found, nothing is known. -/
theorem unfinished (h : newline ∉ line) : Divides accept line [] none [] line where
  covers := rfl
  useless := by simp
  useful := by simp
  exhausted _ := h
  payloads_eq _ := rfl
  complete_eq _ := rfl

/-- The search stops after a line with a payload that can be used. -/
theorem stop (h : newline ∉ line) {q : Bytes} (payload : payload? line = some q)
    (use : accept q ≠ none) :
    Divides accept (line ++ newline :: text) [] (some q) (line ++ [newline]) text where
  covers := by simp
  useless := by simp
  useful := by simpa using use
  exhausted := by simp
  payloads_eq tail := by simp [payloads_line h, payload]
  complete_eq tail := by simp [completePayloads_line h, payload]

/-- The search goes on after a line without a payload that can be used. -/
theorem skip {passed : List Bytes} {hit : Option Bytes} {seen rest : Bytes}
    (h : newline ∉ line) (use : ∀ q ∈ payload? line, accept q = none)
    (d : Divides accept text passed hit seen rest) :
    Divides accept (line ++ newline :: text) ((payload? line).toList ++ passed) hit
      (line ++ newline :: seen) rest where
  covers := by simp [← d.covers]
  useless q member := by
    rcases List.mem_append.mp member with first | later
    · exact use q (Option.mem_toList.mp first)
    · exact d.useless q later
  useful := d.useful
  exhausted := d.exhausted
  payloads_eq tail := by
    rw [List.append_assoc, List.cons_append, payloads_line h, d.payloads_eq]
    simp only [List.append_assoc]
  complete_eq tail := by
    rw [List.append_assoc, List.cons_append, completePayloads_line h, d.complete_eq]
    simp only [List.append_assoc]

section More
variable {passed passed' : List Bytes} {hit : Option Bytes} {seen seen' rest rest' data : Bytes}

/-- Where nothing was found, the search goes on when more has come in. -/
theorem append (d : Divides accept text passed none seen rest)
    (d' : Divides accept (rest ++ data) passed' hit seen' rest') :
    Divides accept (text ++ data) (passed ++ passed') hit (seen ++ seen') rest' where
  covers := by rw [d.covers, List.append_assoc, d'.covers, List.append_assoc]
  useless q member := (List.mem_append.mp member).elim (d.useless q) (d'.useless q)
  useful := d'.useful
  exhausted := d'.exhausted
  payloads_eq tail := by
    rw [List.append_assoc, d.payloads_eq, ← List.append_assoc rest, d'.payloads_eq]
    simp
  complete_eq tail := by
    rw [List.append_assoc, d.complete_eq, ← List.append_assoc rest, d'.complete_eq]
    simp

end More

end Divides

theorem search_newline (accept : Bytes → Option α) (consumed : Nat) (refused : List Bytes)
    (line text : Bytes) :
    search accept consumed refused line (newline :: text) =
      match (payload? line.reverse).bind accept with
      | some a => ⟨some a, refused.reverse, consumed + line.length + 1⟩
      | none =>
        search accept (consumed + line.length + 1) ((payload? line.reverse).toList ++ refused) []
          text := by
  rw [search, if_pos rfl]
  cases payload? line.reverse with
  | none => rfl
  | some q => cases h : accept q <;> simp [h]

theorem search_other (accept : Bytes → Option α) (consumed : Nat) (refused : List Bytes)
    (line text : Bytes) {b : UInt8} (h : b ≠ newline) :
    search accept consumed refused line (b :: text) =
      search accept consumed refused (b :: line) text := by
  rw [search, if_neg h]

theorem search_of_no_newline (accept : Bytes → Option α) (consumed : Nat) (refused : List Bytes)
    {text : Bytes} (h : newline ∉ text) (line : Bytes) :
    search accept consumed refused line text = ⟨none, refused.reverse, consumed⟩ := by
  induction text generalizing line with
  | nil => rfl
  | cons b text ih =>
    obtain ⟨first, others⟩ := not_or.mp (mt List.mem_cons.mpr h)
    rw [search_other accept consumed refused line text (Ne.symm first), ih others]

/-- A search that began in the middle of a line divides the text from the beginning of that line
on. -/
theorem search_divides (accept : Bytes → Option α) (text : Bytes) :
    ∀ (consumed : Nat) (refused : List Bytes) (line : Bytes), newline ∉ line →
      ∃ passed hit seen rest, Divides accept (line.reverse ++ text) passed hit seen rest ∧
        search accept consumed refused line text =
          ⟨hit.bind accept, refused.reverse ++ passed, consumed + seen.length⟩ := by
  induction text with
  | nil =>
    intro consumed refused line h
    refine ⟨_, _, _, _, .unfinished (by simpa using h), ?_⟩
    simp [search]
  | cons b text ih =>
    intro consumed refused line h
    by_cases hb : b = newline
    · subst hb
      have h' : newline ∉ line.reverse := by simpa using h
      rw [search_newline]
      cases use : (payload? line.reverse).bind accept with
      | some a =>
        obtain ⟨q, payload, hq⟩ := Option.bind_eq_some_iff.mp use
        refine ⟨_, _, _, _, .stop h' payload (by simp [hq]), ?_⟩
        simp [hq]
        omega
      | none =>
        have useless : ∀ q ∈ payload? line.reverse, accept q = none :=
          Option.bind_eq_none_iff.mp use
        obtain ⟨passed, hit, seen, rest, d, hd⟩ :=
          ih (consumed + line.length + 1) ((payload? line.reverse).toList ++ refused) [] (by simp)
        refine ⟨_, _, _, _, .skip h' useless d, ?_⟩
        rw [hd]
        cases payload? line.reverse <;> simp <;> omega
    · have h' : newline ∉ b :: line := by
        simp only [List.mem_cons, not_or]
        exact ⟨Ne.symm hb, h⟩
      obtain ⟨passed, hit, seen, rest, d, hd⟩ := ih consumed refused (b :: line) h'
      refine ⟨passed, hit, seen, rest, ?_, ?_⟩
      · simpa using d
      · rw [search_other accept consumed refused line text hb, hd]

end EventLines

namespace LineBuffer

open EventLines

variable {α : Type}

/-- What has yet to be looked at. -/
def unread (b : LineBuffer) : Bytes := b.bytes.drop b.consumed

@[simp] theorem unread_compact (b : LineBuffer) : b.compact.unread = b.unread := rfl

/-- What comes in after the bytes that were looked at have been dropped is looked at later. -/
@[simp] theorem unread_compact_append (b : LineBuffer) (data : Bytes) :
    (b.compact.append data).unread = b.unread ++ data := rfl

theorem next_divides (accept : Bytes → Option α) (b : LineBuffer) :
    ∃ passed hit seen rest, Divides accept b.unread passed hit seen rest ∧
      b.next accept = ⟨hit.bind accept, passed, b.consumed + seen.length⟩ ∧
      b.bytes.drop (b.consumed + seen.length) = rest := by
  obtain ⟨passed, hit, seen, rest, d, hd⟩ :=
    search_divides accept b.unread b.consumed [] [] (by simp)
  refine ⟨passed, hit, seen, rest, d, hd, ?_⟩
  have covers : b.bytes.drop b.consumed = seen ++ rest := d.covers
  rw [← List.drop_drop, covers, List.drop_left]

/-- Where no newline is left, a flush takes the rest for a line. -/
theorem flush_last (accept : Bytes → Option α) (b : LineBuffer) (h : newline ∉ b.unread) :
    (b.flush accept).payload = (payload? b.unread).bind accept ∧
      (b.flush accept).refused = (payload? b.unread).toList.filter fun q => (accept q).isNone := by
  have searched : b.next accept = ⟨none, [], b.consumed⟩ :=
    search_of_no_newline accept b.consumed [] h []
  simp only [flush, searched, Option.isSome_none, Bool.false_or, decide_eq_true_eq,
    List.nil_append]
  rw [show b.bytes.drop b.consumed = b.unread from rfl]
  split
  · next looked =>
    have empty : b.unread = [] := List.drop_eq_nil_of_le looked
    have none : payload? ([] : Bytes) = none := rfl
    simp [empty, none]
  · cases payload? b.unread with
    | none => simp
    | some q => cases hq : accept q <;> simp [hq]

end LineBuffer

end Parley
