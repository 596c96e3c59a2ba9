import Parley.Bytes

/-!
Finite maps from byte strings, kept in the order of their keys. One shape serves the members of a
JSON object, the headers of a response and the handles a caller holds, because all three are
listed in that order.
-/
namespace Parley

abbrev Table (α : Type) := List (Bytes × α)

namespace Table

variable {α : Type}

def get? (key : Bytes) : Table α → Option α
  | [] => none
  | (k, a) :: t => if k = key then some a else get? key t

/-- Puts a value in place of the one at a key. -/
def replace (key : Bytes) (value : α) : Table α → Table α
  | [] => []
  | (k, a) :: t => if k = key then (key, value) :: t else (k, a) :: replace key value t

/-- Puts an entry in front of the first one with a greater key. -/
def place (key : Bytes) (value : α) : Table α → Table α
  | [] => [(key, value)]
  | (k, a) :: t =>
    if key.before k then (key, value) :: (k, a) :: t else (k, a) :: place key value t

/-- Puts a value at a key, in place of the one that was there. -/
def insert (key : Bytes) (value : α) (t : Table α) : Table α :=
  if (t.get? key).isSome then t.replace key value else t.place key value

def erase (key : Bytes) : Table α → Table α
  | [] => []
  | (k, a) :: t => if k = key then t else (k, a) :: erase key t

/-- The last of several values for one key counts. -/
def ofList (entries : List (Bytes × α)) : Table α :=
  entries.foldl (fun t (k, a) => t.insert k a) []

@[simp] theorem get?_nil (key : Bytes) : get? key ([] : Table α) = none := rfl

theorem get?_replace {t : Table α} {key : Bytes} (there : (t.get? key).isSome) (k : Bytes)
    (value : α) : (t.replace key value).get? k = if key = k then some value else t.get? k := by
  induction t with
  | nil => simp at there
  | cons e t ih =>
    obtain ⟨k', a⟩ := e
    by_cases first : k' = key
    · subst first
      by_cases h : k' = k <;> simp [replace, get?, h]
    · simp only [get?, if_neg first] at there
      simp only [replace, get?, if_neg first, ih there]
      by_cases h : k' = k
      · simp [h, Ne.symm (h ▸ first)]
      · simp [h]

theorem get?_place {t : Table α} {key : Bytes} (absent : t.get? key = none) (k : Bytes)
    (value : α) : (t.place key value).get? k = if key = k then some value else t.get? k := by
  induction t with
  | nil => rfl
  | cons e t ih =>
    obtain ⟨k', a⟩ := e
    by_cases first : k' = key
    · simp [get?, first] at absent
    · simp only [get?, if_neg first] at absent
      simp only [place]
      split
      · rfl
      · simp only [get?, ih absent]
        by_cases h : k' = k
        · simp [h, Ne.symm (h ▸ first)]
        · simp [h]

theorem get?_insert (t : Table α) (key k : Bytes) (value : α) :
    (t.insert key value).get? k = if key = k then some value else t.get? k := by
  unfold insert
  split
  · exact get?_replace ‹_› k value
  · exact get?_place (Option.not_isSome_iff_eq_none.mp ‹_›) k value

theorem get?_erase {t : Table α} {key k : Bytes} (other : key ≠ k) :
    (t.erase key).get? k = t.get? k := by
  induction t with
  | nil => rfl
  | cons e t ih =>
    obtain ⟨k', a⟩ := e
    by_cases first : k' = key
    · rw [erase, if_pos first, get?, if_neg (first ▸ other)]
    · rw [erase, if_neg first, get?, get?, ih]

/-- The values, in the order of their keys. -/
def values (t : Table α) : List α := t.map (·.2)

theorem values_perm (t : Table α) (key : Bytes) :
    t.values.Perm ((t.get? key).toList ++ (t.erase key).values) := by
  induction t with
  | nil => exact .refl _
  | cons e t ih =>
    obtain ⟨k, a⟩ := e
    by_cases h : k = key
    · simp [values, get?, erase, h]
    · simp only [values, get?, erase, if_neg h, List.map_cons] at ih ⊢
      exact (ih.cons a).trans List.perm_middle.symm

theorem values_replace_perm {t : Table α} {key : Bytes} (there : (t.get? key).isSome) (value : α) :
    (t.replace key value).values.Perm (value :: (t.erase key).values) := by
  induction t with
  | nil => simp at there
  | cons e t ih =>
    obtain ⟨k, a⟩ := e
    by_cases h : k = key
    · simp [values, replace, erase, h]
    · simp only [get?, if_neg h] at there
      simp only [values, replace, erase, if_neg h, List.map_cons] at ih ⊢
      exact ((ih there).cons a).trans (.swap ..)

theorem values_place_perm (t : Table α) (key : Bytes) (value : α) :
    (t.place key value).values.Perm (value :: t.values) := by
  induction t with
  | nil => exact .refl _
  | cons e t ih =>
    simp only [place]
    split
    · exact .refl _
    · exact (ih.cons e.2).trans (.swap ..)

theorem erase_of_absent {t : Table α} {key : Bytes} (absent : t.get? key = none) :
    t.erase key = t := by
  induction t with
  | nil => rfl
  | cons e t ih =>
    obtain ⟨k, a⟩ := e
    by_cases h : k = key
    · simp [get?, h] at absent
    · simp only [get?, if_neg h] at absent
      rw [erase, if_neg h, ih absent]

theorem values_insert_perm (t : Table α) (key : Bytes) (value : α) :
    (t.insert key value).values.Perm (value :: (t.erase key).values) := by
  unfold insert
  split
  · exact values_replace_perm ‹_› value
  · rw [erase_of_absent (Option.not_isSome_iff_eq_none.mp ‹_›)]
    exact values_place_perm t key value

variable {t : Table α} {P : α → Prop} (h : ∀ a ∈ t.values, P a) (key : Bytes)
include h

theorem forall_erase : ∀ a ∈ (t.erase key).values, P a :=
  (List.forall_mem_append.mp fun a member => h a ((t.values_perm key).mem_iff.mpr member)).2

theorem forall_insert {a : α} (own : P a) : ∀ x ∈ (t.insert key a).values, P x :=
  fun x member => List.forall_mem_cons.mpr ⟨own, forall_erase h key⟩ x
    ((t.values_insert_perm key a).mem_iff.mp member)

end Table

end Parley
