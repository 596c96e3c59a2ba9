import Mathlib.Data.List.Perm.Basic
import Mathlib.Data.List.Nodup
import Parley.BufferPool

/-!
The buffers of a pool, on their way out and back. Every buffer has the number that the pool gave it
when it was made, so that one can be told from another whatever its holders have made of it.

* `Passage.Lawful`: a buffer goes out empty while it is in, and comes back while it is out;
* `BufferPool.Sound`: what is pooled and what is in use are different buffers, as the book has it;
* `Sound.acquire`, `Sound.release`, `Sound.handle`: the pool keeps that, and so does whoever holds a
  buffer, however it grows in his hands;
* `BufferDesk.run_sound`: the same of whole runs, with leases that are released, dropped and moved.
-/
namespace Parley

/-- What its holder does to a buffer. Whatever becomes of the bytes, the storage does not shrink. -/
structure Buffer.Handling where
  apply : Buffer → Buffer
  number_eq : ∀ b, (apply b).number = b.number
  le_capacity : ∀ b, b.capacity ≤ (apply b).capacity

namespace Buffer.Handling

def resize (n : Nat) : Handling where
  apply b := b.resize n
  number_eq b := by
    simp only [Buffer.resize, grow]
    split
    · rfl
    · rfl
  le_capacity b := by
    simp only [Buffer.resize, grow]
    split
    · exact Nat.le_refl _
    · simp only
      omega

def reserve (n : Nat) : Handling where
  apply b := b.reserve n
  number_eq _ := rfl
  le_capacity _ := Nat.le_max_left ..

end Buffer.Handling

namespace Passage

/-- Whether a buffer is out, by what the book says last of it. -/
def isOut (n : Nat) : List Passage → Bool
  | [] => false
  | .out b :: past => decide (b.number = some n) || isOut n past
  | .back b :: past => decide (b.number ≠ some n) && isOut n past

/-- A book, the latest entry first, in which a buffer goes out only if it is not out already, empty
and with a capacity of at least so much, and comes back only if it is out. -/
inductive Lawful (least : Nat) : List Passage → Prop
  | nil : Lawful least []
  | out {b : Buffer} {n : Nat} {past : List Passage} (before : Lawful least past)
      (number : b.number = some n) (inside : isOut n past = false) (empty : b.bytes = [])
      (room : least ≤ b.capacity) : Lawful least (.out b :: past)
  | back {b : Buffer} {n : Nat} {past : List Passage} (before : Lawful least past)
      (number : b.number = some n) (outside : isOut n past = true) :
      Lawful least (.back b :: past)

variable {b : Buffer} {n : Nat} {past : List Passage}

theorem isOut_out_self (number : b.number = some n) : isOut n (.out b :: past) = true := by
  rw [isOut, number, decide_eq_true rfl, Bool.true_or]

theorem isOut_out_other (other : b.number ≠ some n) :
    isOut n (.out b :: past) = isOut n past := by
  rw [isOut, decide_eq_false other, Bool.false_or]

theorem isOut_back_self (number : b.number = some n) : isOut n (.back b :: past) = false := by
  rw [isOut, number, decide_eq_false (not_not_intro rfl), Bool.false_and]

theorem isOut_back_other (other : b.number ≠ some n) :
    isOut n (.back b :: past) = isOut n past := by
  rw [isOut, decide_eq_true other, Bool.true_and]

end Passage

namespace BufferPool

open Passage

/-- What is pooled and what is in use: different buffers, all of them made by the pool. Those in use
are out and the others are not. -/
structure Sound (maxPooled least ceiling : Nat) (p : BufferPool) (inUse : List Buffer) : Prop where
  limits : p.maxPooled = maxPooled ∧ p.defaultCapacity = least ∧ p.capacityCeiling = ceiling
  pooled_le : p.pooled ≤ maxPooled
  pooled : ∀ b ∈ p.free, b.bytes = [] ∧ least ≤ b.capacity ∧ b.capacity ≤ ceiling
  used : ∀ b ∈ inUse, least ≤ b.capacity
  numbered : ∀ b ∈ p.free ++ inUse, ∃ n ≤ p.made, b.number = some n
  apart : ((p.free ++ inUse).map (·.number)).Nodup
  inside : ∀ b ∈ p.free, ∀ n, b.number = some n → isOut n p.book = false
  outside : ∀ b ∈ inUse, ∀ n, b.number = some n → isOut n p.book = true
  unmade : ∀ n, p.made < n → isOut n p.book = false
  lawful : Lawful least p.book

/-- A buffer of the pool that is neither pooled nor in use. -/
structure Spare (least : Nat) (p : BufferPool) (inUse : List Buffer) (b : Buffer) : Prop where
  room : least ≤ b.capacity
  numbered : ∃ n ≤ p.made, b.number = some n ∧ isOut n p.book = false
  apart : b.number ∉ (p.free ++ inUse).map (·.number)

variable {maxPooled least ceiling : Nat} {p : BufferPool} {inUse inUse' : List Buffer} {b : Buffer}

theorem number_ne {x : Buffer} {m : Nat} (apart : b.number ∉ (p.free ++ inUse).map (·.number))
    (member : x ∈ p.free ++ inUse) (number : x.number = some m) : b.number ≠ some m :=
  fun same => apart (same.trans number.symm ▸ List.mem_map_of_mem member)

theorem number_ne_of_unmade {n m : Nat} (number : b.number = some n) (le : n ≤ p.made)
    (less : p.made < m) : b.number ≠ some m := by
  rw [number]
  rintro ⟨⟩
  exact Nat.not_le_of_lt less le

namespace Sound

theorem perm (h : Sound maxPooled least ceiling p inUse) (perm : inUse.Perm inUse') :
    Sound maxPooled least ceiling p inUse' where
  __ := h
  used b member := h.used b (perm.mem_iff.mpr member)
  numbered b member := h.numbered b ((perm.append_left _).mem_iff.mpr member)
  apart := (((perm.append_left _).map _).nodup_iff).mp h.apart
  outside b member := h.outside b (perm.mem_iff.mpr member)

/-- Buffers in use are lost. -/
theorem lose {lost : List Buffer} (h : Sound maxPooled least ceiling p (lost ++ inUse)) :
    Sound maxPooled least ceiling p inUse where
  __ := h
  used b member := h.used b (List.mem_append_right _ member)
  numbered b member :=
    h.numbered b (((List.sublist_append_right lost inUse).append_left _).mem member)
  apart := h.apart.sublist (((List.sublist_append_right lost inUse).append_left _).map _)
  outside b member := h.outside b (List.mem_append_right _ member)

/-- A buffer is used. -/
theorem handle (h : Sound maxPooled least ceiling p (b :: inUse)) (use : Buffer.Handling) :
    Sound maxPooled least ceiling p (use.apply b :: inUse) where
  __ := h
  used := by
    obtain ⟨least_le, rest⟩ := List.forall_mem_cons.mp h.used
    exact List.forall_mem_cons.mpr ⟨Nat.le_trans least_le (use.le_capacity b), rest⟩
  numbered := by
    obtain ⟨free, used⟩ := List.forall_mem_append.mp h.numbered
    obtain ⟨first, rest⟩ := List.forall_mem_cons.mp used
    rw [← use.number_eq b] at first
    exact List.forall_mem_append.mpr ⟨free, List.forall_mem_cons.mpr ⟨first, rest⟩⟩
  apart := by
    have apart := h.apart
    rw [List.map_append, List.map_cons] at apart ⊢
    rwa [use.number_eq]
  outside := by
    obtain ⟨first, rest⟩ := List.forall_mem_cons.mp h.outside
    rw [← use.number_eq b] at first
    exact List.forall_mem_cons.mpr ⟨first, rest⟩

/-- The buffer handed back last is taken out of the pool. -/
theorem takeOut {free : List Buffer} (h : Sound maxPooled least ceiling p inUse)
    (first : p.free = b :: free) :
    Sound maxPooled least ceiling { p with free } inUse ∧
      Spare least { p with free } inUse b := by
  have pooled_le : free.length + 1 ≤ maxPooled := by
    have le := h.pooled_le
    rwa [BufferPool.pooled, first] at le
  have pooled := List.forall_mem_cons.mp (first ▸ h.pooled)
  have inside := List.forall_mem_cons.mp (first ▸ h.inside)
  have numbered : ∀ x ∈ b :: (free ++ inUse), ∃ n ≤ p.made, x.number = some n := by
    have all := h.numbered
    rwa [first] at all
  have apart : ((b :: (free ++ inUse)).map (·.number)).Nodup := by
    have all := h.apart
    rwa [first] at all
  rw [List.forall_mem_cons] at numbered
  rw [List.map_cons, List.nodup_cons] at apart
  obtain ⟨n, le, number⟩ := numbered.1
  constructor
  · exact { h with
      pooled_le := Nat.le_of_succ_le pooled_le, pooled := pooled.2, numbered := numbered.2
      apart := apart.2, inside := inside.2 }
  · exact ⟨pooled.1.2.1, ⟨n, le, number, inside.1 n number⟩, apart.1⟩

/-- A new buffer is made. -/
theorem make (h : Sound maxPooled least ceiling p inUse) :
    Sound maxPooled least ceiling { p with made := p.made + 1 } inUse ∧
      Spare least { p with made := p.made + 1 } inUse
        (({ number := some (p.made + 1) } : Buffer).reserve p.defaultCapacity) := by
  have older : ∀ b ∈ p.free ++ inUse, ∃ n ≤ p.made + 1, b.number = some n := by
    intro b member
    obtain ⟨n, le, number⟩ := h.numbered b member
    exact ⟨n, Nat.le_succ_of_le le, number⟩
  have inside : isOut (p.made + 1) p.book = false := h.unmade _ (Nat.lt_succ_self _)
  have new : some (p.made + 1) ∉ (p.free ++ inUse).map (·.number) := by
    intro member
    obtain ⟨b, member, same⟩ := List.mem_map.mp member
    obtain ⟨n, le, number⟩ := h.numbered b member
    exact number_ne_of_unmade number le (Nat.lt_succ_self _) same
  constructor
  · exact { h with
      numbered := older
      unmade := fun n less => h.unmade n (Nat.lt_of_succ_lt less) }
  · exact ⟨h.limits.2.1 ▸ Nat.le_max_right .., ⟨_, Nat.le_refl _, rfl, inside⟩, new⟩

theorem handOut (h : Sound maxPooled least ceiling p inUse) (spare : Spare least p inUse b)
    (empty : b.bytes = []) : Sound maxPooled least ceiling (p.handOut b).2 (b :: inUse) := by
  obtain ⟨n, le, number, inside⟩ := spare.numbered
  obtain ⟨free, used⟩ := List.forall_mem_append.mp h.numbered
  exact { h with
    used := List.forall_mem_cons.mpr ⟨spare.room, h.used⟩
    numbered :=
      List.forall_mem_append.mpr ⟨free, List.forall_mem_cons.mpr ⟨⟨n, le, number⟩, used⟩⟩
    apart := (List.perm_middle.map _).nodup_iff.mpr (List.nodup_cons.mpr ⟨spare.apart, h.apart⟩)
    inside := fun x member m same =>
      (isOut_out_other (number_ne spare.apart (List.mem_append_left _ member) same)).trans
        (h.inside x member m same)
    outside := List.forall_mem_cons.mpr ⟨fun m => isOut_out_self, fun x member m same =>
      (isOut_out_other (number_ne spare.apart (List.mem_append_right _ member) same)).trans
        (h.outside x member m same)⟩
    unmade := fun m less =>
      (isOut_out_other (number_ne_of_unmade number le less)).trans (h.unmade m less)
    lawful := .out h.lawful number inside empty spare.room }

/-- Of the two ways to a buffer, both give an empty one with enough room. -/
theorem acquire (h : Sound maxPooled least ceiling p inUse) :
    Sound maxPooled least ceiling p.acquire.2 (p.acquire.1 :: inUse) ∧
      p.acquire.1.bytes = [] ∧ least ≤ p.acquire.1.capacity := by
  unfold BufferPool.acquire
  split
  · next b free first =>
    obtain ⟨sound, spare⟩ := h.takeOut first
    have clear : Spare least { p with free } inUse b.clear :=
      ⟨spare.room, spare.numbered, spare.apart⟩
    exact ⟨sound.handOut clear rfl, rfl, spare.room⟩
  · obtain ⟨sound, spare⟩ := h.make
    exact ⟨sound.handOut spare rfl, rfl, spare.room⟩

/-- A buffer that is in use comes back. -/
theorem takeBack (h : Sound maxPooled least ceiling p (b :: inUse)) :
    let p' := { p with returned := p.returned + 1, book := .back b :: p.book }
    Sound maxPooled least ceiling p' inUse ∧ Spare least p' inUse b := by
  have parted := (List.perm_middle.map Buffer.number).nodup_iff.mp h.apart
  rw [List.map_cons, List.nodup_cons] at parted
  obtain ⟨alone, apart⟩ := parted
  obtain ⟨free, numbered⟩ := List.forall_mem_append.mp h.numbered
  rw [List.forall_mem_cons] at numbered
  obtain ⟨n, le, number⟩ := numbered.1
  obtain ⟨room, used⟩ := List.forall_mem_cons.mp h.used
  obtain ⟨out, outside⟩ := List.forall_mem_cons.mp h.outside
  constructor
  · exact { h with
      used := used
      numbered := List.forall_mem_append.mpr ⟨free, numbered.2⟩
      apart := apart
      inside := fun x member m same =>
        (isOut_back_other (number_ne alone (List.mem_append_left _ member) same)).trans
          (h.inside x member m same)
      outside := fun x member m same =>
        (isOut_back_other (number_ne alone (List.mem_append_right _ member) same)).trans
          (outside x member m same)
      unmade := fun m less =>
        (isOut_back_other (number_ne_of_unmade number le less)).trans (h.unmade m less)
      lawful := .back h.lawful number (out n number) }
  · exact ⟨room, ⟨n, le, number, isOut_back_self number⟩, alone⟩

/-- A buffer that came back is kept. -/
theorem keep (h : Sound maxPooled least ceiling p inUse) (spare : Spare least p inUse b)
    (fits : b.capacity ≤ ceiling) (room : p.pooled < p.maxPooled) :
    Sound maxPooled least ceiling { p with free := b.clear :: p.free } inUse := by
  obtain ⟨n, le, number, inside⟩ := spare.numbered
  have own : ∀ m, b.number = some m → isOut m p.book = false := by
    intro m same
    cases number.symm.trans same
    exact inside
  exact { h with
    pooled_le := h.limits.1 ▸ room
    pooled := List.forall_mem_cons.mpr ⟨⟨rfl, spare.room, fits⟩, h.pooled⟩
    numbered := List.forall_mem_cons.mpr ⟨⟨n, le, number⟩, h.numbered⟩
    apart := List.nodup_cons.mpr ⟨spare.apart, h.apart⟩
    inside := List.forall_mem_cons.mpr ⟨own, h.inside⟩ }

theorem release (h : Sound maxPooled least ceiling p (b :: inUse)) :
    Sound maxPooled least ceiling (p.release b) inUse := by
  obtain ⟨sound, spare⟩ := h.takeBack
  simp only [BufferPool.release]
  split
  · exact sound
  · next fits =>
    rw [h.limits.2.2] at fits
    split
    · next room => exact sound.keep spare (Nat.le_of_not_lt fits) room
    · exact sound

end Sound

end BufferPool

namespace Lease

/-- The buffer that a lease has to give back. -/
def held (l : Lease) : List Buffer := if l.active then [l.buffer] else []

theorem held_active {l : Lease} (active : l.active = true) : l.held = [l.buffer] := if_pos active

theorem held_idle {l : Lease} (idle : l.active = false) : l.held = [] := by
  rw [held, idle]
  rfl

variable {maxPooled least ceiling : Nat} {p : BufferPool} {inUse : List Buffer} {l : Lease}

theorem release_idle (idle : l.active = false) : l.release p = (l, p) := by
  rw [release, idle]
  rfl

/-- Once it is released, a lease has nothing more to give back. -/
theorem release_active : (l.release p).1.active = false := by
  cases active : l.active with
  | false => rw [release_idle active, active]
  | true =>
    rw [release, if_pos active]

theorem release_number (own : l.active = false → l.buffer.number = none) :
    (l.release p).1.buffer.number = none := by
  cases active : l.active with
  | false =>
    rw [release_idle active]
    exact own active
  | true =>
    rw [release, if_pos active]

theorem sound_release (h : p.Sound maxPooled least ceiling (l.held ++ inUse)) :
    (l.release p).2.Sound maxPooled least ceiling inUse := by
  cases active : l.active with
  | false =>
    rw [held_idle active, List.nil_append] at h
    rwa [release_idle active]
  | true =>
    rw [held_active active, List.singleton_append] at h
    rw [release, if_pos active]
    exact h.release

theorem sound_handle (h : p.Sound maxPooled least ceiling (l.held ++ inUse))
    (use : Buffer.Handling) :
    p.Sound maxPooled least ceiling ({ l with buffer := use.apply l.buffer }.held ++ inUse) := by
  obtain ⟨active, b⟩ := l
  cases active with
  | false => exact h
  | true => exact h.handle use

end Lease

namespace BufferDesk

open BufferPool Passage

/-- The buffers in use: the plain ones, and those that the leases have to give back. -/
def inUse (d : BufferDesk) : List Buffer := d.plain.values ++ d.leases.values.flatMap Lease.held

/-- A pool with limits, of which nobody has taken anything yet. -/
def new (maxPooled least ceiling : Nat) : BufferDesk :=
  { pool := { maxPooled, defaultCapacity := least, capacityCeiling := ceiling } }

/-- What happens at a desk: an act under a name, whatever the holder of a buffer does to it, and the
end of all leases. -/
inductive Event where
  | act (name : Bytes) (act : Act)
  | handle (name : Bytes) (use : Buffer.Handling)
  | dropLeases

def happen (d : BufferDesk) : Event → BufferDesk
  | .act name act => d.step name act
  | .handle name use => d.update name use.apply
  | .dropLeases => d.dropLeases

def run (d : BufferDesk) (events : List Event) : BufferDesk := events.foldl happen d

/-- The pool is sound, and a lease that is not active has no buffer of the pool. -/
structure Sound (maxPooled least ceiling : Nat) (d : BufferDesk) : Prop where
  pool : d.pool.Sound maxPooled least ceiling d.inUse
  idle : ∀ l ∈ d.leases.values, l.active = false → l.buffer.number = none

variable {maxPooled least ceiling : Nat} {d : BufferDesk} {name : Bytes}

section

variable (d : BufferDesk) (name : Bytes)

theorem inUse_plain : d.inUse.Perm
    ((d.plain.get? name).toList ++ { d with plain := d.plain.erase name }.inUse) := by
  have split := (d.plain.values_perm name).append_right (d.leases.values.flatMap Lease.held)
  rwa [List.append_assoc] at split

theorem inUse_insert (b : Buffer) : { d with plain := d.plain.insert name b }.inUse.Perm
    (b :: { d with plain := d.plain.erase name }.inUse) :=
  (d.plain.values_insert_perm name b).append_right _

theorem inUse_lease : d.inUse.Perm ((d.leases.get? name).toList.flatMap Lease.held ++
    { d with leases := d.leases.erase name }.inUse) := by
  have split := (d.leases.values_perm name).flatMap_right Lease.held
  rw [List.flatMap_append] at split
  exact (split.append_left _).trans (List.perm_append_comm_assoc ..)

theorem inUse_assign (l : Lease) : { d with leases := d.leases.insert name l }.inUse.Perm
    (l.held ++ { d with leases := d.leases.erase name }.inUse) := by
  have join := (d.leases.values_insert_perm name l).flatMap_right Lease.held
  exact (join.append_left _).trans (List.perm_append_comm_assoc ..)

/-- A lease takes the place of the one that was there. -/
theorem inUse_replace (l : Lease) : (l.held ++ d.inUse).Perm
    ((d.leases.get? name).toList.flatMap Lease.held ++
      { d with leases := d.leases.insert name l }.inUse) := by
  calc l.held ++ d.inUse
    List.Perm _ (l.held ++ (_ ++ _)) := (inUse_lease d name).append_left _
    List.Perm _ (_ ++ (l.held ++ _)) := List.perm_append_comm_assoc ..
    List.Perm _ (_ ++ _) := (inUse_assign d name l).symm.append_left _

end

namespace Sound

theorem get {l : Lease} (h : d.Sound maxPooled least ceiling)
    (found : d.leases.get? name = some l) : l.active = false → l.buffer.number = none := by
  have split := d.leases.values_perm name
  rw [found] at split
  exact h.idle l (split.mem_iff.mpr (List.mem_cons_self ..))

/-- A plain buffer takes the place of the one that was there, which is lost. -/
theorem acquire (h : d.Sound maxPooled least ceiling) :
    (d.step name .acquire).Sound maxPooled least ceiling := by
  have swapped : (d.pool.acquire.1 :: d.inUse).Perm ((d.plain.get? name).toList ++
      { d with plain := d.plain.insert name d.pool.acquire.1 }.inUse) := by
    calc d.pool.acquire.1 :: d.inUse
      List.Perm _ (_ :: (_ ++ _)) := (inUse_plain d name).cons _
      List.Perm _ (_ ++ _ :: _) := List.perm_middle.symm
      List.Perm _ (_ ++ _) := (inUse_insert d name _).symm.append_left _
  exact ⟨(h.pool.acquire.1.perm swapped).lose, h.idle⟩

theorem release (h : d.Sound maxPooled least ceiling) :
    (d.step name .release).Sound maxPooled least ceiling := by
  simp only [step]
  cases found : d.plain.get? name with
  | none => exact h
  | some b =>
    have split := inUse_plain d name
    rw [found] at split
    exact ⟨(h.pool.perm split).release, h.idle⟩

theorem assign {l : Lease} (pool : d.pool.Sound maxPooled least ceiling (l.held ++ d.inUse))
    (idle : ∀ l ∈ d.leases.values, l.active = false → l.buffer.number = none)
    (own : l.active = false → l.buffer.number = none) :
    (d.assign name l).Sound maxPooled least ceiling := by
  have swapped := pool.perm (inUse_replace d name l)
  have idle' := Table.forall_insert idle name own
  simp only [BufferDesk.assign]
  cases found : d.leases.get? name with
  | none =>
    rw [found, Option.toList_none, List.flatMap_nil, List.nil_append] at swapped
    exact ⟨swapped, idle'⟩
  | some old =>
    rw [found, Option.toList_some, List.flatMap_singleton] at swapped
    exact ⟨Lease.sound_release swapped, idle'⟩

theorem lease (h : d.Sound maxPooled least ceiling) :
    (d.step name .lease).Sound maxPooled least ceiling := by
  refine assign (d := { d with pool := d.pool.acquire.2 }) (l := ⟨true, d.pool.acquire.1⟩)
    h.pool.acquire.1 h.idle ?_
  rintro ⟨⟩

theorem leaseRelease (h : d.Sound maxPooled least ceiling) :
    (d.step name .leaseRelease).Sound maxPooled least ceiling := by
  simp only [step]
  cases found : d.leases.get? name with
  | none => exact h
  | some l =>
    have swapped := inUse_replace d name (l.release d.pool).1
    rw [Lease.held_idle Lease.release_active, found, Option.toList_some,
      List.flatMap_singleton] at swapped
    exact ⟨Lease.sound_release (h.pool.perm swapped),
      Table.forall_insert h.idle name fun _ => Lease.release_number (h.get found)⟩

theorem leaseDrop (h : d.Sound maxPooled least ceiling) :
    (d.step name .leaseDrop).Sound maxPooled least ceiling := by
  simp only [step]
  cases found : d.leases.get? name with
  | none => exact h
  | some l =>
    have split := inUse_lease d name
    rw [found, Option.toList_some, List.flatMap_singleton] at split
    exact ⟨Lease.sound_release (h.pool.perm split), Table.forall_erase h.idle name⟩

theorem leaseMove (h : d.Sound maxPooled least ceiling) (dest : Bytes) :
    (d.step name (.leaseMove dest)).Sound maxPooled least ceiling := by
  simp only [step]
  cases found : d.leases.get? name with
  | none => exact h
  | some l =>
    simp only
    split
    · exact h
    · have moved := h.pool.perm (inUse_replace d name l.movedFrom)
      rw [found, Option.toList_some, List.flatMap_singleton] at moved
      exact assign moved (Table.forall_insert h.idle name fun _ => rfl) (h.get found)

theorem handle (h : d.Sound maxPooled least ceiling) (use : Buffer.Handling) :
    (d.update name use.apply).Sound maxPooled least ceiling := by
  simp only [update]
  cases plain : d.plain.get? name with
  | some b =>
    have split := inUse_plain d name
    rw [plain] at split
    exact ⟨((h.pool.perm split).handle use).perm (inUse_insert d name _).symm, h.idle⟩
  | none =>
    cases found : d.leases.get? name with
    | none => exact h
    | some l =>
      have split := inUse_lease d name
      rw [found, Option.toList_some, List.flatMap_singleton] at split
      exact ⟨(Lease.sound_handle (h.pool.perm split) use).perm (inUse_assign d name _).symm,
        Table.forall_insert h.idle name fun idle => (use.number_eq _).trans (h.get found idle)⟩

theorem dropLeases (h : d.Sound maxPooled least ceiling) :
    d.dropLeases.Sound maxPooled least ceiling := by
  have drops : ∀ (t : Table Lease) (p : BufferPool),
      p.Sound maxPooled least ceiling (t.values.flatMap Lease.held ++ d.plain.values) →
      (t.foldl (fun p e => (e.2.release p).2) p).Sound maxPooled least ceiling
        d.plain.values := by
    intro t
    induction t with
    | nil => exact fun _ h => h
    | cons e t ih =>
      intro p h
      apply ih
      apply Lease.sound_release (l := e.2)
      rwa [Table.values, List.map_cons, List.flatMap_cons, List.append_assoc] at h
  refine ⟨?_, List.forall_mem_nil _⟩
  have all := drops d.leases d.pool (h.pool.perm List.perm_append_comm)
  rwa [← List.append_nil d.plain.values] at all

theorem step (h : d.Sound maxPooled least ceiling) (name : Bytes) (act : Act) :
    (d.step name act).Sound maxPooled least ceiling := by
  cases act with
  | acquire => exact h.acquire
  | release => exact h.release
  | lease => exact h.lease
  | leaseRelease => exact h.leaseRelease
  | leaseDrop => exact h.leaseDrop
  | leaseMove dest => exact h.leaseMove dest
  | resize n => exact h.handle (.resize n)
  | reserve n => exact h.handle (.reserve n)

theorem run (h : d.Sound maxPooled least ceiling) (events : List Event) :
    (d.run events).Sound maxPooled least ceiling := by
  induction events generalizing d with
  | nil => exact h
  | cons event events ih =>
    apply ih
    cases event with
    | act name act => exact h.step name act
    | handle name use => exact h.handle use
    | dropLeases => exact h.dropLeases

end Sound

theorem new_sound (maxPooled least ceiling : Nat) :
    (new maxPooled least ceiling).Sound maxPooled least ceiling where
  pool := {
    limits := ⟨rfl, rfl, rfl⟩
    pooled_le := Nat.zero_le _
    pooled := List.forall_mem_nil _
    used := List.forall_mem_nil _
    numbered := List.forall_mem_nil _
    apart := List.nodup_nil
    inside := List.forall_mem_nil _
    outside := List.forall_mem_nil _
    unmade _ _ := rfl
    lawful := .nil }
  idle := List.forall_mem_nil _

section

variable {other : Bytes} (away : other ≠ name)
include away

theorem get?_assign (l : Lease) : (d.assign other l).leases.get? name = d.leases.get? name := by
  unfold assign
  split
  · exact (Table.get?_insert ..).trans (if_neg away)
  · exact (Table.get?_insert ..).trans (if_neg away)

theorem get?_update (f : Buffer → Buffer) :
    (d.update other f).leases.get? name = d.leases.get? name := by
  unfold update
  split
  · rfl
  · exact (Table.get?_insert ..).trans (if_neg away)
  · rfl

/-- What is done under another name leaves a lease alone, unless a lease is moved onto it. -/
theorem get?_step {act : Act} (aside : act ≠ .leaseMove name) :
    (d.step other act).leases.get? name = d.leases.get? name := by
  cases act with
  | acquire => rfl
  | release =>
    simp only [step]
    split
    · rfl
    · rfl
  | lease => exact get?_assign (d := { d with pool := d.pool.acquire.2 }) away _
  | leaseRelease =>
    simp only [step]
    split
    · exact (Table.get?_insert ..).trans (if_neg away)
    · rfl
  | leaseDrop =>
    simp only [step]
    split
    · exact Table.get?_erase away
    · rfl
  | leaseMove dest =>
    have elsewhere : dest ≠ name := fun same => aside (same ▸ rfl)
    simp only [step]
    split
    · split
      · rfl
      · rw [get?_assign elsewhere]
        exact (Table.get?_insert ..).trans (if_neg away)
    · rfl
  | resize n => exact get?_update away _
  | reserve n => exact get?_update away _

end

/-- The lease of that name, if there is one, is not active. -/
def Idle (d : BufferDesk) (name : Bytes) : Prop :=
  ∀ l, d.leases.get? name = some l → l.active = false

/-- Whether the lease of that name, if there is one, stays where it is and gets no other buffer. -/
def Event.spares (name : Bytes) : Event → Prop
  | .act other .lease | .act other .leaseDrop => other ≠ name
  | .act other (.leaseMove dest) => dest = name → other = name
  | _ => True

theorem leaseRelease_idle : (d.step name .leaseRelease).Idle name := by
  intro l found
  simp only [step] at found
  cases before : d.leases.get? name with
  | none =>
    rw [before] at found
    cases before.symm.trans found
  | some old =>
    rw [before] at found
    simp only [Table.get?_insert, if_true] at found
    cases found
    exact Lease.release_active

/-- Nothing happens to a lease that is moved onto itself. -/
theorem leaseMove_self : d.step name (.leaseMove name) = d := by
  simp only [step, if_true]
  split
  · rfl
  · rfl

theorem leaseMove_idle {dest : Bytes} (away : dest ≠ name) :
    (d.step name (.leaseMove dest)).Idle name := by
  intro l found
  simp only [step] at found
  cases before : d.leases.get? name with
  | none =>
    rw [before] at found
    cases before.symm.trans found
  | some old =>
    rw [before] at found
    simp only [if_neg away.symm, get?_assign away, Table.get?_insert, if_true] at found
    cases found
    rfl

namespace Idle

theorem of_get? {d' : BufferDesk} (h : d.Idle name)
    (same : d'.leases.get? name = d.leases.get? name) : d'.Idle name :=
  fun l found => h l (same.symm.trans found)

theorem update (h : d.Idle name) (f : Buffer → Buffer) : (d.update name f).Idle name := by
  intro l found
  simp only [BufferDesk.update] at found
  cases plain : d.plain.get? name with
  | some b =>
    rw [plain] at found
    exact h l found
  | none =>
    cases before : d.leases.get? name with
    | none =>
      rw [plain, before] at found
      cases before.symm.trans found
    | some old =>
      rw [plain, before] at found
      simp only [Table.get?_insert, if_true] at found
      cases found
      exact h old before

/-- A lease that is not active does not become so by itself. -/
theorem happen (h : d.Idle name) {event : Event} (spares : event.spares name) :
    (d.happen event).Idle name := by
  cases event with
  | dropLeases => rintro l ⟨⟩
  | handle other use =>
    by_cases own : other = name
    · exact own ▸ (own ▸ h : d.Idle other).update use.apply
    · exact h.of_get? (get?_update own _)
  | act other act =>
    by_cases own : other = name
    · subst own
      cases act with
      | acquire => exact h
      | release =>
        simp only [BufferDesk.happen, step]
        split
        · exact h
        · exact h
      | lease => exact absurd rfl spares
      | leaseDrop => exact absurd rfl spares
      | leaseRelease => exact leaseRelease_idle
      | leaseMove dest =>
        by_cases same : dest = other
        · rw [same, BufferDesk.happen, leaseMove_self]
          exact h
        · exact leaseMove_idle same
      | resize n => exact h.update _
      | reserve n => exact h.update _
    · refine h.of_get? (get?_step own ?_)
      rintro rfl
      exact own (spares rfl)

theorem leaseRelease (h : d.Idle name) : (d.step name .leaseRelease).pool = d.pool := by
  simp only [step]
  split
  · next l found => rw [Lease.release_idle (h l found)]
  · rfl

theorem leaseDrop (h : d.Idle name) : (d.step name .leaseDrop).pool = d.pool := by
  simp only [step]
  split
  · next l found => rw [Lease.release_idle (h l found)]
  · rfl

theorem assign (h : d.Idle name) (l : Lease) : (d.assign name l).pool = d.pool := by
  unfold BufferDesk.assign
  split
  · next old found => rw [Lease.release_idle (h old found)]
  · rfl

end Idle

/-- Whatever the limits are and whatever happens at a desk: the pool holds at most so many buffers,
empty and of the right size; whoever takes one next gets an empty one with enough room, as everyone
did before; what is pooled and what is in use are different buffers; and a buffer comes back only
while it is out. A lease that was released, or whose buffer went to another one, has nothing to give
back, whatever happens to it from then on, until a lease is given to its name again. -/
theorem run_sound (maxPooled least ceiling : Nat) (events : List Event) :
    let d := (new maxPooled least ceiling).run events
    d.pool.pooled ≤ maxPooled ∧
      (∀ b ∈ d.pool.free, b.bytes = [] ∧ least ≤ b.capacity ∧ b.capacity ≤ ceiling) ∧
      (d.pool.acquire.1.bytes = [] ∧ least ≤ d.pool.acquire.1.capacity) ∧
      (∀ b ∈ d.pool.free ++ d.inUse, b.number.isSome) ∧
      ((d.pool.free ++ d.inUse).map (·.number)).Nodup ∧
      Lawful least d.pool.book ∧
      (∀ b ∈ d.inUse, ∀ n, b.number = some n → isOut n d.pool.book = true) ∧
      (∀ l ∈ d.leases.values, l.active = false → l.buffer.number = none) ∧
      (∀ name, (d.step name .leaseRelease).Idle name) ∧
      (∀ name dest, dest ≠ name → (d.step name (.leaseMove dest)).Idle name) ∧
      ∀ name, d.Idle name →
        (∀ event : Event, event.spares name → (d.happen event).Idle name) ∧
          (d.step name .leaseRelease).pool = d.pool ∧
          (d.step name .leaseDrop).pool = d.pool ∧ ∀ l, (d.assign name l).pool = d.pool := by
  intro d
  have sound : d.Sound maxPooled least ceiling := (new_sound maxPooled least ceiling).run events
  refine ⟨sound.pool.pooled_le, sound.pool.pooled, sound.pool.acquire.2, fun b member => ?_,
    sound.pool.apart, sound.pool.lawful, sound.pool.outside, sound.idle, fun _ => leaseRelease_idle,
    fun _ _ => leaseMove_idle,
    fun _ idle => ⟨fun _ => idle.happen, idle.leaseRelease, idle.leaseDrop, idle.assign⟩⟩
  obtain ⟨n, -, number⟩ := sound.pool.numbered b member
  rw [number]
  rfl

/-- A lease is moved over another one, whose buffer comes back; the old lease, of which the storage
grows, has nothing more to give back, and the buffer goes out again. The other buffer grows beyond
the ceiling and is not kept. -/
theorem run_sound_moved :
    let d := (new 2 4 8).run [
      .act [1] .lease, .act [2] .lease, .act [1] (.leaseMove [2]), .handle [1] (.resize 6),
      .act [1] .leaseRelease, .act [3] .acquire, .act [2] (.resize 9), .act [2] .leaseDrop]
    (d.pool.pooled ≤ 2 ∧ Lawful 4 d.pool.book) ∧ d.pool.pooled = 0 ∧
      d.leases.values.map (·.active) = [false] ∧
      d.pool.book = [.back ⟨List.replicate 9 0, 9, some 1⟩, .out ⟨[], 4, some 2⟩,
        .back ⟨[], 4, some 2⟩, .out ⟨[], 4, some 2⟩, .out ⟨[], 4, some 1⟩] := by
  intro d
  obtain ⟨pooled_le, -, -, -, -, lawful, -⟩ := run_sound 2 4 8 [
    .act [1] .lease, .act [2] .lease, .act [1] (.leaseMove [2]), .handle [1] (.resize 6),
    .act [1] .leaseRelease, .act [3] .acquire, .act [2] (.resize 9), .act [2] .leaseDrop]
  exact ⟨⟨pooled_le, lawful⟩, by decide +kernel, by decide +kernel, by decide +kernel⟩

end BufferDesk

end Parley
