import Parley.Proofs.Ledger
import Parley.Proofs.Moves

/-!
Who has the connections of the sessions. Whoever is doing something has holdings, and so have the
bodies that are left to be read; what is on hand all together agrees with the journal of every
session, whatever happens.
-/
namespace Parley

open Ledger

namespace Holding

def connection? (i : Nat) : Holding → Option Nat
  | .connection j c => if j = i then some c.number else none
  | _ => none

def number? : Holding → Option Nat
  | .number n => some n
  | _ => none

def isSlot (i : Nat) : Holding → Bool
  | .slot j => j = i
  | _ => false

/-- The connections of a session. -/
def connections (i : Nat) (all : List Holding) : List Nat := all.filterMap (connection? i)

/-- How many slots of a session were taken. -/
def slots (i : Nat) (all : List Holding) : Nat := all.countP (isSlot i)

def numbers (all : List Holding) : List Nat := all.filterMap number?

/-- Whether something has to do with the wire. -/
def onWire : Holding → Bool
  | .connection .. | .slot _ | .number _ => true
  | .call _ | .stream _ => false

section Counts
variable {i j n : Nat} {c : Connection} {all : List Holding}

@[simp] theorem connections_self :
    connections i (.connection i c :: all) = c.number :: connections i all := by
  simp [connections, connection?]

@[simp] theorem connections_of_ne (h : j ≠ i) :
    connections i (.connection j c :: all) = connections i all := by
  simp [connections, connection?, h]

@[simp] theorem connections_slot : connections i (.slot j :: all) = connections i all := rfl

@[simp] theorem connections_number : connections i (.number n :: all) = connections i all := rfl

@[simp] theorem slots_connection : slots i (.connection j c :: all) = slots i all := by
  simp [slots, isSlot]

@[simp] theorem slots_self : slots i (.slot i :: all) = slots i all + 1 := by
  simp [slots, isSlot]

@[simp] theorem slots_of_ne (h : j ≠ i) : slots i (.slot j :: all) = slots i all := by
  simp [slots, isSlot, h]

@[simp] theorem slots_number : slots i (.number n :: all) = slots i all := by
  simp [slots, isSlot]

@[simp] theorem numbers_connection : numbers (.connection j c :: all) = numbers all := rfl

@[simp] theorem numbers_slot : numbers (.slot j :: all) = numbers all := rfl

@[simp] theorem numbers_number : numbers (.number n :: all) = n :: numbers all := rfl

theorem mem_connections (h : .connection i c ∈ all) : c.number ∈ connections i all :=
  List.mem_filterMap.mpr ⟨_, h, by simp [connection?]⟩

@[simp] theorem connections_filter : connections i (all.filter onWire) = connections i all := by
  rw [connections, List.filterMap_filter]
  exact List.filterMap_congr fun h _ => by cases h <;> rfl

@[simp] theorem slots_filter : slots i (all.filter onWire) = slots i all := by
  rw [slots, List.countP_filter]
  exact List.countP_congr fun h _ => by cases h <;> simp [isSlot, onWire]

@[simp] theorem numbers_filter : numbers (all.filter onWire) = numbers all := by
  rw [numbers, List.filterMap_filter]
  exact List.filterMap_congr fun h _ => by cases h <;> rfl

end Counts

end Holding

/-- What has yet to arrive over a connection is the rest of the body that it was answered. -/
def Follows (past : List Deal) (c : Connection) : Prop :=
  match progress c.number past with
  | none => c.unread = [] ∧ c.persistent = false
  | some (e, got) => got ++ bytes c.unread = bytes e.body ∧ c.persistent = e.keepAlive

/-- The past of a session agrees with all that is on hand. -/
structure Tallied (fresh : Session) (i : Nat) (all : List Holding) (past : List Deal) : Prop where
  lawful : Lawful fresh past
  held_perm : (held past).Perm (Holding.connections i all)
  openings_eq : openings past = Holding.slots i all
  follows : ∀ c, .connection i c ∈ all → Follows past c

/-- The connections that were closed on the wire. -/
def closes (history : List Entry) : List Nat := history.filterMap fun
  | .wire e _ => e.closed?
  | _ => none

theorem closes_record (w : World) (e : WireEvent) :
    closes (w.record e).history = closes w.history ++ e.closed?.toList := by
  simp only [closes, World.record, List.filterMap_append]
  cases e <;> rfl

theorem mem_closes_record {w : World} {n : Nat} {e : WireEvent} :
    n ∈ closes (w.record e).history ↔ e.closed? = some n ∨ n ∈ closes w.history := by
  rw [closes_record, List.mem_append, Option.mem_toList]
  exact or_comm

theorem mem_closes_closeAll {w : World} {n : Nat} {connections : List Connection} :
    n ∈ closes (w.closeAll connections).history ↔
      n ∈ connections.map (·.number) ∨ n ∈ closes w.history := by
  simp [closes, WireEvent.closed?, World.closeAll, List.filterMap_append, or_comm]

/-- Every connection has its own number, whatever session made it, and those that have ended are
the ones that were closed. Reserved are the numbers of connections that have yet to come to be. -/
structure Numbered (created ended : Nat → List Nat) (closed reserved : List Nat) (last : Nat) :
    Prop where
  reserved_nodup : reserved.Nodup
  reserved_new : ∀ n ∈ reserved, n ≤ last ∧ n ∉ closed ∧ ∀ i, n ∉ created i
  created_le : ∀ i, ∀ n ∈ created i, n ≤ last
  created_apart : ∀ i j n, n ∈ created i → n ∈ created j → i = j
  closed_le : ∀ n ∈ closed, n ≤ last
  closed_iff : ∀ i, ∀ n ∈ created i, n ∈ closed ↔ n ∈ ended i

/-- The sessions of a world agree with all that is on hand. -/
structure Kept (fresh : Session) (all : List Holding) (w : World) : Prop where
  made : Session.ofConfig w.config = .ok fresh
  transport : ∀ i, w.transport = some (.session i) → i < w.sessions.length
  tallied : ∀ i, Tallied fresh i all (tale i w.journal)
  replayed : ∀ i s, w.sessions[i]? = some s → s = replay fresh (tale i w.journal)
  unmade : ∀ i, w.sessions.length ≤ i → tale i w.journal = []
  now_nonneg : 0 ≤ w.now
  time_le : ∀ d ∈ w.journal, d.time ≤ w.now
  numbered : Numbered (fun i => (replay fresh (tale i w.journal)).created)
    (fun i => ended (tale i w.journal)) (closes w.history) (Holding.numbers all) w.connections

namespace Numbered

variable {created ended : Nat → List Nat} {closed reserved : List Nat} {last : Nat}

/-- A connection is begun. -/
theorem begin (h : Numbered created ended closed reserved last) :
    Numbered created ended closed ((last + 1) :: reserved) (last + 1) where
  reserved_nodup := List.nodup_cons.mpr
    ⟨fun member => Nat.not_succ_le_self _ (h.reserved_new _ member).1, h.reserved_nodup⟩
  reserved_new := List.forall_mem_cons.mpr ⟨⟨Nat.le_refl _,
    fun close => Nat.not_succ_le_self _ (h.closed_le _ close),
    fun i made => Nat.not_succ_le_self _ (h.created_le i _ made)⟩,
    fun n member => (h.reserved_new n member).imp_left Nat.le_succ_of_le⟩
  created_le i n member := Nat.le_succ_of_le (h.created_le i n member)
  created_apart := h.created_apart
  closed_le n member := Nat.le_succ_of_le (h.closed_le n member)
  closed_iff := h.closed_iff

/-- A connection that did not come to be is closed. -/
theorem close {n : Nat} {closed' : List Nat}
    (h : Numbered created ended closed (n :: reserved) last)
    (closes : ∀ k, k ∈ closed' ↔ k = n ∨ k ∈ closed) :
    Numbered created ended closed' reserved last where
  reserved_nodup := (List.nodup_cons.mp h.reserved_nodup).2
  reserved_new k member := by
    obtain ⟨le, unclosed, uncreated⟩ := h.reserved_new k (List.mem_cons_of_mem _ member)
    refine ⟨le, fun close => ?_, uncreated⟩
    rcases (closes k).mp close with rfl | close
    · exact (List.nodup_cons.mp h.reserved_nodup).1 member
    · exact unclosed close
  created_le := h.created_le
  created_apart := h.created_apart
  closed_le k member := by
    rcases (closes k).mp member with rfl | member
    · exact (h.reserved_new k (List.mem_cons_self ..)).1
    · exact h.closed_le k member
  closed_iff i k member := by
    rw [closes, ← h.closed_iff i k member]
    refine ⟨?_, .inr⟩
    rintro (rfl | close)
    · exact absurd member ((h.reserved_new k (List.mem_cons_self ..)).2.2 i)
    · exact close

/-- What a session has made once it made more is old or new. -/
theorem mem_update_append {i j n : Nat} {born : List Nat}
    (member : n ∈ Function.update created i (born ++ created i) j) :
    j = i ∧ n ∈ born ∨ n ∈ created j := by
  by_cases same : j = i
  · subst same
    rw [Function.update_self, List.mem_append] at member
    exact member.imp_left fun new => ⟨rfl, new⟩
  · rw [Function.update_of_ne same] at member
    exact .inr member

/-- A session makes connections that were begun, and ends some that it made and that are closed. -/
theorem step {i : Nat} {born ending closed' reserved' : List Nat}
    (h : Numbered created ended closed reserved last)
    (begun : reserved.Perm (born ++ reserved')) (made : ∀ n ∈ ending, n ∈ created i)
    (before : ∀ n ∈ ended i, n ∈ created i)
    (closes : ∀ n, n ∈ closed' ↔ n ∈ ending ∨ n ∈ closed) :
    Numbered (Function.update created i (born ++ created i))
      (Function.update ended i (ending ++ ended i)) closed' reserved' last := by
  have nodup := List.nodup_append.mp (begun.nodup_iff.mp h.reserved_nodup)
  have was {n : Nat} (member : n ∈ born) : n ≤ last ∧ n ∉ closed ∧ ∀ j, n ∉ created j :=
    h.reserved_new n (begun.mem_iff.mpr (List.mem_append_left _ member))
  constructor
  case reserved_nodup => exact nodup.2.1
  case reserved_new =>
    intro n member
    obtain ⟨le, unclosed, uncreated⟩ :=
      h.reserved_new n (begun.mem_iff.mpr (List.mem_append_right _ member))
    refine ⟨le, ?_, ?_⟩
    · intro close
      rcases (closes n).mp close with ends | close
      · exact uncreated i (made n ends)
      · exact unclosed close
    · intro j member'
      rcases mem_update_append member' with ⟨-, new⟩ | old
      · exact nodup.2.2 n new n member rfl
      · exact uncreated j old
  case created_le =>
    intro j n member
    rcases mem_update_append member with ⟨-, new⟩ | old
    · exact (was new).1
    · exact h.created_le j n old
  case created_apart =>
    intro j k n first second
    rcases mem_update_append first with ⟨same, new⟩ | old <;>
      rcases mem_update_append second with ⟨same', new'⟩ | old'
    · exact same.trans same'.symm
    · exact absurd old' ((was new).2.2 k)
    · exact absurd old ((was new').2.2 j)
    · exact h.created_apart j k n old old'
  case closed_le =>
    intro n member
    rcases (closes n).mp member with ends | close
    · exact h.created_le i n (made n ends)
    · exact h.closed_le n close
  case closed_iff =>
    intro j n member
    rw [closes]
    by_cases same : j = i
    · subst same
      rw [Function.update_self, List.mem_append] at member ⊢
      apply or_congr_right'
      intro _
      rcases member with new | old
      · exact iff_of_false (was new).2.1 fun ends => (was new).2.2 j (before n ends)
      · exact h.closed_iff j n old
    · rw [Function.update_of_ne same] at member ⊢
      rw [← h.closed_iff j n member]
      exact or_iff_right fun ends => same (h.created_apart j i n member (made n ends))

end Numbered

section Tallies
variable {fresh : Session} {i : Nat} {all all' : List Holding} {past : List Deal} {d : Deal}
  {c : Connection}

theorem Follows.cons (h : Follows past c) (other : ¬ Concerns c.number d.dealing) :
    Follows (d :: past) c := by
  rw [Follows, progress_cons other]
  exact h

namespace Tallied

theorem mem_held (t : Tallied fresh i all past) (member : .connection i c ∈ all) :
    c.number ∈ held past :=
  t.held_perm.mem_iff.mpr (Holding.mem_connections member)

theorem openings_pos (t : Tallied fresh i all past) (member : .slot i ∈ all) :
    0 < openings past := by
  rw [t.openings_eq]
  exact List.countP_pos_iff.mpr ⟨_, member, by simp [Holding.isSlot]⟩

/-- Nobody has a connection twice. -/
theorem number_ne (t : Tallied fresh i (.connection i c :: all) past) (new : Fresh fresh)
    {c' : Connection} (member : .connection i c' ∈ all) : c'.number ≠ c.number := by
  have nodup := t.held_perm.nodup_iff.mp (t.lawful.balanced new).held_nodup
  rw [Holding.connections_self] at nodup
  intro same
  exact (List.nodup_cons.mp nodup).1 (same ▸ Holding.mem_connections member)

/-- A session goes on. What is on hand then was on hand before and is not concerned, or follows
from what the session did. -/
theorem cons (t : Tallied fresh i all past) (lawful : Lawful fresh (d :: past))
    (held_perm : (held (d :: past)).Perm (Holding.connections i all'))
    (openings_eq : openings (d :: past) = Holding.slots i all')
    (follows : ∀ c, .connection i c ∈ all' →
      .connection i c ∈ all ∧ ¬ Concerns c.number d.dealing ∨ Follows (d :: past) c) :
    Tallied fresh i all' (d :: past) where
  lawful := lawful
  held_perm := held_perm
  openings_eq := openings_eq
  follows c member := by
    rcases follows c member with ⟨before, other⟩ | follows
    · exact (t.follows c before).cons other
    · exact follows

theorem perm (t : Tallied fresh i all past) (perm : all.Perm all') : Tallied fresh i all' past where
  lawful := t.lawful
  held_perm := t.held_perm.trans (perm.filterMap _)
  openings_eq := t.openings_eq.trans (perm.countP_eq _)
  follows c member := t.follows c (perm.mem_iff.mpr member)

/-- Nothing changes for those who have connections. -/
theorem pass (t : Tallied fresh i all past) (lawful : Lawful fresh (d :: past))
    (held_eq : held (d :: past) = held past) (openings_eq : openings (d :: past) = openings past)
    (other : ∀ n ∈ held past, ¬ Concerns n d.dealing) : Tallied fresh i all (d :: past) :=
  t.cons lawful (held_eq ▸ t.held_perm) (openings_eq ▸ t.openings_eq)
    fun _ member => .inl ⟨member, other _ (t.mem_held member)⟩

/-- A connection is given up. -/
theorem release (t : Tallied fresh i (.connection i c :: all) past) (new : Fresh fresh)
    (lawful : Lawful fresh (d :: past)) (held_eq : held (d :: past) = (held past).erase c.number)
    (openings_eq : openings (d :: past) = openings past)
    (other : ∀ n, Concerns n d.dealing → c.number = n) : Tallied fresh i all (d :: past) := by
  have perm := t.held_perm
  rw [Holding.connections_self] at perm
  apply t.cons lawful
  case held_perm => simpa [held_eq] using perm.erase c.number
  case openings_eq => simpa [openings_eq] using t.openings_eq
  case follows =>
    intro c₁ member
    refine .inl ⟨List.mem_cons_of_mem _ member, ?_⟩
    intro concerned
    exact t.number_ne new member (other _ concerned).symm

section Elsewhere
variable {j n : Nat} {h : Holding}

/-- What is not at a session does not matter to it. -/
theorem cons_iff (unconnected : h.connection? i = none) (unslotted : h.isSlot i = false) :
    Tallied fresh i (h :: all) past ↔ Tallied fresh i all past := by
  have connections : Holding.connections i (h :: all) = Holding.connections i all := by
    simp [Holding.connections, unconnected]
  have slots : Holding.slots i (h :: all) = Holding.slots i all := by
    simp [Holding.slots, unslotted]
  have other (c : Connection) : .connection i c ≠ h := by
    rintro rfl
    simp [Holding.connection?] at unconnected
  constructor <;> rintro ⟨lawful, held_perm, openings_eq, follows⟩
  · exact ⟨lawful, connections ▸ held_perm, slots ▸ openings_eq,
      fun c member => follows c (List.mem_cons_of_mem _ member)⟩
  · refine ⟨lawful, connections ▸ held_perm, slots ▸ openings_eq, fun c member => follows c ?_⟩
    exact (List.mem_cons.mp member).resolve_left (other c)

theorem connection_ne (ne : j ≠ i) :
    Tallied fresh i (.connection j c :: all) past ↔ Tallied fresh i all past :=
  cons_iff (by simp [Holding.connection?, ne]) rfl

theorem slot_ne (ne : j ≠ i) :
    Tallied fresh i (.slot j :: all) past ↔ Tallied fresh i all past :=
  cons_iff rfl (by simp [Holding.isSlot, ne])

theorem number_iff : Tallied fresh i (.number n :: all) past ↔ Tallied fresh i all past :=
  cons_iff rfl rfl

/-- Calls and streams do not matter to a session. -/
theorem filter_iff :
    Tallied fresh i (all.filter Holding.onWire) past ↔ Tallied fresh i all past := by
  constructor <;> rintro ⟨lawful, held_perm, openings_eq, follows⟩
  · exact ⟨lawful, by simpa using held_perm, by simpa using openings_eq,
      fun c member => follows c (List.mem_filter.mpr ⟨member, rfl⟩)⟩
  · exact ⟨lawful, by simpa using held_perm, by simpa using openings_eq,
      fun c member => follows c (List.mem_filter.mp member).1⟩

end Elsewhere

end Tallied

end Tallies

namespace Kept

variable {fresh : Session} {i : Nat} {all all' : List Holding} {w : World} {c : Connection}

theorem new (h : Kept fresh all w) : Fresh fresh := ofConfig_fresh h.made

theorem balanced (h : Kept fresh all w) (i : Nat) : Balanced fresh (tale i w.journal) :=
  (h.tallied i).lawful.balanced h.new

/-- A session that something was done with was made. -/
theorem session_lt (h : Kept fresh all w) (some : tale i w.journal ≠ []) :
    i < w.sessions.length :=
  Nat.lt_of_not_le fun le => some (h.unmade i le)

theorem find_eq (h : Kept fresh all w) (here : i < w.sessions.length) :
    Session.find w i = replay fresh (tale i w.journal) := by
  have some := List.getElem?_eq_getElem here
  rw [Session.find, List.getD_eq_getElem?_getD, some, Option.getD_some]
  exact h.replayed i _ some

theorem sessions_deal {dealing : Dealing} {s : Session}
    (found : (w.deal i dealing).sessions[i]? = some s) :
    ∃ s₀, w.sessions[i]? = some s₀ ∧ s = s₀.after w.now dealing := by
  simp only [World.deal, List.getElem?_modify_eq, Option.map_eq_map, Option.map_eq_some_iff]
    at found
  obtain ⟨s₀, before, rfl⟩ := found
  exact ⟨s₀, before, rfl⟩

/-- A session does what it may do, and ends connections if they are closed on the wire. -/
theorem deal {dealing : Dealing} (h : Kept fresh all w) (history : List Entry)
    (here : i < w.sessions.length) (may : May fresh (tale i w.journal) w.now dealing)
    (closed : ∀ n, n ∈ closes history ↔ n ∈ ending dealing ∨ n ∈ closes w.history)
    (reserved : (Holding.numbers all).Perm (born dealing ++ Holding.numbers all'))
    (tallied : Lawful fresh (⟨i, dealing, w.now⟩ :: tale i w.journal) →
      Tallied fresh i all' (⟨i, dealing, w.now⟩ :: tale i w.journal))
    (others : ∀ j, j ≠ i → ∀ past, Tallied fresh j all past → Tallied fresh j all' past) :
    Kept fresh all' ({ w with history }.deal i dealing) := by
  let d : Deal := ⟨i, dealing, w.now⟩
  have self : tale i (d :: w.journal) = d :: tale i w.journal := tale_cons_self rfl
  have other {j : Nat} (ne : j ≠ i) : tale j (d :: w.journal) = tale j w.journal :=
    tale_cons_of_ne (Ne.symm ne)
  have lawful : Lawful fresh (d :: tale i w.journal) :=
    .cons (h.tallied i).lawful may h.now_nonneg
      fun e member => h.time_le e (List.mem_filter.mp member).1
  have balanced := h.balanced i
  constructor
  case made => exact h.made
  case now_nonneg => exact h.now_nonneg
  case time_le => exact List.forall_mem_cons.mpr ⟨Int.le_refl _, h.time_le⟩
  case transport =>
    intro j some
    have here := h.transport j some
    rwa [← List.length_modify] at here
  case tallied =>
    intro j
    by_cases same : j = i
    · subst same
      exact self.symm ▸ tallied lawful
    · exact (other same).symm ▸ others j same _ (h.tallied j)
  case replayed =>
    intro j s found
    by_cases same : j = i
    · subst same
      obtain ⟨s₀, before, rfl⟩ := sessions_deal found
      rw [h.replayed j s₀ before]
      exact congrArg (replay fresh) self.symm
    · have before : w.sessions[j]? = some s := by
        simpa [World.deal, List.getElem?_modify, Ne.symm same] using found
      exact (h.replayed j s before).trans (congrArg (replay fresh) (other same).symm)
  case unmade =>
    intro j le
    have le : w.sessions.length ≤ j := by simpa [World.deal] using le
    have ne : j ≠ i := by omega
    exact (other ne).trans (h.unmade j le)
  case numbered =>
    have made (n : Nat) (ends : n ∈ ending dealing) :
        n ∈ (replay fresh (tale i w.journal)).created :=
      balanced.mem_created_of_ending may ends
    have before (n : Nat) (gone : n ∈ ended (tale i w.journal)) :
        n ∈ (replay fresh (tale i w.journal)).created :=
      balanced.mem_created.mpr (.inr (.inr gone))
    have step := h.numbered.step reserved made before closed
    rw [← ended_cons d, ← created_cons d, update_tale (i := i) ended rfl,
      update_tale (i := i) (fun past => (replay fresh past).created) rfl] at step
    exact step

section Deals
variable {number : Nat}

theorem connection_lt (h : Kept fresh (.connection i c :: all) w) : i < w.sessions.length := by
  apply h.session_lt
  intro nothing
  have member := (h.tallied i).mem_held (List.mem_cons_self ..)
  rw [nothing] at member
  exact List.not_mem_nil member

theorem slot_lt (h : Kept fresh all w) (member : .slot i ∈ all) : i < w.sessions.length := by
  apply h.session_lt
  intro nothing
  have pending := (h.tallied i).openings_pos member
  rw [nothing] at pending
  exact Nat.lt_irrefl 0 pending

theorem lend {c₀ : Connection} {rest : List Connection} (h : Kept fresh all w)
    (here : i < w.sessions.length) (idle : (Session.find w i).idle = c₀ :: rest)
    (young : (Session.find w i).expired w.now c₀ = false) :
    Kept fresh (.connection i { c₀ with reused := true, persistent := false } :: all)
      (w.deal i (.lent { c₀ with reused := true, persistent := false })) := by
  rw [h.find_eq here] at idle young
  have t := h.tallied i
  have member : c₀ ∈ (replay fresh (tale i w.journal)).idle := idle ▸ List.mem_cons_self ..
  have free := ((h.balanced i).idle_disjoint member).2.1
  have rested := (t.lawful.rested h.new member).1
  apply h.deal w.history here
  case may => exact ⟨c₀, rest, idle, young, rfl⟩
  case closed => simp [ending]
  case reserved => exact .refl _
  case others => exact fun j ne past => (Tallied.connection_ne (Ne.symm ne)).mpr
  case tallied =>
    intro lawful
    apply t.cons lawful
    case held_perm => simpa [held] using t.held_perm
    case openings_eq => simpa [openings] using t.openings_eq
    case follows =>
      intro c member
      rcases List.mem_cons.mp member with same | member
      · cases same
        right
        simp [Follows, progress, rested]
      · refine .inl ⟨member, ?_⟩
        intro same
        have same : c₀.number = c.number := same
        exact free (same ▸ t.mem_held member)

/-- Nothing changes when every slot is taken. -/
theorem crowd (h : Kept fresh all w) (here : i < w.sessions.length)
    (idle : (Session.find w i).idle = [])
    (full : (Session.find w i).maxConnections ≤ (Session.find w i).opened) :
    Kept fresh all (w.deal i .crowded) := by
  rw [h.find_eq here] at idle full
  apply h.deal w.history here
  case may => exact ⟨idle, full⟩
  case closed => simp [ending]
  case reserved => exact .refl _
  case others => exact fun j ne past => id
  case tallied => exact fun lawful => (h.tallied i).pass lawful rfl rfl fun n member => id

/-- A slot is taken. -/
theorem takeSlot (h : Kept fresh all w) (here : i < w.sessions.length)
    (idle : (Session.find w i).idle = [])
    (room : (Session.find w i).opened < (Session.find w i).maxConnections) :
    Kept fresh (.slot i :: all) (w.deal i .opening) := by
  rw [h.find_eq here] at idle room
  have t := h.tallied i
  apply h.deal w.history here
  case may => exact ⟨idle, room⟩
  case closed => simp [ending]
  case reserved => exact .refl _
  case others => exact fun j ne past => (Tallied.slot_ne (Ne.symm ne)).mpr
  case tallied =>
    intro lawful
    apply t.cons lawful
    case held_perm => exact t.held_perm
    case openings_eq => simp [openings, t.openings_eq]
    case follows =>
      intro c member
      exact .inl ⟨by simpa using member, id⟩

/-- A connection comes to be in a slot. -/
theorem fillSlot {t : Instant} (h : Kept fresh (.number number :: .slot i :: all) w) :
    Kept fresh (.connection i { number, lastUsed := t } :: all) (w.deal i (.opened number)) := by
  have tallied := h.tallied i
  obtain ⟨-, -, uncreated⟩ := h.numbered.reserved_new number (List.mem_cons_self ..)
  have pending := tallied.openings_pos (by simp)
  apply h.deal w.history
  case here => exact h.slot_lt (by simp)
  case may => exact ⟨pending, uncreated i⟩
  case closed => simp [ending]
  case reserved => exact .refl _
  case others =>
    intro j ne past before
    have unslotted := (Tallied.slot_ne (Ne.symm ne)).mp (Tallied.number_iff.mp before)
    exact (Tallied.connection_ne (Ne.symm ne)).mpr unslotted
  case tallied =>
    intro lawful
    apply tallied.cons lawful
    case held_perm => simpa [held] using tallied.held_perm
    case openings_eq => simp [openings, tallied.openings_eq]
    case follows =>
      intro c member
      rcases List.mem_cons.mp member with same | member
      · cases same
        right
        simp [Follows, progress]
      · refine .inl ⟨by simp [member], ?_⟩
        intro same
        have same : number = c.number := same
        have held := tallied.mem_held (c := c) (by simp [member])
        exact uncreated i ((h.balanced i).mem_created.mpr (.inr (.inl (same ▸ held))))

/-- A slot in which no connection came to be is given back. -/
theorem freeSlot (h : Kept fresh (.slot i :: all) w) : Kept fresh all (w.deal i .abandoned) := by
  have t := h.tallied i
  apply h.deal w.history
  case here => exact h.slot_lt (by simp)
  case may => exact t.openings_pos (by simp)
  case closed => simp [ending]
  case reserved => exact .refl _
  case others => exact fun j ne past => (Tallied.slot_ne (Ne.symm ne)).mp
  case tallied =>
    intro lawful
    apply t.cons lawful
    case held_perm => exact t.held_perm
    case openings_eq => simp [openings, t.openings_eq]
    case follows =>
      intro c member
      exact .inl ⟨by simp [member], id⟩

/-- Something comes over a connection, of which more or less is left to arrive then. -/
theorem comes {dealing : Dealing} {c' : Connection} (h : Kept fresh (.connection i c :: all) w)
    (number_eq : c'.number = c.number)
    (may : c.number ∈ held (tale i w.journal) → May fresh (tale i w.journal) w.now dealing)
    (ends : ending dealing = []) (begins : born dealing = [])
    (held_eq : held (⟨i, dealing, w.now⟩ :: tale i w.journal) = held (tale i w.journal))
    (openings_eq : openings (⟨i, dealing, w.now⟩ :: tale i w.journal) = openings (tale i w.journal))
    (other : ∀ n, Concerns n dealing → c.number = n)
    (follows : Follows (tale i w.journal) c →
      Follows (⟨i, dealing, w.now⟩ :: tale i w.journal) c') :
    Kept fresh (.connection i c' :: all) (w.deal i dealing) := by
  have t := h.tallied i
  have perm := t.held_perm
  rw [Holding.connections_self, ← number_eq, ← Holding.connections_self] at perm
  apply h.deal w.history h.connection_lt
  case may => exact may (t.mem_held (List.mem_cons_self ..))
  case closed => simp [ends]
  case reserved => simp [begins]
  case others =>
    intro j ne past before
    have others := (Tallied.connection_ne (Ne.symm ne)).mp before
    exact (Tallied.connection_ne (Ne.symm ne)).mpr others
  case tallied =>
    intro lawful
    apply t.cons lawful
    case held_perm => exact held_eq ▸ perm
    case openings_eq => simpa [openings_eq] using t.openings_eq
    case follows =>
      intro c₁ member
      rcases List.mem_cons.mp member with same | member
      · cases same
        exact .inr (follows (t.follows c (List.mem_cons_self ..)))
      · refine .inl ⟨List.mem_cons_of_mem _ member, ?_⟩
        intro concerned
        exact t.number_ne h.new member (other _ concerned).symm

theorem answer (h : Kept fresh (.connection i c :: all) w) (e : Exchange) :
    Kept fresh (.connection i { c with unread := e.body, persistent := e.keepAlive } :: all)
      (w.deal i (.answered c.number e)) := by
  refine h.comes rfl id rfl rfl rfl rfl (fun n => id) ?_
  intro _
  simp [Follows, progress]

theorem receive {data : Bytes} {rest : List Piece} (h : Kept fresh (.connection i c :: all) w)
    (some : c.unread ≠ []) (bytes_eq : bytes c.unread = data ++ bytes rest) :
    Kept fresh (.connection i { c with unread := rest } :: all)
      (w.deal i (.received c.number data)) := by
  refine h.comes rfl id rfl rfl rfl rfl (fun n => id) ?_
  intro follows
  unfold Follows at follows ⊢
  simp only [progress]
  cases answered : progress c.number (tale i w.journal) with
  | none =>
    rw [answered] at follows
    exact absurd follows.1 some
  | some p =>
    rw [answered] at follows
    simpa [bytes_eq] using follows

/-- A connection whose response is complete comes back. -/
theorem takeBack (h : Kept fresh (.connection i c :: all) w) (read : c.unread = [])
    (keeps : (Session.find w i).keeps c = true) : Kept fresh all (w.deal i (.returned c)) := by
  have t := h.tallied i
  have member : c.number ∈ held (tale i w.journal) := t.mem_held (List.mem_cons_self ..)
  rw [h.find_eq h.connection_lt] at keeps
  simp only [Session.keeps, Bool.and_eq_true, Bool.not_eq_true'] at keeps
  obtain ⟨⟨open_, persistent⟩, -⟩ := keeps
  have complete : Complete c.number (tale i w.journal) := by
    have follows := t.follows c (List.mem_cons_self ..)
    unfold Follows at follows
    cases answered : progress c.number (tale i w.journal) with
    | none => simp [answered, persistent] at follows
    | some p =>
      simp only [answered, read, persistent] at follows
      refine ⟨p.1, ?_, follows.2.symm⟩
      rw [answered, ← follows.1, bytes, List.flatMap_nil, List.append_nil]
  apply h.deal w.history h.connection_lt
  case may => exact ⟨member, open_, read, complete⟩
  case closed => simp [ending]
  case reserved => exact .refl _
  case others => exact fun j ne past => (Tallied.connection_ne (Ne.symm ne)).mp
  case tallied => exact fun lawful => t.release h.new lawful rfl rfl fun n => id

/-- A connection is closed, and its slot is free again. -/
theorem discard (h : Kept fresh (.connection i c :: all) w) :
    Kept fresh all (((w.record (.shutdown c.number)).record (.close c.number)).deal i
      (.discarded c.number)) := by
  have t := h.tallied i
  have member : c.number ∈ held (tale i w.journal) := t.mem_held (List.mem_cons_self ..)
  apply h.deal ((w.record (.shutdown c.number)).record (.close c.number)).history h.connection_lt
  case may => exact member
  case closed =>
    intro n
    simp [mem_closes_record, WireEvent.closed?, ending, eq_comm]
  case reserved => exact .refl _
  case others => exact fun j ne past => (Tallied.connection_ne (Ne.symm ne)).mp
  case tallied => exact fun lawful => t.release h.new lawful rfl rfl fun n => id

/-- Idle connections are closed. -/
theorem drop {old : List Connection} {dealing : Dealing} (h : Kept fresh all w)
    (here : i < w.sessions.length) (may : May fresh (tale i w.journal) w.now dealing)
    (idle : ∀ c ∈ old, c ∈ (replay fresh (tale i w.journal)).idle)
    (ends : ending dealing = old.map (·.number)) (begins : born dealing = [])
    (held_eq : held (⟨i, dealing, w.now⟩ :: tale i w.journal) = held (tale i w.journal))
    (openings_eq : openings (⟨i, dealing, w.now⟩ :: tale i w.journal) = openings (tale i w.journal))
    (other : ∀ n, Concerns n dealing → n ∈ old.map (·.number)) :
    Kept fresh all ((w.deal i dealing).closeAll old) := by
  apply h.deal (w.closeAll old).history here may
  case closed =>
    intro n
    rw [ends]
    exact mem_closes_closeAll
  case reserved => simp [begins]
  case others => exact fun j ne past => id
  case tallied =>
    intro lawful
    apply (h.tallied i).pass lawful held_eq openings_eq
    intro n member concerned
    obtain ⟨c, dropped, rfl⟩ := List.mem_map.mp (other n concerned)
    exact ((h.balanced i).idle_disjoint (idle c dropped)).2.1 member

theorem expire {old : List Connection} (h : Kept fresh all w) (here : i < w.sessions.length)
    (old_eq : old = (Session.find w i).idle.filter ((Session.find w i).expired w.now)) :
    Kept fresh all ((w.deal i (.expired old)).closeAll old) := by
  rw [h.find_eq here] at old_eq
  refine h.drop here old_eq ?_ rfl rfl rfl rfl fun n => id
  intro c expired
  rw [old_eq] at expired
  exact (List.mem_filter.mp expired).1

theorem shut {idle : List Connection} (h : Kept fresh all w) (here : i < w.sessions.length)
    (idle_eq : idle = (Session.find w i).idle) :
    Kept fresh all ((w.deal i (.shut idle)).closeAll idle) := by
  rw [h.find_eq here] at idle_eq
  refine h.drop here idle_eq ?_ rfl rfl rfl rfl fun n => id
  intro c member
  exact idle_eq ▸ member

theorem resolve (h : Kept fresh all w) (taken : .slot i ∈ all) :
    Kept fresh all (w.deal i .resolved) := by
  apply h.deal w.history (h.slot_lt taken)
  case may => trivial
  case closed => simp [ending]
  case reserved => exact .refl _
  case others => exact fun j ne past => id
  case tallied => exact fun lawful => (h.tallied i).pass lawful rfl rfl fun n member => id

/-- A connection is begun. -/
theorem begin (h : Kept fresh all w) :
    Kept fresh (.number (w.connections + 1) :: all) { w with connections := w.connections + 1 } :=
  { h with
    tallied := fun i => Tallied.number_iff.mpr (h.tallied i)
    numbered := h.numbered.begin }

/-- A connection that does not come to be is closed. -/
theorem fail (h : Kept fresh (.number number :: all) w) :
    Kept fresh all (w.record (.close number)) :=
  { h with
    tallied := fun i => Tallied.number_iff.mp (h.tallied i)
    numbered := h.numbered.close fun k => by
      simp [mem_closes_record, WireEvent.closed?, eq_comm] }

end Deals

section Frame

theorem record {e : WireEvent} (h : Kept fresh all w) (other : e.closed? = none) :
    Kept fresh all (w.record e) :=
  have same : closes (w.record e).history = closes w.history := by simp [closes_record, other]
  { h with numbered := same ▸ h.numbered }

theorem happened (h : Kept fresh all w) (answer : Answer) :
    Kept fresh all { w with history := w.history ++ [.act answer w.now] } :=
  { h with
    numbered := by
      simpa only [closes, List.filterMap_append, List.filterMap_cons_none, List.filterMap_nil,
        List.append_nil] using h.numbered }

theorem advanceTo (h : Kept fresh all w) (t : Instant) : Kept fresh all (w.advanceTo t) :=
  { h with
    now_nonneg := Int.le_trans h.now_nonneg (Int.le_max_left ..)
    time_le := fun d member => Int.le_trans (h.time_le d member) (Int.le_max_left ..) }

/-- It does not matter who has what. -/
theorem perm (h : Kept fresh all w) (perm : all.Perm all') : Kept fresh all' w :=
  have numbers := perm.filterMap Holding.number?
  { h with
    tallied := fun i => (h.tallied i).perm perm
    numbered := { h.numbered with
      reserved_nodup := numbers.nodup_iff.mp h.numbered.reserved_nodup
      reserved_new := fun n member => h.numbered.reserved_new n (numbers.mem_iff.mpr member) } }

theorem filter_iff : Kept fresh (all.filter Holding.onWire) w ↔ Kept fresh all w := by
  have numbers : Holding.numbers (all.filter Holding.onWire) = Holding.numbers all := by simp
  constructor <;> intro h
  · exact { h with
      tallied := fun i => Tallied.filter_iff.mp (h.tallied i)
      numbered := numbers ▸ h.numbered }
  · exact { h with
      tallied := fun i => Tallied.filter_iff.mpr (h.tallied i)
      numbered := numbers.symm ▸ h.numbered }

/-- It does not matter to the sessions how far calls are, and who has streams. -/
theorem of_onWire (h : Kept fresh all w)
    (same : all'.filter Holding.onWire = all.filter Holding.onWire) : Kept fresh all' w :=
  filter_iff.mp (same ▸ filter_iff.mpr h)

theorem of_core {w' : World} (h : Kept fresh all w) (core_eq : w'.core = w.core) :
    Kept fresh all w' :=
  have kept : Kept fresh all w.core := { h with }
  have kept : Kept fresh all w'.core := core_eq ▸ kept
  { kept with }

/-- A session is made. -/
theorem grow (h : Kept fresh all w) : Kept fresh all { w with sessions := w.sessions ++ [fresh] } :=
  { h with
    transport := fun i some => by
      have := h.transport i some
      simp only [List.length_append]
      omega
    replayed := fun i s found => by
      rcases Nat.lt_or_ge i w.sessions.length with lt | ge
      · rw [List.getElem?_append_left lt] at found
        exact h.replayed i s found
      · rw [h.unmade i ge]
        rw [List.getElem?_append_right ge, List.getElem?_singleton] at found
        split at found
        · exact (Option.some.inj found).symm
        · cases found
    unmade := fun i le => h.unmade i (by simp at le; omega) }

end Frame

end Kept

/-- The sessions agree with what is on hand: some things here, and what is lodged. -/
def Holds (fresh : Session) (hand : List Holding) (w : World) : Prop :=
  Kept fresh (hand ++ w.lodged) w

theorem perm_lodged {a b hand lodged lodged' : List Holding}
    (h : (a ++ lodged').Perm (b ++ lodged)) :
    (b ++ hand ++ lodged).Perm (a ++ hand ++ lodged') := by
  have swap := (List.perm_append_comm_assoc ..).trans
    ((h.symm.append_left hand).trans (List.perm_append_comm_assoc ..))
  simpa only [List.append_assoc] using swap

namespace Holds

variable {fresh : Session} {σ : Setting} {hand hand' : List Holding} {w w' : World}

theorem of_core (h : Holds fresh hand w) (core_eq : w'.core = w.core) : Holds fresh hand w' := by
  have lodged : w'.core.lodged = w.core.lodged := by rw [core_eq]
  have lodged : w'.lodged = w.lodged := lodged
  rw [Holds, lodged]
  exact Kept.of_core h core_eq

/-- It does not matter to the sessions what a client counts and writes down, how far calls are, and
who has streams. -/
theorem counted (h : Holds fresh hand w)
    (only : w' = { w with
      client := w'.client, diary := w'.diary, log := w'.log, turnstile := w'.turnstile })
    (same : hand'.filter Holding.onWire = hand.filter Holding.onWire) : Holds fresh hand' w' := by
  have kept : Kept fresh (hand' ++ w.lodged) w := Kept.of_onWire h (by simp [same])
  rw [only]
  exact { kept with }

/-- Whatever is done, the sessions agree with what is on hand after it. -/
theorem move {a b : List Holding × World} (move : Move σ a b)
    (elapse : ∀ hand w w', σ.elapses w w' → Holds fresh hand w → Holds fresh hand w')
    (h : Holds fresh a.1 a.2) : Holds fresh b.1 b.2 := by
  cases move with
  | elapse elapses => exact elapse _ _ _ elapses h
  | aside core_eq => exact of_core h core_eq
  | postpone due allowed => exact { h with }
  | record other => exact Kept.record h other
  | crowd _ open_ idle full => exact Kept.crowd h (Session.lt_of_open open_) idle full
  | lend _ open_ idle young => exact Kept.lend h (Session.lt_of_open open_) idle young
  | takeSlot _ open_ idle room => exact Kept.takeSlot h (Session.lt_of_open open_) idle room
  | freeSlot => exact Kept.freeSlot h
  | beginConnection => exact Kept.begin h
  | loseConnection => exact Kept.fail h
  | fillSlot t => exact Kept.fillSlot h
  | answer e => exact Kept.answer h e
  | receive some bytes_eq => exact Kept.receive h some bytes_eq
  | takeBack read keeps => exact Kept.takeBack h read keeps
  | discard => exact Kept.discard h
  | expire open_ old_eq => exact Kept.expire h (Session.lt_of_open open_) old_eq
  | @shut hand w i idle current idle_eq =>
    have enrolled : Holds fresh hand (w.enrol (.closed (.session i))) := { h with }
    exact Kept.shut enrolled (h.transport _ current) idle_eq
  | resolve => exact Kept.resolve h (by simp)
  | renew idle running made =>
    obtain rfl : fresh = _ := Except.ok.inj (h.made.symm.trans made)
    exact { Kept.grow h with
      transport := by
        rintro _ ⟨⟩
        simp [World.enrol] }
  | forsake | furnish | retire => exact { h with transport := by rintro _ ⟨⟩ }
  | windUp | handOver | send => exact { h with }
  | closeStream permit succeeded => cases permit <;> exact counted h rfl rfl
  | desist front => exact counted h rfl (by simp [Holding.onWire])
  | openStream s => exact counted h rfl (by simp [Holding.onWire])
  | adopt raw s permit => exact counted h rfl (by simp [Holding.onWire])
  | putStream name s =>
    have kept := Kept.perm h (perm_lodged (World.lodged_putStream _ name s))
    exact { kept with }
  | takeStream name =>
    have kept := Kept.perm h (perm_lodged (b := []) (World.lodged_takeStream _ name))
    exact { kept with }
  | putSource raw name s =>
    have kept := Kept.perm h (perm_lodged (World.lodged_putSource _ name s))
    exact { kept with }
  | takeSource raw name =>
    have kept := Kept.perm h (perm_lodged (b := []) (World.lodged_takeSource _ name))
    exact { kept with }
  | _ => exact counted h rfl rfl

end Holds

end Parley
