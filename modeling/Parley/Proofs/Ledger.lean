import Mathlib.Data.List.Nodup
import Parley.Proofs.Instants
import Parley.World

/-!
What a session did, read back from its journal. A past is a list of deals, the latest first; it
determines the state of the session, and who has its connections.

* `replay`, `held`, `openings`, `ended`, `progress`: what a past comes to;
* `May`: what a session may do after a past, and `Lawful`: a past in which it did nothing else;
* `Lawful.balanced`: every slot is accounted for, and so is every connection that came to be;
* `Lawful.fit`: a connection that is handed out again has come back from a complete exchange.
-/
namespace Parley.Ledger

/-- The part of a journal that is about one session. -/
def tale (i : Nat) (journal : List Deal) : List Deal := journal.filter (·.session = i)

/-- The state of a session that was fresh before its past. -/
def replay (fresh : Session) : List Deal → Session
  | [] => fresh
  | d :: past => (replay fresh past).after d.time d.dealing

/-- The connections that are handed out. -/
def held : List Deal → List Nat
  | [] => []
  | d :: past =>
    match d.dealing with
    | .opened n => n :: held past
    | .lent c => c.number :: held past
    | .returned c => (held past).erase c.number
    | .discarded n => (held past).erase n
    | _ => held past

/-- How many connections are being opened. -/
def openings : List Deal → Nat
  | [] => 0
  | d :: past =>
    match d.dealing with
    | .opening => openings past + 1
    | .opened _ | .abandoned => openings past - 1
    | _ => openings past

/-- The connections that a dealing makes. -/
def born : Dealing → List Nat
  | .opened n => [n]
  | _ => []

/-- The connections that a dealing ends. -/
def ending : Dealing → List Nat
  | .expired old | .shut old => old.map (·.number)
  | .discarded n => [n]
  | _ => []

/-- The connections that have ended. -/
def ended (past : List Deal) : List Nat := past.flatMap fun d => ending d.dealing

/-- The bytes of a response body. -/
def bytes (pieces : List Piece) : Bytes := pieces.flatMap (·.data)

/-- How far a connection has come with the exchange that it was handed out for last: what it was
answered, and which part of the body has arrived. -/
def progress (n : Nat) : List Deal → Option (Exchange × Bytes)
  | [] => none
  | d :: past =>
    match d.dealing with
    | .opened k => if k = n then none else progress n past
    | .lent c => if c.number = n then none else progress n past
    | .answered k e => if k = n then some (e, []) else progress n past
    | .received k data =>
      if k = n then (progress n past).map fun (e, got) => (e, got ++ data) else progress n past
    | _ => progress n past

/-- The last exchange over a connection is complete, and leaves it open. -/
def Complete (n : Nat) (past : List Deal) : Prop :=
  ∃ e, progress n past = some (e, bytes e.body) ∧ e.keepAlive = true

/-- Whether something is done with a connection that is not idle, or with one that is no longer
idle then. -/
def Concerns (n : Nat) : Dealing → Prop
  | .opened k | .answered k _ | .received k _ | .discarded k => k = n
  | .lent c | .returned c => c.number = n
  | .expired old | .shut old => n ∈ old.map (·.number)
  | .crowded | .opening | .abandoned | .resolved => False

/-- A connection came back at an instant after a complete exchange, and nothing was done with it
since. -/
inductive Rested (n : Nat) (t : Instant) : List Deal → Prop where
  | returned {d : Deal} {past : List Deal} {c : Connection} : d.dealing = .returned c →
      c.number = n → d.time = t → Complete n past → Rested n t (d :: past)
  | later {d : Deal} {past : List Deal} : ¬ Concerns n d.dealing → Rested n t past →
      Rested n t (d :: past)

/-- What a session may do after a past. -/
def May (fresh : Session) (past : List Deal) (now : Instant) : Dealing → Prop
  | .expired old => old = (replay fresh past).idle.filter ((replay fresh past).expired now)
  | .lent c => ∃ c₀ rest, (replay fresh past).idle = c₀ :: rest ∧
      (replay fresh past).expired now c₀ = false ∧
      c = { c₀ with reused := true, persistent := false }
  | .crowded => (replay fresh past).idle = [] ∧
      (replay fresh past).maxConnections ≤ (replay fresh past).opened
  | .opening => (replay fresh past).idle = [] ∧
      (replay fresh past).opened < (replay fresh past).maxConnections
  | .opened n => 0 < openings past ∧ n ∉ (replay fresh past).created
  | .abandoned => 0 < openings past
  | .answered n _ | .received n _ | .discarded n => n ∈ held past
  | .returned c => c.number ∈ held past ∧ (replay fresh past).closed = false ∧ c.unread = [] ∧
      Complete c.number past
  | .shut idle => idle = (replay fresh past).idle
  | .resolved => True

/-- A past in which nothing else was done, in the order of time. -/
inductive Lawful (fresh : Session) : List Deal → Prop where
  | nil : Lawful fresh []
  | cons {d : Deal} {past : List Deal} : Lawful fresh past → May fresh past d.time d.dealing →
      0 ≤ d.time → (∀ e ∈ past, e.time ≤ d.time) → Lawful fresh (d :: past)

/-- A session that did nothing yet. -/
structure Fresh (s : Session) : Prop where
  idle : s.idle = []
  opened : s.opened = 0
  created : s.created = []
  closed : s.closed = false

theorem ofConfig_eq_ok {c : Config} {s : Session} (made : Session.ofConfig c = .ok s) :
    ∃ url : Url, s = {
      host := url.host, port := url.port, hostHeader := url.hostHeader
      maxConnections := c.maxConcurrent, keepAlive := c.keepAlive
      connectTimeout := c.connectTimeout, dnsCacheTtl := c.dnsCacheTtl } := by
  unfold Session.ofConfig at made
  split at made
  · cases made
  · next url _ =>
    split at made
    · cases made
    · cases made
      exact ⟨url, rfl⟩

theorem ofConfig_fresh {c : Config} {s : Session} (made : Session.ofConfig c = .ok s) :
    Fresh s := by
  obtain ⟨url, rfl⟩ := ofConfig_eq_ok made
  exact ⟨rfl, rfl, rfl, rfl⟩

section Tale
variable {i j : Nat} {d : Deal} {journal : List Deal}

@[simp] theorem tale_nil : tale i [] = [] := rfl

theorem tale_cons_self (h : d.session = i) : tale i (d :: journal) = d :: tale i journal := by
  simp [tale, h]

theorem tale_cons_of_ne (h : d.session ≠ i) : tale i (d :: journal) = tale i journal := by
  simp [tale, h]

/-- What is computed from the tale of every session changes for one of them. -/
theorem update_tale {β : Type} (f : List Deal → β) (h : d.session = i) :
    Function.update (fun j => f (tale j journal)) i (f (d :: tale i journal)) =
      fun j => f (tale j (d :: journal)) := by
  funext j
  by_cases same : j = i
  · subst same
    rw [Function.update_self, tale_cons_self h]
  · rw [Function.update_of_ne same, tale_cons_of_ne (h ▸ Ne.symm same)]

end Tale

section Replay
variable {fresh : Session} {past : List Deal}

@[simp] theorem ended_nil : ended [] = [] := rfl

@[simp] theorem ended_cons (d : Deal) : ended (d :: past) = ending d.dealing ++ ended past := rfl

/-- A session that was closed stays closed. -/
theorem replay_closed {d : Deal} {idle : List Connection} (member : d ∈ past)
    (shut : d.dealing = .shut idle) : (replay fresh past).closed = true := by
  induction past with
  | nil => exact absurd member List.not_mem_nil
  | cons e past ih =>
    rw [replay]
    rcases List.mem_cons.mp member with rfl | member
    · rw [shut]
      rfl
    · have closed := ih member
      cases e.dealing <;> first | exact closed | rfl

theorem created_cons (d : Deal) :
    (replay fresh (d :: past)).created = born d.dealing ++ (replay fresh past).created := by
  rw [replay]
  cases d.dealing <;> rfl

/-- What no dealing changes of a session is as it was at the start. -/
theorem replay_unchanged {α : Type} (part : Session → α)
    (same : ∀ (s : Session) (t : Instant) (x : Dealing), part (s.after t x) = part s) :
    part (replay fresh past) = part fresh := by
  induction past with
  | nil => rfl
  | cons d past ih => rw [replay, same, ih]

@[simp] theorem replay_maxConnections :
    (replay fresh past).maxConnections = fresh.maxConnections :=
  replay_unchanged (·.maxConnections) fun _ _ x => by cases x <;> rfl

@[simp] theorem replay_keepAlive : (replay fresh past).keepAlive = fresh.keepAlive :=
  replay_unchanged (·.keepAlive) fun _ _ x => by cases x <;> rfl

@[simp] theorem replay_connectTimeout :
    (replay fresh past).connectTimeout = fresh.connectTimeout :=
  replay_unchanged (·.connectTimeout) fun _ _ x => by cases x <;> rfl

@[simp] theorem replay_dnsCacheTtl : (replay fresh past).dnsCacheTtl = fresh.dnsCacheTtl :=
  replay_unchanged (·.dnsCacheTtl) fun _ _ x => by cases x <;> rfl

end Replay

/-- Every slot is taken by one connection, idle, held or being opened, and every connection that
came to be is idle, held or has ended. -/
structure Balanced (fresh : Session) (past : List Deal) : Prop where
  opened_eq : (replay fresh past).opened =
    (replay fresh past).idle.length + (held past).length + openings past
  opened_le : (replay fresh past).opened ≤ fresh.maxConnections
  created_perm : (replay fresh past).created.Perm
    ((replay fresh past).idle.map (·.number) ++ (held past ++ ended past))
  created_nodup : (replay fresh past).created.Nodup
  idle_of_closed : (replay fresh past).closed = true → (replay fresh past).idle = []

theorem Fresh.balanced {fresh : Session} (h : Fresh fresh) : Balanced fresh [] where
  opened_eq := by simp [replay, held, openings, h.idle, h.opened]
  opened_le := by simp [replay, h.opened]
  created_perm := by simp [replay, held, h.idle, h.created]
  created_nodup := by simp [replay, h.created]
  idle_of_closed _ := h.idle

section Balance
variable {fresh : Session} {past : List Deal} {d : Deal}

theorem Balanced.mem_created (h : Balanced fresh past) {n : Nat} :
    n ∈ (replay fresh past).created ↔
      n ∈ (replay fresh past).idle.map (·.number) ∨ n ∈ held past ∨ n ∈ ended past := by
  rw [h.created_perm.mem_iff, List.mem_append, List.mem_append]

theorem Balanced.places_nodup (h : Balanced fresh past) :
    ((replay fresh past).idle.map (·.number) ++ (held past ++ ended past)).Nodup :=
  h.created_perm.nodup_iff.mp h.created_nodup

/-- Only a connection that came to be can end. -/
theorem Balanced.mem_created_of_ending (h : Balanced fresh past) {now : Instant}
    {dealing : Dealing} (may : May fresh past now dealing) {n : Nat} (ends : n ∈ ending dealing) :
    n ∈ (replay fresh past).created := by
  cases dealing with
  | expired old =>
    obtain ⟨c, member, rfl⟩ := List.mem_map.mp ends
    rw [show old = _ from may] at member
    exact h.mem_created.mpr (.inl (List.mem_map_of_mem (List.mem_filter.mp member).1))
  | shut idle =>
    obtain rfl : idle = _ := may
    exact h.mem_created.mpr (.inl ends)
  | discarded k =>
    obtain rfl := List.mem_singleton.mp ends
    exact h.mem_created.mpr (.inr (.inl may))
  | _ => exact absurd ends List.not_mem_nil

theorem Balanced.held_nodup (h : Balanced fresh past) : (held past).Nodup :=
  (List.nodup_append.mp (List.nodup_append.mp h.places_nodup).2.1).1

/-- A connection that is given up is held until then, and has a slot. -/
theorem Balanced.release (h : Balanced fresh past) {n : Nat} (member : n ∈ held past) :
    (replay fresh past).opened =
        (replay fresh past).idle.length + ((held past).erase n).length + openings past + 1 ∧
      (replay fresh past).created.Perm ((replay fresh past).idle.map (·.number) ++
        (n :: ((held past).erase n ++ ended past))) := by
  have opened_eq := h.opened_eq
  have perm := (List.perm_cons_erase member).append_right (ended past)
  have length := (List.perm_cons_erase member).length_eq
  rw [List.length_cons] at length
  exact ⟨by omega, h.created_perm.trans (perm.append_left _)⟩

/-- Idle connections that end take their slots with them. -/
theorem Balanced.drop (h : Balanced fresh past) {old kept : List Connection}
    (split : (replay fresh past).idle.Perm (old ++ kept)) :
    (replay fresh past).opened - old.length =
        kept.length + (held past).length + openings past ∧
      (replay fresh past).created.Perm
        (kept.map (·.number) ++ (held past ++ (old.map (·.number) ++ ended past))) := by
  have opened_eq := h.opened_eq
  rw [split.length_eq, List.length_append] at opened_eq
  refine ⟨by omega, h.created_perm.trans ?_⟩
  rw [List.perm_iff_count]
  intro n
  have counts := (split.map (·.number)).count_eq n
  simp only [List.map_append, List.count_append] at counts ⊢
  omega

theorem Balanced.step (h : Balanced fresh past) (may : May fresh past d.time d.dealing) :
    Balanced fresh (d :: past) := by
  obtain ⟨i, dealing, t⟩ := d
  have opened_eq := h.opened_eq
  have opened_le := h.opened_le
  have nodup := h.created_nodup
  have empty := h.idle_of_closed
  cases dealing with
  | expired old =>
    have split : (replay fresh past).idle.Perm
        (old ++ (replay fresh past).idle.filter (!(replay fresh past).expired t ·)) := by
      rw [show old = _ from may]
      exact (List.filter_append_perm _ _).symm
    obtain ⟨opened, perm⟩ := h.drop split
    refine ⟨opened, ?_, perm, nodup, fun closed => ?_⟩
    · simp only [replay, Session.after]
      omega
    · simp [replay, Session.after, empty closed]
  | shut idle =>
    have split : (replay fresh past).idle.Perm (idle ++ []) := by
      rw [show idle = _ from may, List.append_nil]
    obtain ⟨opened, perm⟩ := h.drop split
    refine ⟨opened, ?_, perm, nodup, fun _ => rfl⟩
    simp only [replay, Session.after]
    omega
  | lent c =>
    obtain ⟨c₀, rest, idle, -, rfl⟩ := may
    rw [idle, List.length_cons] at opened_eq
    refine ⟨?_, opened_le, ?_, nodup, fun closed => ?_⟩
    · simp only [replay, Session.after, held, openings, idle, List.tail_cons, List.length_cons]
      omega
    · have perm := h.created_perm
      rw [idle] at perm
      simp only [replay, Session.after, held, ended_cons, ending, idle, List.tail_cons]
      exact perm.trans List.perm_middle.symm
    · simp [idle] at empty
      simp [replay, Session.after, empty] at closed
  | opening =>
    refine ⟨?_, ?_, h.created_perm, nodup, empty⟩
    · simp only [replay, Session.after, held, openings]
      omega
    · simpa only [replay, Session.after, replay_maxConnections] using Nat.succ_le_of_lt may.2
  | opened n =>
    obtain ⟨pending, new⟩ := may
    refine ⟨?_, opened_le, ?_, List.nodup_cons.mpr ⟨new, nodup⟩, empty⟩
    · simp only [replay, Session.after, held, openings, List.length_cons]
      omega
    · exact (h.created_perm.cons n).trans List.perm_middle.symm
  | abandoned =>
    have pending : 0 < openings past := may
    refine ⟨?_, ?_, h.created_perm, nodup, empty⟩
    · simp only [replay, Session.after, Session.releaseSlot, held, openings]
      omega
    · simp only [replay, Session.after, Session.releaseSlot]
      omega
  | crowded => exact ⟨opened_eq, opened_le, h.created_perm, nodup, empty⟩
  | answered n e => exact ⟨opened_eq, opened_le, h.created_perm, nodup, empty⟩
  | received n data => exact ⟨opened_eq, opened_le, h.created_perm, nodup, empty⟩
  | resolved => exact ⟨opened_eq, opened_le, h.created_perm, nodup, empty⟩
  | returned c =>
    obtain ⟨member, open_, -, -⟩ := may
    obtain ⟨opened, perm⟩ := h.release member
    refine ⟨?_, opened_le, perm.trans List.perm_middle, nodup, fun closed => ?_⟩
    · simp only [replay, Session.after, held, openings, List.length_cons]
      omega
    · simp [replay, Session.after, open_] at closed
  | discarded n =>
    have member : n ∈ held past := may
    obtain ⟨opened, perm⟩ := h.release member
    refine ⟨?_, ?_, perm.trans (List.perm_middle.symm.append_left _), nodup, empty⟩
    · simp only [replay, Session.after, Session.releaseSlot, held, openings]
      omega
    · simp only [replay, Session.after, Session.releaseSlot]
      omega

/-- No session gives back a slot that is not taken, whether one at a time or those of idle
connections together. -/
def GivesBack (fresh : Session) (past : List Deal) : Dealing → Prop
  | .abandoned | .discarded _ => 0 < (replay fresh past).opened
  | .expired old | .shut old => old.length ≤ (replay fresh past).opened
  | _ => True

theorem Balanced.givesBack (h : Balanced fresh past) {now : Instant} {dealing : Dealing}
    (may : May fresh past now dealing) : GivesBack fresh past dealing := by
  have opened_eq := h.opened_eq
  cases dealing with
  | abandoned =>
    have pending : 0 < openings past := may
    simp only [GivesBack]
    omega
  | discarded n =>
    have some : 0 < (held past).length := List.length_pos_of_mem (show n ∈ held past from may)
    simp only [GivesBack]
    omega
  | expired old =>
    have fewer : old.length ≤ (replay fresh past).idle.length := by
      rw [show old = _ from may]
      exact List.length_filter_le ..
    simp only [GivesBack]
    omega
  | shut idle =>
    simp only [GivesBack, show idle = _ from may]
    omega
  | _ => trivial

end Balance

section Rest
variable {fresh : Session} {past : List Deal} {d : Deal} {n : Nat} {t : Instant}

theorem progress_cons (other : ¬ Concerns n d.dealing) :
    progress n (d :: past) = progress n past := by
  rw [progress]
  split <;> simp_all [Concerns]

theorem Rested.time_mem (h : Rested n t past) : ∃ d ∈ past, d.time = t := by
  induction h with
  | @returned d past c _ _ time _ => exact ⟨d, List.mem_cons_self .., time⟩
  | later _ _ ih =>
    obtain ⟨e, member, time⟩ := ih
    exact ⟨e, List.mem_cons_of_mem _ member, time⟩

/-- A connection that is idle has come back just now, or was idle before. -/
theorem mem_idle_cons {c : Connection} (member : c ∈ (replay fresh (d :: past)).idle) :
    (∃ c₀, d.dealing = .returned c₀ ∧ c = { c₀ with lastUsed := d.time }) ∨
      c ∈ (replay fresh past).idle := by
  obtain ⟨i, dealing, t⟩ := d
  cases dealing with
  | returned c₀ =>
    rcases List.mem_cons.mp member with same | member
    · exact .inl ⟨c₀, rfl, same⟩
    · exact .inr member
  | expired old => exact .inr ((List.mem_filter.mp member).1)
  | lent c₀ => exact .inr (List.mem_of_mem_tail member)
  | shut idle => exact absurd member List.not_mem_nil
  | _ => exact .inr member

theorem Balanced.idle_disjoint (h : Balanced fresh past) {c : Connection}
    (member : c ∈ (replay fresh past).idle) :
    c.number ∈ (replay fresh past).created ∧ c.number ∉ held past ∧ c.number ∉ ended past := by
  have listed := List.mem_map_of_mem (f := (·.number)) member
  have apart := (List.nodup_append.mp h.places_nodup).2.2 _ listed
  refine ⟨h.mem_created.mpr (.inl listed), ?_, ?_⟩
  · intro held
    exact apart _ (List.mem_append_left _ held) rfl
  · intro ended
    exact apart _ (List.mem_append_right _ ended) rfl

/-- Nothing is done with a connection that stays idle. -/
theorem Balanced.not_concerns (h : Balanced fresh past) (may : May fresh past d.time d.dealing)
    {c : Connection} (before : c ∈ (replay fresh past).idle)
    (after : c ∈ (replay fresh (d :: past)).idle) : ¬ Concerns c.number d.dealing := by
  obtain ⟨i, dealing, t⟩ := d
  obtain ⟨created, free, -⟩ := h.idle_disjoint before
  have alone := (List.nodup_append.mp h.places_nodup).1
  intro concerns
  cases dealing with
  | expired old =>
    obtain ⟨o, member, number⟩ := List.mem_map.mp concerns
    rw [show old = _ from may] at member
    obtain ⟨member, expired⟩ := List.mem_filter.mp member
    obtain rfl := List.inj_on_of_nodup_map alone member before number
    simp [replay, Session.after, expired] at after
  | lent c₁ =>
    obtain ⟨c₀, rest, idle, -, rfl⟩ := may
    rw [idle] at alone
    simp only [replay, Session.after, idle, List.tail_cons] at after
    have same : c₀.number = c.number := concerns
    exact (List.nodup_cons.mp alone).1 (List.mem_map.mpr ⟨c, after, same.symm⟩)
  | shut idle => exact absurd after List.not_mem_nil
  | opened k =>
    have same : k = c.number := concerns
    exact may.2 (same ▸ created)
  | answered k e =>
    have same : k = c.number := concerns
    exact free (same ▸ may)
  | received k data =>
    have same : k = c.number := concerns
    exact free (same ▸ may)
  | discarded k =>
    have same : k = c.number := concerns
    exact free (same ▸ may)
  | returned c₀ =>
    have same : c₀.number = c.number := concerns
    exact free (same ▸ may.1)
  | crowded => exact concerns
  | opening => exact concerns
  | abandoned => exact concerns
  | resolved => exact concerns

end Rest

/-- What a connection is like that is handed out again: it came back after a complete exchange and
rested since, for less than the time that it is kept; nothing is unread, and nobody has it. -/
structure Fit (keepAlive : Millis) (past : List Deal) (now : Instant) (c : Connection) : Prop where
  rested : Rested c.number c.lastUsed past
  since_lt : Instant.since now c.lastUsed < Millis.nanos keepAlive
  time_lt : now < 0x8000000000000000 → 0 ≤ keepAlive → now - c.lastUsed < keepAlive * 1000000
  unread : c.unread = []
  free : c.number ∉ held past

section Lawful
variable {fresh : Session} {past : List Deal} {d : Deal}

theorem Lawful.balanced (new : Fresh fresh) (lawful : Lawful fresh past) : Balanced fresh past := by
  induction lawful with
  | nil => exact new.balanced
  | cons _ may _ _ ih => exact ih.step may

/-- Idle connections rest. -/
theorem Lawful.rested (new : Fresh fresh) (lawful : Lawful fresh past) {c : Connection}
    (member : c ∈ (replay fresh past).idle) : c.unread = [] ∧ Rested c.number c.lastUsed past := by
  induction lawful generalizing c with
  | nil => simp [replay, new.idle] at member
  | @cons d past lawful may _ _ ih =>
    rcases mem_idle_cons member with ⟨c₀, dealing, rfl⟩ | before
    · rw [dealing] at may
      exact ⟨may.2.2.1, .returned dealing rfl rfl may.2.2.2⟩
    · obtain ⟨unread, rested⟩ := ih before
      exact ⟨unread, .later ((lawful.balanced new).not_concerns may before member) rested⟩

theorem Lawful.time_nonneg (lawful : Lawful fresh past) (member : d ∈ past) : 0 ≤ d.time := by
  induction lawful with
  | nil => exact absurd member List.not_mem_nil
  | cons _ _ nonneg _ ih =>
    rcases List.mem_cons.mp member with rfl | member
    · exact nonneg
    · exact ih member

/-- A connection that is handed out again is fit for it. -/
theorem Lawful.fit (new : Fresh fresh) (lawful : Lawful fresh (d :: past)) {c : Connection}
    (lent : d.dealing = .lent c) : Fit fresh.keepAlive past d.time c := by
  rcases lawful with _ | ⟨lawful, may, -, order⟩
  rw [lent] at may
  obtain ⟨c₀, rest, idle, young, rfl⟩ := may
  have member : c₀ ∈ (replay fresh past).idle := idle ▸ List.mem_cons_self ..
  obtain ⟨unread, rested⟩ := lawful.rested new member
  have since_lt : Instant.since d.time c₀.lastUsed < Millis.nanos fresh.keepAlive := by
    simpa [Session.expired] using young
  obtain ⟨back, back_mem, time⟩ := rested.time_mem
  have nonneg : 0 ≤ c₀.lastUsed := time ▸ lawful.time_nonneg back_mem
  have before : c₀.lastUsed ≤ d.time := time ▸ order back back_mem
  constructor
  case rested => exact rested
  case since_lt => exact since_lt
  case time_lt =>
    intro small kept
    exact sub_lt_of_since_lt before nonneg small kept since_lt
  case unread => exact unread
  case free => exact ((lawful.balanced new).idle_disjoint member).2.1

theorem Lawful.of_suffix {later : List Deal} (lawful : Lawful fresh (later ++ past)) :
    Lawful fresh past := by
  induction later with
  | nil => exact lawful
  | cons d later ih =>
    rcases lawful with _ | ⟨lawful, -, -, -⟩
    exact ih lawful

end Lawful

end Parley.Ledger
