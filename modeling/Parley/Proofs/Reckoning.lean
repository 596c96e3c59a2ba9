import Parley.Proofs.Course
import Parley.Proofs.Pool

/-!
What a client counts. Its diary tells what became of every call; read back, it says which calls are
not over, which of them have a permit, and how many streams are unfinished. At every moment the
counters agree with it, whatever calls do and however they end: `steps_reconciled`.
-/
namespace Parley

/-- What the diary says of a call that is not over. -/
structure Underway where
  admitted : Bool := false
  attempts : Nat := 0

namespace Diary

/-- The calls that are not over, the one that began last first. -/
def underway : List Moment → List Underway
  | [] => []
  | m :: past =>
    match m.turn, underway past with
    | .begun, calls => {} :: calls
    | .admitted, c :: calls => { c with admitted := true } :: calls
    | .tried, c :: calls => { c with attempts := c.attempts + 1 } :: calls
    | .succeeded, _ :: calls | .failed, _ :: calls | .opened, _ :: calls => calls
    | _, calls => calls

/-- How many streams were opened and have not ended. -/
def unfinished : List Moment → Nat
  | [] => 0
  | m :: past =>
    match m.turn with
    | .opened => unfinished past + 1
    | .closed => unfinished past - 1
    | _ => unfinished past

/-- How many calls began an attempt. -/
def attempted : List Moment → Nat
  | [] => 0
  | m :: past =>
    match m.turn, underway past with
    | .tried, c :: _ => if c.attempts = 0 then attempted past + 1 else attempted past
    | _, _ => attempted past

end Diary

open Diary

/-- What a client has counted agrees with its diary. -/
structure Counted (c : Config) (diary : List Moment) (u : Usage) (s : Semaphore) : Prop where
  calls : u.totalCalls =
    u.successfulCalls + u.failedCalls + unfinished diary + (underway diary).length
  inUse : s.inUse = unfinished diary + (underway diary).countP (·.admitted)
  inUse_le : s.inUse ≤ c.maxConcurrent
  peak_le : s.peak ≤ c.maxConcurrent
  attempts : u.totalAttempts = u.totalRetries + attempted diary
  attempts_le : u.totalAttempts ≤ c.retryAttempts * u.totalCalls

namespace Holding

def stage? : Holding → Option Stage
  | .call stage => some stage
  | _ => none

def isStream : Holding → Bool
  | .stream _ => true
  | _ => false

/-- How far the calls are that are not over. -/
def stages (hand : List Holding) : List Stage := hand.filterMap stage?

/-- How many streams there are. -/
def streams (all : List Holding) : Nat := all.countP isStream

/-- Whether something is a call or a stream. -/
def offWire (h : Holding) : Bool := !h.onWire

section Readings
variable {hand hand' all : List Holding}

theorem stages_filter : stages (hand.filter offWire) = stages hand := by
  rw [stages, List.filterMap_filter]
  exact List.filterMap_congr fun h _ => by cases h <;> rfl

theorem streams_filter : streams (all.filter offWire) = streams all := by
  rw [streams, List.countP_filter]
  exact List.countP_congr fun h _ => by cases h <;> simp [isStream, offWire, onWire]

@[simp] theorem stages_append : stages (hand ++ hand') = stages hand ++ stages hand' :=
  List.filterMap_append

@[simp] theorem streams_append : streams (hand ++ hand') = streams hand + streams hand' :=
  List.countP_append

@[simp] theorem stages_call {stage : Stage} : stages (.call stage :: hand) = stage :: stages hand :=
  rfl

@[simp] theorem stages_stream {permit : Bool} : stages (.stream permit :: hand) = stages hand := rfl

@[simp] theorem streams_call {stage : Stage} : streams (.call stage :: all) = streams all := rfl

@[simp] theorem streams_stream {permit : Bool} :
    streams (.stream permit :: all) = streams all + 1 := List.countP_cons_of_pos rfl

@[simp] theorem stages_source (s : Source) : stages s.holdings = [] := by
  rcases s with b | ⟨session, _ | c, status, headers⟩ <;> rfl

@[simp] theorem streams_source (s : Source) : streams s.holdings = 0 := by
  rcases s with b | ⟨session, _ | c, status, headers⟩ <;> rfl

@[simp] theorem stages_eventStream (s : EventStream) : stages s.holdings = [] := by
  cases s with
  | finished => rfl
  | unfinished s => exact (stages_append ..).trans (by simp; rfl)

theorem stages_bodies (sources : List Source) : stages (sources.flatMap Source.holdings) = [] := by
  induction sources with
  | nil => rfl
  | cons s sources ih => rw [List.flatMap_cons, stages_append, stages_source, ih, List.nil_append]

theorem stages_values (all : List EventStream) :
    stages (all.flatMap EventStream.holdings) = [] := by
  induction all with
  | nil => rfl
  | cons s all ih =>
    rw [List.flatMap_cons, stages_append, stages_eventStream, ih, List.nil_append]

theorem streams_bodies (sources : List Source) : streams (sources.flatMap Source.holdings) = 0 := by
  induction sources with
  | nil => rfl
  | cons s sources ih => rw [List.flatMap_cons, streams_append, streams_source, ih]

theorem streams_values (all : List EventStream) :
    streams (all.flatMap EventStream.holdings) = all.countP (!·.isFinished) := by
  induction all with
  | nil => rfl
  | cons s all ih =>
    rw [List.flatMap_cons, streams_append, ih]
    cases s with
    | finished => simp [EventStream.holdings, EventStream.isFinished, streams]
    | unfinished s =>
      rw [EventStream.holdings, streams_append, streams_source, streams_stream]
      simp [EventStream.isFinished, streams, Nat.add_comm]

theorem of_mem_call {stage : Stage} (member : .stream false ∈ .call stage :: all) :
    .stream false ∈ all := by
  simpa using member

end Readings

end Holding

/-- How far a call is agrees with the diary. -/
def Stage.Agrees (most : Nat) : Stage → Underway → Prop
  | .waiting, u => u.admitted = false ∧ u.attempts = 0
  | .admitted, u => u.admitted = true ∧ u.attempts = 0
  | .trying _ k, u => u.admitted = true ∧ u.attempts = k ∧ k ≤ most
  | .leaving, u => u.admitted = true ∧ u.attempts ≤ most

theorem Stage.agree_desist {most k : Nat} {call : Call} {front rest : List Stage}
    {calls : List Underway}
    (agree : List.Forall₂ (Agrees most) (front ++ .trying call k :: rest) calls) :
    List.Forall₂ (Agrees most) (front ++ .leaving :: rest) calls := by
  induction front generalizing calls with
  | nil =>
    obtain _ | ⟨⟨admitted, made, le⟩, rest⟩ := agree
    exact .cons ⟨admitted, made ▸ le⟩ rest
  | cons stage front ih =>
    obtain _ | ⟨first, agree⟩ := agree
    exact .cons first (ih agree)

/-- How many attempts are left to the calls that are not over. -/
def spare (most : Nat) : List Underway → Nat
  | [] => 0
  | u :: calls => most - u.attempts + spare most calls

/-- One more call has ended, and nothing else is counted. -/
structure Usage.Ended (u u' : Usage) : Prop where
  totalCalls : u'.totalCalls = u.totalCalls
  ended : u'.successfulCalls + u'.failedCalls = u.successfulCalls + u.failedCalls + 1
  totalAttempts : u'.totalAttempts = u.totalAttempts
  totalRetries : u'.totalRetries = u.totalRetries

theorem Usage.addSuccess_ended (u : Usage) : u.Ended u.addSuccess :=
  ⟨rfl, Nat.add_right_comm .., rfl, rfl⟩

theorem Usage.addFailure_ended (u : Usage) : u.Ended u.addFailure := ⟨rfl, rfl, rfl, rfl⟩

/-- The counters and the diary agree with how far the calls are that are not over, and how many
streams there are; and the counters agreed with the diary at every moment. -/
structure Reckoned (c : Config) (stages : List Stage) (streams : Nat) (diary : List Moment)
    (u : Usage) (s : Semaphore) : Prop where
  retryAttempts_nonneg : 0 ≤ c.retryAttempts
  capacity_eq : s.capacity = c.maxConcurrent
  agree : List.Forall₂ (Stage.Agrees c.retryAttempts.toNat) stages (underway diary)
  unfinished_eq : unfinished diary = streams
  counted : Counted c diary u s
  credit : u.totalAttempts + spare c.retryAttempts.toNat (underway diary) ≤
    c.retryAttempts.toNat * u.totalCalls
  past : ∀ m past, m :: past <:+ diary → Counted c (m :: past) m.usage m.semaphore

namespace Reckoned

variable {c : Config} {stages stages' : List Stage} {streams streams' k : Nat} {own : Call}
  {diary : List Moment} {u u' : Usage} {s s' : Semaphore}

/-- Something is entered into the diary after it was counted. -/
theorem enter {turn : Turn} (h : Reckoned c stages streams diary u s)
    (capacity_eq : s'.capacity = s.capacity)
    (agree : List.Forall₂ (Stage.Agrees c.retryAttempts.toNat) stages'
      (underway (⟨turn, u', s'⟩ :: diary)))
    (unfinished_eq : unfinished (⟨turn, u', s'⟩ :: diary) = streams')
    (calls : u'.totalCalls = u'.successfulCalls + u'.failedCalls +
      unfinished (⟨turn, u', s'⟩ :: diary) + (underway (⟨turn, u', s'⟩ :: diary)).length)
    (inUse : s'.inUse = unfinished (⟨turn, u', s'⟩ :: diary) +
      (underway (⟨turn, u', s'⟩ :: diary)).countP (·.admitted))
    (inUse_le : s'.inUse ≤ c.maxConcurrent) (peak_le : s'.peak ≤ c.maxConcurrent)
    (attempts : u'.totalAttempts = u'.totalRetries + attempted (⟨turn, u', s'⟩ :: diary))
    (credit : u'.totalAttempts +
        spare c.retryAttempts.toNat (underway (⟨turn, u', s'⟩ :: diary)) ≤
      c.retryAttempts.toNat * u'.totalCalls) :
    Reckoned c stages' streams' (⟨turn, u', s'⟩ :: diary) u' s' := by
  have attempts_le : u'.totalAttempts ≤ c.retryAttempts * u'.totalCalls := by
    have cast := Int.toNat_of_nonneg h.retryAttempts_nonneg
    rw [← cast]
    exact_mod_cast Nat.le_trans (Nat.le_add_right ..) credit
  have counted : Counted c (⟨turn, u', s'⟩ :: diary) u' s' :=
    ⟨calls, inUse, inUse_le, peak_le, attempts, attempts_le⟩
  constructor
  case retryAttempts_nonneg => exact h.retryAttempts_nonneg
  case capacity_eq => exact capacity_eq.trans h.capacity_eq
  case agree => exact agree
  case unfinished_eq => exact unfinished_eq
  case counted => exact counted
  case credit => exact credit
  case past =>
    intro m past before
    rcases List.suffix_cons_iff.mp before with same | before
    · cases same
      exact counted
    · exact h.past m past before

theorem beginCall (h : Reckoned c stages streams diary u s) :
    Reckoned c (.waiting :: stages) streams (⟨.begun, u.addCall, s⟩ :: diary) u.addCall s := by
  have calls := h.counted.calls
  have inUse := h.counted.inUse
  have credit := h.credit
  apply h.enter
  case capacity_eq => rfl
  case agree => exact .cons ⟨rfl, rfl⟩ h.agree
  case unfinished_eq => exact h.unfinished_eq
  case calls =>
    simp only [Usage.addCall, unfinished, underway, List.length_cons]
    omega
  case inUse => simpa [unfinished, underway] using inUse
  case inUse_le => exact h.counted.inUse_le
  case peak_le => exact h.counted.peak_le
  case attempts => exact h.counted.attempts
  case credit =>
    simp only [Usage.addCall, underway, spare, Nat.mul_add_one]
    omega

/-- A call gets a permit. -/
theorem letIn (h : Reckoned c (.waiting :: stages) streams diary u s) (room : s.hasRoom = true) :
    Reckoned c (.admitted :: stages) streams (⟨.admitted, u, s.take⟩ :: diary) u s.take := by
  obtain ⟨call, calls, ⟨admitted, none⟩, rest, eq⟩ := List.forall₂_cons_left_iff.mp h.agree
  have counts := h.counted.calls
  have inUse := h.counted.inUse
  have peak_le := h.counted.peak_le
  have credit := h.credit
  have lt : s.inUse < c.maxConcurrent := by simpa [Semaphore.hasRoom, h.capacity_eq] using room
  simp only [eq, List.length_cons, List.countP_cons, admitted, spare, none] at counts inUse credit
  apply h.enter
  case capacity_eq => rfl
  case agree =>
    simp only [underway, eq]
    exact .cons ⟨rfl, none⟩ rest
  case unfinished_eq => exact h.unfinished_eq
  case calls => simpa [unfinished, underway, eq] using counts
  case inUse =>
    simp only [Semaphore.take, unfinished, underway, eq, List.countP_cons]
    simp only [Bool.false_eq_true, if_false, if_true] at inUse ⊢
    omega
  case inUse_le => exact lt
  case peak_le => exact Nat.max_le.mpr ⟨peak_le, lt⟩
  case attempts => exact h.counted.attempts
  case credit => simpa [underway, eq, spare, none] using credit

/-- A call that cannot go on gives its permit back at once. -/
theorem turnAway (h : Reckoned c stages streams diary u s) (room : s.hasRoom = true) :
    Reckoned c stages streams diary u s.take.release := by
  have lt : s.inUse < c.maxConcurrent := by simpa [Semaphore.hasRoom, h.capacity_eq] using room
  have peak_le : s.take.release.peak ≤ c.maxConcurrent :=
    Nat.max_le.mpr ⟨h.counted.peak_le, lt⟩
  exact { h with counted := { h.counted with peak_le := peak_le } }

/-- A call that has a permit begins with no attempts. -/
theorem setOut (h : Reckoned c (.admitted :: stages) streams diary u s) :
    Reckoned c (.trying own 0 :: stages) streams diary u s := by
  obtain ⟨call, calls, ⟨admitted, none⟩, rest, eq⟩ := List.forall₂_cons_left_iff.mp h.agree
  exact { h with agree := eq ▸ .cons ⟨admitted, none, Nat.zero_le _⟩ rest }

/-- An attempt of a call begins. -/
theorem attempt (h : Reckoned c (.trying own k :: stages) streams diary u s)
    (more : k < c.retryAttempts.toNat) :
    Reckoned c (.trying own (k + 1) :: stages) streams (⟨.tried, u.addAttempt (k + 1), s⟩ :: diary)
      (u.addAttempt (k + 1)) s := by
  obtain ⟨call, calls, ⟨admitted, made, -⟩, rest, eq⟩ := List.forall₂_cons_left_iff.mp h.agree
  have counts := h.counted.calls
  have inUse := h.counted.inUse
  have attempts := h.counted.attempts
  have credit := h.credit
  simp only [eq, List.length_cons, List.countP_cons, spare, made] at counts inUse credit
  apply h.enter
  case capacity_eq => rfl
  case agree =>
    simp only [underway, eq]
    exact .cons ⟨admitted, congrArg (· + 1) made, more⟩ rest
  case unfinished_eq => exact h.unfinished_eq
  case calls => simpa [unfinished, underway, eq, Usage.addAttempt] using counts
  case inUse => simpa only [unfinished, underway, eq, List.countP_cons] using inUse
  case inUse_le => exact h.counted.inUse_le
  case peak_le => exact h.counted.peak_le
  case attempts =>
    simp only [Usage.addAttempt, attempted, eq, made]
    split <;> split <;> omega
  case credit =>
    simp only [Usage.addAttempt, underway, eq, spare, made]
    omega

/-- A call makes no more attempts. -/
theorem desist {front : List Stage}
    (h : Reckoned c (front ++ .trying own k :: stages) streams diary u s) :
    Reckoned c (front ++ .leaving :: stages) streams diary u s :=
  { h with agree := Stage.agree_desist h.agree }

/-- A call that has no permit fails. -/
theorem refuse (h : Reckoned c (.waiting :: stages) streams diary u s) :
    Reckoned c stages streams (⟨.failed, u.addFailure, s⟩ :: diary) u.addFailure s := by
  obtain ⟨call, calls, ⟨admitted, none⟩, rest, eq⟩ := List.forall₂_cons_left_iff.mp h.agree
  have counts := h.counted.calls
  have inUse := h.counted.inUse
  have credit := h.credit
  simp only [eq, List.length_cons, List.countP_cons, admitted, spare] at counts inUse credit
  apply h.enter
  case capacity_eq => rfl
  case agree =>
    simp only [underway, eq]
    exact rest
  case unfinished_eq => exact h.unfinished_eq
  case calls =>
    simp only [Usage.addFailure, unfinished, underway, eq]
    omega
  case inUse => simpa [unfinished, underway, eq] using inUse
  case inUse_le => exact h.counted.inUse_le
  case peak_le => exact h.counted.peak_le
  case attempts => exact h.counted.attempts
  case credit =>
    simp only [Usage.addFailure, underway, eq]
    omega

/-- A call that had a permit ends, and gives it back. -/
theorem finish {turn : Turn} (h : Reckoned c (.leaving :: stages) streams diary u s)
    (ends : turn = .succeeded ∨ turn = .failed) (ended : u.Ended u') :
    Reckoned c stages streams (⟨turn, u', s.release⟩ :: diary) u' s.release := by
  obtain ⟨call, calls, ⟨admitted, -⟩, rest, eq⟩ := List.forall₂_cons_left_iff.mp h.agree
  have counts := h.counted.calls
  have inUse := h.counted.inUse
  have inUse_le := h.counted.inUse_le
  have attempts := h.counted.attempts
  have credit := h.credit
  obtain ⟨totalCalls, ended, totalAttempts, totalRetries⟩ := ended
  simp only [eq, List.length_cons, List.countP_cons, admitted, if_true, spare]
    at counts inUse credit
  have left : underway (⟨turn, u', s.release⟩ :: diary) = calls := by
    rcases ends with rfl | rfl <;> simp only [underway, eq]
  have open_ : unfinished (⟨turn, u', s.release⟩ :: diary) = unfinished diary := by
    rcases ends with rfl | rfl <;> rfl
  have tried : attempted (⟨turn, u', s.release⟩ :: diary) = attempted diary := by
    rcases ends with rfl | rfl <;> rfl
  apply h.enter
  case capacity_eq => rfl
  case agree => exact left ▸ rest
  case unfinished_eq => exact open_.trans h.unfinished_eq
  case calls =>
    rw [left, open_]
    omega
  case inUse =>
    rw [left, open_]
    simp only [Semaphore.release]
    omega
  case inUse_le => exact Nat.le_trans (Nat.sub_le ..) inUse_le
  case peak_le => exact h.counted.peak_le
  case attempts => rw [tried, totalAttempts, totalRetries, attempts]
  case credit =>
    rw [left, totalAttempts, totalCalls]
    omega

/-- A call ends with a stream, which keeps its permit. -/
theorem openStream (h : Reckoned c (.leaving :: stages) streams diary u s) :
    Reckoned c stages (streams + 1) (⟨.opened, u, s⟩ :: diary) u s := by
  obtain ⟨call, calls, ⟨admitted, -⟩, rest, eq⟩ := List.forall₂_cons_left_iff.mp h.agree
  have counts := h.counted.calls
  have inUse := h.counted.inUse
  have credit := h.credit
  simp only [eq, List.length_cons, List.countP_cons, admitted, if_true, spare]
    at counts inUse credit
  apply h.enter
  case capacity_eq => rfl
  case agree =>
    simp only [underway, eq]
    exact rest
  case unfinished_eq => exact congrArg (· + 1) h.unfinished_eq
  case calls =>
    simp only [unfinished, underway, eq]
    omega
  case inUse =>
    simp only [unfinished, underway, eq]
    omega
  case inUse_le => exact h.counted.inUse_le
  case peak_le => exact h.counted.peak_le
  case attempts => exact h.counted.attempts
  case credit =>
    simp only [underway, eq]
    omega

/-- A stream ends, and gives its permit back. -/
theorem closeStream (h : Reckoned c stages (streams + 1) diary u s) (ended : u.Ended u') :
    Reckoned c stages streams (⟨.closed, u', s.release⟩ :: diary) u' s.release := by
  have counts := h.counted.calls
  have inUse := h.counted.inUse
  have inUse_le := h.counted.inUse_le
  have attempts := h.counted.attempts
  have credit := h.credit
  have some := h.unfinished_eq
  obtain ⟨totalCalls, ended, totalAttempts, totalRetries⟩ := ended
  apply h.enter
  case capacity_eq => rfl
  case agree => exact h.agree
  case unfinished_eq =>
    simp only [unfinished]
    omega
  case calls =>
    simp only [unfinished, underway]
    omega
  case inUse =>
    simp only [unfinished, underway, Semaphore.release]
    omega
  case inUse_le => exact Nat.le_trans (Nat.sub_le ..) inUse_le
  case peak_le => exact h.counted.peak_le
  case attempts =>
    rw [totalAttempts, totalRetries, attempts]
    rfl
  case credit => rwa [totalAttempts, totalCalls]

/-- An act that was put off is done. -/
theorem acted (h : Reckoned c stages streams diary u s) :
    Reckoned c stages streams (⟨.acted, u, s⟩ :: diary) u s :=
  h.enter rfl h.agree h.unfinished_eq h.counted.calls h.counted.inUse h.counted.inUse_le
    h.counted.peak_le h.counted.attempts h.credit

end Reckoned

/-- What a world has counted agrees with what is on hand and lodged, and every stream has a
permit. -/
structure Reconciled (c : Config) (hand : List Holding) (w : World) : Prop where
  reckoned : Reckoned c (Holding.stages hand) (Holding.streams (hand ++ w.lodged)) w.diary
    w.client.usage w.client.semaphore
  permit : .stream false ∉ hand ++ w.lodged

namespace Reconciled

open Holding

variable {c : Config} {hand hand' : List Holding} {w w' : World}

theorem of_core (h : Reconciled c hand w) (core_eq : w'.core = w.core) :
    Reconciled c hand w' := by
  have core : Reconciled c hand w.core :=
    ⟨{ h.reckoned with counted := { h.reckoned.counted with } }, h.permit⟩
  rw [← core_eq] at core
  exact ⟨{ core.reckoned with counted := { core.reckoned.counted with } }, core.permit⟩

/-- What happens on the wire changes nothing. -/
theorem frame (h : Reconciled c hand w) (hand_eq : hand'.filter offWire = hand.filter offWire)
    (client_eq : w'.client = w.client) (diary_eq : w'.diary = w.diary)
    (lodged_eq : w'.lodged = w.lodged) : Reconciled c hand' w' := by
  have filter_eq : (hand' ++ w'.lodged).filter offWire = (hand ++ w.lodged).filter offWire := by
    rw [List.filter_append, List.filter_append, hand_eq, lodged_eq]
  constructor
  case reckoned =>
    rw [← stages_filter, ← streams_filter, hand_eq, filter_eq, stages_filter, streams_filter,
      client_eq, diary_eq]
    exact h.reckoned
  case permit =>
    intro member
    have member : .stream false ∈ (hand' ++ w'.lodged).filter offWire :=
      List.mem_filter.mpr ⟨member, rfl⟩
    rw [filter_eq] at member
    exact h.permit (List.mem_filter.mp member).1

/-- Something else is on hand, and the same is there altogether. -/
theorem of_perm (h : Reconciled c hand w) (stages_eq : stages hand' = stages hand)
    (all_perm : (hand' ++ w'.lodged).Perm (hand ++ w.lodged)) (client_eq : w'.client = w.client)
    (diary_eq : w'.diary = w.diary) : Reconciled c hand' w' := by
  constructor
  case reckoned =>
    rw [stages_eq, streams, all_perm.countP_eq, client_eq, diary_eq]
    exact h.reckoned
  case permit => exact fun member => h.permit (all_perm.mem_iff.mp member)

/-- Every move of those who have a client keeps the counters right. -/
theorem move {σ : Setting} {a b : List Holding × World} (move : Move σ a b) (tame : ¬ σ.raw)
    (config_eq : σ.config = c)
    (elapses : ∀ hand w w', σ.elapses w w' → Reconciled c hand w → Reconciled c hand w')
    (h : Reconciled c a.1 a.2) : Reconciled c b.1 b.2 := by
  have reckoned := h.reckoned
  have permit := h.permit
  cases move with
  | elapse passes => exact elapses _ _ _ passes h
  | aside core_eq => exact h.of_core core_eq
  | shutDown => exact ⟨reckoned, permit⟩
  | beginCall => exact ⟨reckoned.beginCall, fun member => permit (of_mem_call member)⟩
  | turnAway room => exact ⟨reckoned.turnAway room, permit⟩
  | letIn room =>
    exact ⟨reckoned.letIn room, fun member => permit (.tail _ (of_mem_call member))⟩
  | setOut =>
    exact ⟨reckoned.setOut, fun member => permit (.tail _ (of_mem_call member))⟩
  | attempt more =>
    exact ⟨reckoned.attempt (config_eq ▸ more),
      fun member => permit (.tail _ (of_mem_call member))⟩
  | desist front =>
    constructor
    case reckoned =>
      rw [stages_append, stages_call] at reckoned ⊢
      simpa [streams_append] using reckoned.desist
    case permit => simpa using permit
  | refuse => exact ⟨reckoned.refuse, fun member => permit (.tail _ member)⟩
  | fail =>
    exact ⟨reckoned.finish (.inr rfl) (Usage.addFailure_ended _),
      fun member => permit (.tail _ member)⟩
  | succeed =>
    exact ⟨reckoned.finish (.inl rfl) (Usage.addSuccess_ended _),
      fun member => permit (.tail _ member)⟩
  | @openStream hand w s =>
    have same : (w.note .opened).lodged = w.lodged := rfl
    constructor
    case reckoned =>
      simp only [same, stages_append, streams_append, stages_source, streams_source, Nat.zero_add,
        List.nil_append, stages_call, stages_stream, streams_call, streams_stream] at reckoned ⊢
      have opened := reckoned.openStream
      rw [Nat.add_right_comm] at opened
      exact opened
    case permit =>
      rw [same]
      simpa using permit
  | closeStream lent succeeded =>
    cases lent with
    | false => exact absurd (List.mem_cons_self ..) permit
    | true =>
      simp only [List.cons_append, stages_stream, streams_stream] at reckoned
      constructor
      case reckoned =>
        cases succeeded with
        | false => exact reckoned.closeStream (Usage.addFailure_ended _)
        | true => exact reckoned.closeStream (Usage.addSuccess_ended _)
      case permit => exact fun member => permit (.tail _ member)
  | putStream name s =>
    exact h.of_perm (by simp) (perm_lodged (World.lodged_putStream _ name s)).symm rfl rfl
  | takeStream name =>
    exact h.of_perm (by simp) (perm_lodged (b := []) (World.lodged_takeStream _ name)).symm rfl rfl
  | putSource raw | takeSource raw | adopt raw | semaphore raw => exact absurd raw tame
  | _ => exact h.frame rfl rfl rfl rfl

end Reconciled

namespace World

variable {c : Config} {w : World}

theorem Elapses.reconciled {w' : World} {hand : List Holding} (elapses : Elapses w w')
    (h : Reconciled c hand w) : Reconciled c hand w' := by
  cases elapses with
  | advance t => exact h.frame rfl rfl rfl rfl
  | due next => exact h.frame rfl rfl rfl rfl
  | done answer => exact ⟨h.reckoned.acted, h.permit⟩

/-- Nothing is counted where nothing was done. -/
theorem ofClient_reconciled {chance : UInt64} {script : Script}
    (begun : ofClient c chance script = .ok w) : w.Orderly c False ∧ Reconciled c [] w := by
  obtain ⟨url, valid, rfl⟩ := ofClient_eq begun
  have attempts := (Config.validate_ok valid).1
  have counted : Counted c [] {} { capacity := c.maxConcurrent } := by
    constructor <;> simp [underway, unfinished, attempted]
  constructor
  · exact ⟨rfl, by simp, trivial⟩
  · constructor
    case reckoned =>
      constructor
      case retryAttempts_nonneg => omega
      case capacity_eq => rfl
      case agree => exact .nil
      case unfinished_eq => rfl
      case counted => exact counted
      case credit => exact Nat.zero_le _
      case past =>
        intro m past before
        cases List.suffix_nil.mp before
    case permit => exact List.not_mem_nil

theorem stages_lodged (w : World) : Holding.stages w.lodged = [] := by
  rw [lodged, Holding.stages_append, Holding.stages_bodies, Holding.stages_values, List.nil_append]

theorem streams_lodged (w : World) :
    Holding.streams w.lodged = w.streams.values.countP (!·.isFinished) := by
  rw [lodged, Holding.streams_append, Holding.streams_bodies, Holding.streams_values, Nat.zero_add]

/-- What a client has counted, at every moment of a run and in its end: no call is under way then,
and the unfinished streams are those that have names. -/
structure Audited (c : Config) (w : World) : Prop where
  past : ∀ m past, m :: past <:+ w.diary → Counted c (m :: past) m.usage m.semaphore
  counted : Counted c w.diary w.client.usage w.client.semaphore
  underway_eq : underway w.diary = []
  unfinished_eq : unfinished w.diary = w.streams.values.countP (!·.isFinished)

theorem steps_reconciled {chance : UInt64} {script : Script}
    (begun : ofClient c chance script = .ok w) {acts : List Act}
    (allowed : ∀ act ∈ acts, act.ofClient) : Reconciled c [] (w.steps acts) := by
  obtain ⟨orderly, reconciled⟩ := ofClient_reconciled begun
  have moves : Moves (.ofActs c False) [] w [] (w.steps acts) :=
    steps_moves orderly fun act member => .inr (allowed act member)
  exact moves.keeps (fun _ _ move => Reconciled.move move id rfl fun _ _ _ => Elapses.reconciled)
    reconciled

/-- Whatever those do who have a client, it counts every call once when it begins and once when it
has ended, and every permit is out for one call or stream. A call with nothing to say is turned down
before it is counted. -/
theorem steps_audited {chance : UInt64} {script : Script}
    (begun : ofClient c chance script = .ok w) (acts : List Act)
    (allowed : ∀ act ∈ acts, act.ofClient) :
    Audited c (w.steps acts) ∧ ∀ (p : Pause) (w' : World) (deadline : Option Nanos) (name : Bytes),
      ((Act.chat [] deadline).perform.run p).run w' =
        (.failed (.invalidArgument (ascii "chatCompletion: messages must not be empty")), w') ∧
      ((Act.stream name [] deadline).perform.run p).run w' =
        (.failed (.invalidArgument (ascii "streamChatCompletion: messages must not be empty")),
          w') := by
  have reconciled := steps_reconciled begun allowed
  have reckoned := reconciled.reckoned
  constructor
  · constructor
    case past => exact reckoned.past
    case counted => exact reckoned.counted
    case underway_eq => exact List.forall₂_nil_left_iff.mp reckoned.agree
    case unfinished_eq => exact reckoned.unfinished_eq.trans (streams_lodged _)
  · intro p w' deadline name
    cases deadline <;> exact ⟨rfl, rfl⟩

/-- A call that is limited waits and then breaks off, while another one is put off and finds no
permit; a third one is answered with nothing, and a stream is moved before it is abandoned. -/
theorem steps_audited_busy :
    let c : Config := { clientTag := [], maxConcurrent := 1 }
    let script : Script := { replies := [
      { status := 429, delay := 7 }, { failure := some (.foreign []) }, {}] }
    let hi : List Message := [{ role := [], content := [104, 105] }]
    let acts : List Act := [
      .later 1 (.chat hi (some 5)), .chat hi none, .chat hi none, .stream [1] hi none,
      .move [1] [2], .chat hi (some 5), .drop [2], .chat [] none, .shutdown, .chat hi none]
    ∃ w, ofClient c 1 script = .ok w ∧ (∀ act ∈ acts, act.ofClient) ∧
      (w.steps acts).diary.length = 21 ∧ (w.steps acts).client.usage.totalCalls = 6 ∧
      Audited c (w.steps acts) := by
  intro c script hi acts
  let w : World := {
    config := c, target := chatPath, client := .ofConfig c 1, chance := .ofSeed 1, script }
  have begun : ofClient c 1 script = .ok w := by rfl
  have allowed : ∀ act ∈ acts, act.ofClient := by decide
  have length : (w.steps acts).diary.length = 21 := by decide +kernel
  have calls : (w.steps acts).client.usage.totalCalls = 6 := by decide +kernel
  have audited : Audited c (w.steps acts) := (steps_audited begun acts allowed).1
  exact ⟨w, begun, allowed, length, calls, audited⟩

end World

end Parley
