import Mathlib.Data.List.Perm.Basic
import Mathlib.Logic.Relation
import Parley.Client

/-!
Everything that jobs do, one move at a time. Those who are doing something have things on hand: a
call that is not over, a stream, a connection, a slot that was taken for one. They are kept in one
stack, in which an act that happens while another one waits puts its own on top; streams and bodies
that have names are put down, and nobody has them on hand.

A move says what is on hand and in the world before and after it. So whatever every move keeps is
kept by whole runs, and no proof about runs looks at the jobs again.
-/
namespace Parley

/-- How far a call has come that is not over. -/
inductive Stage where
  /-- It has no permit yet. -/
  | waiting
  /-- It has a permit. -/
  | admitted
  /-- Its time is running, and it has begun some attempts. -/
  | trying (call : Call) (attempts : Nat)
  /-- It still has its permit, and begins no more attempts. -/
  | leaving

/-- Something that somebody has on hand. -/
inductive Holding where
  /-- A connection that was handed out. -/
  | connection (session : Nat) (c : Connection)
  /-- A slot that was taken for a connection. -/
  | slot (session : Nat)
  /-- The number of a connection that was begun. -/
  | number (n : Nat)
  /-- A call. -/
  | call (stage : Stage)
  /-- An unfinished stream, which may have a permit. -/
  | stream (permit : Bool)

/-- What somebody has on hand who may have a connection. -/
def Holding.ofOption (i : Nat) : Option Connection → List Holding
  | some c => [.connection i c]
  | none => []

/-- What a body has on hand. -/
def WireBody.holdings (b : WireBody) : List Holding := Holding.ofOption b.session b.connection

def Source.holdings : Source → List Holding
  | .scripted _ => []
  | .wire b => b.holdings

def EventStream.holdings : EventStream → List Holding
  | .finished => []
  | .unfinished s => s.source.holdings ++ [.stream s.permit]

/-- The connection that an event on the wire closes. -/
def WireEvent.closed? : WireEvent → Option Nat
  | .close n => some n
  | _ => none

namespace Session
variable {w : World} {i : Nat}

theorem lt_of_open (open_ : (find w i).closed = false) : i < w.sessions.length := by
  by_contra ge
  rw [find, List.getD_eq_getElem?_getD, List.getElem?_eq_none (Nat.le_of_not_lt ge)] at open_
  cases open_

theorem find_deal (here : i < w.sessions.length) (dealing : Dealing) :
    find (w.deal i dealing) i = (find w i).after w.now dealing := by
  simp [find, World.deal, List.getElem?_eq_getElem here]

end Session

namespace World

/-- What the bodies and the streams that have names have on hand. -/
def lodged (w : World) : List Holding :=
  w.sources.values.flatMap Source.holdings ++ w.streams.values.flatMap EventStream.holdings

/-- What the body of a name has on hand. -/
def sourceHoldings (w : World) (name : Bytes) : List Holding :=
  (w.sources.get? name).toList.flatMap Source.holdings

/-- Connections are closed, the last one first. -/
def closeAll (w : World) (connections : List Connection) : World :=
  { w with
    history := w.history ++ connections.reverse.map fun c => .wire (.close c.number) w.now }

/-- The transport that calls are sent over, if there is one, is closed. -/
def Idle (w : World) : Prop := ∀ t, w.transport = some t → Client.isClosed w t = true

/-- A world with everything blotted out that has nothing to do with time, sessions, permits, or what
becomes of the client, of calls and streams. -/
def core (w : World) : World :=
  { w with
    chance := .ofSeed 0
    made := 0
    closings := 0
    script := { overWire := w.script.overWire }
    bodies := 0
    live := []
    turnstile := []
    permits := []
    notices := []
    client := {
      usage := { w.client.usage with
        rateLimited := 0, streamsOpened := 0, eventsDelivered := 0, malformedFrames := 0 }
      semaphore := w.client.semaphore
      backoff := { w.client.backoff with random := .ofSeed 0 }
      shutdown := w.client.shutdown } }

end World

namespace World
variable (w : World) (name : Bytes)

section Holders
variable {β : Type} {f : EventStream → List β} (none : f .finished = [])
include none

/-- What streams hold, the stream of a name apart from the others. -/
theorem flatMap_stream_perm : (w.streams.values.flatMap f).Perm
    (f (w.stream name) ++ (w.streams.erase name).values.flatMap f) := by
  have split := (w.streams.values_perm name).flatMap_right f
  rw [List.flatMap_append] at split
  unfold stream
  cases found : w.streams.get? name with
  | none => simpa [found, none] using split
  | some s => simpa [found] using split

/-- A stream is put down under a name, and the one that had the name is taken up. -/
theorem flatMap_putStream_perm (s : EventStream) :
    (f (w.stream name) ++ (w.streams.insert name s).values.flatMap f).Perm
      (f s ++ w.streams.values.flatMap f) := by
  have join := (w.streams.values_insert_perm name s).flatMap_right f
  rw [List.flatMap_cons] at join
  exact (join.append_left _).trans ((List.perm_append_comm_assoc ..).trans
    ((w.flatMap_stream_perm name none).symm.append_left _))

end Holders

theorem lodged_putStream (s : EventStream) :
    ((w.stream name).holdings ++ { w with streams := w.streams.insert name s }.lodged).Perm
      (s.holdings ++ w.lodged) := by
  have put := w.flatMap_putStream_perm name (f := EventStream.holdings) rfl s
  exact (List.perm_append_comm_assoc ..).trans
    ((put.append_left _).trans (List.perm_append_comm_assoc ..))

/-- The stream of a name is taken up. -/
theorem lodged_takeStream :
    ((w.stream name).holdings ++ { w with streams := w.streams.erase name }.lodged).Perm
      w.lodged :=
  (List.perm_append_comm_assoc ..).trans
    ((w.flatMap_stream_perm name (f := EventStream.holdings) rfl).symm.append_left _)

theorem source_perm : (w.sources.values.flatMap Source.holdings).Perm
    (w.sourceHoldings name ++ (w.sources.erase name).values.flatMap Source.holdings) := by
  have split := (w.sources.values_perm name).flatMap_right Source.holdings
  rwa [List.flatMap_append] at split

/-- A body is put down under a name, and the one that had the name is taken up. -/
theorem lodged_putSource (s : Source) :
    (w.sourceHoldings name ++ { w with sources := w.sources.insert name s }.lodged).Perm
      (s.holdings ++ w.lodged) := by
  have join := (w.sources.values_insert_perm name s).flatMap_right Source.holdings
  have split := w.source_perm name
  rw [List.flatMap_cons] at join
  have swap := (join.append_left (w.sourceHoldings name)).trans
    ((List.perm_append_comm_assoc ..).trans (split.symm.append_left _))
  simpa only [lodged, List.append_assoc] using swap.append_right _

/-- The body of a name is taken up. -/
theorem lodged_takeSource :
    (w.sourceHoldings name ++ { w with sources := w.sources.erase name }.lodged).Perm
      w.lodged := by
  have split := (w.source_perm name).symm.append_right
    (w.streams.values.flatMap EventStream.holdings)
  simpa only [lodged, List.append_assoc] using split

end World

/-- Whether an act is one of those who have a client. -/
def Act.ofClient : Act → Bool
  | .chat .. | .stream .. | .closeSession | .shutdown | .push _ => true
  | .next .. | .close _ | .drop _ | .move .. | .advance _ => true
  | .later _ act => act.ofClient
  | _ => false

/-- A world under a configuration, in which only acts are put off that may be, and whose calls are
sent to a path that they may be sent to. -/
structure World.Aimed (c : Config) (raw : Prop) (aims : Bytes → Prop) (w : World) : Prop where
  config_eq : w.config = c
  agenda : ∀ e ∈ w.agenda, raw ∨ e.2.ofClient
  aims : aims w.target

/-- The same, where calls may be sent to any path. -/
abbrev World.Orderly (c : Config) (raw : Prop) (w : World) : Prop := w.Aimed c raw fun _ => True

/-- Where anything may be put off, any world under the configuration will do. -/
theorem World.orderly_raw {c : Config} {w : World} (config_eq : w.config = c) : w.Orderly c True :=
  ⟨config_eq, fun _ _ => .inl trivial, trivial⟩

/-- What a run is given. -/
structure Setting where
  config : Config
  /-- Until when something may wait. -/
  awaited : Instant → Prop
  /-- What may happen to the world while something waits, apart from moves. -/
  elapses : World → World → Prop
  /-- Whether permits, bodies and sessions may be used without a call. -/
  raw : Prop
  /-- Whether calls may begin. -/
  begins : Prop := True
  /-- Which requests may be handed to a transport. -/
  sends : Request → Prop := fun _ => True
  /-- To which paths calls may be sent. -/
  aims : Bytes → Prop := fun _ => True
  orderly {w w' : World} : elapses w w' → w.Aimed config raw aims → w'.Aimed config raw aims

namespace Setting

/-- A world that the run may be in. -/
abbrev Orderly (σ : Setting) (w : World) : Prop := w.Aimed σ.config σ.raw σ.aims

/-- Whether something may wait until any instant that is no later than this one. -/
def Until (σ : Setting) (deadline : Instant) : Prop := ∀ t ≤ deadline, σ.awaited t

/-- Whether somebody with these things on hand may ask for a connection. -/
def Entitled (σ : Setting) (hand : List Holding) : Prop :=
  σ.raw ∨ ∃ call k rest, hand = .call (.trying call k) :: rest

end Setting

/-- Whether something that is not an attempt may be entered into the log. -/
def Mark.Fair (w : World) : Mark → Prop
  | .tried .. => False
  | .shut => w.client.shutdown = true
  | .asked deadline => w.now ≤ deadline
  | _ => True

/-- One move, from what is on hand and the world to what is on hand and the world after it. -/
inductive Move (σ : Setting) : List Holding × World → List Holding × World → Prop
  | elapse {hand : List Holding} {w w' : World} (elapses : σ.elapses w w') :
      Move σ (hand, w) (hand, w')
  | aside {hand : List Holding} {w w' : World} (core_eq : w'.core = w.core) :
      Move σ (hand, w) (hand, w')
  | postpone {hand : List Holding} {w : World} (due : Instant) {act : Act}
      (allowed : σ.raw ∨ act.ofClient) : Move σ (hand, w) (hand, w.postpone due act)
  | record {hand : List Holding} {w : World} {e : WireEvent} (other : e.closed? = none) :
      Move σ (hand, w) (hand, w.record e)
  | mark {hand : List Holding} {w : World} {m : Mark} (fair : m.Fair w) :
      Move σ (hand, w) (hand, w.mark m)
  | shutDown {hand : List Holding} {w : World} (idle : w.Idle) :
      Move σ (hand, w) (hand, { w with client := { w.client with shutdown := true } })
  | windUp {hand : List Holding} {w : World} (shut : w.client.shutdown = true) (idle : w.Idle) :
      Move σ (hand, w) (hand, w.enrol .ended)
  -- Connections and slots of a session
  | crowd {hand : List Holding} {w : World} {i : Nat} (entitled : σ.Entitled hand)
      (open_ : (Session.find w i).closed = false) (idle : (Session.find w i).idle = [])
      (full : (Session.find w i).maxConnections ≤ (Session.find w i).opened) :
      Move σ (hand, w) (hand, w.deal i .crowded)
  | lend {hand : List Holding} {w : World} {i : Nat} {c : Connection} {rest : List Connection}
      (entitled : σ.Entitled hand) (open_ : (Session.find w i).closed = false)
      (idle : (Session.find w i).idle = c :: rest)
      (young : (Session.find w i).expired w.now c = false) :
      Move σ (hand, w)
        (.connection i { c with reused := true, persistent := false } :: hand,
          w.deal i (.lent { c with reused := true, persistent := false }))
  | takeSlot {hand : List Holding} {w : World} {i : Nat} (entitled : σ.Entitled hand)
      (open_ : (Session.find w i).closed = false) (idle : (Session.find w i).idle = [])
      (room : (Session.find w i).opened < (Session.find w i).maxConnections) :
      Move σ (hand, w) (.slot i :: hand, w.deal i .opening)
  | freeSlot {hand : List Holding} {w : World} {i : Nat} :
      Move σ (.slot i :: hand, w) (hand, w.deal i .abandoned)
  | beginConnection {hand : List Holding} {w : World} :
      Move σ (hand, w)
        (.number (w.connections + 1) :: hand, { w with connections := w.connections + 1 })
  | loseConnection {hand : List Holding} {w : World} {n : Nat} :
      Move σ (.number n :: hand, w) (hand, w.record (.close n))
  | fillSlot {hand : List Holding} {w : World} {i n : Nat} (t : Instant) :
      Move σ (.number n :: .slot i :: hand, w)
        (.connection i { number := n, lastUsed := t } :: hand, w.deal i (.opened n))
  | answer {hand : List Holding} {w : World} {i : Nat} {c : Connection} (e : Exchange) :
      Move σ (.connection i c :: hand, w)
        (.connection i { c with unread := e.body, persistent := e.keepAlive } :: hand,
          w.deal i (.answered c.number e))
  | receive {hand : List Holding} {w : World} {i : Nat} {c : Connection} {data : Bytes}
      {rest : List Piece} (some : c.unread ≠ [])
      (bytes_eq : c.unread.flatMap (·.data) = data ++ rest.flatMap (·.data)) :
      Move σ (.connection i c :: hand, w)
        (.connection i { c with unread := rest } :: hand, w.deal i (.received c.number data))
  | takeBack {hand : List Holding} {w : World} {i : Nat} {c : Connection} (read : c.unread = [])
      (keeps : (Session.find w i).keeps c = true) :
      Move σ (.connection i c :: hand, w) (hand, w.deal i (.returned c))
  | discard {hand : List Holding} {w : World} {i : Nat} {c : Connection} :
      Move σ (.connection i c :: hand, w)
        (hand, ((w.record (.shutdown c.number)).record (.close c.number)).deal i
          (.discarded c.number))
  | expire {hand : List Holding} {w : World} {i : Nat} {old : List Connection}
      (open_ : (Session.find w i).closed = false)
      (old_eq : old = (Session.find w i).idle.filter ((Session.find w i).expired w.now)) :
      Move σ (hand, w) (hand, (w.deal i (.expired old)).closeAll old)
  | shut {hand : List Holding} {w : World} {i : Nat} {idle : List Connection}
      (current : w.transport = some (.session i)) (idle_eq : idle = (Session.find w i).idle) :
      Move σ (hand, w)
        (hand, ((w.enrol (.closed (.session i))).deal i (.shut idle)).closeAll idle)
  | resolve {hand : List Holding} {w : World} {i : Nat} :
      Move σ (.slot i :: hand, w) (.slot i :: hand, w.deal i .resolved)
  -- The transport
  | renew {hand : List Holding} {w : World} {s : Session} (idle : w.Idle)
      (running : w.client.shutdown = false) (made : Session.ofConfig w.config = .ok s) :
      Move σ (hand, w)
        (hand, World.enrol { w with
          transport := some (.session w.sessions.length), sessions := w.sessions ++ [s] }
            (.made (.session w.sessions.length)))
  | forsake {hand : List Holding} {w : World} (idle : σ.raw ∨ w.Idle) :
      Move σ (hand, w) (hand, { w with transport := none })
  | furnish {hand : List Holding} {w : World} (idle : w.Idle)
      (running : w.client.shutdown = false) (unwired : w.script.overWire = false) (number : Nat) :
      Move σ (hand, w)
        (hand, World.enrol { w with transport := some (.scripted number false) }
          (.made (.scripted number false)))
  | retire {hand : List Holding} {w : World} {number : Nat} {closed : Bool}
      (current : w.transport = some (.scripted number closed)) :
      Move σ (hand, w)
        (hand, { w.enrol (.closed (.scripted number false)) with
          transport := some (.scripted number true) })
  | handOver {hand : List Holding} {w : World} {t : Transport} {request : Request}
      (running : w.client.shutdown = false) (current : w.transport = some t)
      (open_ : Client.isClosed w t = false) (sends : σ.sends request) :
      Move σ (hand, w) (hand, w.enrol (.handed t.base request))
  | send {hand : List Holding} {w : World} {s : Sent} (sends : σ.sends s.request) :
      Move σ (hand, w) (hand, { w with sent := w.sent ++ [s] })
  -- Calls
  | beginCall {hand : List Holding} {w : World} (begins : σ.begins) :
      Move σ (hand, w) (.call .waiting :: hand, (w.mapUsage Usage.addCall).note .begun)
  | turnAway {hand : List Holding} {w : World} (room : w.client.semaphore.hasRoom = true) :
      Move σ (hand, w) (hand, (w.mapSemaphore Semaphore.take).mapSemaphore Semaphore.release)
  | letIn {hand : List Holding} {w : World} (room : w.client.semaphore.hasRoom = true) :
      Move σ (.call .waiting :: hand, w)
        (.call .admitted :: hand, (w.mapSemaphore Semaphore.take).note .admitted)
  | setOut {hand : List Holding} {w : World} {call : Call} (start_eq : call.start = w.now)
      (budget_eq : call.budget = remainingUntil call.deadline call.start) :
      Move σ (.call .admitted :: hand, w) (.call (.trying call 0) :: hand, w)
  | attempt {hand : List Holding} {w : World} {call : Call} {k : Nat}
      (more : k < σ.config.retryAttempts.toNat) (running : w.client.shutdown = false)
      (left : call.elapsed w.now < call.budget) :
      Move σ (.call (.trying call k) :: hand, w)
        (.call (.trying call (k + 1)) :: hand,
          ((w.mapUsage (Usage.addAttempt (k + 1))).note .tried).mark
            (.tried call (call.budget - call.elapsed w.now)))
  | desist {hand : List Holding} {w : World} {call : Call} {k : Nat} (front : List Holding) :
      Move σ (front ++ .call (.trying call k) :: hand, w) (front ++ .call .leaving :: hand, w)
  | refuse {hand : List Holding} {w : World} :
      Move σ (.call .waiting :: hand, w) (hand, (w.mapUsage Usage.addFailure).note .failed)
  | fail {hand : List Holding} {w : World} :
      Move σ (.call .leaving :: hand, w)
        (hand, ((w.mapSemaphore Semaphore.release).mapUsage Usage.addFailure).note .failed)
  | succeed {hand : List Holding} {w : World} :
      Move σ (.call .leaving :: hand, w)
        (hand, ((w.mapSemaphore Semaphore.release).mapUsage Usage.addSuccess).note .succeeded)
  | openStream {hand : List Holding} {w : World} (s : Source) :
      Move σ (s.holdings ++ .call .leaving :: hand, w)
        (s.holdings ++ .stream true :: hand, w.note .opened)
  -- Streams and bodies
  | closeStream {hand : List Holding} {w : World} (permit succeeded : Bool) :
      Move σ (.stream permit :: hand, w)
        (hand, ((if permit then w.mapSemaphore Semaphore.release else w).mapUsage
          (if succeeded then Usage.addSuccess else Usage.addFailure)).note .closed)
  | putStream {hand : List Holding} {w : World} (name : Bytes) (s : EventStream) :
      Move σ (s.holdings ++ hand, w)
        ((w.stream name).holdings ++ hand, { w with streams := w.streams.insert name s })
  | takeStream {hand : List Holding} {w : World} (name : Bytes) :
      Move σ (hand, w)
        ((w.stream name).holdings ++ hand, { w with streams := w.streams.erase name })
  | putSource {hand : List Holding} {w : World} (raw : σ.raw) (name : Bytes) (s : Source) :
      Move σ (s.holdings ++ hand, w)
        (w.sourceHoldings name ++ hand, { w with sources := w.sources.insert name s })
  | takeSource {hand : List Holding} {w : World} (raw : σ.raw) (name : Bytes) :
      Move σ (hand, w)
        (w.sourceHoldings name ++ hand, { w with sources := w.sources.erase name })
  -- Permits and streams without a call
  | adopt {hand : List Holding} {w : World} (raw : σ.raw) (s : Source) (permit : Bool) :
      Move σ (s.holdings ++ hand, w) (s.holdings ++ .stream permit :: hand, w)
  | semaphore {hand : List Holding} {w : World} (raw : σ.raw) (f : Semaphore → Semaphore) :
      Move σ (hand, w) (hand, w.mapSemaphore f)

/-- One move after another. -/
abbrev Moves (σ : Setting) (hand : List Holding) (w : World) (hand' : List Holding) (w' : World) :
    Prop :=
  Relation.ReflTransGen (Move σ) (hand, w) (hand', w')

variable {σ : Setting} {hand hand' : List Holding} {w w' : World}

theorem World.Aimed.of_core {c : Config} {raw : Prop} {aims : Bytes → Prop}
    (h : w.Aimed c raw aims) (core_eq : w'.core = w.core) : w'.Aimed c raw aims :=
  have aimed : w.core.Aimed c raw aims := { h with }
  have aimed : w'.core.Aimed c raw aims := core_eq ▸ aimed
  { aimed with }

theorem World.mem_postpone {due : Instant} {act : Act} {e : Instant × Act}
    (member : e ∈ (w.postpone due act).agenda) : e ∈ w.agenda ∨ e = (due, act) := by
  rcases List.mem_append.mp member with member | member
  · exact .inl ((List.takeWhile_sublist _).mem member)
  · rcases List.mem_cons.mp member with same | member
    · exact .inr same
    · exact .inl ((List.dropWhile_sublist _).mem member)

/-- An act that comes due is the first of those that were put off. -/
theorem World.nextDue?_eq {t : Instant} {act : Act} (due : w.nextDue? t = some (act, w')) :
    ∃ first agenda, w.agenda = (first, act) :: agenda ∧ w' = { w with agenda }.advanceTo first := by
  unfold nextDue? at due
  split at due
  · rename_i first act' agenda agenda_eq
    split at due
    · cases due
      exact ⟨first, agenda, agenda_eq, rfl⟩
    · cases due
  · cases due

theorem Move.orderly {a b : List Holding × World} (move : Move σ a b) (h : σ.Orderly a.2) :
    σ.Orderly b.2 := by
  cases move with
  | elapse elapses => exact σ.orderly elapses h
  | aside core_eq => exact h.of_core core_eq
  | postpone due allowed =>
    refine ⟨h.config_eq, ?_, h.aims⟩
    intro e member
    rcases World.mem_postpone member with member | rfl
    · exact h.agenda e member
    · exact allowed
  | closeStream permit succeeded => cases permit <;> exact { h with }
  | _ => exact { h with }

/-- What every move keeps is kept. -/
theorem Moves.keeps {P : List Holding → World → Prop} (moves : Moves σ hand w hand' w')
    (kept : ∀ a b, Move σ a b → P a.1 a.2 → P b.1 b.2) (h : P hand w) : P hand' w' := by
  have keeps {a b : List Holding × World} (moves : Relation.ReflTransGen (Move σ) a b)
      (h : P a.1 a.2) : P b.1 b.2 := by
    induction moves with
    | refl => exact h
    | tail _ move ih => exact kept _ _ move ih
  exact keeps moves h

theorem Moves.orderly (moves : Moves σ hand w hand' w') (h : σ.Orderly w) : σ.Orderly w' :=
  moves.keeps (P := fun _ w => σ.Orderly w) (fun _ _ => Move.orderly) h

/-- A pause during which others may make moves, but leave alone what those who wait have on hand. -/
def Pause.Keeps (σ : Setting) (p : Pause) : Prop :=
  ∀ t, σ.awaited t → ∀ stop hand w, σ.Orderly w → Moves σ hand w hand (p t stop w)

end Parley
