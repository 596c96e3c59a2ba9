import Parley.Act
import Parley.Backoff
import Parley.BufferPool
import Parley.EventLines
import Parley.Notice
import Parley.Semaphore
import Parley.Session.Basic
import Parley.Usage

/-!
The state that everything runs in, and what it means to wait in it.

Whatever may wait is a `Job`: it goes on as far as it can without waiting, and tells what it waits
for and how it goes on from the world that it finds then. The clock moves only while something
waits. What else happens meanwhile is not for the job to say, and there are two answers to it.

* A `Pause` says what happens during the waits of one job. Most of what is done during a wait is
  another job under a pause of its own, done to its end before the wait is over; so jobs that
  overlap under a pause lie one within the other.
* Jobs that take turns at their waits, in any order, are threads (`Parley.Thread`).
-/
namespace Parley

/-- What calls of one client, and the streams they leave behind, have in common. -/
structure ClientState where
  usage : Usage := {}
  semaphore : Semaphore
  buffers : BufferPool := {}
  backoff : Backoff
  shutdown : Bool := false

namespace ClientState

/-- The state of a client that no call was made on. A seed of zero is replaced by chance. -/
def ofConfig (c : Config) (chance : UInt64) : ClientState where
  semaphore := { capacity := c.maxConcurrent }
  backoff := {
    base := c.retryBaseDelay
    cap := c.maxRetryDelay
    random := .ofSeed (if c.jitterSeed = 0 then chance else c.jitterSeed) }

end ClientState

/-- A streamed body written down in advance. -/
structure ScriptedBody where
  number : Nat
  status : Nat
  headers : Headers
  chunks : List Chunk

/-- A streamed body that arrives over a connection, as long as it still holds one. -/
structure WireBody where
  session : Nat
  connection : Option Connection
  status : Nat
  headers : Headers

/-- A body that is read piece by piece. -/
inductive Source where
  | scripted (body : ScriptedBody)
  | wire (body : WireBody)

/-- What an unfinished stream of events holds. -/
structure OpenStream where
  /-- Whether a permit is given back when the stream ends. -/
  permit : Bool
  lease : Lease
  source : Source
  /-- How much of the buffer has been searched for events. -/
  consumed : Nat := 0
  deadline : Instant
  startedAt : Instant

/-- A stream of events; one that is finished holds nothing. -/
inductive EventStream where
  | finished
  | unfinished (s : OpenStream)

def EventStream.isFinished : EventStream → Bool
  | .finished => true
  | .unfinished _ => false

/-- The way a client reaches its backend. -/
inductive Transport where
  | scripted (number : Nat) (closed : Bool)
  | session (index : Nat)
  deriving DecidableEq

/-- A transport as it was when it was made. -/
def Transport.base : Transport → Transport
  | .scripted number _ => .scripted number false
  | .session index => .session index

/-- An entry of the register of transports. -/
inductive Registration where
  /-- A transport was made. -/
  | made (t : Transport)
  /-- A transport was closed, perhaps not for the first time. -/
  | closed (t : Transport)
  /-- The request of an attempt was handed to a transport. -/
  | handed (t : Transport) (request : Request)
  /-- The client was shut down, and the transport that it had with it. -/
  | ended

/-- A request as a scripted transport received it. -/
structure Sent where
  request : Request
  timeout : Millis
  streaming : Bool
  transport : Nat
  time : Instant

/-- The outside that is written down in advance. -/
structure Script where
  replies : List Reply := []
  fallback : Reply := .plain
  making : List Making := []
  /-- Whether new transports are sessions on the wire. -/
  overWire : Bool := false
  resolves : List WireOutcome := []
  connects : List WireOutcome := []
  exchanges : List Exchange := []

/-- An entry of the history: something on the wire, or the end of an act that was put off. -/
inductive Entry where
  | wire (event : WireEvent) (time : Instant)
  | act (answer : Answer) (time : Instant)

/-- An entry of the journal of all sessions. -/
structure Deal where
  session : Nat
  dealing : Dealing
  time : Instant

/-- What becomes of a call, of the stream that a call ended with, and of an act that was put off.
Under a pause, whatever is entered about a call is about the one that began last of those that are
not over. -/
inductive Turn where
  /-- A call began. -/
  | begun
  /-- It has a permit. -/
  | admitted
  /-- It began an attempt. -/
  | tried
  /-- It ended with a response. -/
  | succeeded
  | failed
  /-- It ended with a stream, and left its permit to the stream. -/
  | opened
  /-- A stream ended. -/
  | closed
  /-- An act that was put off was done. -/
  | acted

/-- An entry of a client's diary: what happened, and what the client has counted by then. -/
structure Moment where
  turn : Turn
  usage : Usage
  semaphore : Semaphore

/-- A call that was admitted. -/
structure Call where
  start : Instant
  /-- The time from the start to the deadline. -/
  budget : Millis
  key : Bytes
  deadline : Instant

def Call.elapsed (c : Call) (now : Instant) : Millis := toMillis (now.since c.start)

/-- What the log tells: how calls and streams keep to their deadlines, how exchanges come to be
repeated, and when a stream lets go of what it holds. -/
inductive Mark where
  /-- An attempt of a call was allowed, for some time. -/
  | tried (call : Call) (timeout : Millis)
  /-- The client was shut down. -/
  | shut
  /-- A stream asked for more of its body. -/
  | asked (deadline : Instant)
  /-- A request was written to a connection. -/
  | wrote (c : Connection) (request : WireRequest)
  /-- The request was not written, or no head of a response was read. -/
  | broke (e : WireError)
  /-- The head of a response was read. -/
  | headed (x : Exchange)
  /-- The response broke off after its head. -/
  | cut (e : WireError)
  /-- A body that was written down in advance was let go of. -/
  | freed (number : Nat)
  /-- A stream gave its permit back, after such a body if it has a number. -/
  | gaveBack (number : Option Nat)

/-- An entry of the log. -/
structure Marked where
  mark : Mark
  time : Instant

structure World where
  now : Instant := 0
  /-- The acts put off, in the order in which they come due. -/
  agenda : List (Instant × Act) := []
  config : Config
  /-- The path that calls are sent to. -/
  target : Bytes := []
  client : ClientState
  /-- Where idempotency keys take their digits from. -/
  chance : Twister
  transport : Option Transport := none
  /-- How many transports were made, and how often a scripted one was told to close. -/
  made : Nat := 0
  closings : Nat := 0
  script : Script := {}
  sessions : List Session := []
  /-- What the sessions did, the latest first. -/
  journal : List Deal := []
  /-- What became of the calls, the latest first. -/
  diary : List Moment := []
  /-- What was written down about deadlines, exchanges and streams, the latest first. -/
  log : List Marked := []
  /-- What became of the transports, the latest first. -/
  register : List Registration := []
  /-- What the semaphore was before each permit that was taken or given back, the latest first. -/
  turnstile : List Semaphore := []
  /-- How many connections were begun. -/
  connections : Nat := 0
  sent : List Sent := []
  /-- How many scripted bodies were made, and which of them are still held. -/
  bodies : Nat := 0
  live : List Nat := []
  streams : Table EventStream := []
  sources : Table Source := []
  permits : Table Bool := []
  history : List Entry := []
  notices : List Notice := []

/-- What happens while something waits until an instant, or until a condition holds. -/
abbrev Pause := Instant → (World → Bool) → World → World

/-- Something that has gone on as far as it can without waiting. It ends, or it waits, until an
instant or until a condition holds, and goes on from the world that it finds then. -/
inductive Strand (α : Type) where
  | ends (a : α) (w : World)
  | waits (t : Instant) (stop : World → Bool) (w : World) (resume : World → Strand α)

namespace Strand

variable {α β : Type}

/-- Something more is done once it is over. -/
def bind (next : α → World → Strand β) : Strand α → Strand β
  | ends a w => next a w
  | waits t stop w resume => waits t stop w fun w' => (resume w').bind next

/-- What it comes to when this is what happens during its waits. -/
def run (p : Pause) : Strand α → α × World
  | ends a w => (a, w)
  | waits t stop w resume => (resume (p t stop w)).run p

end Strand

/-- Something that may wait. -/
def Job (α : Type) : Type := World → Strand α

namespace Job

variable {α : Type}

instance : Monad Job where
  pure a := fun w => .ends a w
  bind j next := fun w => (j w).bind next

instance : MonadStateOf World Job where
  get := fun w => .ends w w
  set w := fun _ => .ends ⟨⟩ w
  modifyGet f := fun w => .ends (f w).1 (f w).2

/-- Waits until an instant, or until a condition holds. -/
def pause (t : Instant) (stop : World → Bool) : Job Unit :=
  fun w => .waits t stop w (.ends ())

/-- What a job comes to when this is what happens during its waits. -/
def run (j : Job α) (p : Pause) : StateM World α := fun w => (j w).run p

end Job

/-- Something that may wait and may fail. What it did before it failed stays done. -/
abbrev Flow := ExceptT Failure Job

/-- A session by its index. -/
def Session.find (w : World) (i : Nat) : Session := w.sessions.getD i absent

namespace World

/-- The stream of a name; one that was never opened is as good as finished. -/
def stream (w : World) (name : Bytes) : EventStream := (w.streams.get? name).getD .finished

/-- The clock never goes back. -/
def advanceTo (w : World) (t : Instant) : World := { w with now := max w.now t }

/-- Puts an act off. Of two that come due together the one put off first happens first. -/
def postpone (w : World) (due : Instant) (act : Act) : World :=
  { w with
    agenda := w.agenda.takeWhile (·.1 ≤ due) ++ (due, act) :: w.agenda.dropWhile (·.1 ≤ due) }

/-- The first act due by an instant, taken off the agenda, with the clock set to its time. -/
def nextDue? (w : World) (t : Instant) : Option (Act × World) :=
  match w.agenda with
  | (due, act) :: agenda =>
    if due ≤ t then some (act, { w with agenda }.advanceTo due) else none
  | [] => none

def mapUsage (w : World) (f : Usage → Usage) : World :=
  { w with client := { w.client with usage := f w.client.usage } }

/-- The semaphore changes; what it was is not forgotten. -/
def mapSemaphore (w : World) (f : Semaphore → Semaphore) : World :=
  { w with
    client := { w.client with semaphore := f w.client.semaphore }
    turnstile := w.client.semaphore :: w.turnstile }

/-- A session does something, and enters it into the journal. -/
def deal (w : World) (i : Nat) (dealing : Dealing) : World :=
  { w with
    sessions := w.sessions.modify i (·.after w.now dealing)
    journal := { session := i, dealing, time := w.now } :: w.journal }

/-- Enters something into the diary. -/
def note (w : World) (turn : Turn) : World :=
  { w with diary := { turn, usage := w.client.usage, semaphore := w.client.semaphore } :: w.diary }

/-- Enters something into the log. -/
def mark (w : World) (mark : Mark) : World :=
  { w with log := { mark, time := w.now } :: w.log }

/-- Enters something into the register. -/
def enrol (w : World) (e : Registration) : World := { w with register := e :: w.register }

/-- Something happens on the wire. -/
def record (w : World) (event : WireEvent) : World :=
  { w with history := w.history ++ [.wire event w.now] }

/-- An act that was put off was done. -/
def answered (w : World) (answer : Answer) : World :=
  note { w with history := w.history ++ [.act answer w.now] } .acted

/-- Tells something, if the configuration asks for it. -/
def tell (w : World) (n : Notice) : World :=
  { w with notices := if w.config.verbose then w.notices ++ [n] else w.notices }

end World

/-- Nothing else happens: the clock moves to the end of the wait. -/
def Pause.quiet : Pause := fun t stop w => if stop w then w else w.advanceTo t

namespace Job

/-- Waits until an instant, whatever happens meanwhile. -/
def waitUntil (t : Instant) : Job Unit := pause t fun _ => false

/-- Waits for a time. -/
def wait (d : Nanos) : Job Unit := do waitUntil ((← get).now + d)

/-- Waits until a condition holds, at the longest until an instant. The answer is whether it
holds; if it holds at once there is no wait. -/
def await (t : Instant) (condition : World → Bool) : Job Bool := do
  if condition (← get) then return true
  pause t condition
  return condition (← get)

def record (event : WireEvent) : Job Unit := modify (·.record event)

def notice (n : Notice) : Job Unit := modify (·.tell n)

def count (f : Usage → Usage) : Job Unit := modify (·.mapUsage f)

def note (turn : Turn) : Job Unit := modify (·.note turn)

def mark (mark : Mark) : Job Unit := modify (·.mark mark)

def enrol (e : Registration) : Job Unit := modify (·.enrol e)

end Job

namespace Flow

variable {α : Type}

/-- Does something that may fail, and tells how it ended. -/
def attempt (flow : Flow α) : Flow (Except Failure α) := ExceptT.lift flow.run

def ofExcept : Except Failure α → Flow α
  | .ok a => pure a
  | .error f => throw f

/-- Does one thing after another, whether or not the first one fails. -/
def andAlways (flow : Flow α) (last : Job Unit) : Flow α := do
  let result ← flow.attempt
  last
  ofExcept result

/-- Does something more before a failure goes on. -/
def onFailure (flow : Flow α) (last : Job Unit) : Flow α := do
  match ← flow.attempt with
  | .ok a => return a
  | .error f =>
    last
    throw f

end Flow

end Parley
