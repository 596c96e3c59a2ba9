import Parley.Client

/-!
Acts one after the other. An act that was put off happens while another one waits, to its end, and
may wait itself. Each act put off happens at most once, so their number bounds how deep this goes.

So a wait is not over before the acts that came due in it are done: the one that began last goes on
first. Calls that overlap without one of them lying within a wait of the other do not occur among
acts; what holds of all runs of acts says nothing of them.
-/
namespace Parley

namespace Act

/-- Answers what a flow comes to. -/
def answered {α : Type} (flow : Flow α) (answer : α → Job Answer) : Job Answer := do
  match ← flow.run with
  | .ok a => answer a
  | .error f => return .failed f

def findStream (name : Bytes) : Job EventStream := return (← get).stream name

/-- Puts a stream down under a name. The answer is the stream that had the name. -/
def putStream (name : Bytes) (s : EventStream) : Job EventStream := modifyGet fun w =>
  (w.stream name, { w with streams := w.streams.insert name s })

def takeStream (name : Bytes) : Job EventStream := modifyGet fun w =>
  (w.stream name, { w with streams := w.streams.erase name })

/-- Gives a stream a name. The stream that had the name is abandoned. -/
def assignStream (name : Bytes) (s : EventStream) : Job Unit := do
  EventStream.close (← putStream name s)

/-- Asks a stream for its next event, several times. Meanwhile nobody else holds it. -/
def pullStream (name : Bytes) : Nat → Job (List Pulled)
  | 0 => return []
  | times + 1 => do
    let (pulled, s) ← EventStream.next (← putStream name .finished)
    assignStream name s
    return pulled :: (← pullStream name times)

def deadlineAfter (deadline : Option Nanos) : Job Instant := do
  let w ← get
  return match deadline with
    | some d => w.now.plus d
    | none => Client.defaultDeadline w

/-- Gives a permit that was taken, or none, a name. A permit that had the name is given back. -/
def assignPermit (name : Bytes) (held : Bool) : Job Unit := do
  if ((← get).permits.get? name).getD false then Client.releasePermit
  modify fun w => { w with permits := w.permits.insert name held }

/-- Takes a permit, however long that takes; it fails if it would take forever. -/
def acquirePermit : Job Answer := do
  let w ← get
  match w.agenda.getLast? with
  | some (due, _) => return if ← Client.takePermit due then .done else .wouldBlock
  | none => return if ← Client.takePermit w.now then .done else .wouldBlock

/-- Puts a body down under a name. The answer is the body that had the name. -/
def putSource (name : Bytes) (s : Source) : Job (Option Source) := modifyGet fun w =>
  (w.sources.get? name, { w with sources := w.sources.insert name s })

def takeSource (name : Bytes) : Job (Option Source) := modifyGet fun w =>
  (w.sources.get? name, { w with sources := w.sources.erase name })

def disposeOf : Option Source → Job Unit
  | some s => s.dispose
  | none => return

/-- Gives a body a name. The body that had the name is let go of. -/
def assignSource (name : Bytes) (s : Source) : Job Unit := do
  disposeOf (← putSource name s)

/-- Reads a body. Meanwhile nobody else holds it. -/
def readSource (name : Bytes) (read : Source → Job (Except Failure Bytes × Source)) :
    Job Answer := do
  match ← takeSource name with
  | none => return .noBody
  | some s =>
    let (result, s) ← read s
    assignSource name s
    match result with
    | .ok data => return .data data
    | .error f => return .failed f

/-- The session that exchanges are made on. -/
def withSession {α : Type} (flow : Nat → Flow α) : Flow α := do
  match (← get).transport with
  | some (.session i) => flow i
  | _ => Session.connectionFailed .sessionClosed

/-- Does an act. -/
def perform : Act → Job Answer
  | .chat messages deadline => do
    let deadline ← deadlineAfter deadline
    answered (Client.chat messages deadline) fun c => return .completion c
  | .stream name messages deadline => do
    let deadline ← deadlineAfter deadline
    answered (Client.stream messages deadline) fun (key, s) => do
      assignStream name s
      return .opened key
  | .closeSession => do
    Client.closeSession
    return .done
  | .shutdown => do
    Client.shutdown
    return .done
  | .push replies => do
    modify fun w => { w with script := { w.script with replies := w.script.replies ++ replies } }
    return .done
  | .openStream name chunks deadline key startedAgo held => do
    let now := (← get).now
    if held then
      if !(← Client.takePermit now) then return .full
    let source ← Source.script 200 [] chunks
    let s ← EventStream.create held source (now.plus deadline) (now.plus (-startedAgo))
    assignStream name s
    return .opened key
  | .next name times => do
    let results ← pullStream name times
    return .pulled results (← findStream name).isFinished
  | .close name => do
    assignStream name .finished
    return .done
  | .drop name => do
    EventStream.close (← takeStream name)
    return .done
  | .move name dest => do
    if name ≠ dest then
      assignStream dest (← putStream name .finished)
    return .moved (← findStream name).isFinished (← findStream dest).isFinished
  | .sleep duration => return .yes (← Retry.sleep duration)
  | .isShutdown => return .yes (← get).client.shutdown
  | .delay attempt => modifyGet fun w =>
    let (duration, backoff) := w.client.backoff.delayFor attempt
    (.wait duration, { w with client := { w.client with backoff } })
  | .acquire => acquirePermit
  | .tryAcquire wait => do return .yes (← Client.takePermit ((← get).now.plus wait))
  | .release => do
    Client.releasePermit
    return .done
  | .permit name wait => do
    let taken ← Client.takePermit ((← get).now.plus wait)
    if taken then assignPermit name true
    return .yes taken
  | .permitRelease name => do
    assignPermit name false
    return .done
  | .permitDrop name => do
    assignPermit name false
    modify fun w => { w with permits := w.permits.erase name }
    return .done
  | .permitMove name dest => do
    let held := ((← get).permits.get? name).getD false
    modify fun w => { w with permits := w.permits.insert name (held && name = dest) }
    if name ≠ dest then assignPermit dest held
    return .done
  | .send request timeout =>
    answered (withSession fun i => Session.send i request timeout) fun r => return .response r
  | .sendStreaming name request timeout =>
    answered (withSession fun i => Session.sendStreaming i request timeout) fun b => do
      assignSource name (.wire b)
      return .head b.status b.headers
  | .read name capacity deadline => do
    let deadline := (← get).now.plus deadline
    readSource name fun s => s.read capacity deadline
  | .readAll name deadline => do
    let deadline := (← get).now.plus deadline
    readSource name fun s => s.readAll deadline
  | .dropBody name => do
    disposeOf (← takeSource name)
    return .done
  | .destroySession => do
    Client.closeSession
    modify fun w => { w with transport := none }
    return .done
  | .advance duration => do
    Job.wait duration
    return .done
  | .later wait act => do
    modify fun w => w.postpone (w.now + wait) act
    return .done

end Act

/-- An act that was put off happens; its answer goes into the history. -/
def World.happen (w : World) (act : Act) (pause : Pause) : World :=
  let (answer, w) := (act.perform.run pause).run w
  w.answered answer

/-- The acts that come due during a wait happen, at most `n` of them, and at most `n` deep. -/
def Pause.acts : Nat → Pause
  | 0 => Pause.quiet
  | n + 1 => fun t stop w =>
    if stop w then w
    else
      match w.nextDue? t with
      | none => w.advanceTo t
      | some (act, w) => acts n t stop (w.happen act (acts n))

namespace World

/-- How many acts are put off, those that acts put off again included. -/
def pending (w : World) : Nat := w.agenda.foldr (fun (_, act) n => act.postponed + 1 + n) 0

/-- Does something in which acts that were put off may happen. -/
def run {α : Type} (w : World) (job : Job α) : α × World :=
  (job.run (.acts w.pending)).run w

def step (w : World) (act : Act) : Answer × World := w.run act.perform

/-- A world around the state of a client, without a way to reach a backend. -/
def ofState (c : Config) (chance : UInt64) : Except Failure World := do
  let _ ← Semaphore.create c.maxConcurrent
  return { config := c, client := .ofConfig c chance, chance := .ofSeed chance }

/-- A world around a client. -/
def ofClient (c : Config) (chance : UInt64) (script : Script) : Except Failure World := do
  match c.validate with
  | .error fault => throw (.invalidArgument fault.message)
  | .ok url => return { ← ofState c chance with target := joinPath url.target chatPath, script }

/-- A world around a session. -/
def ofSession (c : Config) (chance : UInt64) (script : Script) : Except Failure World := do
  let session ← Session.ofConfig c
  return {
    config := c
    client := .ofConfig c chance
    chance := .ofSeed chance
    script
    transport := some (.session 0)
    sessions := [session] }

end World

namespace Job

/-- Abandons all streams, the one with the greatest name first, and gives back all permits. -/
def dropStreams : Job Unit := do
  (← get).streams.reverse.forM fun (_, s) => s.close
  (← get).permits.reverse.forM fun (_, held) => if held then Client.releasePermit else pure ()
  modify fun w => { w with streams := [], permits := [] }

/-- Lets go of all bodies, the one with the greatest name first. -/
def dropSources : Job Unit := do
  (← get).sources.reverse.forM fun (_, s) => s.dispose
  modify fun w => { w with sources := [] }

/-- Ends a client, and with it the transport it has. -/
def endClient : Job Unit := do
  Client.shutdown
  modify fun w => { w with transport := none }

end Job

end Parley
