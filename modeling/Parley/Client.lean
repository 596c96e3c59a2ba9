import Parley.EventStream
import Parley.Retry

/-!
Calls. A call is counted when it starts and once more when it has ended; in between it holds one of
the client's permits. A call in one piece ends with its response, a streamed one with its stream.
-/
namespace Parley.Client

/-- A fresh idempotency key: the tag, the time in milliseconds and nine random digits. -/
def freshKey : Job Bytes := modifyGet fun w =>
  let (digits, chance) := draw 9 w.chance
  (w.config.clientTag ++ byte '-' :: Bytes.ofInt (toMillis w.now) ++ byte '-' :: digits,
    { w with chance })
where
  draw : Nat → Twister → Bytes × Twister
    | 0, t => ([], t)
    | n + 1, t =>
      let (word, t) := t.next
      let (digits, t) := draw n t
      (Bytes.hexDigit (word >>> 60).toNat :: digits, t)

/-- Whether a transport can no longer be used. -/
def isClosed (w : World) : Transport → Bool
  | .scripted _ closed => closed
  | .session i => (Session.find w i).closed

/-- Closes the transport, so that the next attempt makes a new one. -/
def closeSession : Job Unit := do
  match (← get).transport with
  | none => return
  | some (.scripted number closed) =>
    Job.enrol (.closed (Transport.scripted number closed).base)
    modify fun w =>
      { w with transport := some (.scripted number true), closings := w.closings + 1 }
  | some (.session i) =>
    Job.enrol (.closed (Transport.session i).base)
    Session.close i

/-- Ends all waits for another attempt and refuses new calls. -/
def shutdown : Job Unit := do
  modify fun w => { w with client := { w.client with shutdown := true } }
  Job.mark .shut
  closeSession
  Job.enrol .ended

def unexpected {α : Type} (reason : Reason) : Flow α :=
  throw (.client { kind := .unexpected, reason })

def takeMaking : Job Making := modifyGet fun w =>
  match w.script.making with
  | m :: making => (m, { w with script := { w.script with making } })
  | [] => (.transport, w)

/-- A new transport. -/
def makeTransport : Flow Transport := do
  match ← takeMaking with
  | .nothing =>
    modify fun w => { w with transport := none }
    unexpected .missingTransport
  | .failure message => unexpected (.noTransport message)
  | .transport =>
    modify fun w => { w with made := w.made + 1 }
    let w ← get
    if w.script.overWire then
      match Session.ofConfig w.config with
      | .error f => unexpected (.noTransport f.message)
      | .ok session =>
        let transport := .session w.sessions.length
        modify fun w =>
          { w with transport := some transport, sessions := w.sessions ++ [session] }
        Job.enrol (.made transport)
        return transport
    else
      let transport := .scripted w.made false
      modify fun w => { w with transport := some transport }
      Job.enrol (.made transport)
      return transport

/-- The transport for an attempt: the one there is, unless it is closed. -/
def transport : Flow Transport := do
  let w ← get
  match w.transport with
  | some t => if isClosed w t then makeTransport else return t
  | none => makeTransport

/-- Hands the request of an attempt to a transport. -/
def handOver (request : Request) : Flow Transport := do
  let t ← transport
  Job.enrol (.handed t.base request)
  return t

def takeReply : Job Reply := modifyGet fun w =>
  match w.script.replies with
  | r :: replies => (r, { w with script := { w.script with replies } })
  | [] => (w.script.fallback, w)

/-- A request to a scripted transport. -/
def receive (number : Nat) (request : Request) (timeout : Millis) (streaming : Bool) :
    Flow Reply := do
  modify fun w =>
    let sent : Sent := { request, timeout, streaming, transport := number, time := w.now }
    { w with sent := w.sent ++ [sent] }
  let reply ← takeReply
  Job.wait reply.delay
  match reply.failure with
  | some f => throw f
  | none => return reply

/-- What a transport answers in one piece. -/
def sendOver (request : Request) (timeout : Millis) : Transport → Flow Response
  | .session i => Session.send i request timeout
  | .scripted number _ => do
    let reply ← receive number request timeout false
    return { status := reply.status, headers := reply.headers, body := reply.body }

/-- What a transport answers piece by piece. -/
def streamOver (request : Request) (timeout : Millis) : Transport → Flow Source
  | .session i => do return .wire (← Session.sendStreaming i request timeout)
  | .scripted number _ => do
    let reply ← receive number request timeout true
    Source.script reply.status reply.headers reply.stream

/-- One attempt of a call in one piece. -/
def sendUnary (request : Request) (timeout : Millis) : Flow Response := do
  sendOver request timeout (← handOver request)

/-- One attempt of a streamed call. -/
def sendStreaming (request : Request) (timeout : Millis) : Flow Source := do
  streamOver request timeout (← handOver request)

def releasePermit : Job Unit := modify (·.mapSemaphore Semaphore.release)

/-- Takes a permit if one is free, or becomes free in time. -/
def takePermit (deadline : Instant) : Job Bool := do
  if ← Job.await deadline (·.client.semaphore.hasRoom) then
    modify (·.mapSemaphore Semaphore.take)
    return true
  else return false

/-- Waits for a permit. A call that is too late by then, or whose client is shut down, gives it
back at once. -/
def obtainPermit (deadline : Instant) : Flow Unit := do
  if (← get).client.shutdown then throw (.client { kind := .canceled, reason := .shutDown })
  let start := (← get).now
  let late (reason : Reason) : Flow Unit := do
    throw (.client {
      kind := .deadlineExceeded, reason, elapsed := toMillis ((← get).now.since start) })
  if !(← takePermit deadline) then late .noPermit
  else if deadline < (← get).now then
    releasePermit
    late .lateStart
  else if (← get).client.shutdown then
    releasePermit
    throw (.client { kind := .canceled, reason := .shutDown })

/-- The request of a call; every attempt sends the same one. -/
def makeRequest (messages : List Message) (stream : Bool) (key : Bytes) : Flow Request := do
  let w ← get
  match (chatRequest w.config messages stream).write with
  | .error fault => throw (.json fault)
  | .ok body =>
    return {
      method := ascii "POST"
      target := w.target
      body
      headers := [
        (ascii "Content-Type", ascii "application/json"),
        (ascii "Accept", ascii (if stream then "text/event-stream" else "application/json")),
        (ascii "Idempotency-Key", key)] }

/-- A call that begins now. -/
def beginCall (deadline : Instant) : Job Call := do
  let start := (← get).now
  return { start, budget := remainingUntil deadline start, key := ← freshKey, deadline }

/-- The answer to a call in one piece. -/
def chatAnswered (messages : List Message) (deadline : Instant) :
    Flow (Call × Response × Nat) := do
  let call ← beginCall deadline
  let request ← makeRequest messages false call.key
  return (call, ← Retry.run call .unary (sendUnary request))

/-- What a call makes of the answer to it. -/
def decode (call : Call) (response : Response) (attempts : Nat) : Flow Completion := do
  match Json.parse response.body with
  | .ok body => return { status := response.status, attempts, key := call.key, body }
  | .error .malformed => call.fail .unexpected .unreadableResponse
  | .error fault => throw (.json fault)

/-- A call in one piece, under a permit. -/
def chatAdmitted (messages : List Message) (deadline : Instant) : Flow Completion := do
  let (call, response, attempts) ← chatAnswered messages deadline
  decode call response attempts

/-- A streamed call, under a permit. -/
def streamAdmitted (messages : List Message) (deadline : Instant) : Flow (Call × Source) := do
  let call ← beginCall deadline
  let request ← makeRequest messages true call.key
  let (source, attempts) ← Retry.run call .streaming (sendStreaming request)
  Job.notice (.streamOpen call.key attempts)
  return (call, source)

/-- A call that fails is counted as failed. -/
def counted {α : Type} (flow : Flow α) : Flow α := do
  Job.count Usage.addCall
  Job.note .begun
  flow.onFailure do
    Job.count Usage.addFailure
    Job.note .failed

/-- What succeeds is counted as a call that did, at once. -/
def succeeding {α : Type} (flow : Flow α) : Flow α := do
  let a ← flow
  Job.count Usage.addSuccess
  return a

/-- The next turn of a conversation, in one piece. The permit goes back when the call is counted. -/
def chat (messages : List Message) (deadline : Instant) : Flow Completion := do
  if messages.isEmpty then
    throw (.invalidArgument (ascii "chatCompletion: messages must not be empty"))
  counted do
    obtainPermit deadline
    Job.note .admitted
    let completion ← (succeeding (chatAdmitted messages deadline)).andAlways releasePermit
    Job.note .succeeded
    return completion

/-- The next turn of a conversation, event by event. The stream keeps the permit. -/
def stream (messages : List Message) (deadline : Instant) : Flow (Bytes × EventStream) := do
  if messages.isEmpty then
    throw (.invalidArgument (ascii "streamChatCompletion: messages must not be empty"))
  counted do
    obtainPermit deadline
    Job.note .admitted
    let (call, source) ← (streamAdmitted messages deadline).onFailure releasePermit
    let s ← EventStream.create true source deadline call.start
    Job.note .opened
    return (call.key, s)

/-- The deadline of a call that names none. -/
def defaultDeadline (w : World) : Instant := w.now.plusMillis w.config.timeout

end Parley.Client
