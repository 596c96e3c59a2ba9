import Parley.Session.Opening

/-!
Exchanges over the connections of a session. A connection goes back to the idle ones only after a
response that was read to its end and that leaves it open; in every other case it is shut down and
its slot is free again. Whatever an exchange does on the wire ends by the exchange's deadline.

There is no limit to the size of a body here. Where a reader has one, a response that goes beyond it
breaks off, and that is written down like every other way of breaking off: as the error of the part
with which it happens.
-/
namespace Parley.Session

def takeExchange : Job Exchange := modifyGet fun w =>
  match w.script.exchanges with
  | e :: exchanges => (e, { w with script := { w.script with exchanges } })
  | [] => (.plain, w)

/-- Writes a request and reads the head of the response. -/
def begin (i : Nat) (c : Connection) (request : WireRequest) (deadline : Instant) :
    Job (Except WireError (Head × Connection)) := do
  Job.record (.write c.number (← left deadline) request)
  Job.mark (.wrote c request)
  let exchange ← takeExchange
  match ← operate exchange.write deadline with
  | some e =>
    Job.mark (.broke e)
    return .error e
  | none =>
    Job.record (.readHeader c.number (← left deadline))
    match ← operate exchange.head deadline with
    | some e =>
      Job.mark (.broke e)
      return .error e
    | none =>
      deal i (.answered c.number exchange)
      Job.mark (.headed exchange)
      return .ok (
        { status := exchange.status, headers := .collect exchange.fields },
        { c with unread := exchange.body, persistent := exchange.keepAlive })

/-- Gets a request answered, the head of the response at least. A connection that was idle may turn
out to be closed by the server; then the request is written once more. -/
def answered (i : Nat) (request : WireRequest) (deadline : Instant) :
    Flow (Head × Connection) := do
  let step := request.method ++ byte ' ' :: request.target
  let c ← checkout i deadline
  match ← begin i c request deadline with
  | .ok answer => return answer
  | .error e =>
    discard i c
    if c.reused && e.isStale then
      Job.notice (.wentStale e.name)
      let c ← checkout i deadline
      match ← begin i c request deadline with
      | .ok answer => return answer
      | .error e =>
        discard i c
        throw (e.failure step)
    else throw (e.failure step)

/-- Reads pieces that come over a connection to the last one, and tells which are left. -/
def readPieces (i number : Nat) (deadline : Instant) :
    Bytes → List Piece → Job (Except WireError Bytes × List Piece)
  | body, [] => return (.ok body, [])
  | body, p :: pieces => do
    match ← operate p.outcome deadline with
    | some e => return (.error e, p :: pieces)
    | none =>
      deal i (.received number p.data)
      readPieces i number deadline (body ++ p.data) pieces

/-- An exchange whose response is read as a whole. -/
def send (i : Nat) (request : Request) (timeout : Millis) : Flow Response := do
  let deadline := (← get).now.plusMillis timeout
  let request ← Flow.ofExcept (WireRequest.ofRequest (← current i).hostHeader request)
  let (head, c) ← answered i request deadline
  Job.record (.readBody c.number (← left deadline))
  let (result, unread) ← readPieces i c.number deadline [] c.unread
  match result with
  | .error e =>
    Job.mark (.cut e)
    discard i { c with unread }
    throw (e.failure (ascii "reading response body"))
  | .ok body =>
    checkin i { c with unread }
    return { status := head.status, headers := head.headers, body }

/-- An exchange whose response body is left to be read. -/
def sendStreaming (i : Nat) (request : Request) (timeout : Millis) : Flow WireBody := do
  let deadline := (← get).now.plusMillis timeout
  let request ← Flow.ofExcept (WireRequest.ofRequest (← current i).hostHeader request)
  let (head, c) ← answered i request deadline
  return { session := i, connection := some c, status := head.status, headers := head.headers }

/-- The failure of a read of a streamed body. -/
def readFailure (e : WireError) : Failure :=
  if e = .timeout then .client { kind := .streamTimeout, reason := .readTimedOut }
  else e.failure (ascii "stream read")

/-- Reads up to `capacity` bytes over a connection. What is left of the connection is nothing once
the body is complete or the read has failed. -/
def readPiece (i : Nat) (c : Connection) (capacity : Nat) (deadline : Instant) :
    List Piece → Job (Except Failure Bytes × Option Connection)
  | [] => do
    checkin i { c with unread := [] }
    return (.ok [], none)
  | p :: pieces => do
    if deadline < (← get).now then
      discard i { c with unread := p :: pieces }
      return (.error (.client { kind := .streamTimeout, reason := .readDeadline }), none)
    Job.record (.readSome c.number (← left deadline))
    match ← operate p.outcome deadline with
    | some e =>
      discard i { c with unread := p :: pieces }
      return (.error (readFailure e), none)
    | none =>
      let data := p.data.take capacity
      deal i (.received c.number data)
      match p.data.drop capacity, pieces with
      | b :: rest, pieces =>
        return (.ok data, some { c with unread := { data := b :: rest } :: pieces })
      | [], [] =>
        checkin i { c with unread := [] }
        return (.ok data, none)
      | [], next :: pieces =>
        if data.isEmpty then readPiece i c capacity deadline (next :: pieces)
        else return (.ok data, some { c with unread := next :: pieces })

end Parley.Session

namespace Parley.WireBody

/-- Reads up to `capacity` bytes; none means that the body is complete, or that an earlier read has
lost the connection. -/
def read (b : WireBody) (capacity : Nat) (deadline : Instant) :
    Job (Except Failure Bytes × WireBody) := do
  match b.connection with
  | none => return (.ok [], b)
  | some c =>
    let (result, connection) ← Session.readPiece b.session c capacity deadline c.unread
    return (result, { b with connection })

/-- Lets go of a body. One that was not read to its end takes its connection with it. -/
def dispose (b : WireBody) : Job Unit := do
  match b.connection with
  | none => return
  | some c => Session.discard b.session c

end Parley.WireBody
