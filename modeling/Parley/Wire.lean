import Parley.Error
import Parley.Http

/-!
The wire below a session: operations on connections that take time and may fail. What the other end
does is written down in advance, one entry per operation; when the entries are used up, every
operation succeeds at once.
-/
namespace Parley

/-- How an operation on a connection fails. -/
inductive WireError where
  | timeout
  | endOfStream
  | eof
  | connectionReset
  | connectionAborted
  | brokenPipe
  | other (name : Bytes)
  deriving DecidableEq, Repr

namespace WireError

def name : WireError → Bytes
  | .timeout => ascii "timeout"
  | .endOfStream => ascii "end_of_stream"
  | .eof => ascii "eof"
  | .connectionReset => ascii "connection_reset"
  | .connectionAborted => ascii "connection_aborted"
  | .brokenPipe => ascii "broken_pipe"
  | .other name => name

def ofName (name : Bytes) : WireError :=
  ([.timeout, .endOfStream, .eof, .connectionReset, .connectionAborted, .brokenPipe].find?
    fun (e : WireError) => e.name = name).getD (.other name)

/-- What a connection that was kept open fails with if the server has closed it meanwhile. -/
def isStale : WireError → Bool
  | .endOfStream | .eof | .connectionReset | .connectionAborted | .brokenPipe => true
  | .timeout | .other _ => false

/-- The failure of a call whose step `step` ended in this way. -/
def failure (step : Bytes) (e : WireError) : Failure :=
  .client {
    kind := .connectionFailed
    reason := if e = .timeout then .timedOut step else .failed step e.name }

end WireError

/-- How long an operation takes, and how it ends. -/
structure WireOutcome where
  delay : Nanos := 0
  error : Option WireError := none

/-- A part of a response body as it arrives. -/
structure Piece where
  data : Bytes
  outcome : WireOutcome := {}

/-- What becomes of one request. -/
structure Exchange where
  write : WireOutcome := {}
  head : WireOutcome := {}
  status : Nat := 200
  fields : List (Bytes × Bytes) := []
  keepAlive : Bool := true
  body : List Piece := []

namespace Exchange

/-- What becomes of a request that nothing was written down for. -/
def plain : Exchange := { body := [{ data := ascii "\x7b\"id\":\"default\"\x7d" }] }

end Exchange

/-- The head of a response. -/
structure Head where
  status : Nat
  headers : Headers

/-- A request as it is written: the header names are in lower case. -/
structure WireRequest where
  method : Bytes
  target : Bytes
  body : Bytes
  headers : Headers

namespace WireRequest

def knownMethods : List Bytes :=
  ["DELETE", "GET", "HEAD", "POST", "PUT", "CONNECT", "OPTIONS", "TRACE", "COPY", "LOCK", "MKCOL",
    "MOVE", "PROPFIND", "PROPPATCH", "SEARCH", "UNLOCK", "BIND", "REBIND", "UNBIND", "ACL",
    "REPORT", "MKACTIVITY", "CHECKOUT", "MERGE", "M-SEARCH", "NOTIFY", "SUBSCRIBE", "UNSUBSCRIBE",
    "PATCH", "PURGE", "MKCALENDAR", "LINK", "UNLINK"].map ascii

def userAgent : Bytes := ascii "llm_client/1.0"

/-- The request for a host. A header that the caller gives replaces one set here. -/
def ofRequest (host : Bytes) (r : Request) : Except Failure WireRequest :=
  if r.method ∈ knownMethods then
    .ok {
      method := r.method
      target := if r.target = [] then [byte '/'] else r.target
      body := r.body
      headers := Headers.collect
        ((ascii "Host", host) :: (ascii "User-Agent", userAgent) :: r.headers) }
  else .error (.invalidArgument (ascii "Unsupported HTTP method: " ++ r.method))

end WireRequest

/-- What happens on the wire. An operation shows how much time it had when it began. -/
inductive WireEvent where
  | resolve (name : Bytes)
  | cancelResolve
  | connect (connection : Nat) (left : Nanos)
  | write (connection : Nat) (left : Nanos) (request : WireRequest)
  | readHeader (connection : Nat) (left : Nanos)
  | readBody (connection : Nat) (left : Nanos)
  | readSome (connection : Nat) (left : Nanos)
  | shutdown (connection : Nat)
  | close (connection : Nat)

end Parley
