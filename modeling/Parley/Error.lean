import Parley.Json.Basic
import Parley.Time

/-!
How a call fails. A `ClientError` says which class of failure it was, why, and what a caller needs
to decide whether to try again; the other failures are mistakes of the caller or of what it
plugged in. The message of a failure ends before its first zero byte, and so does every quotation
of it.
-/
namespace Parley

inductive ErrorKind where
  | deadlineExceeded
  | canceled
  | rateLimited
  | server5xx
  | badRequest
  | connectionFailed
  | streamTimeout
  | maxRetriesExceeded
  | unexpected
  /-- A class that has no name here. -/
  | unknown
  deriving DecidableEq, Repr, Inhabited

namespace ErrorKind

def name : ErrorKind → Bytes
  | .deadlineExceeded => ascii "DeadlineExceeded"
  | .canceled => ascii "Canceled"
  | .rateLimited => ascii "RateLimited"
  | .server5xx => ascii "Server5xx"
  | .badRequest => ascii "BadRequest"
  | .connectionFailed => ascii "ConnectionFailed"
  | .streamTimeout => ascii "StreamTimeout"
  | .maxRetriesExceeded => ascii "MaxRetriesExceeded"
  | .unexpected => ascii "Unexpected"
  | .unknown => ascii "Unknown"

/-- Whether a later attempt of the same call may succeed. -/
def isRetriable : ErrorKind → Bool
  | .rateLimited | .server5xx | .connectionFailed => true
  | _ => false

/-- The class of a response whose status is not a success. -/
def ofStatus (status : Nat) : ErrorKind :=
  if status = 429 then .rateLimited
  else if 500 ≤ status then .server5xx
  else if 400 ≤ status then .badRequest
  else .unexpected

end ErrorKind

/-- Why a call failed. -/
inductive Reason where
  /-- In the words of whoever reported it. -/
  | reported (text : Bytes)
  | shutDown
  | noPermit
  | lateStart
  | budgetExhausted (attempt : Nat)
  | status (code : Nat) (detail : Option Bytes)
  | waitTooLong (wait : Millis) (last : Bytes)
  | shutDownWhileWaiting
  | gaveUp (attempts : Nat) (last : Option Bytes)
  | unreadableResponse
  | noTransport (why : Bytes)
  | missingTransport
  | streamDeadline
  | sessionClosed
  | poolExhausted
  | resolveTimedOut (host : Bytes)
  | resolveFailed (host code : Bytes)
  | timedOut (step : Bytes)
  | failed (step code : Bytes)
  | readDeadline
  | readTimedOut
  deriving DecidableEq, Repr

def Reason.text : Reason → Bytes
  | .reported text => text
  | .shutDown => ascii "client is shut down"
  | .noPermit => ascii "deadline passed while waiting for a concurrency permit"
  | .lateStart => ascii "deadline passed before the first attempt"
  | .budgetExhausted attempt => ascii "budget exhausted before attempt " ++ Bytes.ofNat attempt
  | .status code none => ascii "HTTP " ++ Bytes.ofNat code
  | .status code (some detail) => ascii "HTTP " ++ Bytes.ofNat code ++ ascii ": " ++ detail
  | .waitTooLong wait last =>
    ascii "waiting " ++ Bytes.ofInt wait ++ ascii " ms would exceed the deadline (last error: " ++
      last ++ ascii ")"
  | .shutDownWhileWaiting => ascii "client shut down during retry wait"
  | .gaveUp attempts none => ascii "gave up after " ++ Bytes.ofNat attempts ++ ascii " attempt(s)"
  | .gaveUp attempts (some last) =>
    ascii "gave up after " ++ Bytes.ofNat attempts ++ ascii " attempt(s); last error: " ++ last
  | .unreadableResponse => ascii "Failed to parse JSON response: no JSON text"
  | .noTransport why => ascii "cannot create transport: " ++ why
  | .missingTransport => ascii "transport factory returned null"
  | .streamDeadline => ascii "deadline reached while streaming"
  | .sessionClosed => ascii "session closed"
  | .poolExhausted => ascii "timed out waiting for a pooled connection"
  | .resolveTimedOut host => ascii "DNS resolution of " ++ host ++ ascii " timed out"
  | .resolveFailed host code => ascii "DNS resolution of " ++ host ++ ascii " failed: " ++ code
  | .timedOut step => step ++ ascii " timed out"
  | .failed step code => step ++ ascii " failed: " ++ code
  | .readDeadline => ascii "deadline reached while reading stream"
  | .readTimedOut => ascii "stream read timed out"

/-- A failed call, with the time it took, the time it had left and what the server asked for. -/
structure ClientError where
  kind : ErrorKind
  reason : Reason
  elapsed : Millis := 0
  remaining : Millis := 0
  retryAfter : Millis := 0
  httpStatus : Nat := 0
  /-- The class of the last attempt's error, where the call ended because of it. -/
  lastKind : ErrorKind := .unexpected
  deriving DecidableEq, Repr

namespace ClientError

def message (e : ClientError) : Bytes :=
  Bytes.beforeZero (e.kind.name ++ ascii ": " ++ e.reason.text)

def isRetriable (e : ClientError) : Bool := e.kind.isRetriable

end ClientError

inductive Failure where
  | client (e : ClientError)
  /-- An argument that no call can be made with. -/
  | invalidArgument (message : Bytes)
  /-- A failure of something plugged in, in its own words. -/
  | foreign (message : Bytes)
  | json (fault : Json.Fault)
  deriving DecidableEq, Repr

namespace Failure

def message : Failure → Bytes
  | .client e => e.message
  | .invalidArgument message => message.beforeZero
  | .foreign message => message.beforeZero
  | .json .malformed => ascii "no JSON text"
  | .json .outOfRange => ascii "JSON number or member out of range"
  | .json .wrongType => ascii "JSON value of the wrong kind"

end Failure

end Parley
