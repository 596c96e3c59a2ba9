import Parley.World

/-!
Getting a connection for an exchange, and giving it back. Opening one resolves the backend's
address, unless that was done not long ago, and connects to it; both together have to fit into the
connect timeout and into the time that the exchange has.
-/
namespace Parley.Session

def current (i : Nat) : Job Session := return find (← get) i

def deal (i : Nat) (dealing : Dealing) : Job Unit := modify (·.deal i dealing)

/-- Idle connections end, the one returned first before the others. -/
def dropIdle (connections : List Connection) : Job Unit :=
  connections.reverse.forM fun c => Job.record (.close c.number)

/-- Gets rid of a connection that cannot be used again. -/
def discard (i : Nat) (c : Connection) : Job Unit := do
  Job.record (.shutdown c.number)
  Job.record (.close c.number)
  deal i (.discarded c.number)

/-- Takes back a connection whose response was read to its end, so that nothing of it is unread. -/
def checkin (i : Nat) (c : Connection) : Job Unit := do
  if (← current i).keeps c then deal i (.returned c) else discard i c

/-- Closes a session; connections in use may finish what they do. -/
def close (i : Nat) : Job Unit := do
  let idle := (← current i).idle
  deal i (.shut idle)
  if !idle.isEmpty then Job.notice (.closedIdle idle.length)
  dropIdle idle

/-- Drops the idle connections that have expired. -/
def dropExpired (i : Nat) : Job Unit := do
  let s ← current i
  let old := s.idle.filter (s.expired (← get).now)
  if !old.isEmpty then
    deal i (.expired old)
    dropIdle old

/-- Asks for a connection, after those that have expired are dropped. -/
def request (i : Nat) : Job Claim := do
  if (← current i).closed then return .closed
  dropExpired i
  let claim := (← current i).claim
  if let some dealing := claim.dealing? then deal i dealing
  return claim

/-- Lets an operation on a connection take its time. It fails when it would go beyond its expiry,
at once if that is past. -/
def operate (outcome : WireOutcome) (expiry : Instant) : Job (Option WireError) := do
  if expiry < (← get).now + outcome.delay then
    Job.waitUntil expiry
    return some .timeout
  else
    Job.wait outcome.delay
    return outcome.error

/-- The time left until a deadline. -/
def left (deadline : Instant) : Job Nanos := return Instant.since deadline (← get).now

def connectionFailed {α : Type} (reason : Reason) : Flow α :=
  throw (.client { kind := .connectionFailed, reason })

def takeResolve : Job WireOutcome := modifyGet fun w =>
  match w.script.resolves with
  | o :: resolves => (o, { w with script := { w.script with resolves } })
  | [] => ({}, w)

def takeConnect : Job WireOutcome := modifyGet fun w =>
  match w.script.connects with
  | o :: connects => (o, { w with script := { w.script with connects } })
  | [] => ({}, w)

/-- Whether the address that was resolved last may still be used. -/
def isResolved (s : Session) (now : Instant) : Bool := s.resolvedUntil.any (now < ·)

/-- Makes sure that the address of the backend is known. -/
def resolve (i : Nat) (limit : Instant) : Flow Unit := do
  let s ← current i
  if s.isResolved (← get).now then return
  Job.record (.resolve (s.host ++ byte ':' :: s.port))
  let outcome ← takeResolve
  if limit < (← get).now + outcome.delay then
    Job.waitUntil limit
    Job.record .cancelResolve
    connectionFailed (.resolveTimedOut s.host)
  else
    Job.wait outcome.delay
    match outcome.error with
    | some e => connectionFailed (.resolveFailed s.host e.name)
    | none => deal i .resolved

/-- Opens a connection in a slot that was taken for it. -/
def connect (i : Nat) (deadline : Instant) : Flow Connection := do
  let s ← current i
  let begun := (← get).now
  let limit := min deadline (begun.plusMillis s.connectTimeout)
  resolve i limit
  let number := (← get).connections + 1
  modify fun w => { w with connections := number }
  Job.record (.connect number (← left limit))
  match ← operate (← takeConnect) limit with
  | some e =>
    Job.record (.close number)
    throw (e.failure (ascii "connect to " ++ s.hostHeader))
  | none =>
    deal i (.opened number)
    Job.notice (.connected s.hostHeader)
    return { number, lastUsed := begun }

/-- What a claim brings. A slot in which no connection comes to be is given back. -/
def settle (i : Nat) (deadline : Instant) : Claim → Flow Connection
  | .closed => connectionFailed .sessionClosed
  | .idle c => return c
  | .slot => (connect i deadline).onFailure (deal i .abandoned)
  | .full => connectionFailed .poolExhausted

/-- A connection for one exchange: an idle one, a new one, or one that is returned in time. -/
def checkout (i : Nat) (deadline : Instant) : Flow Connection := do
  match ← request i with
  | .full =>
    if ← Job.await deadline (fun w => (find w i).hasRoom) then
      settle i deadline (← request i)
    else connectionFailed .poolExhausted
  | claim => settle i deadline claim

end Parley.Session
