import Parley.Config
import Parley.Wire

/-!
The connections of a session to one backend. A connection is idle, or somebody holds it; each of
them, those that are being opened included, takes one of the session's slots. An idle connection is
handed out again, the one returned last before the others, unless it has been idle for too long.

There is no buffer between a connection and whoever reads from it: a response is read part by part,
and what has been received of it without having been asked for is not told apart from what has yet
to arrive. So a connection with an empty buffer is one with nothing unread, and there is nothing to
be dropped from a connection when it comes back.
-/
namespace Parley

/-- A connection to the backend. -/
structure Connection where
  number : Nat
  lastUsed : Instant
  /-- Whether it was idle before it was handed out. -/
  reused : Bool := false
  /-- What has yet to be read of the response, whether or not it has arrived. -/
  unread : List Piece := []
  /-- Whether the response leaves the connection open. -/
  persistent : Bool := false

/-- What a session does: with its slots and connections, with a connection that was handed out, and
with the address of the backend. -/
inductive Dealing where
  /-- Idle connections ended, because they were idle for too long. -/
  | expired (connections : List Connection)
  /-- Somebody who needs a connection found every slot taken. -/
  | crowded
  /-- An idle connection was handed out. -/
  | lent (c : Connection)
  /-- A slot was taken for a connection that is to be opened. -/
  | opening
  /-- The connection came to be, and was handed out. -/
  | opened (number : Nat)
  /-- The connection did not come to be, and its slot is free again. -/
  | abandoned
  /-- The head of a response came over a connection. -/
  | answered (number : Nat) (exchange : Exchange)
  /-- A part of a response body came over a connection. -/
  | received (number : Nat) (data : Bytes)
  /-- A connection came back and is idle now. -/
  | returned (c : Connection)
  /-- A connection ended, and its slot is free again. -/
  | discarded (number : Nat)
  /-- The session was closed, and its idle connections ended. -/
  | shut (connections : List Connection)
  /-- The address was resolved, and may be used for some time. -/
  | resolved

structure Session where
  host : Bytes
  port : Bytes
  hostHeader : Bytes
  maxConnections : Nat
  keepAlive : Millis
  connectTimeout : Millis
  dnsCacheTtl : Int
  /-- The connection returned last comes first. -/
  idle : List Connection := []
  /-- The slots that are taken. -/
  opened : Nat := 0
  /-- The connections that came to be, by number. -/
  created : List Nat := []
  closed : Bool := false
  /-- Until when the resolved address may be used. -/
  resolvedUntil : Option Instant := none

namespace Session

def ofConfig (c : Config) : Except Failure Session :=
  match Url.parse c.baseUrl with
  | .error fault => .error (.invalidArgument (fault.message c.baseUrl))
  | .ok url =>
    if url.scheme = ascii "https" then
      .error (.foreign (ascii ("HTTPS endpoint requested but SSL support was not compiled in. " ++
        "Rebuild with OpenSSL to enable HTTPS.")))
    else
      .ok {
        host := url.host
        port := url.port
        hostHeader := url.hostHeader
        maxConnections := c.maxConcurrent
        keepAlive := c.keepAlive
        connectTimeout := c.connectTimeout
        dnsCacheTtl := c.dnsCacheTtl }

/-- What stands for a session that was never made. -/
def absent : Session where
  host := []
  port := []
  hostHeader := []
  maxConnections := 0
  keepAlive := 0
  connectTimeout := 0
  dnsCacheTtl := 0
  closed := true

/-- Whether a connection has been idle for too long. -/
def expired (s : Session) (now : Instant) (c : Connection) : Bool :=
  Millis.nanos s.keepAlive ≤ Instant.since now c.lastUsed

/-- What somebody who needs a connection is answered. -/
inductive Claim where
  | closed
  | idle (c : Connection)
  /-- There is no idle one, but a slot for a new one. -/
  | slot
  | full

/-- The answer is an idle connection, or else a slot. Nothing of an earlier exchange goes with a
connection that was idle. -/
def claim (s : Session) : Claim :=
  if s.closed then .closed
  else
    match s.idle with
    | c :: _ => .idle { c with reused := true, persistent := false }
    | [] => if s.opened < s.maxConnections then .slot else .full

/-- What a session does to give an answer. -/
def Claim.dealing? : Claim → Option Dealing
  | .idle c => some (.lent c)
  | .slot => some .opening
  | .full => some .crowded
  | .closed => none

/-- Whether a claim would be answered with something else than that the session is full. -/
def hasRoom (s : Session) : Bool :=
  s.closed || !s.idle.isEmpty || s.opened < s.maxConnections

/-- Whether a connection that comes back is kept. -/
def keeps (s : Session) (c : Connection) : Bool :=
  !s.closed && c.persistent && s.idle.length < s.maxConnections

/-- The slot of a connection that is gone, or that never came to be, is free again. -/
def releaseSlot (s : Session) : Session := { s with opened := s.opened - 1 }

/-- What a dealing makes of a session. -/
def after (s : Session) (now : Instant) : Dealing → Session
  | .expired old =>
    { s with idle := s.idle.filter (!s.expired now ·), opened := s.opened - old.length }
  | .lent _ => { s with idle := s.idle.tail }
  | .opening => { s with opened := s.opened + 1 }
  | .opened number => { s with created := number :: s.created }
  | .abandoned | .discarded _ => s.releaseSlot
  | .crowded | .answered .. | .received .. => s
  | .returned c => { s with idle := { c with lastUsed := now } :: s.idle }
  | .shut idle => { s with closed := true, idle := [], opened := s.opened - idle.length }
  | .resolved => { s with resolvedUntil := some (now.plus (wrap64 (s.dnsCacheTtl * 1000000000))) }

end Session

end Parley
