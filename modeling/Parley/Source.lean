import Parley.Session.Exchange

/-!
Reading streamed bodies, whether they were written down in advance or arrive over a connection.
-/
namespace Parley

namespace ScriptedBody

/-- Reads up to `capacity` bytes of the first chunk that has any. A chunk whose delay would go
beyond the deadline keeps it, and one that fails does so whenever it is read. -/
def readChunk (capacity : Nat) (deadline : Instant) :
    List Chunk → Job (Except Failure Bytes × List Chunk)
  | [] => return (.ok [], [])
  | c :: chunks => do
    if 0 < c.delay then
      if deadline < (← get).now + c.delay then
        Job.waitUntil deadline
        return (.error (.client { kind := .streamTimeout, reason := .readTimedOut }), c :: chunks)
      Job.wait c.delay
    let c := { c with delay := 0 }
    match c.failure, c.data with
    | some f, _ => return (.error f, c :: chunks)
    | none, [] => readChunk capacity deadline chunks
    | none, data =>
      return (.ok (data.take capacity), { c with data := data.drop capacity } :: chunks)

def read (b : ScriptedBody) (capacity : Nat) (deadline : Instant) :
    Job (Except Failure Bytes × ScriptedBody) := do
  let (result, chunks) ← readChunk capacity deadline b.chunks
  return (result, { b with chunks })

end ScriptedBody

namespace Source

def status : Source → Nat
  | .scripted b => b.status
  | .wire b => b.status

def headers : Source → Headers
  | .scripted b => b.headers
  | .wire b => b.headers

def header (s : Source) (name : Bytes) : Bytes := s.headers.lookup name

/-- The number of a body that was written down in advance. -/
def number? : Source → Option Nat
  | .scripted b => some b.number
  | .wire _ => none

/-- How many bytes have yet to be read. -/
def remaining : Source → Nat
  | .scripted b => b.chunks.foldr (fun c n => c.data.length + n) 0
  | .wire b =>
    match b.connection with
    | some c => c.unread.foldr (fun p n => p.data.length + n) 0
    | none => 0

/-- A scripted body nobody else holds. -/
def script (status : Nat) (headers : Headers) (chunks : List Chunk) : Job Source :=
  modifyGet fun w =>
    let number := w.bodies + 1
    (.scripted { number, status, headers, chunks },
      { w with bodies := number, live := w.live ++ [number] })

/-- Reads up to `capacity` bytes; none means the end of the body. -/
def read (s : Source) (capacity : Nat) (deadline : Instant) :
    Job (Except Failure Bytes × Source) := do
  match s with
  | .scripted b =>
    let (result, b) ← b.read capacity deadline
    return (result, .scripted b)
  | .wire b =>
    let (result, b) ← b.read capacity deadline
    return (result, .wire b)

def dispose : Source → Job Unit
  | .scripted b => do
    modify fun w => { w with live := w.live.erase b.number }
    Job.mark (.freed b.number)
  | .wire b => b.dispose

/-- How much is read at a time. -/
def readSize : Nat := 4096

/-- Appends what is left of a body, in at most `reads` reads. -/
def readRest (deadline : Instant) : Nat → Bytes → Source → Job (Except Failure Bytes × Source)
  | 0, body, s => return (.ok body, s)
  | reads + 1, body, s => do
    match ← s.read readSize deadline with
    | (.ok [], s) => return (.ok body, s)
    | (.ok data, s) => readRest deadline reads (body ++ data) s
    | (.error f, s) => return (.error f, s)

/-- Reads a body to its end. Every read before the last takes a byte at least. -/
def readAll (s : Source) (deadline : Instant) : Job (Except Failure Bytes × Source) :=
  readRest deadline (s.remaining + 1) [] s

end Source

end Parley
