import Parley.Source

/-!
Streams of decoded events. An unfinished stream holds a permit, a buffer and the body it reads; it
lets go of all three at once when it ends, fails or is abandoned, and then counts as one call that
succeeded or failed. Every event is read only when it is asked for.
-/
namespace Parley.EventStream

/-- The payload after which no event follows. -/
def doneMark : Bytes := ascii "[DONE]"

/-- What a payload is good for. -/
inductive Signal where
  | done
  | event (value : Json)

def signal? (payload : Bytes) : Option Signal :=
  if payload = doneMark then some .done else (Json.parse? payload).map .event

/-- How long the end of a body is waited for after the last event. -/
def drainWindow : Millis := 100

/-- How much is read at a time after the last event. -/
def drainSize : Nat := 512

/-- A new stream over a body. -/
def create (permit : Bool) (source : Source) (deadline startedAt : Instant) : Job EventStream := do
  let lease ← modifyGet fun w =>
    let (lease, buffers) := Lease.take w.client.buffers
    (lease, { w with client := { w.client with buffers } })
  Job.count fun u => { u with streamsOpened := u.streamsOpened + 1 }
  return .unfinished { permit, lease, source, deadline, startedAt }

/-- Lets go of everything: the body first, then the buffer, then the permit. -/
def finish (s : OpenStream) (succeeded : Bool) : Job Unit := do
  s.source.dispose
  modify fun w =>
    { w with client := { w.client with buffers := (s.lease.release w.client.buffers).2 } }
  if s.permit then
    Job.mark (.gaveBack s.source.number?)
    modify (·.mapSemaphore Semaphore.release)
  Job.count (if succeeded then Usage.addSuccess else Usage.addFailure)
  Job.note .closed

/-- Abandons a stream. What it delivered so far was a success. -/
def close : EventStream → Job Unit
  | .finished => return
  | .unfinished s => finish s true

/-- Ends a stream that failed. The failure tells how long the call took. -/
def fail (s : OpenStream) (f : Failure) : Job (Pulled × EventStream) := do
  finish s false
  let now := (← get).now
  let f := match f with
    | .client e =>
      .client { e with
        elapsed := toMillis (now.since s.startedAt)
        remaining := remainingUntil s.deadline now }
    | f => f
  return (.failed f, .finished)

/-- Reads on until the body ends, until `limit`, or until it fails, in at most `reads` reads. -/
def drain (deadline limit : Instant) : Nat → Source → Job (Except Failure Unit × Source)
  | 0, s => return (.ok (), s)
  | reads + 1, s => do
    if limit ≤ (← get).now then return (.ok (), s)
    Job.mark (.asked deadline)
    match ← s.read drainSize limit with
    | (.ok [], s) => return (.ok (), s)
    | (.ok _, s) => drain deadline limit reads s
    | (.error f, s) => return (.error f, s)

/-- Ends a stream whose last event was read. The end of the body is waited for a while, so that
its connection can serve again. -/
def complete (s : OpenStream) : Job (Pulled × EventStream) := do
  let limit := min s.deadline ((← get).now.plusMillis drainWindow)
  let (result, source) ← drain s.deadline limit (s.source.remaining + 1) s.source
  let s := { s with source }
  match result with
  | .error (.client e) => Job.notice (.notReusable e.message)
  | .error f => return ← fail s f
  | .ok () => pure ()
  finish s true
  return (.ended, .finished)

/-- Counts the payloads that were no events. -/
def refuse (payloads : List Bytes) : Job Unit := do
  Job.count fun u => { u with malformedFrames := u.malformedFrames + payloads.length }
  payloads.forM fun p => Job.notice (.malformedFrame p.length)

def deliver (value : Json) (rest : EventStream) : Job (Pulled × EventStream) := do
  Job.count fun u => { u with eventsDelivered := u.eventsDelivered + 1 }
  return (.event value, rest)

/-- What has been received and not yet dropped. -/
def lines (s : OpenStream) : LineBuffer := { bytes := s.lease.buffer.bytes, consumed := s.consumed }

def mapBuffer (s : OpenStream) (f : Buffer → Buffer) : OpenStream :=
  { s with lease := { s.lease with buffer := f s.lease.buffer } }

/-- Drops what has been searched. -/
def compact (s : OpenStream) : OpenStream :=
  { mapBuffer s fun b => { b with bytes := b.bytes.drop s.consumed } with consumed := 0 }

/-- Makes room for one read. -/
def makeRoom (s : OpenStream) : OpenStream :=
  mapBuffer s fun b => b.grow (b.size + Source.readSize)

/-- Takes in what was read. -/
def receive (s : OpenStream) (data : Bytes) : OpenStream :=
  mapBuffer s fun b => { b with bytes := b.bytes ++ data }

@[simp] theorem lines_compact (s : OpenStream) : lines (compact s) = (lines s).compact := rfl

@[simp] theorem lines_makeRoom (s : OpenStream) : lines (makeRoom s) = lines s := by
  simp only [lines, makeRoom, mapBuffer, Buffer.grow]
  split <;> rfl

@[simp] theorem lines_receive (s : OpenStream) (data : Bytes) :
    lines (receive s data) = (lines s).append data := rfl

/-- Ends a stream whose body has ended without a last event. What follows the last newline still
counts as a line. -/
def exhaust (s : OpenStream) : Job (Pulled × EventStream) := do
  let found := (lines s).flush signal?
  refuse found.refused
  match found.payload with
  | some (.event value) =>
    let answer ← deliver value .finished
    finish s true
    return answer
  | _ =>
    finish s true
    return (.ended, .finished)

/-- The next event, in at most `reads` reads. -/
def pull : Nat → OpenStream → Job (Pulled × EventStream)
  | 0, s => exhaust s
  | reads + 1, s => do
    let found := (lines s).next signal?
    let s := { s with consumed := found.consumed }
    refuse found.refused
    match found.payload with
    | some .done => complete s
    | some (.event value) => deliver value (.unfinished s)
    | none =>
      let s := compact s
      if s.deadline < (← get).now then
        fail s (.client { kind := .streamTimeout, reason := .streamDeadline })
      else
        let s := makeRoom s
        Job.mark (.asked s.deadline)
        let (result, source) ← s.source.read Source.readSize s.deadline
        let s := { s with source }
        match result with
        | .error f => fail s f
        | .ok [] => exhaust s
        | .ok data => pull reads (receive s data)

/-- The next event. Every read before the last takes a byte at least. -/
def next : EventStream → Job (Pulled × EventStream)
  | .finished => return (.ended, .finished)
  | .unfinished s => pull (s.source.remaining + 1) s

end Parley.EventStream
