import Parley.Bytes

/-!
Server-sent events, as far as chat completions use them: the payload of an event is what follows
`data: ` on its line, and every other line is skipped. A line ends with a newline, before which a
carriage return is dropped.

The bytes arrive in pieces, so a line is looked at only once its newline is there; the last line of
a body, which may lack one, is looked at when the body has ended.
-/
namespace Parley

namespace EventLines

def newline : UInt8 := 0x0A

def carriageReturn : UInt8 := 0x0D

def dataMark : Bytes := ascii "data: "

/-- A line without the carriage return it ends in. -/
def stripReturn (line : Bytes) : Bytes :=
  if line.getLast? = some carriageReturn then line.dropLast else line

/-- The payload of a line, if it carries one. -/
def payload? (line : Bytes) : Option Bytes := Bytes.after? dataMark (stripReturn line)

/-- What a search for a payload came to. -/
structure Found (α : Type) where
  /-- What the payload was taken for. -/
  payload : Option α
  /-- The payloads passed over before it, in order. -/
  refused : List Bytes
  /-- How many bytes of the buffer have been looked at. -/
  consumed : Nat

variable {α : Type}

/-- Searches complete lines for the first payload that `accept` can use. Of the line that is being
read, the bytes already seen are in `line`, and the payloads passed over are in `refused`, both
with the last one first. -/
def search (accept : Bytes → Option α) : Nat → List Bytes → Bytes → Bytes → Found α
  | consumed, refused, _, [] => ⟨none, refused.reverse, consumed⟩
  | consumed, refused, line, b :: rest =>
    if b = newline then
      let consumed := consumed + line.length + 1
      match payload? line.reverse with
      | none => search accept consumed refused [] rest
      | some payload =>
        match accept payload with
        | some a => ⟨some a, refused.reverse, consumed⟩
        | none => search accept consumed (payload :: refused) [] rest
    else search accept consumed refused (b :: line) rest

end EventLines

/-- Received bytes, of which the first `consumed` have been looked at. -/
structure LineBuffer where
  bytes : Bytes := []
  consumed : Nat := 0

namespace LineBuffer

open EventLines

variable {α : Type}

/-- The first payload of a complete line that `accept` can use. -/
def next (accept : Bytes → Option α) (b : LineBuffer) : Found α :=
  search accept b.consumed [] [] (b.bytes.drop b.consumed)

/-- As `next`, with the bytes after the last newline taken for a line. -/
def flush (accept : Bytes → Option α) (b : LineBuffer) : Found α :=
  let found := b.next accept
  if found.payload.isSome || b.bytes.length ≤ found.consumed then found
  else
    match payload? (b.bytes.drop found.consumed) with
    | none => { found with consumed := b.bytes.length }
    | some payload =>
      match accept payload with
      | some a => { found with payload := some a, consumed := b.bytes.length }
      | none =>
        { found with refused := found.refused ++ [payload], consumed := b.bytes.length }

/-- Drops the bytes that have been looked at. -/
def compact (b : LineBuffer) : LineBuffer := { bytes := b.bytes.drop b.consumed }

def append (b : LineBuffer) (data : Bytes) : LineBuffer := { b with bytes := b.bytes ++ data }

/-- What can be done with a line buffer. -/
inductive Act where
  | append (data : Bytes)
  | compact
  /-- Takes the next payload. -/
  | next
  | flush
  /-- Takes payloads as long as there are any. -/
  | drain
  | drainFlush

/-- Does one thing and gives the payloads taken. -/
def step (b : LineBuffer) : Act → List Bytes × LineBuffer
  | .append data => ([], b.append data)
  | .compact => ([], b.compact)
  | .next =>
    let found := b.next some
    (found.payload.toList, { b with consumed := found.consumed })
  | .flush =>
    let found := b.flush some
    (found.payload.toList, { b with consumed := found.consumed })
  | .drain =>
    let found := b.next fun _ => (none : Option Unit)
    (found.refused, { b with consumed := found.consumed })
  | .drainFlush =>
    let found := b.flush fun _ => (none : Option Unit)
    (found.refused, { b with consumed := found.consumed })

end LineBuffer

end Parley
