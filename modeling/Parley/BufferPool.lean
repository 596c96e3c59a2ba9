import Parley.Table

/-!
Reusable byte buffers. A buffer that is handed back keeps its storage, so the pool prefers it to a
new one; a buffer that has grown too large is dropped. A lease hands its buffer back by itself, and
only once.
-/
namespace Parley

/-- A growing byte buffer. The pool that made it gave it a number; one made elsewhere has none. -/
structure Buffer where
  bytes : Bytes := []
  capacity : Nat := 0
  number : Option Nat := none
  deriving DecidableEq, Repr

namespace Buffer

def size (b : Buffer) : Nat := b.bytes.length

/-- Enough capacity for `n` bytes, and no more, unless there already is more. -/
def reserve (b : Buffer) (n : Nat) : Buffer := { b with capacity := max b.capacity n }

/-- Room for `n` bytes in all: the size at least doubles whenever the capacity is exceeded. -/
def grow (b : Buffer) (n : Nat) : Buffer :=
  if n ≤ b.capacity then b else { b with capacity := b.size + max b.size (n - b.size) }

/-- Exactly `n` bytes, with zeros for those that are new. -/
def resize (b : Buffer) (n : Nat) : Buffer :=
  { b.grow n with bytes := b.bytes.take n ++ List.replicate (n - b.size) 0 }

def clear (b : Buffer) : Buffer := { b with bytes := [] }

end Buffer

/-- An entry of the book of a pool: a buffer as it went out, or as it came back. -/
inductive Passage where
  | out (b : Buffer)
  | back (b : Buffer)
  deriving DecidableEq, Repr

structure BufferPool where
  maxPooled : Nat := 10
  defaultCapacity : Nat := 8192
  capacityCeiling : Nat := 65536
  /-- The buffers handed back, the latest first. -/
  free : List Buffer := []
  /-- How many buffers the pool has made. -/
  made : Nat := 0
  /-- How many buffers went out, and how many came back. -/
  acquired : Nat := 0
  returned : Nat := 0
  /-- What went out and what came back, the latest first. -/
  book : List Passage := []

namespace BufferPool

def pooled (p : BufferPool) : Nat := p.free.length

/-- A buffer goes out. -/
def handOut (p : BufferPool) (b : Buffer) : Buffer × BufferPool :=
  (b, { p with acquired := p.acquired + 1, book := .out b :: p.book })

/-- The buffer handed back last, or else a new one. -/
def acquire (p : BufferPool) : Buffer × BufferPool :=
  match p.free with
  | b :: free => handOut { p with free } b.clear
  | [] =>
    handOut { p with made := p.made + 1 }
      (({ number := some (p.made + 1) } : Buffer).reserve p.defaultCapacity)

/-- Keeps a buffer for later, unless it has grown beyond the ceiling or the pool is full. -/
def release (p : BufferPool) (b : Buffer) : BufferPool :=
  let p := { p with returned := p.returned + 1, book := .back b :: p.book }
  if p.capacityCeiling < b.capacity then p
  else if p.pooled < p.maxPooled then { p with free := b.clear :: p.free }
  else p

end BufferPool

/-- A buffer on loan from a pool, as long as the lease is active. -/
structure Lease where
  active : Bool := false
  buffer : Buffer := {}
  deriving DecidableEq, Repr

namespace Lease

def take (p : BufferPool) : Lease × BufferPool :=
  let (buffer, p) := p.acquire
  ({ active := true, buffer }, p)

/-- Hands the buffer back. A lease that is not active keeps what it has. -/
def release (l : Lease) (p : BufferPool) : Lease × BufferPool :=
  if l.active then ({}, p.release l.buffer) else (l, p)

/-- What is left of a lease whose buffer went to another one. -/
def movedFrom (_ : Lease) : Lease := {}

end Lease

/-- A pool in use: the plain buffers and the leases taken from it, by name. -/
structure BufferDesk where
  pool : BufferPool
  plain : Table Buffer := []
  leases : Table Lease := []

namespace BufferDesk

inductive Act where
  | acquire
  | release
  | lease
  | leaseRelease
  | leaseDrop
  | leaseMove (dest : Bytes)
  | resize (n : Nat)
  | reserve (n : Nat)

/-- Gives a lease a name. The lease that had the name hands its buffer back. -/
def assign (d : BufferDesk) (name : Bytes) (l : Lease) : BufferDesk :=
  match d.leases.get? name with
  | some old => { d with pool := (old.release d.pool).2, leases := d.leases.insert name l }
  | none => { d with leases := d.leases.insert name l }

/-- Changes the buffer of a name, be it plain or on lease. -/
def update (d : BufferDesk) (name : Bytes) (f : Buffer → Buffer) : BufferDesk :=
  match d.plain.get? name, d.leases.get? name with
  | some b, _ => { d with plain := d.plain.insert name (f b) }
  | none, some l => { d with leases := d.leases.insert name { l with buffer := f l.buffer } }
  | none, none => d

def step (d : BufferDesk) (name : Bytes) : Act → BufferDesk
  | .acquire =>
    let (b, pool) := d.pool.acquire
    { d with pool, plain := d.plain.insert name b }
  | .release =>
    match d.plain.get? name with
    | some b => { d with pool := d.pool.release b, plain := d.plain.erase name }
    | none => d
  | .lease =>
    let (l, pool) := Lease.take d.pool
    { d with pool }.assign name l
  | .leaseRelease =>
    match d.leases.get? name with
    | some l =>
      let (l, pool) := l.release d.pool
      { d with pool, leases := d.leases.insert name l }
    | none => d
  | .leaseDrop =>
    match d.leases.get? name with
    | some l => { d with pool := (l.release d.pool).2, leases := d.leases.erase name }
    | none => d
  | .leaseMove dest =>
    match d.leases.get? name with
    | some l =>
      if name = dest then d
      else { d with leases := d.leases.insert name l.movedFrom }.assign dest l
    | none => d
  | .resize n => d.update name (·.resize n)
  | .reserve n => d.update name (·.reserve n)

/-- Ends all leases, in the order of their names. -/
def dropLeases (d : BufferDesk) : BufferDesk :=
  { d with pool := d.leases.foldl (fun p (_, l) => (l.release p).2) d.pool, leases := [] }

end BufferDesk

end Parley
