import Parley.Error

/-!
A counting semaphore that remembers the most permits it ever had out.
-/
namespace Parley

structure Semaphore where
  capacity : Nat
  inUse : Nat := 0
  peak : Nat := 0
  deriving DecidableEq, Repr

namespace Semaphore

/-- A semaphore that could never give out a permit is refused. -/
def create (permits : Nat) : Except Failure Semaphore :=
  if permits = 0 then .error (.invalidArgument (ascii "Semaphore needs at least one permit"))
  else .ok { capacity := permits }

def hasRoom (s : Semaphore) : Bool := s.inUse < s.capacity

/-- One more permit is out. -/
def take (s : Semaphore) : Semaphore :=
  { s with inUse := s.inUse + 1, peak := max s.peak (s.inUse + 1) }

/-- A permit comes back; one more than went out is ignored. -/
def release (s : Semaphore) : Semaphore := { s with inUse := s.inUse - 1 }

end Semaphore

end Parley
