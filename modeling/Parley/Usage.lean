/-!
What a client counts.
-/
namespace Parley

structure Usage where
  totalCalls : Nat := 0
  successfulCalls : Nat := 0
  failedCalls : Nat := 0
  totalAttempts : Nat := 0
  totalRetries : Nat := 0
  rateLimited : Nat := 0
  streamsOpened : Nat := 0
  eventsDelivered : Nat := 0
  malformedFrames : Nat := 0
  deriving DecidableEq, Repr

namespace Usage

def addCall (u : Usage) : Usage := { u with totalCalls := u.totalCalls + 1 }

def addSuccess (u : Usage) : Usage := { u with successfulCalls := u.successfulCalls + 1 }

def addFailure (u : Usage) : Usage := { u with failedCalls := u.failedCalls + 1 }

/-- Attempts of a call are numbered from one, and all but the first one are retries. -/
def addAttempt (number : Nat) (u : Usage) : Usage :=
  { u with
    totalAttempts := u.totalAttempts + 1
    totalRetries := if 1 < number then u.totalRetries + 1 else u.totalRetries }

end Usage

end Parley
