import Parley.Error
import Parley.Http

/-!
Answers written down in advance, for a transport that has no wire below it.
-/
namespace Parley

/-- A part of a streamed body: it arrives after a delay, or fails every time it is asked for. -/
structure Chunk where
  data : Bytes := []
  delay : Nanos := 0
  failure : Option Failure := none

/-- The answer to one request. -/
structure Reply where
  status : Nat := 200
  headers : Headers := []
  body : Bytes := []
  /-- The body of a streamed answer, where it differs from `body`. -/
  chunks : Option (List Chunk) := none
  delay : Nanos := 0
  failure : Option Failure := none

namespace Reply

/-- The answer to a request that nothing was written down for. -/
def plain : Reply := { body := ascii "\x7b\"id\":\"default\"\x7d" }

def stream (r : Reply) : List Chunk := r.chunks.getD [{ data := r.body }]

end Reply

/-- What comes of asking for a new transport. -/
inductive Making where
  | transport
  | nothing
  | failure (message : Bytes)

end Parley
