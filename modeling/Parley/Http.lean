import Parley.Table

/-!
HTTP requests and responses as their two ends see them. Header names are compared without case:
the names a response is filed under are in lower case, and so is the name looked up.
-/
namespace Parley

abbrev Headers := Table Bytes

namespace Headers

/-- Files the fields of a response under their lower-case names; of several fields of one name
the last one counts. -/
def collect (fields : List (Bytes × Bytes)) : Headers :=
  fields.foldl (fun h (name, value) => h.insert name.lower value) []

/-- The value of a header, empty if there is none. -/
def lookup (headers : Headers) (name : Bytes) : Bytes :=
  (headers.get? name.lower).getD []

end Headers

structure Request where
  method : Bytes
  target : Bytes
  body : Bytes := []
  headers : List (Bytes × Bytes) := []

structure Response where
  status : Nat
  headers : Headers
  body : Bytes

def Response.header (r : Response) (name : Bytes) : Bytes := r.headers.lookup name

/-- A status that reports a success. -/
def isSuccess (status : Nat) : Bool := 200 ≤ status && status < 300

end Parley
