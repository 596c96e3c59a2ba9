import Parley.Table

/-!
JSON values. An integer is kept exactly if it fits in 64 bits, with a sign if it is negative and
without one if it is not; any other number is a double, kept as its bits. The members of an object
are in the order of their names, each name once.
-/
namespace Parley

inductive Json where
  | null
  | bool (b : Bool)
  | int (i : Int)
  | double (bits : UInt64)
  | string (s : Bytes)
  | array (items : List Json)
  | object (members : List (Bytes × Json))
  deriving Inhabited

namespace Json

/-- What can go wrong between a text, a value and the data it stands for. -/
inductive Fault where
  /-- The text is no JSON text. -/
  | malformed
  /-- A number too large for a double, or a member that is not there. -/
  | outOfRange
  /-- A value of another kind than was asked for, or a string that is no text. -/
  | wrongType
  deriving DecidableEq, Repr

/-- The member of an object, if the value is an object that has it. -/
def member? (name : Bytes) : Json → Option Json
  | .object members => Table.get? name members
  | _ => none

def string? : Json → Option Bytes
  | .string s => some s
  | _ => none

/-- The first item of an array that has one. -/
def first? : Json → Option Json
  | .array (item :: _) => some item
  | _ => none

/-- The member of an object that must have it. -/
def require (value : Json) (name : Bytes) : Except Fault Json :=
  match value with
  | .object members =>
    match Table.get? name members with
    | some member => .ok member
    | none => .error .outOfRange
  | _ => .error .wrongType

def asString : Json → Except Fault Bytes
  | .string s => .ok s
  | _ => .error .wrongType

end Json

end Parley
