import Parley.Json.Basic
import Parley.Double
import Parley.Utf8

/-!
Writing JSON text: no blanks, a string quoted with as few escapes as the format allows. A string
that is no well-formed UTF-8 has no JSON text, so neither has a value that contains one.
-/
namespace Parley.Json

/-- How a byte of a string is written. -/
def escapeByte (b : UInt8) : Bytes :=
  if b = byte '"' then [byte '\\', byte '"']
  else if b = byte '\\' then [byte '\\', byte '\\']
  else if b = 0x08 then [byte '\\', byte 'b']
  else if b = 0x09 then [byte '\\', byte 't']
  else if b = 0x0A then [byte '\\', byte 'n']
  else if b = 0x0C then [byte '\\', byte 'f']
  else if b = 0x0D then [byte '\\', byte 'r']
  else if b < 0x20 then
    ascii "\\u00" ++ [Bytes.hexDigit (b.toNat / 16), Bytes.hexDigit (b.toNat % 16)]
  else [b]

def writeString (s : Bytes) : Except Fault Bytes :=
  if Utf8.wellFormed s then .ok (byte '"' :: s.flatMap escapeByte ++ [byte '"'])
  else .error .wrongType

/-- A decimal fraction with `places` digits after the point. -/
def writeFixed (digits places : Nat) : Bytes :=
  let text := Bytes.ofNat digits
  let text := List.replicate (places + 1 - text.length) (byte '0') ++ text
  let whole := text.length - places
  text.take whole ++ byte '.' :: text.drop whole

/-- A double in full, so that it reads back. -/
def writeDouble (bits : UInt64) : Bytes :=
  let sign : Bytes := if bits.toNat < Double.signBit then [] else [byte '-']
  let magnitude := bits.toNat % Double.signBit
  let field := magnitude / Double.leadingBit
  let significand := magnitude % Double.leadingBit + (if field = 0 then 0 else Double.leadingBit)
  let place : Int := (max field 1 : Nat) - 1075
  sign ++
    if 0 ≤ place then writeFixed (significand * Nat.pow 2 place.toNat * 10) 1
    else writeFixed (significand * Nat.pow 5 (-place).toNat) (-place).toNat

mutual

def write : Json → Except Fault Bytes
  | .null => .ok (ascii "null")
  | .bool true => .ok (ascii "true")
  | .bool false => .ok (ascii "false")
  | .int i => .ok (Bytes.ofInt i)
  | .double bits => .ok (writeDouble bits)
  | .string s => writeString s
  | .array items => do .ok (byte '[' :: (← writeItems items) ++ [byte ']'])
  | .object members => do .ok (0x7B :: (← writeMembers members) ++ [0x7D])

/-- The items of an array, with commas between them. -/
def writeItems : List Json → Except Fault Bytes
  | [] => .ok []
  | [item] => write item
  | item :: items => do .ok ((← write item) ++ byte ',' :: (← writeItems items))

/-- The members of an object, with commas between them. -/
def writeMembers : List (Bytes × Json) → Except Fault Bytes
  | [] => .ok []
  | [(name, value)] => do .ok ((← writeString name) ++ byte ':' :: (← write value))
  | (name, value) :: members => do
    .ok ((← writeString name) ++ byte ':' :: (← write value) ++ byte ',' ::
      (← writeMembers members))

end

end Parley.Json
