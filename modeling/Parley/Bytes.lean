/-!
Byte strings. Everything the client is handed or hands out is a list of bytes; text is a byte
string that happens to be well-formed UTF-8.
-/
namespace Parley

abbrev Bytes := List UInt8

/-- The byte of an ASCII character. -/
abbrev byte (c : Char) : UInt8 := c.toNat.toUInt8

/-- The bytes of an ASCII text. -/
def ascii (text : String) : Bytes := text.toList.map byte

namespace Bytes

def isDigit (b : UInt8) : Bool := byte '0' ≤ b && b ≤ byte '9'

def digitValue (b : UInt8) : Nat := b.toNat - 48

/-- The number a string of decimal digits denotes; the empty string denotes zero. -/
def decimalValue (digits : Bytes) : Nat :=
  digits.foldl (fun n b => 10 * n + digitValue b) 0

/-- A natural number in decimal. -/
def ofNat (n : Nat) : Bytes := (Nat.toDigits 10 n).map byte

/-- An integer in decimal, with a minus sign if it is negative. -/
def ofInt (i : Int) : Bytes :=
  if i < 0 then byte '-' :: ofNat i.natAbs else ofNat i.natAbs

/-- The lower-case hexadecimal digit of a number below 16. -/
def hexDigit (n : Nat) : UInt8 :=
  if n < 10 then (48 + n).toUInt8 else (87 + n).toUInt8

/-- The value of a hexadecimal digit of either case. -/
def hexValue? (b : UInt8) : Option Nat :=
  if isDigit b then some (b.toNat - 48)
  else if byte 'a' ≤ b && b ≤ byte 'f' then some (b.toNat - 87)
  else if byte 'A' ≤ b && b ≤ byte 'F' then some (b.toNat - 55)
  else none

/-- Only the letters A to Z change. -/
def lowerByte (b : UInt8) : UInt8 :=
  if byte 'A' ≤ b && b ≤ byte 'Z' then b + 32 else b

def lower (s : Bytes) : Bytes := s.map lowerByte

/-- Byte strings in lexicographic order, a proper beginning before what it begins. -/
def before : Bytes → Bytes → Bool
  | [], [] => false
  | [], _ :: _ => true
  | _ :: _, [] => false
  | a :: s, b :: t => a < b || (a == b && before s t)

/-- What follows `start` in a string that starts with it. -/
def after? : Bytes → Bytes → Option Bytes
  | [], s => some s
  | _ :: _, [] => none
  | a :: start, b :: s => if a = b then after? start s else none

/-- What precedes the first occurrence of a non-empty separator, and what follows it. -/
def splitFirst? (separator : Bytes) : Bytes → Option (Bytes × Bytes)
  | [] => none
  | b :: s =>
    match after? separator (b :: s) with
    | some rest => some ([], rest)
    | none => (splitFirst? separator s).map fun (head, rest) => (b :: head, rest)

/-- What precedes the last occurrence of a byte, and what follows it. -/
def splitLast? (b : UInt8) : Bytes → Option (Bytes × Bytes)
  | [] => none
  | c :: s =>
    match splitLast? b s with
    | some (head, rest) => some (c :: head, rest)
    | none => if c = b then some ([], s) else none

/-- Removes every occurrence at the end of the string of a byte that satisfies `p`. -/
def trimEnd (p : UInt8 → Bool) (s : Bytes) : Bytes := (s.reverse.dropWhile p).reverse

/-- The text up to its first zero byte, the mark that ends a text handed on without its length. -/
def beforeZero (s : Bytes) : Bytes := s.takeWhile (· ≠ 0)

/-- Fills up with blanks on the left. -/
def padLeft (width : Nat) (s : Bytes) : Bytes :=
  List.replicate (width - s.length) (byte ' ') ++ s

end Bytes

end Parley
