import Parley.Double
import Parley.Json.Basic

/-!
JSON numerals, read one byte at a time: a minus sign, an integer part without leading zeros, a
fraction and an exponent, the last two optional.
-/
namespace Parley.Json

/-- What part of the numeral was read last. -/
inductive Numeral.Part where
  | minus
  | zero
  | whole
  | point
  | fraction
  | exponentMark
  | exponentSign
  | exponent
  deriving DecidableEq, Repr

/-- The beginning of a numeral: `digits` are all digits before the exponent as one number, the
last `places` of them after the point. -/
structure Numeral where
  negative : Bool := false
  part : Numeral.Part
  digits : Nat := 0
  places : Nat := 0
  exponentNegative : Bool := false
  exponent : Nat := 0

namespace Numeral

/-- The numeral that starts with this byte. -/
def start? (b : UInt8) : Option Numeral :=
  if b = byte '-' then some { negative := true, part := .minus }
  else if b = byte '0' then some { part := .zero }
  else if Bytes.isDigit b then some { part := .whole, digits := Bytes.digitValue b }
  else none

def addDigit (n : Numeral) (part : Part) (b : UInt8) : Numeral :=
  { n with part, digits := 10 * n.digits + Bytes.digitValue b }

def addExponentDigit (n : Numeral) (b : UInt8) : Numeral :=
  { n with part := .exponent, exponent := 10 * n.exponent + Bytes.digitValue b }

/-- What may follow the digits before the point. -/
def afterWhole? (n : Numeral) (b : UInt8) : Option Numeral :=
  if b = byte '.' then some { n with part := .point }
  else if b = byte 'e' || b = byte 'E' then some { n with part := .exponentMark }
  else none

/-- The numeral with one more byte, or nothing if the byte is no part of it. -/
def extend? (n : Numeral) (b : UInt8) : Option Numeral :=
  match n.part with
  | .minus =>
    if b = byte '0' then some { n with part := .zero }
    else if Bytes.isDigit b then some (n.addDigit .whole b)
    else none
  | .zero => n.afterWhole? b
  | .whole => if Bytes.isDigit b then some (n.addDigit .whole b) else n.afterWhole? b
  | .point | .fraction =>
    if Bytes.isDigit b then some { n.addDigit .fraction b with places := n.places + 1 }
    else if n.part = .fraction && (b = byte 'e' || b = byte 'E') then
      some { n with part := .exponentMark }
    else none
  | .exponentMark =>
    if b = byte '+' then some { n with part := .exponentSign }
    else if b = byte '-' then some { n with part := .exponentSign, exponentNegative := true }
    else if Bytes.isDigit b then some (n.addExponentDigit b)
    else none
  | .exponentSign | .exponent =>
    if Bytes.isDigit b then some (n.addExponentDigit b) else none

/-- Whether the numeral may end here. -/
def complete (n : Numeral) : Bool :=
  match n.part with
  | .zero | .whole | .fraction | .exponent => true
  | _ => false

/-- The power of ten that the digits are multiplied by. -/
def scale (n : Numeral) : Int :=
  (if n.exponentNegative then -(n.exponent : Int) else n.exponent) - n.places

/-- Beyond these powers of ten every number is larger than all doubles, or rounds to zero. -/
def hugeScale : Int := 400

/-- The bits of the double nearest to the numeral's absolute value. A numeral of `k` digits lies
below `10 ^ (k + scale)` and, unless it is zero, not below `10 ^ scale`. -/
def magnitudeBits (n : Numeral) : Nat :=
  if n.digits = 0 then 0
  else
    let length : Int := (Nat.toDigits 10 n.digits).length
    if hugeScale < length + n.scale then Double.infinityBits
    else if length + n.scale < -hugeScale then 0
    else if 0 ≤ n.scale then Double.magnitudeBits (n.digits * Nat.pow 10 n.scale.toNat) 1
    else Double.magnitudeBits n.digits (Nat.pow 10 (-n.scale).toNat)

/-- Whether the numeral is written as an integer. -/
def isInteger (n : Numeral) : Bool :=
  match n.part with
  | .zero | .whole => true
  | _ => false

/-- The value of a complete numeral. -/
def value (n : Numeral) : Except Fault Json :=
  let limit : Nat := if n.negative then 0x8000000000000000 else 0xFFFFFFFFFFFFFFFF
  if n.isInteger && n.digits ≤ limit then
    .ok (.int (if n.negative then -(n.digits : Int) else n.digits))
  else
    let bits := n.magnitudeBits
    if Double.infinityBits ≤ bits then .error .outOfRange
    else .ok (.double ((if n.negative then Double.signBit else 0) + bits).toUInt64)

end Numeral

end Parley.Json
