import Parley.Bytes

/-!
Well-formed UTF-8, read one byte at a time. A sequence starts with a lead byte; the lead fixes how
many continuation bytes follow and narrows the range of the first of them, which rules out
overlong forms, surrogates and code points above U+10FFFF.
-/
namespace Parley.Utf8

/-- Where the next byte stands: between two code points, or inside one that still needs
`more + 1` bytes, the next of them from `low` to `high`. -/
inductive State where
  | boundary
  | inside (more : Nat) (low high : UInt8)
  deriving DecidableEq, Repr

def step : State → UInt8 → Option State
  | .boundary, b =>
    if b < 0x80 then some .boundary
    else if b < 0xC2 then none
    else if b < 0xE0 then some (.inside 0 0x80 0xBF)
    else if b = 0xE0 then some (.inside 1 0xA0 0xBF)
    else if b = 0xED then some (.inside 1 0x80 0x9F)
    else if b < 0xF0 then some (.inside 1 0x80 0xBF)
    else if b = 0xF0 then some (.inside 2 0x90 0xBF)
    else if b < 0xF4 then some (.inside 2 0x80 0xBF)
    else if b = 0xF4 then some (.inside 2 0x80 0x8F)
    else none
  | .inside more low high, b =>
    if low ≤ b && b ≤ high then
      match more with
      | 0 => some .boundary
      | more + 1 => some (.inside more 0x80 0xBF)
    else none

def run : State → Bytes → Option State
  | s, [] => some s
  | s, b :: bs =>
    match step s b with
    | some s' => run s' bs
    | none => none

def wellFormed (s : Bytes) : Bool := run .boundary s == some .boundary

/-- The bytes of a code point. -/
def encode (c : Nat) : Bytes :=
  if c < 0x80 then [c.toUInt8]
  else if c < 0x800 then [(0xC0 + c / 0x40).toUInt8, (0x80 + c % 0x40).toUInt8]
  else if c < 0x10000 then
    [(0xE0 + c / 0x1000).toUInt8, (0x80 + c / 0x40 % 0x40).toUInt8, (0x80 + c % 0x40).toUInt8]
  else
    [(0xF0 + c / 0x40000).toUInt8, (0x80 + c / 0x1000 % 0x40).toUInt8,
      (0x80 + c / 0x40 % 0x40).toUInt8, (0x80 + c % 0x40).toUInt8]

end Parley.Utf8
