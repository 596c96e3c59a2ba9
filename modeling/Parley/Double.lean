/-!
Binary floating point of double precision, computed exactly: a finite double is the rational it
denotes, and every operation is the exact one followed by rounding to the nearest double, a tie
going to the even significand. The two zeros are one value here: no operation below tells them
apart.
-/
namespace Parley

/-- The integer nearest to `num / den`, a tie going to the even one. -/
def roundEven (num den : Nat) : Nat :=
  let q := num / den
  let r := num % den
  if 2 * r < den then q else if den < 2 * r then q + 1 else q + q % 2

/-- `2 ^ e` for any integer `e`. -/
def twoPow (e : Int) : Rat :=
  if 0 ≤ e then (Nat.pow 2 e.toNat : Rat) else 1 / (Nat.pow 2 (-e).toNat : Rat)

inductive Double where
  | nan
  | infinite (negative : Bool)
  | finite (value : Rat)
  deriving DecidableEq, Repr

namespace Double

/-- `num / den` in units of `2 ^ e`, again as a quotient. -/
def inUnits (num den : Nat) (e : Int) : Nat × Nat :=
  if 0 ≤ e then (num, den * Nat.pow 2 e.toNat) else (num * Nat.pow 2 (-e).toNat, den)

/-- The `e` with `2 ^ e ≤ num / den < 2 ^ (e + 1)`, for a positive quotient. -/
def binade (num den : Nat) : Int :=
  let e : Int := (num.log2 : Int) - den.log2
  let (n, d) := inUnits num den e
  if n < d then e - 1 else e

/-- The leading bit of a full significand, `2 ^ 52`. -/
def leadingBit : Nat := 0x10000000000000

/-- The exponent of the last place of the doubles around `num / den`: a significand has 53 bits,
fewer below the least normal double. -/
def lastPlace (num den : Nat) : Int := max (binade num den - 52) (-1074)

/-- The significand, in units of the last place, of the double nearest to `num / den`. -/
def significand (num den : Nat) : Nat :=
  let (n, d) := inUnits num den (lastPlace num den)
  roundEven n d

/-- The bits of the double nearest to `num / den`, without a sign. Counted in this way the
non-negative doubles are consecutive numbers. -/
def magnitudeBits (num den : Nat) : Nat :=
  if num = 0 then 0
  else (lastPlace num den + 1074).toNat * leadingBit + significand num den

/-- The bits of infinity: a magnitude this large has no finite double. -/
def infinityBits : Nat := 0x7ff * leadingBit

/-- The double nearest to a rational. -/
def ofRat (x : Rat) : Double :=
  if x.num = 0 then .finite 0
  else
    let num := x.num.natAbs
    let value := (significand num x.den : Rat) * twoPow (lastPlace num x.den)
    if infinityBits ≤ magnitudeBits num x.den then .infinite (x.num < 0)
    else .finite (if x.num < 0 then -value else value)

def ofInt (i : Int) : Double := ofRat i

/-- The bit that makes a double negative, `2 ^ 63`. -/
def signBit : Nat := 0x8000000000000000

/-- The double with these bits. -/
def ofBits (bits : Nat) : Double :=
  let negative := signBit ≤ bits
  let field := bits / leadingBit % 0x800
  let rest := bits % leadingBit
  if field = 0x7ff then if rest = 0 then .infinite negative else .nan
  else
    let significand : Nat := if field = 0 then rest else leadingBit + rest
    let value := (significand : Rat) * twoPow ((Nat.max field 1 : Nat) - 1075)
    .finite (if negative then -value else value)

def isNegative : Double → Bool
  | .nan => false
  | .infinite negative => negative
  | .finite value => value < 0

def isZero : Double → Bool
  | .finite value => value = 0
  | _ => false

/-- `2 ^ k`, infinite beyond the largest exponent. -/
def powTwo (k : Nat) : Double :=
  if k < 1024 then .finite (Nat.pow 2 k : Rat) else .infinite false

/-- Infinity times zero is not a number. -/
def mul : Double → Double → Double
  | .nan, _ => .nan
  | _, .nan => .nan
  | .finite x, .finite y => ofRat (x * y)
  | x, y =>
    if x.isZero || y.isZero then .nan else .infinite (x.isNegative != y.isNegative)

/-- Infinities of opposite sign have no sum. -/
def add : Double → Double → Double
  | .nan, _ => .nan
  | _, .nan => .nan
  | .finite x, .finite y => ofRat (x + y)
  | .infinite s, .infinite t => if s = t then .infinite s else .nan
  | .infinite s, .finite _ => .infinite s
  | .finite _, .infinite t => .infinite t

/-- What is not a number is neither less nor greater than anything. -/
def less : Double → Double → Bool
  | .finite x, .finite y => x < y
  | .infinite s, .infinite t => s && !t
  | .infinite s, .finite _ => s
  | .finite _, .infinite t => !t
  | _, _ => false

/-- The first argument unless the second is less. -/
def min (x y : Double) : Double := if less y x then y else x

/-- The first argument unless it is less than the second. -/
def max (x y : Double) : Double := if less x y then y else x

/-- The least number that 64 bits with a sign hold, `-2 ^ 63`. -/
def leastInt64 : Int := -0x8000000000000000

/-- The integer part, the fraction dropped. What has none in 64 bits with a sign gives the least
of them. -/
def truncate : Double → Int
  | .finite x =>
    let i := x.num.tdiv x.den
    if leastInt64 ≤ i && i < -leastInt64 then i else leastInt64
  | _ => leastInt64

/-- The nearest integer, a half away from zero, for a finite non-negative double. -/
def roundHalfUp : Double → Int
  | .finite x => (2 * x.num + x.den) / (2 * x.den : Nat)
  | _ => 0

end Double

end Parley
