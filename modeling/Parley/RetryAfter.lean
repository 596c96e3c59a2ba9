import Parley.Bytes
import Parley.Double
import Parley.Time

/-!
The waiting time a server asks for: seconds, written as decimal digits with an optional fraction,
blanks and tabs around them ignored. Anything else means one second.
-/
namespace Parley.RetryAfter

def fallback : Millis := 1000

/-- The longest time in seconds that is taken over from a server. -/
def longest : Rat := 1000000000

def isBlank (b : UInt8) : Bool := b = 0x20 || b = 0x09

def trim (s : Bytes) : Bytes := Bytes.trimEnd isBlank (s.dropWhile isBlank)

/-- The number that a text begins with, as long as it gets: its digits before and after the point,
and what follows it. -/
def leading (s : Bytes) : (Bytes × Bytes) × Bytes :=
  let (whole, rest) := s.span Bytes.isDigit
  match rest with
  | [] => ((whole, []), [])
  | b :: others =>
    if b = byte '.' then
      let (places, rest) := others.span Bytes.isDigit
      ((whole, places), rest)
    else ((whole, []), rest)

def isNumeric (b : UInt8) : Bool := Bytes.isDigit b || b = byte '.'

/-- The digits before and after the point of a plain decimal: a text that begins with a digit, has
nothing in it but digits and points, and is one number to its end. -/
def split? (s : Bytes) : Option (Bytes × Bytes) :=
  if s.head?.any Bytes.isDigit && s.all isNumeric then
    let (number, rest) := leading s
    if rest.isEmpty then some number else none
  else none

/-- The number of seconds a plain decimal denotes. -/
def seconds (whole places : Bytes) : Rat :=
  (Bytes.decimalValue (whole ++ places) : Rat) / (Nat.pow 10 places.length : Rat)

/-- The time in milliseconds. A number too large for a double is not taken for a time. -/
def parse (value : Bytes) : Millis :=
  match split? (trim value) with
  | none => fallback
  | some (whole, places) =>
    match Double.ofRat (seconds whole places) with
    | .finite s =>
      (Double.mul (Double.min (.finite s) (.finite longest)) (Double.ofInt 1000)).roundHalfUp
    | _ => fallback

end Parley.RetryAfter
