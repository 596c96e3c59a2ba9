import Parley.Double
import Parley.Time
import Parley.Twister

/-!
Exponential backoff with jitter. The delay doubles with every attempt, a random part of up to a
tenth is added, and the sum is cut off at a cap. It is computed in floating point, where a large
attempt number saturates instead of overflowing.
-/
namespace Parley

/-- The largest share of the delay that jitter adds. -/
def jitterRatio : Rat := 1 / 10

/-- The delay after a failed attempt; `fraction` is the share of the jitter that is drawn. -/
def backoffDelay (attempt : Int) (base cap : Millis) (fraction : Double) : Millis :=
  let attempt := max attempt 1
  let fraction := Double.min (Double.max fraction (.finite 0)) (.finite 1)
  let delay := Double.mul (Double.ofInt base) (Double.powTwo (attempt - 1).toNat)
  let jitter := Double.mul (Double.mul delay (Double.ofRat jitterRatio)) fraction
  (Double.min (Double.add delay jitter) (Double.ofInt cap)).truncate

/-- A random word as a number from zero up to, but not including, one: a `2 ^ 64`th for each
unit, and the largest double below one where that would round up to one. -/
def unitFraction (word : UInt64) : Double :=
  match Double.ofInt word.toNat with
  | .finite x =>
    if x < twoPow 64 then .finite (x / twoPow 64) else .finite (1 - twoPow (-53))
  | other => other

/-- Delays between two bounds, with their own source of randomness. -/
structure Backoff where
  base : Millis
  cap : Millis
  random : Twister

namespace Backoff

/-- The delay after a failed attempt; each one draws a fraction. -/
def delayFor (b : Backoff) (attempt : Int) : Millis × Backoff :=
  let (word, random) := b.random.next
  (backoffDelay attempt b.base b.cap (unitFraction word), { b with random })

end Backoff

end Parley
