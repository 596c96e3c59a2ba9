/-!
The 64-bit Mersenne Twister as a linear recurrence over a window of 312 words: the next word is the
157th of the window combined with a twist of its first two.
-/
namespace Parley

/-- The last 312 words of the recurrence, the oldest first. -/
structure Twister where
  window : List UInt64

namespace Twister

def size : Nat := 312

/-- The oldest words of a window that a seed fills, from the word numbered `i` on. -/
def fill : Nat → UInt64 → UInt64 → List UInt64
  | 0, _, _ => []
  | n + 1, i, word =>
    word :: fill n (i + 1) ((6364136223846793005 : UInt64) * (word ^^^ (word >>> 62)) + (i + 1))

def ofSeed (seed : UInt64) : Twister := ⟨fill size 0 seed⟩

/-- The upper 33 bits of one word with the lower 31 of the next, shifted down by one bit. -/
def twist (a b : UInt64) : UInt64 :=
  let x := (a &&& 0xFFFFFFFF80000000) ||| (b &&& 0x7FFFFFFF)
  (x >>> 1) ^^^ (if x &&& 1 = 0 then 0 else 0xB5026F5AA96619E9)

/-- Spreads the bits of a word before it is handed out. -/
def temper (x : UInt64) : UInt64 :=
  let x := x ^^^ ((x >>> 29) &&& 0x5555555555555555)
  let x := x ^^^ ((x <<< 17) &&& 0x71D67FFFEDA60000)
  let x := x ^^^ ((x <<< 37) &&& 0xFFF7EEE000000000)
  x ^^^ (x >>> 43)

/-- One output, and the generator that goes on after it. -/
def next (t : Twister) : UInt64 × Twister :=
  match t.window with
  | a :: b :: rest =>
    let word := (rest.getD 154 0) ^^^ twist a b
    (temper word, ⟨(b :: rest) ++ [word]⟩)
  | _ => (0, t)

end Twister

end Parley
