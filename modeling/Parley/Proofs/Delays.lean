import Mathlib.Algebra.Order.Floor.Ring
import Mathlib.Data.Rat.Floor
import Mathlib.Tactic.GCongr
import Mathlib.Tactic.Linarith
import Mathlib.Tactic.NormNum
import Mathlib.Tactic.Positivity
import Mathlib.Tactic.Ring
import Parley.Backoff

/-!
The delay before another attempt, in any arithmetic.

* `Arithmetic`, `Arithmetic.delay`: the computation of a delay, and the numbers it is made with;
* `doubles`, `backoffDelay_eq`: the arithmetic that delays are computed in;
* `rationals`, `ExactDelay`: exact arithmetic, where the delay after a later attempt is never the
  shorter one, stays within a tenth of what it is without jitter, and remains at the cap once it has
  reached it.
-/
namespace Parley

/-- Numbers that a delay can be computed in. -/
structure Arithmetic (α : Type) where
  ofInt : Int → α
  ofRat : Rat → α
  zero : α
  one : α
  powTwo : Nat → α
  mul : α → α → α
  add : α → α → α
  less : α → α → Bool
  /-- The integer part, the fraction dropped. -/
  truncate : α → Int

namespace Arithmetic
variable {α : Type} (a : Arithmetic α)

/-- The first argument unless the second is less. -/
def lesser (x y : α) : α := if a.less y x then y else x

/-- The first argument unless it is less than the second. -/
def greater (x y : α) : α := if a.less x y then y else x

/-- The share of the jitter, between none and all of it. -/
def share (fraction : α) : α := a.lesser (a.greater fraction a.zero) a.one

/-- The delay after an attempt without jitter and cap: it doubles with every attempt. -/
def unjittered (attempt : Int) (base : Millis) : α :=
  a.mul (a.ofInt base) (a.powTwo (max attempt 1 - 1).toNat)

/-- The delay with its jitter, before it is cut off. -/
def jittered (attempt : Int) (base : Millis) (fraction : α) : α :=
  let delay := a.unjittered attempt base
  a.add delay (a.mul (a.mul delay (a.ofRat jitterRatio)) (a.share fraction))

/-- The delay that is cut off at the cap, before its fraction is dropped. -/
def capped (attempt : Int) (base cap : Millis) (fraction : α) : α :=
  a.lesser (a.jittered attempt base fraction) (a.ofInt cap)

/-- The delay after a failed attempt, as it comes out in this arithmetic. -/
def delay (attempt : Int) (base cap : Millis) (fraction : α) : Millis :=
  a.truncate (a.capped attempt base cap fraction)

end Arithmetic

/-- The arithmetic that delays are computed in. -/
def doubles : Arithmetic Double where
  ofInt := Double.ofInt
  ofRat := Double.ofRat
  zero := .finite 0
  one := .finite 1
  powTwo := Double.powTwo
  mul := Double.mul
  add := Double.add
  less := Double.less
  truncate := Double.truncate

/-- Exact arithmetic, in which nothing is rounded before the fraction is dropped. -/
def rationals : Arithmetic Rat where
  ofInt i := i
  ofRat x := x
  zero := 0
  one := 1
  powTwo k := 2 ^ k
  mul x y := x * y
  add x y := x + y
  less x y := x < y
  truncate x := x.num.tdiv x.den

theorem backoffDelay_eq (attempt : Int) (base cap : Millis) (fraction : Double) :
    backoffDelay attempt base cap fraction = doubles.delay attempt base cap fraction := rfl

/-- How often the base has been doubled when an attempt has failed. -/
def doublings (attempt : Int) : Nat := (max attempt 1 - 1).toNat

theorem two_mul_doubled_le {n m : Int} {x : Rat} (hx : 0 ≤ x) (h : max n 1 < max m 1) :
    2 * (x * 2 ^ doublings n) ≤ x * 2 ^ doublings m := by
  have more : doublings n + 1 ≤ doublings m := by
    unfold doublings
    omega
  calc 2 * (x * 2 ^ doublings n)
    _ = x * 2 ^ (doublings n + 1) := by ring
    _ ≤ x * 2 ^ doublings m := by
      gcongr
      exact one_le_two

theorem doubled_mono {n m : Int} {x : Rat} (hx : 0 ≤ x) (h : n ≤ m) :
    x * 2 ^ doublings n ≤ x * 2 ^ doublings m := by
  have more : doublings n ≤ doublings m := by
    unfold doublings
    omega
  gcongr
  exact one_le_two

theorem tdiv_eq_floor {x : Rat} (hx : 0 ≤ x) : x.num.tdiv x.den = ⌊x⌋ := by
  rw [Rat.floor_def', Int.tdiv_eq_ediv_of_nonneg (Rat.num_nonneg.mpr hx)]

namespace ExactDelay
variable {n m : Int} {base cap : Millis} {f g : Rat}

theorem unjittered_eq (n : Int) (base : Millis) :
    rationals.unjittered n base = base * 2 ^ doublings n := rfl

theorem unjittered_nonneg (hb : 0 ≤ base) : 0 ≤ rationals.unjittered n base := by
  have positive : (0 : Rat) ≤ base := by exact_mod_cast hb
  rw [unjittered_eq]
  positivity

theorem lesser_eq (x y : Rat) : rationals.lesser x y = min x y := by
  simp only [Arithmetic.lesser, rationals, decide_eq_true_eq]
  exact (min_def_lt' x y).symm

theorem greater_eq (x y : Rat) : rationals.greater x y = max x y := by
  simp only [Arithmetic.greater, rationals, decide_eq_true_eq]
  exact (max_def_lt x y).symm

theorem share_bounds (f : Rat) : 0 ≤ rationals.share f ∧ rationals.share f ≤ 1 := by
  rw [Arithmetic.share, lesser_eq, greater_eq]
  exact ⟨le_min (le_max_right ..) zero_le_one, min_le_right ..⟩

theorem share_mono (h : f ≤ g) : rationals.share f ≤ rationals.share g := by
  rw [Arithmetic.share, Arithmetic.share, lesser_eq, lesser_eq, greater_eq, greater_eq]
  gcongr

theorem jittered_eq (n : Int) (base : Millis) (f : Rat) :
    rationals.jittered n base f = rationals.unjittered n base * (1 + rationals.share f / 10) := by
  have sum : rationals.jittered n base f = rationals.unjittered n base +
      rationals.unjittered n base * (1 / 10) * rationals.share f := rfl
  rw [sum]
  ring

/-- Jitter adds no more than a tenth. -/
theorem jittered_bounds (hb : 0 ≤ base) :
    rationals.unjittered n base ≤ rationals.jittered n base f ∧
      rationals.jittered n base f ≤ 11 / 10 * rationals.unjittered n base := by
  have delay := unjittered_nonneg (n := n) hb
  obtain ⟨least, most⟩ := share_bounds f
  rw [jittered_eq]
  constructor <;> nlinarith

theorem jittered_mono (hb : 0 ≤ base) (h : n ≤ m) (hf : f ≤ g) :
    rationals.jittered n base f ≤ rationals.jittered m base g := by
  have delay := unjittered_nonneg (n := m) hb
  have share := share_mono hf
  have none := (share_bounds f).1
  rw [jittered_eq, jittered_eq]
  gcongr
  exact doubled_mono (Int.cast_nonneg hb) h

theorem delay_eq_floor (hb : 0 ≤ base) (hc : 0 ≤ cap) :
    rationals.delay n base cap f = ⌊min (rationals.jittered n base f) cap⌋ := by
  have jittered := (unjittered_nonneg hb).trans (jittered_bounds (n := n) (f := f) hb).1
  have capped : rationals.capped n base cap f = min (rationals.jittered n base f) cap :=
    lesser_eq ..
  have nonneg : 0 ≤ min (rationals.jittered n base f) (cap : Rat) :=
    le_min jittered (by exact_mod_cast hc)
  rw [Arithmetic.delay, capped]
  exact tdiv_eq_floor nonneg

/-- Doubling outweighs any jitter. -/
theorem delay_le (hb : 0 ≤ base) (hc : 0 ≤ cap) (h : max n 1 < max m 1) :
    rationals.delay n base cap f ≤ rationals.delay m base cap g := by
  have delay := unjittered_nonneg (n := n) hb
  rw [delay_eq_floor hb hc, delay_eq_floor hb hc]
  gcongr
  calc rationals.jittered n base f
    _ ≤ 11 / 10 * rationals.unjittered n base := (jittered_bounds hb).2
    _ ≤ 2 * rationals.unjittered n base := by linarith
    _ ≤ rationals.unjittered m base := two_mul_doubled_le (Int.cast_nonneg hb) h
    _ ≤ rationals.jittered m base g := (jittered_bounds hb).1

/-- With the same fraction or a larger one the delay is not shorter after any later attempt. -/
theorem delay_mono (hb : 0 ≤ base) (hc : 0 ≤ cap) (h : n ≤ m) (hf : f ≤ g) :
    rationals.delay n base cap f ≤ rationals.delay m base cap g := by
  rw [delay_eq_floor hb hc, delay_eq_floor hb hc]
  gcongr
  exact jittered_mono hb h hf

theorem delay_band (hb : 0 ≤ base) (hc : 0 ≤ cap) :
    ⌊min (rationals.unjittered n base) cap⌋ ≤ rationals.delay n base cap f ∧
      rationals.delay n base cap f ≤ ⌊min (11 / 10 * rationals.unjittered n base) cap⌋ := by
  obtain ⟨least, most⟩ := jittered_bounds (n := n) (f := f) hb
  rw [delay_eq_floor hb hc]
  constructor <;> gcongr

theorem delay_eq_cap (hb : 0 ≤ base) (hc : 0 ≤ cap) (h : n ≤ m)
    (reached : cap ≤ rationals.unjittered n base) : rationals.delay m base cap f = cap := by
  have above : (cap : Rat) ≤ rationals.jittered m base f :=
    calc (cap : Rat)
      _ ≤ rationals.unjittered n base := reached
      _ ≤ rationals.unjittered m base := doubled_mono (Int.cast_nonneg hb) h
      _ ≤ rationals.jittered m base f := (jittered_bounds hb).1
  rw [delay_eq_floor hb hc, min_eq_right above, Int.floor_intCast]

end ExactDelay

end Parley
