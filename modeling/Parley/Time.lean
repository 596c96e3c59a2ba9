/-!
Instants and durations. The clock counts nanoseconds in 64 bits with a sign; whatever is added to
an instant wraps around there. Callers speak of milliseconds, and a duration becomes whole
milliseconds by dropping the rest, toward zero.
-/
namespace Parley

/-- Nanoseconds since the clock started. -/
abbrev Instant := Int

/-- A duration in nanoseconds. -/
abbrev Nanos := Int

/-- A duration in milliseconds. -/
abbrev Millis := Int

/-- The 64-bit number with a sign that an integer wraps to. -/
def wrap64 (n : Int) : Int := n.bmod 0x10000000000000000

namespace Millis

def nanos (ms : Millis) : Nanos := wrap64 (ms * 1000000)

end Millis

namespace Instant

def plus (t : Instant) (d : Nanos) : Instant := wrap64 (t + d)

/-- The instant `ms` milliseconds later. -/
def plusMillis (t : Instant) (ms : Millis) : Instant := plus t (Millis.nanos ms)

/-- The time from `start` to `t`. -/
def since (t start : Instant) : Nanos := wrap64 (t - start)

end Instant

/-- Whole milliseconds of a duration. -/
def toMillis (d : Nanos) : Millis := d.tdiv 1000000

/-- Whole milliseconds left until a deadline, none once it is reached. -/
def remainingUntil (deadline now : Instant) : Millis :=
  if deadline ≤ now then 0 else toMillis (Instant.since deadline now)

end Parley
