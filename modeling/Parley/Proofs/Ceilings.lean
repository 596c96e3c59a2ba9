import Parley.Proofs.Timeouts

/-!
How far an attempt may reach. What an attempt is allowed is the difference of two numbers of whole
milliseconds, the budget and what has passed of it, each rounded down for itself. So it does not end
at the deadline but beside it, off by the difference of what the two roundings drop: a call whose
clock is further into a millisecond than its deadline is may be allowed up to a millisecond too
much.

* `Call.Timed.reach_eq`: where an attempt ends, to the nanosecond;
* `Timely.reaches`: what that means for the attempts in a log;
* `World.steps_reach`: the same of whole runs.
-/
namespace Parley

namespace Call

/-- The instant up to which an attempt that begins now is allowed to last. -/
def reach (now : Instant) (timeout : Millis) : Instant := now + timeout * 1000000

/-- How far an instant is into a millisecond of the call. -/
def phase (call : Call) (t : Instant) : Nanos := (t - call.start) % 1000000

theorem phase_start (call : Call) : call.phase call.start = 0 := by
  rw [phase, Int.sub_self]
  rfl

namespace Timed

variable {call : Call} {now : Instant}

/-- An attempt never reaches a millisecond beyond the deadline. -/
theorem reach_lt (timed : call.Timed now) (fits : now < 0x8000000000000000)
    (left : call.elapsed now < call.budget) :
    reach now (call.budget - call.elapsed now) < call.deadline + 1000000 := by
  have early : now < call.deadline := timed.lt_deadline fits left
  have start_le := timed.start_le
  have most : call.budget * 1000000 ≤ max 0 (call.deadline - call.start) :=
    timed.budget_eq ▸ remainingUntil_mul_le call.deadline call.start
  rw [reach, timed.elapsed_eq fits]
  unfold Instant Millis at *
  omega

/-- What the two roundings drop is what an attempt is off by. -/
theorem reach_eq (timed : call.Timed now) (early : now < call.deadline)
    (fits : call.deadline < 0x8000000000000000) :
    reach now (call.budget - call.elapsed now) =
      call.deadline + call.phase now - call.phase call.deadline := by
  have start_nonneg := timed.start_nonneg
  have start_le := timed.start_le
  have budget_eq : call.budget = (call.deadline - call.start) / 1000000 := by
    rw [timed.budget_eq]
    have left : max 0 (call.deadline - call.start) = call.deadline - call.start := by
      unfold Instant at *
      omega
    rw [Retry.remainingUntil_eq start_nonneg fits, left]
  rw [reach, phase, phase, budget_eq, timed.elapsed_eq (Int.lt_trans early fits)]
  unfold Instant Millis at *
  omega

end Timed

end Call

/-- The attempts in a log keep to the deadlines of their calls, but for a part of a millisecond: one
that begins when more of a millisecond of the call has passed than has passed at the deadline ends
beyond it, by the difference, and no other does. -/
structure Reaches (log : List Marked) : Prop where
  near : ∀ m ∈ log, ∀ call timeout, m.mark = .tried call timeout →
    Call.reach m.time timeout < call.deadline + 1000000
  exact : ∀ m ∈ log, ∀ call timeout, m.mark = .tried call timeout →
    call.deadline < 0x8000000000000000 →
      Call.reach m.time timeout = call.deadline + call.phase m.time - call.phase call.deadline ∧
      (Call.reach m.time timeout ≤ call.deadline ↔ call.phase m.time ≤ call.phase call.deadline)
  /-- An attempt at the start of a call does not. -/
  prompt : ∀ m ∈ log, ∀ call timeout, m.mark = .tried call timeout →
    call.deadline < 0x8000000000000000 → m.time = call.start →
      Call.reach m.time timeout ≤ call.deadline

theorem Timely.reaches {hand : List Holding} {w : World} (h : Timely hand w)
    (fits : w.now < 0x8000000000000000) : Reaches w.log := by
  have time_lt (m : Marked) (member : m ∈ w.log) : m.time < 0x8000000000000000 :=
    Int.lt_of_le_of_lt (h.time_le m member) fits
  have exact (m : Marked) (member : m ∈ w.log) (call : Call) (timeout : Millis)
      (tried : m.mark = .tried call timeout) (deadline_fits : call.deadline < 0x8000000000000000) :
      Call.reach m.time timeout = call.deadline + call.phase m.time - call.phase call.deadline := by
    obtain ⟨timed, left, rfl⟩ := (h.inTime m member).tried tried
    exact timed.reach_eq (timed.lt_deadline (time_lt m member) left) deadline_fits
  constructor
  case near =>
    intro m member call timeout tried
    obtain ⟨timed, left, rfl⟩ := (h.inTime m member).tried tried
    exact timed.reach_lt (time_lt m member) left
  case exact =>
    intro m member call timeout tried deadline_fits
    have reach_eq := exact m member call timeout tried deadline_fits
    refine ⟨reach_eq, ?_⟩
    rw [reach_eq]
    unfold Instant Nanos
    omega
  case prompt =>
    intro m member call timeout tried deadline_fits start
    have positive : 0 ≤ call.phase call.deadline := Int.emod_nonneg _ (by decide)
    rw [exact m member call timeout tried deadline_fits, start, call.phase_start]
    unfold Instant Nanos at *
    omega

section Allow
variable {p : Pause} {w : World}

/-- What an attempt is allowed is what is written down about it, at once. -/
theorem Retry.allow_enters (call : Call) (number : Nat) :
    (allow call number).Ensures p w fun r w' => ∀ timeout, r = .ok timeout →
      w'.now = w.now ∧ w'.log = ⟨.tried call timeout, w.now⟩ :: w.log := by
  simp only [allow, Call.fail, Flow.ensures_bind, Flow.ensures_get, Flow.ensures_ite,
    Flow.ensures_lift, Flow.ensures_throw, Flow.ensures_pure, Job.ensures_count, Job.ensures_note,
    Job.ensures_mark]
  split
  · apply Job.Ensures.of_all
    rintro e w' timeout ⟨⟩
  · split
    · apply Job.Ensures.of_all
      rintro e w' timeout ⟨⟩
    · rintro timeout ⟨⟩
      exact ⟨rfl, rfl⟩

end Allow

/-- By how much an attempt may go beyond the deadline of its call. -/
def Marked.excess? (m : Marked) : Option Nanos :=
  match m.mark with
  | .tried call timeout => some (Call.reach m.time timeout - call.deadline)
  | _ => none

namespace World

variable {c : Config} {w : World}

/-- In a run of any acts, whatever attempts there were before and whatever happened meanwhile, no
attempt is allowed to go a millisecond beyond the deadline of its call. It is allowed to go beyond
it at all exactly if it begins further into a millisecond of the call than the deadline is, and then
by the difference. -/
theorem steps_reach (begun : Begun c w) (acts : List Act)
    (fits : (w.steps acts).now < 0x8000000000000000) :
    Reaches (w.steps acts).log ∧
      ∀ (p : Pause) (w' : World) (call : Call) (number : Nat),
        (Retry.allow call number).Ensures p w' fun r w'' => ∀ timeout, r = .ok timeout →
          w''.now = w'.now ∧ w''.log = ⟨.tried call timeout, w'.now⟩ :: w'.log :=
  ⟨(begun.timely acts).reaches fits, fun _ _ => Retry.allow_enters⟩

/-- An attempt that took a part of a millisecond is limited, and repeated at once: the time of the
second one is up 0.4 milliseconds after the deadline. -/
theorem steps_reach_beyond :
    let c : Config := { clientTag := [] }
    let soon : Headers := [(ascii "retry-after", ascii "0")]
    let script : Script := { replies := [{ status := 429, headers := soon, delay := 900000 }] }
    let hi : List Message := [{ role := [], content := [104, 105] }]
    let acts : List Act := [.chat hi (some 10500000)]
    ∃ w, Begun c w ∧ w.script = script ∧ Reaches (w.steps acts).log ∧
      (w.steps acts).log.filterMap Marked.excess? = [400000, -500000] := by
  intro c soon script hi acts
  let w : World := {
    config := c, target := chatPath, client := .ofConfig c 1, chance := .ofSeed 1, script }
  have begun : Begun c w := ⟨1, script, .inr (by rfl)⟩
  have now : (w.steps acts).now = 900000 := by decide +kernel
  have fits : (w.steps acts).now < 0x8000000000000000 := by
    rw [now]
    decide
  exact ⟨w, begun, rfl, (steps_reach begun acts fits).1, by decide +kernel⟩

end World

end Parley
