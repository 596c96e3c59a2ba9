import Parley.Proofs.Attempts
import Parley.Proofs.Failures
import Parley.Proofs.Log

/-!
Deadlines in the log. A call knows its time in whole milliseconds only: its budget is what was left
until its deadline when its time began to run, and an attempt is allowed for as much of the budget
as has not passed since. Both are rounded down, so an attempt that has a millisecond left begins
before the deadline, whatever became of the attempts before it.

* `Call.Timed.lt_deadline`: the arithmetic of it;
* `Logs.timely`: what is kept by whatever is entered into the log;
* `Client.late_ends`: a call that begins at its deadline or later comes to nothing.
-/
namespace Parley

namespace Call

/-- A call whose time began to run no later than now, with what was left until its deadline. -/
structure Timed (call : Call) (now : Instant) : Prop where
  start_nonneg : 0 ≤ call.start
  start_le : call.start ≤ now
  budget_eq : call.budget = remainingUntil call.deadline call.start

namespace Timed

variable {call : Call} {now later : Instant}

theorem mono (timed : call.Timed now) (le : now ≤ later) : call.Timed later :=
  { timed with start_le := Int.le_trans timed.start_le le }

theorem elapsed_eq (timed : call.Timed now) (fits : now < 0x8000000000000000) :
    call.elapsed now = (now - call.start) / 1000000 := by
  have start_nonneg := timed.start_nonneg
  have start_le := timed.start_le
  unfold elapsed Instant.since
  unfold Instant at *
  rw [wrap64_of_fits ⟨by omega, by omega⟩, toMillis_of_nonneg (by unfold Nanos; omega)]

/-- A call whose budget is not used up has not reached its deadline. -/
theorem lt_deadline (timed : call.Timed now) (fits : now < 0x8000000000000000)
    (left : call.elapsed now < call.budget) : now < call.deadline := by
  have start_le := timed.start_le
  have most := remainingUntil_mul_le call.deadline call.start
  rw [timed.elapsed_eq fits] at left
  rw [← timed.budget_eq] at most
  unfold Instant Millis at *
  omega

theorem elapsed_mono (timed : call.Timed now) (le : now ≤ later)
    (fits : later < 0x8000000000000000) : call.elapsed now ≤ call.elapsed later := by
  rw [timed.elapsed_eq (Int.lt_of_le_of_lt le fits), (timed.mono le).elapsed_eq fits]
  exact Int.ediv_le_ediv (by decide) (Int.sub_le_sub_right le _)

end Timed

end Call

/-- What an entry of the log says about deadlines is right. -/
def Marked.InTime (m : Marked) : Prop :=
  match m.mark with
  | .tried call timeout => call.Timed m.time ∧ call.elapsed m.time < call.budget ∧
      timeout = call.budget - call.elapsed m.time
  | .asked deadline => m.time ≤ deadline
  | _ => True

/-- The log is in the order of time, what it says about deadlines is right, and calls on hand began
in the past. -/
structure Timely (hand : List Holding) (w : World) : Prop where
  now_nonneg : 0 ≤ w.now
  ordered : w.log.Pairwise fun later earlier => earlier.time ≤ later.time
  time_le : ∀ m ∈ w.log, m.time ≤ w.now
  inTime : ∀ m ∈ w.log, m.InTime
  running : ∀ call ∈ Holding.running hand, call.Timed w.now

namespace Timely

variable {hand hand' : List Holding} {w w' : World} {m : Mark}

/-- An entry is made now. -/
theorem enter (h : Timely hand w) (inTime : Marked.InTime ⟨m, w.now⟩)
    (log_eq : w'.log = ⟨m, w.now⟩ :: w.log) (now_eq : w'.now = w.now)
    (running_eq : Holding.running hand' = Holding.running hand) : Timely hand' w' where
  now_nonneg := now_eq ▸ h.now_nonneg
  ordered := by
    rw [log_eq]
    exact List.pairwise_cons.mpr ⟨h.time_le, h.ordered⟩
  time_le := by
    rw [log_eq, now_eq]
    exact List.forall_mem_cons.mpr ⟨Int.le_refl _, h.time_le⟩
  inTime := by
    rw [log_eq]
    exact List.forall_mem_cons.mpr ⟨inTime, h.inTime⟩
  running := by
    rw [running_eq, now_eq]
    exact h.running

end Timely

theorem Mark.Fair.inTime {m : Mark} {w : World} (fair : m.Fair w) : Marked.InTime ⟨m, w.now⟩ := by
  cases m with
  | tried => exact fair.elim
  | asked => exact fair
  | _ => trivial

theorem Logs.timely {hand hand' : List Holding} {w w' : World} (logs : Logs hand w hand' w')
    (h : Timely hand w) : Timely hand' w' := by
  cases logs with
  | nothing log_eq forward shut running =>
    constructor
    case now_nonneg => exact Int.le_trans h.now_nonneg forward
    case ordered => exact log_eq ▸ h.ordered
    case time_le =>
      rw [log_eq]
      exact fun m member => Int.le_trans (h.time_le m member) forward
    case inTime => exact log_eq ▸ h.inTime
    case running =>
      exact fun call member => (h.running call (running call member)).mono forward
  | setOut call start_eq budget_eq running_eq same =>
    subst same
    have timed : call.Timed w'.now :=
      ⟨start_eq ▸ h.now_nonneg, Int.le_of_eq start_eq, budget_eq⟩
    exact { h with running := running_eq ▸ List.forall_mem_cons.mpr ⟨timed, h.running⟩ }
  | attempt call member runs left log_eq now_eq client_eq running_eq =>
    have inTime : Marked.InTime ⟨.tried call (call.budget - call.elapsed w.now), w.now⟩ :=
      ⟨h.running call member, left, rfl⟩
    exact h.enter inTime log_eq now_eq running_eq
  | mark m fair hand_eq same =>
    subst hand_eq same
    exact h.enter fair.inTime rfl rfl rfl

/-- No attempt begins at the deadline of its call or later, each has a millisecond at least, and no
more than the one before; and no stream asks for more after its deadline. -/
structure KeepsDeadlines (log : List Marked) : Prop where
  early : ∀ m ∈ log, ∀ call timeout, m.mark = .tried call timeout →
    m.time < call.deadline ∧ 1 ≤ timeout
  shrinking : log.Pairwise fun later earlier => ∀ call timeout timeout',
    earlier.mark = .tried call timeout → later.mark = .tried call timeout' → timeout' ≤ timeout
  asked : ∀ m ∈ log, ∀ deadline, m.mark = .asked deadline → m.time ≤ deadline

theorem Marked.InTime.tried {m : Marked} {call : Call} {timeout : Millis} (inTime : m.InTime)
    (tried : m.mark = .tried call timeout) : call.Timed m.time ∧
      call.elapsed m.time < call.budget ∧ timeout = call.budget - call.elapsed m.time := by
  rw [Marked.InTime, tried] at inTime
  exact inTime

theorem Timely.keepsDeadlines {hand : List Holding} {w : World} (h : Timely hand w)
    (fits : w.now < 0x8000000000000000) : KeepsDeadlines w.log := by
  have time_lt (m : Marked) (member : m ∈ w.log) : m.time < 0x8000000000000000 :=
    Int.lt_of_le_of_lt (h.time_le m member) fits
  constructor
  case early =>
    intro m member call timeout tried
    obtain ⟨timed, left, rfl⟩ := (h.inTime m member).tried tried
    constructor
    · exact timed.lt_deadline (time_lt m member) left
    · unfold Millis at *
      omega
  case shrinking =>
    refine List.Pairwise.imp_of_mem ?_ h.ordered
    intro later earlier memberLater member le call timeout timeout' tried triedLater
    obtain ⟨timed, -, rfl⟩ := (h.inTime earlier member).tried tried
    obtain ⟨-, -, rfl⟩ := (h.inTime later memberLater).tried triedLater
    exact Int.sub_le_sub_left (timed.elapsed_mono le (time_lt later memberLater)) _
  case asked =>
    intro m member deadline asked
    have inTime := h.inTime m member
    rwa [Marked.InTime, asked] at inTime

variable {α : Type} {p : Pause} {w w' : World} {deadline : Instant}

/-- In the end no attempt was made, and as many permits are out as in the beginning. -/
structure World.Idles (w w' : World) : Prop where
  log_eq : w'.log = w.log
  attempts_eq : w'.client.usage.totalAttempts = w.client.usage.totalAttempts
  inUse_eq : w'.client.semaphore.inUse = w.client.semaphore.inUse

/-- Something fails, and begins no attempt. -/
def Flow.Refuses (f : Flow α) (p : Pause) (w : World) : Prop :=
  f.Ensures p w fun r w' => (∃ e, r = .error e) ∧ w' = w

namespace Retry

variable {call : Call} {kind : Answering α} {attempt : Millis → Flow α}

theorem allow_refuses (late : call.budget ≤ call.elapsed w.now) (number : Nat) :
    (allow call number).Refuses p w := by
  have fails {β : Type} (kind : ErrorKind) (reason : Reason) :
      (call.fail kind reason : Flow β).Refuses p w :=
    ⟨⟨_, rfl⟩, rfl⟩
  simp only [Flow.Refuses, allow, Flow.ensures_bind, Flow.ensures_get, Flow.ensures_ite, late,
    if_true]
  split
  · exact fails _ _
  · exact fails _ _

theorem attempts_refuses (late : call.budget ≤ call.elapsed w.now) (left number : Nat) :
    (attempts call kind attempt left number).Refuses p w := by
  have refuses {next : ClientError → Millis → Flow (α × Nat)} :
      (attemptThen call kind attempt number next).Refuses p w := by
    rw [Flow.Refuses, attemptThen, Flow.ensures_bind]
    apply (allow_refuses late number).mono
    rintro r w' ⟨⟨e, rfl⟩, rfl⟩
    exact ⟨⟨e, rfl⟩, rfl⟩
  cases left with
  | zero => exact refuses
  | succ left => exact refuses

theorem run_refuses (late : call.budget ≤ call.elapsed w.now) :
    (run call kind attempt).Refuses p w := by
  simp only [Flow.Refuses, run, Flow.ensures_bind, Flow.ensures_get]
  split
  · exact ⟨⟨_, rfl⟩, rfl⟩
  · exact attempts_refuses late _ 1

end Retry

namespace Client

/-- What a world has become when somebody has waited in it for a permit, if there was none. -/
def Waited (p : Pause) (deadline : Instant) (w w₁ : World) : Prop :=
  w₁ = w ∨ w₁ = p deadline (·.client.semaphore.hasRoom) w

/-- There is one wait for a permit at most. One that is not kept is given back. -/
theorem obtainPermit_ensures (deadline : Instant) :
    (obtainPermit deadline).Ensures p w fun r w' => ∃ w₁, Waited p deadline w w₁ ∧
      match r with
      | .ok _ => w₁.now ≤ deadline ∧ w' = w₁.mapSemaphore Semaphore.take
      | .error _ =>
        w' = w₁ ∨ w' = (w₁.mapSemaphore Semaphore.take).mapSemaphore Semaphore.release := by
  have taken : (takePermit deadline).Ensures p w fun taken w' => ∃ w₁, Waited p deadline w w₁ ∧
      w' = if taken then w₁.mapSemaphore Semaphore.take else w₁ := by
    simp only [takePermit, Job.ensures_bind, Job.ensures_await, Job.ensures_ite,
      Job.ensures_modify, Job.ensures_pure]
    split
    · exact ⟨w, .inl rfl, rfl⟩
    · split
      · exact ⟨_, .inr rfl, rfl⟩
      · exact ⟨_, .inr rfl, rfl⟩
  simp only [obtainPermit, Flow.ensures_bind, Flow.ensures_get, Flow.ensures_ite,
    Flow.ensures_throw, Flow.ensures_lift]
  split
  · exact ⟨w, .inl rfl, .inl rfl⟩
  · apply taken.mono
    rintro taken w' ⟨w₁, waited, rfl⟩
    cases taken with
    | false => exact ⟨w₁, waited, .inl rfl⟩
    | true =>
      simp only [Bool.not_true, Bool.false_eq_true, if_false, if_true]
      split
      · exact ⟨w₁, waited, .inr rfl⟩
      · rename_i early
        split
        · exact ⟨w₁, waited, .inr rfl⟩
        · exact ⟨w₁, waited, Int.not_lt.mp early, rfl⟩

/-- A call that begins knows how much time it has. It fails if its texts cannot be written down, and
goes on with its request if they can. -/
theorem begun_ensures {messages : List Message} {stream : Bool} {rest : Call → Request → Flow α}
    {post : Except Failure α → World → Prop}
    (fails : ∀ chance, w.config.areTexts messages = false →
      post (.error (.json .wrongType)) { w with chance })
    (goes : ∀ (call : Call) request chance, call.start = w.now →
      call.budget = remainingUntil deadline w.now → w.config.areTexts messages = true →
        (rest call request).Ensures p { w with chance } post) :
    (do
      let call ← beginCall deadline
      rest call (← makeRequest messages stream call.key) : Flow α).Ensures p w post := by
  rw [Flow.ensures_bind, Flow.ensures_lift]
  apply (Retry.beginCall_ensures deadline).mono
  rintro call _ ⟨start_eq, budget_eq, chance, rfl⟩
  simp only [Flow.ensures_bind]
  apply (makeRequest_writes messages stream call.key).mono
  rintro (f | request) _ ⟨rfl, texts, written⟩
  · subst written
    exact fails chance texts
  · exact goes call request chance start_eq budget_eq texts

/-- A call whose time is up as it begins makes no attempt. -/
theorem begun_refuses (late : deadline ≤ w.now) {messages : List Message} {stream : Bool}
    {rest : Call → Request → Flow α}
    (refuses : ∀ call request w', call.budget ≤ call.elapsed w'.now →
      (rest call request).Refuses p w') :
    (do
      let call ← beginCall deadline
      rest call (← makeRequest messages stream call.key) : Flow α).Ensures p w fun r w' =>
        (∃ e, r = .error e) ∧ w.Idles w' := by
  apply begun_ensures
  · exact fun _ _ => ⟨⟨_, rfl⟩, rfl, rfl, rfl⟩
  · intro call request chance start_eq budget_eq _
    have spent : call.budget ≤ call.elapsed w.now := by
      rw [budget_eq, remainingUntil, if_pos late, Call.elapsed, Instant.since, start_eq,
        Int.sub_self]
      decide
    apply (refuses call request { w with chance } spent).mono
    rintro r _ ⟨failed, rfl⟩
    exact ⟨failed, rfl, rfl, rfl⟩

theorem chatAdmitted_late (late : deadline ≤ w.now) (messages : List Message) :
    (chatAdmitted messages deadline).Ensures p w fun r w' =>
      (∃ e, r = .error e) ∧ w.Idles w' := by
  have answered : (chatAnswered messages deadline).Ensures p w fun r w' =>
      (∃ e, r = .error e) ∧ w.Idles w' := by
    apply begun_refuses late
    intro call request w' spent
    rw [Flow.Refuses, Flow.ensures_bind]
    apply (Retry.run_refuses spent).mono
    rintro r w'' ⟨⟨e, rfl⟩, same⟩
    exact ⟨⟨e, rfl⟩, same⟩
  rw [chatAdmitted, Flow.ensures_bind]
  apply answered.mono
  rintro r w' ⟨⟨e, rfl⟩, idles⟩
  exact ⟨⟨e, rfl⟩, idles⟩

theorem streamAdmitted_late (late : deadline ≤ w.now) (messages : List Message) :
    (streamAdmitted messages deadline).Ensures p w fun r w' =>
      (∃ e, r = .error e) ∧ w.Idles w' := by
  apply begun_refuses late
  intro call request w' spent
  rw [Flow.Refuses, Flow.ensures_bind]
  apply (Retry.run_refuses spent).mono
  rintro r w'' ⟨⟨e, rfl⟩, same⟩
  exact ⟨⟨e, rfl⟩, same⟩

/-- A call fails without an attempt, and gives its permit back: in the end as many are out as when
it took one, after it had waited for it. -/
def Fruitless (p : Pause) (deadline : Instant) (w : World) (r : Except Failure α) (w' : World) :
    Prop :=
  (∃ e, r = .error e) ∧
    ∃ w₁, Waited p deadline ((w.mapUsage Usage.addCall).note .begun) w₁ ∧ w₁.Idles w'

/-- Once a call has waited for a permit, it has failed, or has one. -/
theorem counted_ensures {rest : Flow α} {post : Except Failure α → World → Prop}
    (fails : ∀ w₁ w' e, Waited p deadline ((w.mapUsage Usage.addCall).note .begun) w₁ →
      (w' = w₁ ∨ w' = (w₁.mapSemaphore Semaphore.take).mapSemaphore Semaphore.release) →
        post (.error e) ((w'.mapUsage Usage.addFailure).note .failed))
    (goes : ∀ w₁, Waited p deadline ((w.mapUsage Usage.addCall).note .begun) w₁ →
      w₁.now ≤ deadline →
        rest.Ensures p ((w₁.mapSemaphore Semaphore.take).note .admitted) fun r w' =>
          match r with
          | .ok a => post (.ok a) w'
          | .error e => post (.error e) ((w'.mapUsage Usage.addFailure).note .failed)) :
    (counted do
      obtainPermit deadline
      Job.note .admitted
      rest).Ensures p w post := by
  simp only [ensures_counted, Flow.ensures_bind, Flow.ensures_lift, Job.ensures_note]
  apply (obtainPermit_ensures deadline).mono
  rintro (e | _) w' ⟨w₁, waited, result⟩
  · exact fails w₁ w' e waited result
  · obtain ⟨early, rfl⟩ : w₁.now ≤ deadline ∧ w' = w₁.mapSemaphore Semaphore.take := result
    exact goes w₁ waited early

section Late
variable (forward : p.Forward) (late : deadline ≤ w.now)
include forward late

theorem counted_fruitless {rest : Flow α}
    (h : ∀ w₁, deadline ≤ w₁.now → rest.Ensures p w₁ fun r w' => (∃ e, r = .error e) ∧
      w'.log = w₁.log ∧ w'.client.usage.totalAttempts = w₁.client.usage.totalAttempts ∧
        w'.client.semaphore.inUse = w₁.client.semaphore.inUse - 1) :
    (counted do
      obtainPermit deadline
      Job.note .admitted
      rest).Ensures p w (Fruitless p deadline w) := by
  apply counted_ensures
  · rintro w₁ w' e waited (rfl | rfl)
    · exact ⟨⟨e, rfl⟩, _, waited, rfl, rfl, rfl⟩
    · exact ⟨⟨e, rfl⟩, w₁, waited, rfl, rfl, rfl⟩
  · intro w₁ waited early
    have still : deadline ≤ w₁.now := by
      obtain rfl | rfl := waited
      · exact late
      · exact Int.le_trans late (forward ..)
    apply (h ((w₁.mapSemaphore Semaphore.take).note .admitted) still).mono
    rintro r w' ⟨⟨e, rfl⟩, log_eq, attempts_eq, inUse_eq⟩
    exact ⟨⟨e, rfl⟩, w₁, waited, log_eq, attempts_eq, inUse_eq⟩

/-- A call that begins at its deadline or later comes to nothing. -/
theorem late_ends (messages : List Message) :
    (chat messages deadline).Ensures p w (Fruitless p deadline w) ∧
      (stream messages deadline).Ensures p w (Fruitless p deadline w) := by
  constructor
  · rw [chat, Flow.ensures_ite]
    split
    · exact ⟨⟨_, rfl⟩, _, .inl rfl, rfl, rfl, rfl⟩
    · refine counted_fruitless forward late fun w₁ late => ?_
      rw [Flow.ensures_bind, Flow.ensures_andAlways, ensures_succeeding]
      apply (chatAdmitted_late late messages).mono
      rintro r w₂ ⟨⟨e, rfl⟩, idles⟩
      exact ⟨⟨e, rfl⟩, idles.log_eq, idles.attempts_eq, congrArg (· - 1) idles.inUse_eq⟩
  · rw [stream, Flow.ensures_ite]
    split
    · exact ⟨⟨_, rfl⟩, _, .inl rfl, rfl, rfl, rfl⟩
    · refine counted_fruitless forward late fun w₁ late => ?_
      rw [Flow.ensures_bind, Flow.ensures_onFailure]
      apply (streamAdmitted_late late messages).mono
      rintro r w₂ ⟨⟨e, rfl⟩, idles⟩
      exact ⟨⟨e, rfl⟩, idles.log_eq, idles.attempts_eq, congrArg (· - 1) idles.inUse_eq⟩

end Late

end Client

namespace World

variable {c : Config}

/-- Whatever is done, what the log says of deadlines is right. -/
theorem Begun.timely (begun : Begun c w) (acts : List Act) : Timely [] (w.steps acts) := by
  obtain ⟨now, log, -⟩ := begun.start
  have timely : Timely [] w := by
    constructor
    case now_nonneg => exact Int.le_of_eq now.symm
    case ordered => exact log ▸ List.Pairwise.nil
    case time_le => exact log ▸ List.forall_mem_nil _
    case inTime => exact log ▸ List.forall_mem_nil _
    case running => exact List.forall_mem_nil _
  exact steps_keeps (fun _ _ _ _ => Logs.timely) timely acts

/-- In a run of any acts, with any number of calls, retries and streams, whatever happens while
something waits: no attempt begins at its deadline or later, none has less than a millisecond, none
has more than the one before, and no stream asks for more after its deadline. A call that begins at
its deadline or later fails without an attempt, and gives its permit back. -/
theorem steps_keep_deadlines (begun : Begun c w) (acts : List Act)
    (fits : (w.steps acts).now < 0x8000000000000000) :
    KeepsDeadlines (w.steps acts).log ∧ (∀ n, (Pause.acts n).Forward) ∧
      ∀ (p : Pause) (w' : World) (messages : List Message) (deadline : Instant), p.Forward →
        deadline ≤ w'.now →
          (Client.chat messages deadline).Ensures p w' (Client.Fruitless p deadline w') ∧
            (Client.stream messages deadline).Ensures p w' (Client.Fruitless p deadline w') := by
  constructor
  · exact (begun.timely acts).keepsDeadlines fits
  constructor
  · exact Pause.acts_forward
  · exact fun p w' messages deadline forward late => Client.late_ends forward late messages

/-- A call is limited in an attempt that another call waits through in vain, and tries again; then a
stream is read beyond its last event, and a last call has no time. -/
theorem steps_keep_deadlines_limited :
    let c : Config := { clientTag := [], maxConcurrent := 1 }
    let soon : Headers := [(ascii "retry-after", ascii "0")]
    let script : Script := { replies := [
      { status := 429, headers := soon, delay := 1500000 }, .plain,
      { chunks := some [{ data := ascii "data: [DONE]\n" }, { data := [1], delay := 5 }] }] }
    let hi : List Message := [{ role := [], content := [104, 105] }]
    let acts : List Act := [
      .later 1 (.chat hi (some 5)), .chat hi (some 4000000), .stream [1] hi (some 3000000),
      .next [1] 1, .advance 5, .chat hi (some 0)]
    ∃ w, Begun c w ∧ w.script = script ∧ (w.steps acts).now = 1500010 ∧
      (w.steps acts).log.length = 8 ∧ KeepsDeadlines (w.steps acts).log ∧
      (Client.chat hi 0).Ensures (.acts 1) w (Client.Fruitless (.acts 1) 0 w) := by
  intro c soon script hi acts
  let w : World := {
    config := c, target := chatPath, client := .ofConfig c 1, chance := .ofSeed 1, script }
  have begun : Begun c w := ⟨1, script, .inr (by rfl)⟩
  have now : (w.steps acts).now = 1500010 := by decide +kernel
  have length : (w.steps acts).log.length = 8 := by decide +kernel
  have fits : (w.steps acts).now < 0x8000000000000000 := by
    rw [now]
    decide
  obtain ⟨keeps, forward, late⟩ := steps_keep_deadlines begun acts fits
  exact ⟨w, begun, rfl, now, length, keeps, (late _ w hi 0 (forward 1) (Int.le_refl 0)).1⟩

end World

end Parley
