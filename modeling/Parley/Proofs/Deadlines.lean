import Parley.Proofs.Acts
import Parley.Proofs.Attempts
import Parley.Proofs.Failures
import Parley.Proofs.Seeks

/-!
Nothing goes on past its deadline, if every single wait ends in time. A call counts its time in
whole milliseconds, so it may take up to one more.

* `Moves.passes`: what waits until no later than some instant is over by then;
* `EventStream.next_passes`: so is the next answer of a stream by the deadline of the stream;
* `Retry.run_runs`: the attempts of a call keep it running, which is not for long.
-/
namespace Parley

variable {α : Type} {p : Pause} {w w' : World} {hand hand' : List Holding} {last deadline : Instant}

/-- A world whose calls go over the wire, with such delays between attempts as may be configured. -/
structure World.Wired (w : World) : Prop where
  overWire : w.script.overWire = true
  unscripted : ∀ number closed, w.transport ≠ some (.scripted number closed)
  base : 0 ≤ w.client.backoff.base
  cap : 0 ≤ w.client.backoff.cap

/-- What may happen to a world until an instant; nothing does after it. -/
structure World.Passes (last : Instant) (w w' : World) : Prop where
  config_eq : w'.config = w.config
  forward : w.now ≤ w'.now
  within : w'.now ≤ max w.now last
  wired : w.Wired → w'.Wired

/-- A pause that lets every wait end at its end, or at once if that is past. Otherwise anything may
happen to the world meanwhile. -/
def Pause.Punctual (p : Pause) : Prop := ∀ t stop (w : World), w.Passes t (p t stop w)

namespace World.Passes

theorem refl : w.Passes last w := ⟨rfl, Int.le_refl _, Int.le_max_left .., id⟩

theorem trans {w'' : World} (h : w.Passes last w') (h' : w'.Passes last w'') :
    w.Passes last w'' where
  config_eq := h'.config_eq.trans h.config_eq
  forward := Int.le_trans h.forward h'.forward
  within := by
    have sooner := h.within
    have later := h'.within
    unfold Instant at *
    omega
  wired wired := h'.wired (h.wired wired)

theorem mono {t : Instant} (h : w.Passes t w') (le : t ≤ last) : w.Passes last w' where
  config_eq := h.config_eq
  forward := h.forward
  within := by
    have within := h.within
    unfold Instant at *
    omega
  wired := h.wired

/-- Something happens at once. -/
theorem of_core (core_eq : w'.core = w.core) : w.Passes last w' := by
  have now : w'.now = w.now := congrArg (·.now) core_eq
  refine ⟨congrArg (·.config) core_eq, Int.le_of_eq now.symm, ?_, fun wired => ?_⟩
  · rw [now]
    exact Int.le_max_left ..
  · have wired : w.core.Wired := { wired with }
    rw [← core_eq] at wired
    exact { wired with }

end World.Passes

theorem Pause.quiet_punctual : Pause.quiet.Punctual := by
  intro t stop w
  unfold Pause.quiet
  split
  · exact .refl
  · exact ⟨rfl, Int.le_max_left .., Int.le_refl _, fun wired => { wired with }⟩

/-- A run in which nothing waits past an instant. -/
def Setting.lasting (c : Config) (last : Instant) : Setting where
  config := c
  awaited t := t ≤ last
  elapses := World.Passes last
  raw := True
  orderly passes orderly :=
    World.orderly_raw (passes.config_eq.trans orderly.config_eq)

section Lasting
variable {c : Config}

theorem Setting.orderly_lasting (w : World) : (Setting.lasting w.config last).Orderly w :=
  World.orderly_raw rfl

theorem Setting.entitled_lasting (hand : List Holding) : (Setting.lasting c last).Entitled hand :=
  .inl trivial

theorem Setting.until_lasting {t : Instant} (le : t ≤ last) : (Setting.lasting c last).Until t :=
  fun _ sooner => Int.le_trans sooner le

theorem Move.passes {a b : List Holding × World} (move : Move (.lasting c last) a b) :
    a.2.Passes last b.2 := by
  cases move with
  | elapse passes => exact passes
  | aside core_eq => exact .of_core core_eq
  | renew idle running made =>
    exact ⟨rfl, Int.le_refl _, Int.le_max_left .., fun wired => { wired with unscripted := nofun }⟩
  | forsake idle =>
    exact ⟨rfl, Int.le_refl _, Int.le_max_left .., fun wired => { wired with unscripted := nofun }⟩
  | furnish idle running unwired number =>
    refine ⟨rfl, Int.le_refl _, Int.le_max_left .., fun wired => ?_⟩
    cases wired.overWire.symm.trans unwired
  | retire current =>
    exact ⟨rfl, Int.le_refl _, Int.le_max_left .., fun wired =>
      absurd current (wired.unscripted _ _)⟩
  | closeStream permit succeeded =>
    cases permit <;> exact ⟨rfl, Int.le_refl _, Int.le_max_left .., fun wired => { wired with }⟩
  | _ => exact ⟨rfl, Int.le_refl _, Int.le_max_left .., fun wired => { wired with }⟩

theorem Moves.passes (moves : Moves (.lasting c last) hand w hand' w') : w.Passes last w' :=
  moves.keeps (P := fun _ => w.Passes last) (fun _ _ move passes => passes.trans move.passes) .refl

theorem Pause.Punctual.keeps (punctual : p.Punctual) : p.Keeps (.lasting c last) :=
  fun t within stop _ w _ => .single (.elapse ((punctual t stop w).mono within))

end Lasting

namespace EventStream

/-- A stream that is finished, or that has a certain deadline. -/
def Due (deadline : Instant) : EventStream → Prop
  | .finished => True
  | .unfinished s => s.deadline = deadline

/-- A stream has its deadline as long as it is not finished. -/
theorem next_due {s : EventStream} (due : s.Due deadline) :
    (next s).Ensures p w fun r _ => r.2.Due deadline := by
  cases s with
  | finished => exact trivial
  | unfinished s =>
    apply (next_finished_or s).mono
    rintro ⟨_, _⟩ _ (rfl | ⟨value, -, ⟨⟩⟩)
    · exact trivial
    · exact (found_seeks p w s).continues.deadline_eq.trans due

/-- Whoever asks for the next event gets an answer by the deadline. -/
theorem next_passes (punctual : p.Punctual) {s : EventStream} (due : s.Due deadline) :
    (next s).Ensures p w fun _ w' => w.Passes deadline w' := by
  have within (open_ : OpenStream) (same : s = .unfinished open_) :
      (Setting.lasting w.config deadline).Until open_.deadline := by
    subst same
    exact Setting.until_lasting (Int.le_of_eq due)
  have trades : Job.Trades (.lasting w.config deadline) p (s.holdings ++ []) (next s)
      fun r => r.2.holdings ++ [] := trades_next punctual.keeps s within
  exact (trades w (Setting.orderly_lasting w)).mono fun _ _ moves => Moves.passes moves

end EventStream

/-- A failure that asks for no negative wait. -/
def Failure.Patient (f : Failure) : Prop := ∀ e, f = .client e → 0 ≤ e.retryAfter

theorem Failure.patient_of_wire {f : Failure} (wire : f.IsClient → Session.IsWire f) :
    f.Patient := by
  rintro e rfl
  obtain ⟨reason, same⟩ := wire ⟨e, rfl⟩
  cases same
  exact Int.le_refl 0

namespace Call

/-- A call whose time, as whole milliseconds, does not go beyond 64 bits. -/
structure Fits (c : Call) : Prop where
  start : 0 ≤ c.start
  budget : 0 ≤ c.budget
  finish : c.start + c.budget * 1000000 < 0x8000000000000000

/-- The latest instant of a call: its budget is used up, by less than a millisecond. -/
def latest (c : Call) : Instant := min (c.start + c.budget * 1000000 + 999999) 0x7FFFFFFFFFFFFFFF

/-- A call that is not late. -/
structure Runs (c : Call) (w : World) : Prop where
  begun : c.start ≤ w.now
  within : w.now ≤ c.latest
  wired : w.Wired

variable {c : Call}

theorem Runs.passes (runs : c.Runs w) (passes : w.Passes c.latest w') : c.Runs w' where
  begun := Int.le_trans runs.begun passes.forward
  within := by
    have before := runs.within
    have within := passes.within
    unfold Instant at *
    omega
  wired := passes.wired runs.wired

theorem Fits.plusMillis_budget (fits : c.Fits) : c.start.plusMillis c.budget ≤ c.latest := by
  obtain ⟨start, budget, finish⟩ := fits
  unfold Instant.plusMillis Instant.plus latest
  rw [nanos_of_fits ⟨by unfold Millis at *; omega, by unfold Instant Millis at *; omega⟩,
    wrap64_of_fits ⟨by unfold Instant Millis at *; omega, finish⟩]
  unfold Instant Millis at *
  omega

/-- What fits into the time that is left does not make the call late. -/
theorem Fits.plusMillis_le (fits : c.Fits) (runs : c.Runs w) {wait : Millis} (nonneg : 0 ≤ wait)
    (short : wait ≤ c.budget - c.elapsed w.now) : w.now.plusMillis wait ≤ c.latest := by
  obtain ⟨start, budget, finish⟩ := fits
  have begun := runs.begun
  have within := runs.within
  unfold latest at *
  -- What is more than whole milliseconds does not count, so the call may take that much longer.
  have elapsed : c.elapsed w.now = (w.now - c.start) / 1000000 := by
    unfold elapsed Instant.since
    unfold Instant at *
    rw [wrap64_of_fits ⟨by omega, by omega⟩, toMillis_of_nonneg (by unfold Nanos; omega)]
  rw [elapsed] at short
  have nanos : Millis.nanos wait = wait * 1000000 :=
    nanos_of_fits ⟨by unfold Millis at *; omega, by unfold Instant Millis at *; omega⟩
  have wrapped : wrap64 (w.now + wait * 1000000) ≤ w.now + wait * 1000000 :=
    wrap64_le (by unfold Instant Millis at *; omega)
  have least := wrap64_lt (w.now + wait * 1000000)
  unfold Instant.plusMillis Instant.plus
  rw [nanos]
  unfold Instant Millis at *
  omega

/-- A wait of the least number of milliseconds is none, counted in nanoseconds. -/
theorem Runs.plusMillis_least (fits : c.Fits) (runs : c.Runs w) :
    w.now.plusMillis Double.leastInt64 ≤ c.latest := by
  have begun := runs.begun
  have within := runs.within
  have start := fits.start
  have none : Millis.nanos Double.leastInt64 = 0 := by decide
  unfold Instant.plusMillis Instant.plus
  rw [none, Int.add_zero]
  exact Int.le_trans (wrap64_le (Int.le_trans start begun)) within

end Call

variable {call : Call}

/-- A job whose waits do not make a call late does not make it late. -/
theorem Job.Trades.runs (hand : List Holding) {j : Job α} {post : α → List Holding}
    (trades : Job.Trades (.lasting w.config call.latest) p hand j post) (runs : call.Runs w) :
    j.Ensures p w fun _ w' => call.Runs w' :=
  (trades w (Setting.orderly_lasting w)).mono fun _ _ moves => runs.passes (Moves.passes moves)

/-- Something that keeps a call running may be tried in it, for some time. -/
def Call.Tries (call : Call) (p : Pause) (attempt : Millis → Flow α) : Prop :=
  ∀ w timeout, call.Runs w → w.now.plusMillis timeout ≤ call.latest →
    (attempt timeout).Ensures p w fun r w' =>
      call.Runs w' ∧ ∀ f, r = .error f → f.Patient

/-- Answers that can be looked at without making a call late. -/
structure Answering.Timely (kind : Answering α) (call : Call) (p : Pause)
    (things : α → List Holding) : Prop where
  clears (c : Config) : kind.Clears (.lasting c call.latest) p things
  patient (answer : α) (limit : Instant) : (kind.errorBody answer limit).FailsBy Failure.Patient

theorem Answering.unary_timely : Answering.unary.Timely call p fun _ => [] where
  clears _ := unary_clears
  patient _ _ := .pure _

theorem Answering.streaming_timely (punctual : p.Punctual) :
    Answering.streaming.Timely call p Source.holdings where
  clears _ := streaming_clears punctual.keeps
  patient s limit := by
    refine .bind (.lift _) ?_
    rintro ⟨result, s⟩
    refine .bind (.lift _) fun _ => ?_
    split
    · exact .pure _
    · exact .pure _
    · rename_i other
      exact .throw fun e same => absurd same (other e)

namespace Retry

variable {kind : Answering α} {things : α → List Holding} {attempt : Millis → Flow α}

/-- What looking at an answer may come to: no error of it asks for a negative wait. -/
def Bearable : Except Failure (Attempt α) → Prop
  | .ok (.accepted _) => True
  | .ok (.refused e) => 0 ≤ e.retryAfter
  | .error f => f.Patient

theorem judge_bearable (timely : kind.Timely call p things) (answer : α) :
    (judge call kind answer).Ensures p w fun r _ => Bearable r := by
  unfold judge
  rw [Flow.ensures_ite]
  split
  · exact trivial
  · rw [Flow.ensures_bind]
    apply (timely.patient answer _ p w).mono
    intro r w' failed
    cases r with
    | error f => exact failed f rfl
    | ok body =>
      simp only [Flow.ensures_bind, Flow.ensures_lift, Flow.ensures_pure]
      apply Job.Ensures.of_all
      intro e w''
      rw [Bearable]
      split
      · exact RetryAfter.parse_nonneg _
      · exact Int.le_refl 0

theorem judge_runs (timely : kind.Timely call p things) (fits : call.Fits) (runs : call.Runs w)
    (answer : α) : (judge call kind answer).Ensures p w fun _ w' => call.Runs w' :=
  Job.Trades.runs (things answer ++ [])
    (trades_judge (timely.clears _) (Setting.until_lasting fits.plusMillis_budget) answer) runs

/-- One attempt does not make a call late. -/
theorem attemptOnce_runs (timely : kind.Timely call p things) (fits : call.Fits)
    (tries : call.Tries p attempt) (runs : call.Runs w) {timeout : Millis}
    (inTime : w.now.plusMillis timeout ≤ call.latest) :
    (attemptOnce call kind (attempt timeout)).Ensures p w fun r w' =>
      call.Runs w' ∧ ∀ e, r = .ok (.refused e) → 0 ≤ e.retryAfter := by
  have judged : (do judge call kind (← attempt timeout) : Flow (Attempt α)).Ensures p w
      fun r w' => call.Runs w' ∧ Bearable r := by
    rw [Flow.ensures_bind]
    apply (tries w timeout runs inTime).mono
    rintro (f | answer) w' ⟨runs, failed⟩
    · exact ⟨runs, failed f rfl⟩
    · exact (judge_runs timely fits runs answer).and (judge_bearable timely answer)
  unfold attemptOnce
  rw [Flow.ensures_bind, Flow.ensures_attempt]
  apply judged.mono
  rintro (f | result) w' ⟨runs, bearable⟩
  · cases f with
    | client e =>
      simp only [Flow.ensures_ite, Flow.ensures_pure, Flow.ensures_bind, Flow.ensures_get,
        Flow.ensures_throw]
      split
      · refine ⟨runs, ?_⟩
        rintro _ ⟨⟩
        exact bearable e rfl
      · exact ⟨runs, fun e same => by cases same⟩
    | _ => exact ⟨runs, fun e same => by cases same⟩
  · refine ⟨runs, ?_⟩
    rintro e ⟨⟩
    exact bearable

/-- An attempt is allowed for no longer than the call may take. -/
theorem allow_runs (fits : call.Fits) (runs : call.Runs w) (number : Nat) :
    (allow call number).Ensures p w fun r w' => call.Runs w' ∧
      ∀ timeout, r = .ok timeout → w'.now.plusMillis timeout ≤ call.latest := by
  simp only [allow, Flow.ensures_bind, Flow.ensures_get, Flow.ensures_ite, Flow.ensures_lift,
    Flow.ensures_pure, Job.ensures_count, Job.ensures_note, Job.ensures_mark]
  split
  · refine ⟨runs, ?_⟩
    rintro timeout ⟨⟩
  · split
    · refine ⟨runs, ?_⟩
      rintro timeout ⟨⟩
    · rename_i left
      refine ⟨⟨runs.begun, runs.within, { runs.wired with }⟩, ?_⟩
      rintro timeout ⟨⟩
      have left : 0 ≤ call.budget - call.elapsed w.now := by
        unfold Millis at *
        omega
      exact fits.plusMillis_le runs left (Int.le_refl _)

/-- A wait that the server or the backoff may ask for. It is not negative, except that a delay
beyond 64 bits becomes their least number. -/
def Sensible (wait : Millis) : Prop := 0 ≤ wait ∨ wait = Double.leastInt64

theorem waitAfter_runs (runs : call.Runs w) (number : Nat) {e : ClientError}
    (patient : 0 ≤ e.retryAfter) :
    (waitAfter number e).Ensures p w fun r w' =>
      call.Runs w' ∧ ∀ wait, r = some wait → Sensible wait := by
  have going := Job.Trades.runs (p := p) [] (trades_waitAfter number e) runs
  have sensible : (waitAfter number e).Ensures p w fun r _ =>
      ∀ wait, r = some wait → Sensible wait := by
    have delay := w.client.backoff.delayFor_cases number runs.wired.base runs.wired.cap
    unfold waitAfter
    split
    · rintro _ ⟨⟩
      exact .inl patient
    · rintro _ ⟨⟩
      exact delay
    · rintro _ ⟨⟩
      exact delay
    · exact nofun
  exact going.and sensible

/-- A wait that fits into the budget does not make a call late. -/
theorem waitOut_runs (punctual : p.Punctual) (fits : call.Fits) (runs : call.Runs w)
    (number : Nat) (e : ClientError) {wait : Millis} (sensible : Sensible wait) :
    (waitOut call number e wait).Ensures p w fun _ w' => call.Runs w' := by
  have concluded (kind : ErrorKind) (reason : Reason) :
      (conclude call kind reason e).Ensures p w fun _ w' => call.Runs w' :=
    Job.Trades.runs [] (trades_conclude kind reason e) runs
  simp only [waitOut, Flow.ensures_bind, Flow.ensures_get, Flow.ensures_ite, Flow.ensures_lift,
    Flow.ensures_throw, Job.ensures_notice]
  split
  · exact concluded _ _
  · rename_i short
    have inTime : w.now.plusMillis wait ≤ call.latest := by
      obtain nonneg | rfl := sensible
      · exact fits.plusMillis_le runs nonneg (Int.le_of_lt (Int.not_le.mp short))
      · exact runs.plusMillis_least fits
    have slept (n : Notice) : (sleep wait).Ensures p (w.tell n) fun _ w' => call.Runs w' := by
      have told : call.Runs (w.tell n) := runs.passes (.of_core rfl)
      simp only [sleep, Job.ensures_bind, Job.ensures_get, Job.ensures_await, Job.ensures_pure]
      split
      · exact told
      · exact told.passes ((punctual _ _ _).mono inTime)
    apply (slept _).mono
    intro awake w' runs
    split
    · exact runs
    · exact runs

/-- What every attempt has in common: it ends the call, or a wait may follow. -/
theorem attemptThen_runs (timely : kind.Timely call p things) (fits : call.Fits)
    (tries : call.Tries p attempt) (runs : call.Runs w) (number : Nat)
    {next : ClientError → Millis → Flow (α × Nat)}
    (goesOn : ∀ e wait w', call.Runs w' → Sensible wait →
      (next e wait).Ensures p w' fun _ w'' => call.Runs w'') :
    (attemptThen call kind attempt number next).Ensures p w fun _ w' => call.Runs w' := by
  unfold attemptThen
  rw [Flow.ensures_bind]
  apply (allow_runs fits runs number).mono
  rintro (f | timeout) w₁ ⟨runs, inTime⟩
  · exact runs
  · simp only [Flow.ensures_bind]
    apply (attemptOnce_runs timely fits tries runs (inTime timeout rfl)).mono
    rintro (f | answer | e) w₂ ⟨runs, patient⟩
    · exact runs
    · exact runs
    · simp only [Flow.ensures_bind, Flow.ensures_lift]
      apply (waitAfter_runs runs number (patient e rfl)).mono
      rintro (_ | wait) w₃ ⟨runs, sensible⟩
      · exact runs.passes (.of_core rfl)
      · exact goesOn e wait w₃ runs (sensible wait rfl)

theorem attempts_runs (punctual : p.Punctual) (timely : kind.Timely call p things)
    (fits : call.Fits) (tries : call.Tries p attempt) (runs : call.Runs w) (left number : Nat) :
    (attempts call kind attempt left number).Ensures p w fun _ w' => call.Runs w' := by
  induction left generalizing number w with
  | zero =>
    apply attemptThen_runs timely fits tries runs number
    intro e wait w' runs _
    simp only [Flow.ensures_bind, Flow.ensures_lift, Flow.ensures_throw]
    exact Job.Trades.runs [] (trades_conclude _ _ e) runs
  | succ left ih =>
    apply attemptThen_runs timely fits tries runs number
    intro e wait w' runs sensible
    rw [Flow.ensures_bind]
    apply (waitOut_runs punctual fits runs number e sensible).mono
    rintro (f | _) w'' runs
    · exact runs
    · exact ih runs (number + 1)

/-- Attempts keep a call running to its end. -/
theorem run_runs (punctual : p.Punctual) (timely : kind.Timely call p things) (fits : call.Fits)
    (tries : call.Tries p attempt) (runs : call.Runs w) :
    (run call kind attempt).Ensures p w fun _ w' => call.Runs w' := by
  simp only [run, Flow.ensures_bind, Flow.ensures_get]
  split
  · exact runs
  · exact attempts_runs punctual timely fits tries runs _ 1

end Retry

namespace Client

theorem makeTransport_wired (wired : w.Wired) :
    makeTransport.Ensures p w fun r w' => w.Passes w.now w' ∧
      match r with
      | .ok t => ∃ i, t = .session i
      | .error f => f.Patient := by
  have patient (reason : Reason) : Failure.Patient (.client { kind := .unexpected, reason }) := by
    rintro e ⟨⟩
    exact Int.le_refl 0
  rw [makeTransport, Flow.ensures_bind, Flow.ensures_lift]
  apply takeMaking_ensures.mono
  intro making w₁ core_eq
  have taken : w.Passes w.now w₁ := .of_core core_eq
  have overWire : w₁.script.overWire = true := (taken.wired wired).overWire
  -- What is made is a session, if anything is.
  have keeps {w' : World} (config_eq : w'.config = w₁.config) (now : w'.now = w₁.now)
      (goesOn : w₁.Wired → w'.Wired) : w.Passes w.now w' :=
    ⟨config_eq.trans taken.config_eq, now ▸ taken.forward, now ▸ taken.within,
      fun wired => goesOn (taken.wired wired)⟩
  cases making with
  | nothing =>
    exact ⟨keeps rfl rfl fun wired => { wired with unscripted := by rintro _ _ ⟨⟩ }, patient _⟩
  | failure message => exact ⟨taken, patient _⟩
  | transport =>
    simp only [Flow.ensures_bind, Flow.ensures_modify, Flow.ensures_get, Flow.ensures_ite, overWire,
      if_true]
    split
    · exact ⟨keeps rfl rfl fun wired => { wired with }, patient _⟩
    · exact ⟨keeps rfl rfl fun wired => { wired with unscripted := by rintro _ _ ⟨⟩ }, _, rfl⟩

/-- Over the wire every attempt is handed to a session. -/
theorem handOver_wired (wired : w.Wired) (request : Request) :
    (handOver request).Ensures p w fun r w' => w.Passes w.now w' ∧
      match r with
      | .ok t => ∃ i, t = .session i
      | .error f => f.Patient := by
  have found : transport.Ensures p w fun r w' => w.Passes w.now w' ∧
      match r with
      | .ok t => ∃ i, t = .session i
      | .error f => f.Patient := by
    simp only [transport, Flow.ensures_bind, Flow.ensures_get]
    split
    · rename_i t current
      rw [Flow.ensures_ite]
      split
      · exact makeTransport_wired wired
      · cases t with
        | scripted number closed => exact absurd current (wired.unscripted number closed)
        | session i => exact ⟨.refl, i, rfl⟩
    · exact makeTransport_wired wired
  rw [handOver, Flow.ensures_bind]
  apply found.mono
  rintro (f | t) w' ⟨passes, result⟩
  · exact ⟨passes, result⟩
  · refine ⟨passes.trans ⟨rfl, Int.le_refl _, Int.le_max_left .., ?_⟩, result⟩
    exact fun wired => { wired with }

section Tries
variable {call : Call}

/-- An attempt has a session as soon as it begins. -/
theorem handOver_tries (runs : call.Runs w) {timeout : Millis}
    (inTime : w.now.plusMillis timeout ≤ call.latest) (request : Request)
    {rest : Transport → Flow α}
    (sends : ∀ i w', call.Runs w' → w'.now.plusMillis timeout ≤ call.latest →
      (rest (.session i)).Ensures p w' fun r w'' =>
        call.Runs w'' ∧ ∀ f, r = .error f → f.Patient) :
    (handOver request >>= rest).Ensures p w fun r w' =>
      call.Runs w' ∧ ∀ f, r = .error f → f.Patient := by
  rw [Flow.ensures_bind]
  apply (handOver_wired runs.wired request).mono
  rintro (f | t) w' ⟨passes, result⟩
  · refine ⟨runs.passes (passes.mono runs.within), ?_⟩
    rintro _ ⟨⟩
    exact result
  · obtain ⟨i, rfl⟩ := result
    have now : w'.now = w.now :=
      Int.le_antisymm ((Int.max_self w.now) ▸ passes.within) passes.forward
    exact sends i w' (runs.passes (passes.mono runs.within)) (now ▸ inTime)

theorem sendUnary_tries (punctual : p.Punctual) (request : Request) :
    call.Tries p (sendUnary request) := by
  intro w timeout runs inTime
  apply handOver_tries runs inTime
  intro i w' runs inTime
  have sent := Session.ensures_send (i := i) punctual.keeps request (Setting.orderly_lasting w')
    (Setting.until_lasting inTime) (Setting.entitled_lasting [])
  apply (sent.and (Session.send_failsBy request timeout p w')).mono
  rintro r w'' ⟨moves, fails⟩
  exact ⟨runs.passes (Moves.passes moves),
    fun f failed => Failure.patient_of_wire (fails f failed)⟩

theorem sendStreaming_tries (punctual : p.Punctual) (request : Request) :
    call.Tries p (sendStreaming request) := by
  intro w timeout runs inTime
  apply handOver_tries runs inTime
  intro i w' runs inTime
  have sent := Session.ensures_sendStreaming (i := i) punctual.keeps request
    (Setting.orderly_lasting w') (Setting.until_lasting inTime)
    (Setting.entitled_lasting [])
  rw [streamOver, Flow.ensures_bind]
  apply (sent.and (Session.sendStreaming_failsBy request timeout p w')).mono
  rintro (f | body) w'' ⟨moves, fails⟩
  · refine ⟨runs.passes (Moves.passes moves), ?_⟩
    rintro _ ⟨⟩
    exact Failure.patient_of_wire (fails f rfl)
  · exact ⟨runs.passes (Moves.passes moves), by rintro _ ⟨⟩⟩

end Tries

/-- A call that begins in time has the time that is left until its deadline. -/
theorem beginCall_runs (wired : w.Wired) (nonneg : 0 ≤ w.now) (inTime : w.now ≤ deadline)
    (fits : deadline < 0x8000000000000000) :
    (beginCall deadline).Ensures p w fun call w' =>
      call.Fits ∧ call.latest < deadline + 1000000 ∧ call.Runs w' := by
  apply (Retry.beginCall_ensures deadline).mono
  rintro call _ ⟨start, budget, chance, rfl⟩
  rw [Retry.remainingUntil_eq nonneg fits] at budget
  have enough : 0 ≤ call.budget := by
    rw [budget]
    exact Int.ediv_nonneg (Int.le_max_left ..) (by decide)
  have finish : call.start + call.budget * 1000000 ≤ deadline := by
    rw [start, budget]
    unfold Instant Millis at *
    omega
  have callFits : call.Fits := ⟨start ▸ nonneg, enough, Int.lt_of_le_of_lt finish fits⟩
  have latest : call.latest < deadline + 1000000 ∧ w.now ≤ call.latest := by
    rw [← start] at inTime ⊢
    unfold Call.latest
    unfold Instant Millis at *
    omega
  exact ⟨callFits, latest.1, Int.le_of_eq start, latest.2, { wired with }⟩

section Admitted
variable (wired : w.Wired) (nonneg : 0 ≤ w.now) (early : w.now ≤ deadline)
  (fits : deadline < 0x8000000000000000)
include wired nonneg early fits

/-- A call ends in time if what follows its beginning keeps it running. -/
theorem begun_inTime (messages : List Message) (stream : Bool) {rest : Call → Request → Flow α}
    (goes : ∀ call request w', call.Fits → call.Runs w' →
      (rest call request).Ensures p w' fun _ w'' => call.Runs w'') :
    (do
      let call ← beginCall deadline
      rest call (← makeRequest messages stream call.key) : Flow α).Ensures p w fun _ w' =>
      w'.now < deadline + 1000000 := by
  rw [Flow.ensures_bind, Flow.ensures_lift]
  apply (beginCall_runs wired nonneg early fits).mono
  rintro call w₁ ⟨callFits, latest, runs⟩
  have written : (makeRequest messages stream call.key).Ensures p w₁ fun _ w₂ => call.Runs w₂ :=
    Job.Trades.runs [] (trades_makeRequest _ _ _) runs
  simp only [Flow.ensures_bind]
  apply written.mono
  rintro (f | request) w₂ runs
  · exact Int.lt_of_le_of_lt runs.within latest
  · apply (goes call request w₂ callFits runs).mono
    exact fun _ _ runs => Int.lt_of_le_of_lt runs.within latest

variable (punctual : p.Punctual)
include punctual

theorem chatAdmitted_inTime (messages : List Message) :
    (chatAdmitted messages deadline).Ensures p w fun _ w' => w'.now < deadline + 1000000 := by
  have answered : (chatAnswered messages deadline).Ensures p w fun _ w' =>
      w'.now < deadline + 1000000 := by
    apply begun_inTime wired nonneg early fits
    intro call request w' callFits runs
    rw [Flow.ensures_bind]
    apply (Retry.run_runs punctual Answering.unary_timely callFits
      (sendUnary_tries punctual request) runs).mono
    rintro (f | answer) w'' runs
    · exact runs
    · exact runs
  unfold chatAdmitted
  rw [Flow.ensures_bind]
  apply answered.mono
  rintro (f | ⟨call, response, attempts⟩) w' inTime
  · exact inTime
  · simp only [decode]
    split
    · exact inTime
    · exact inTime
    · exact inTime

theorem streamAdmitted_inTime (messages : List Message) :
    (streamAdmitted messages deadline).Ensures p w fun _ w' => w'.now < deadline + 1000000 := by
  apply begun_inTime wired nonneg early fits
  intro call request w' callFits runs
  rw [Flow.ensures_bind]
  apply (Retry.run_runs punctual (Answering.streaming_timely punctual) callFits
    (sendStreaming_tries punctual request) runs).mono
  rintro (f | ⟨source, attempts⟩) w'' runs
  · exact runs
  · exact runs.passes (.of_core rfl)

end Admitted

/-- A call is at its end in time: at once, or less than a millisecond after its deadline. -/
def InTime (deadline : Instant) (w w' : World) : Prop :=
  w'.now ≤ w.now ∨ w'.now < deadline + 1000000

/-- A call waits for its permit no longer than until its deadline. -/
theorem counted_inTime (punctual : p.Punctual) (wired : w.Wired) (nonneg : 0 ≤ w.now)
    {rest : Flow α} {Q : Except Failure α → Prop} (failed : ∀ f, Q (.error f))
    (goes : ∀ w', w'.Wired → 0 ≤ w'.now → w'.now ≤ deadline →
      rest.Ensures p w' fun r w'' => w''.now < deadline + 1000000 ∧ Q r) :
    (counted do
      obtainPermit deadline
      Job.note .admitted
      rest).Ensures p w fun r w' => InTime deadline w w' ∧ Q r := by
  simp only [ensures_counted, Flow.ensures_bind, Flow.ensures_lift, Job.ensures_note]
  generalize begun : (w.mapUsage Usage.addCall).note .begun = w₁
  have now : w₁.now = w.now := by
    rw [← begun]
    rfl
  have wired : w₁.Wired := by
    rw [← begun]
    exact { wired with }
  have keeps : p.Keeps (.lasting w₁.config deadline) := punctual.keeps
  apply (ensures_obtainPermit [] keeps (Int.le_refl deadline) (Setting.orderly_lasting w₁)).mono
  intro r w' obtained
  cases r with
  | error f =>
    have passes := (Moves.passes obtained).within
    have inTime : InTime deadline w w' := by
      unfold InTime
      unfold Instant at *
      omega
    exact ⟨inTime, failed f⟩
  | ok _ =>
    obtain ⟨w₀, moves, -, early, rfl⟩ := obtained
    have passes := Moves.passes moves
    have admitted : World.Wired ((w₀.mapSemaphore Semaphore.take).note .admitted) :=
      { passes.wired wired with }
    have later : 0 ≤ w₀.now := Int.le_trans nonneg (now ▸ passes.forward)
    apply (goes _ admitted later early).mono
    rintro r w'' ⟨inTime, result⟩
    cases r with
    | error f => exact ⟨.inr inTime, failed f⟩
    | ok a => exact ⟨.inr inTime, result⟩

section Calls
variable (punctual : p.Punctual) (wired : w.Wired) (nonneg : 0 ≤ w.now)
  (fits : deadline < 0x8000000000000000) (messages : List Message)
include punctual wired nonneg fits

theorem chat_inTime : (chat messages deadline).Ensures p w fun _ w' => InTime deadline w w' := by
  unfold chat
  rw [Flow.ensures_ite]
  split
  · exact .inl (Int.le_refl _)
  · refine Flow.Ensures.mono (counted_inTime (Q := fun _ => True) punctual wired nonneg
      (fun _ => trivial) ?_) fun _ _ => And.left
    intro w₁ wired nonneg early
    rw [Flow.ensures_bind, Flow.ensures_andAlways, ensures_succeeding]
    apply (chatAdmitted_inTime wired nonneg early fits punctual messages).mono
    rintro (f | completion) w₂ inTime
    · exact ⟨inTime, trivial⟩
    · exact ⟨inTime, trivial⟩

theorem stream_inTime : (stream messages deadline).Ensures p w fun r w' =>
    InTime deadline w w' ∧ ∀ key s, r = .ok (key, s) → s.Due deadline := by
  unfold stream
  rw [Flow.ensures_ite]
  split
  · exact ⟨.inl (Int.le_refl _), fun _ _ => nofun⟩
  · refine counted_inTime punctual wired nonneg (fun _ _ _ => nofun) ?_
    intro w₁ wired nonneg early
    rw [Flow.ensures_bind, Flow.ensures_onFailure]
    apply (streamAdmitted_inTime wired nonneg early fits punctual messages).mono
    rintro (f | ⟨call, source⟩) w₂ inTime
    · exact ⟨inTime, fun _ _ => nofun⟩
    · refine ⟨inTime, ?_⟩
      rintro key s ⟨⟩
      rfl

end Calls

/-- A call that may wait, fail and be repeated in any way is over less than a millisecond after its
deadline, and every answer of the stream it ends with comes by the deadline. If the deadline is past
already, neither takes any time. -/
theorem calls_in_time (punctual : p.Punctual) (wired : w.Wired) (nonneg : 0 ≤ w.now)
    (fits : deadline < 0x8000000000000000) (messages : List Message) :
    (chat messages deadline).Ensures p w (fun _ w' => InTime deadline w w') ∧
      (stream messages deadline).Ensures p w (fun r w' => InTime deadline w w' ∧
        ∀ key s, r = .ok (key, s) → s.Due deadline) ∧
      ∀ s w₁, EventStream.Due deadline s → (EventStream.next s).Ensures p w₁ fun r w₂ =>
        w₂.now ≤ max w₁.now deadline ∧ r.2.Due deadline := by
  constructor
  · exact chat_inTime punctual wired nonneg fits messages
  constructor
  · exact stream_inTime punctual wired nonneg fits messages
  · intro s w₁ due
    have passes := EventStream.next_passes (w := w₁) punctual due
    exact (passes.and (EventStream.next_due due)).mono fun _ _ h => ⟨h.1.within, h.2⟩

/-- A call that is over after its deadline, and one whose stream is kept waiting. -/
theorem calls_in_time_late :
    let config : Config := { clientTag := [], retryBaseDelay := 0, maxRetryDelay := 0 }
    let w (script : Script) : World := {
      config, client := .ofConfig config 1, chance := .ofSeed 1, script }
    let refused : Script := {
      overWire := true
      connects := [{ delay := 700000, error := some .connectionReset }]
      exchanges := [{ head := { delay := 1000000000 } }] }
    let slow : Script := {
      overWire := true
      exchanges := [{ body := [{ data := ascii "data: 1", outcome := { delay := 1000000000 } }] }] }
    let hi : List Message := [{ role := ascii "user", content := ascii "hi" }]
    (chat hi 2500000).Ensures .quiet (w refused) (fun _ w' =>
        InTime 2500000 (w refused) w' ∧ w'.now = 2700000) ∧
      (stream hi 2500000).Ensures .quiet (w slow) fun r w' => InTime 2500000 (w slow) w' ∧
        ∃ key s, r = .ok (key, s) ∧ (EventStream.next s).Ensures .quiet w' fun _ w₁ =>
          w₁.now ≤ max w'.now 2500000 := by
  intro config w refused slow hi
  have wired (script : Script) (overWire : script.overWire = true) : (w script).Wired :=
    ⟨overWire, fun _ _ => nofun, Int.le_refl 0, Int.le_refl 0⟩
  have late : (chat hi 2500000).Ensures .quiet (w refused) fun _ w' => w'.now = 2700000 := by
    change (((chat hi 2500000).run.run .quiet).run (w refused)).2.now = 2700000
    decide +kernel
  have opened : (stream hi 2500000).Ensures .quiet (w slow) fun r _ => r.toOption.isSome := by
    change (((stream hi 2500000).run.run .quiet).run (w slow)).1.toOption.isSome
    decide +kernel
  have fits : (2500000 : Instant) < 0x8000000000000000 := by decide
  constructor
  · have calls := calls_in_time Pause.quiet_punctual (wired refused rfl) (Int.le_refl 0) fits hi
    exact calls.1.and late
  · have calls := calls_in_time Pause.quiet_punctual (wired slow rfl) (Int.le_refl 0) fits hi
    apply (calls.2.1.and opened).mono
    rintro (f | ⟨key, s⟩) w' ⟨⟨inTime, due⟩, some⟩
    · cases some
    · refine ⟨inTime, key, s, rfl, ?_⟩
      exact (calls.2.2 s w' (due key s rfl)).mono fun _ _ => And.left

end Client

end Parley
