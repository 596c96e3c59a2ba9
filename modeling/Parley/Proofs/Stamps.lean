import Parley.Proofs.Timeouts

/-!
What the error of a call tells of the call's time. Errors come from many places, and some of them
bring numbers of their own along, from a transport or from an earlier attempt; what reaches the
caller tells how much time the call had used by then, and how much of its budget was left.

* `Call.Tells`: an error has the call's numbers, as of a moment;
* `Call.Stamps`: whatever something fails with has them, as of the moment at which it fails, with
  one rule for each way of building a flow;
* `attemptOnce_tells`: what is thrown only after an attempt has them too, unless another attempt may
  follow;
* `Retry.run_stamps`: the same of all attempts, by induction on how many are left;
* `Client.call_tells`: the same of whole calls, counted from the moment of their admission.
-/
namespace Parley

variable {α β : Type} {p : Pause} {w : World}

namespace Call

/-- An error that tells how much of the call's time was used up at a moment, and how much of it was
left. -/
structure Tells (c : Call) (now : Instant) (e : ClientError) : Prop where
  elapsed_eq : e.elapsed = c.elapsed now
  remaining_eq : e.remaining = max 0 (c.budget - c.elapsed now)

theorem annotate_tells (c : Call) (now : Instant) (e : ClientError) :
    c.Tells now (c.annotate now e) where
  elapsed_eq := rfl
  remaining_eq := by
    simp only [annotate]
    split
    · next spent => exact (Int.max_eq_left (Int.sub_nonpos_of_le spent)).symm
    · next left => exact (Int.max_eq_right (Int.sub_nonneg_of_le (Int.le_of_not_le left))).symm

/-- Every error of a call has its numbers, as of the moment at which it comes. -/
def Stamps (c : Call) (f : Flow α) : Prop :=
  ∀ p w, f.Ensures p w fun r w' => ∀ e, r = .error (.client e) → c.Tells w'.now e

variable {c : Call}

namespace Stamps

variable {f : Flow α}

theorem pure (a : α) : c.Stamps (Pure.pure a : Flow α) := by
  intro p w
  rw [Flow.ensures_pure]
  intro e failed
  cases failed

theorem bind {k : α → Flow β} (h : c.Stamps f) (next : ∀ a, c.Stamps (k a)) :
    c.Stamps (f >>= k) := by
  intro p w
  rw [Flow.ensures_bind]
  apply (h p w).mono
  intro r w' told
  cases r with
  | ok a => exact next a p w'
  | error e => exact fun e' same => told e' (by cases same; rfl)

theorem lift (j : Job α) : c.Stamps (liftM j) := by
  intro p w
  rw [Flow.ensures_lift]
  intro e failed
  cases failed

theorem get {k : World → Flow β} (next : ∀ w, c.Stamps (k w)) : c.Stamps (MonadState.get >>= k) :=
  fun p w => next w p w

theorem ite {b : Prop} [Decidable b] {g : Flow α} (yes : c.Stamps f) (no : c.Stamps g) :
    c.Stamps (if b then f else g) := by
  split
  · exact yes
  · exact no

/-- A failure that is not one of calls tells nothing of a call. -/
theorem json (fault : Json.Fault) : c.Stamps (throw (.json fault) : Flow α) := by
  intro p w
  rw [Flow.ensures_throw]
  intro e failed
  cases failed

end Stamps

theorem fail_stamps (c : Call) (kind : ErrorKind) (reason : Reason) :
    c.Stamps (c.fail kind reason : Flow α) := by
  rintro p w _ ⟨⟩
  exact c.annotate_tells w.now _

end Call

namespace Retry

variable (call : Call) (kind : Answering α)

/-- An error that ends a call because of the last attempt's error has the numbers of the moment, and
not those of the last attempt. -/
theorem conclude_stamps (reason : ErrorKind) (text : Reason) (last : ClientError) :
    call.Stamps (do throw (.client (← conclude call reason text last)) : Flow α) := by
  rintro p w _ ⟨⟩
  obtain ⟨elapsed_eq, remaining_eq⟩ := call.annotate_tells w.now { kind := reason, reason := text }
  exact ⟨elapsed_eq, remaining_eq⟩

theorem judge_tells (answer : α) :
    (judge call kind answer).Ensures p w fun r w' =>
      ∀ e, r = .ok (.refused e) → call.Tells w'.now e := by
  unfold judge
  simp only [Flow.ensures_ite, Flow.ensures_pure]
  split
  · rintro e ⟨⟩
  · rw [Flow.ensures_bind]
    apply Flow.Ensures.of_all
    rintro (f | body) w'
    · rintro e ⟨⟩
    · rintro _ ⟨⟩
      obtain ⟨elapsed_eq, remaining_eq⟩ := call.annotate_tells w'.now
        { kind := .ofStatus (kind.status answer), reason := statusReason (kind.status answer) body }
      exact ⟨elapsed_eq, remaining_eq⟩

/-- What is left of an attempt that was refused: the numbers of the call, or, if they are those of a
transport, the prospect of another attempt. -/
theorem attemptOnce_tells (attempt : Flow α) :
    (attemptOnce call kind attempt).Ensures p w fun r w' =>
      (∀ e, r = .error (.client e) → call.Tells w'.now e) ∧
        ∀ e, r = .ok (.refused e) → e.isRetriable = true ∨ call.Tells w'.now e := by
  have judged : (do judge call kind (← attempt) : Flow (Attempt α)).Ensures p w fun r w' =>
      ∀ e, r = .ok (.refused e) → call.Tells w'.now e := by
    rw [Flow.ensures_bind]
    apply Flow.Ensures.of_all
    rintro (f | answer) w'
    · rintro e ⟨⟩
    · exact judge_tells call kind answer
  rw [attemptOnce, Flow.ensures_bind, Flow.ensures_attempt]
  apply judged.mono
  intro r w' told
  rcases r with (e | message | message | fault) | result
  · by_cases retriable : e.isRetriable = true
    · simp only [retriable, if_true]
      constructor
      · rintro _ ⟨⟩
      · rintro _ ⟨⟩
        exact .inl retriable
    · simp only [retriable]
      constructor
      · rintro _ ⟨⟩
        exact call.annotate_tells w'.now e
      · rintro _ ⟨⟩
  · exact ⟨call.fail_stamps _ _ p w', fun _ => by rintro ⟨⟩⟩
  · exact ⟨call.fail_stamps _ _ p w', fun _ => by rintro ⟨⟩⟩
  · exact ⟨call.fail_stamps _ _ p w', fun _ => by rintro ⟨⟩⟩
  · constructor
    · rintro _ ⟨⟩
    · intro e same
      exact .inr (told e same)

/-- No time passes between an error and the decision whether another attempt may follow. -/
theorem waitAfter_tells (number : Nat) (e : ClientError) :
    (waitAfter number e).Ensures p w fun wait w' =>
      w'.now = w.now ∧ (wait = none → e.isRetriable = false) := by
  unfold waitAfter ClientError.isRetriable
  cases e.kind with
  | rateLimited | server5xx | connectionFailed =>
    constructor
    · rfl
    · rintro ⟨⟩
  | _ => exact ⟨rfl, fun _ => rfl⟩

theorem allow_stamps (number : Nat) : call.Stamps (allow call number) := by
  have counts (elapsed : Millis) : call.Stamps (do
      Job.count (Usage.addAttempt number)
      Job.note .tried
      Job.mark (.tried call (call.budget - elapsed))
      return call.budget - elapsed : Flow Millis) :=
    .bind (.lift _) fun _ => .bind (.lift _) fun _ => .bind (.lift _) fun _ => .pure _
  refine .get fun w => .ite (.bind (call.fail_stamps _ _) fun _ => ?_) ?_
  all_goals
    refine .get fun w' => .ite (.bind (call.fail_stamps _ _) fun _ => ?_) ?_
  all_goals exact counts _

theorem waitOut_stamps (number : Nat) (e : ClientError) (wait : Millis) :
    call.Stamps (waitOut call number e wait) := by
  have sleeps : call.Stamps (do
      Job.notice (.retrying e.message number (← get).config.retryAttempts wait call.key)
      if !(← sleep wait) then call.fail .canceled .shutDownWhileWaiting : Flow Unit) := by
    refine .get fun w => .bind (.lift _) fun _ => .bind (.lift _) fun awake => ?_
    exact .ite (call.fail_stamps _ _) (.pure _)
  refine .get fun w => .ite ?_ sleeps
  rw [← bind_assoc]
  exact .bind (conclude_stamps call _ _ e) fun _ => sleeps

theorem attemptThen_stamps (attempt : Millis → Flow α) (number : Nat)
    {next : ClientError → Millis → Flow (α × Nat)}
    (goesOn : ∀ e wait, call.Stamps (next e wait)) :
    call.Stamps (attemptThen call kind attempt number next) := by
  refine .bind (allow_stamps call number) fun timeout p w => ?_
  rw [Flow.ensures_bind]
  apply (attemptOnce_tells call kind _).mono
  rintro (f | answer | e) w₁ ⟨failed, refused⟩
  · rintro e ⟨⟩
    exact failed e rfl
  · rintro e ⟨⟩
  · simp only [Flow.ensures_bind, Flow.ensures_lift]
    apply (waitAfter_tells number e).mono
    rintro (_ | wait) w₂ ⟨now_eq, final⟩
    · rintro _ ⟨⟩
      have told := (refused e rfl).resolve_left (by rw [final rfl]; exact Bool.false_ne_true)
      exact now_eq ▸ told
    · exact goesOn e wait p w₂

theorem attempts_stamps (attempt : Millis → Flow α) (left number : Nat) :
    call.Stamps (attempts call kind attempt left number) := by
  induction left generalizing number with
  | zero =>
    exact attemptThen_stamps call kind attempt number fun e _ => conclude_stamps call _ _ e
  | succ left ih =>
    exact attemptThen_stamps call kind attempt number fun e wait =>
      .bind (waitOut_stamps call number e wait) fun _ => ih (number + 1)

theorem run_stamps (attempt : Millis → Flow α) : call.Stamps (run call kind attempt) := by
  refine .get fun w => ?_
  split
  · exact call.fail_stamps _ _
  · exact attempts_stamps call kind attempt _ 1

end Retry

namespace Client

/-- What the caller learns of the time of a call that began at `start` and failed at `now`: how many
whole milliseconds it took, and how many were left of those until the deadline. -/
structure Told (start deadline now : Instant) (e : ClientError) : Prop where
  elapsed_eq : e.elapsed = toMillis (now.since start)
  remaining_eq : e.remaining = max 0 (remainingUntil deadline start - e.elapsed)
  /-- The same on a clock that does not go beyond 64 bits. -/
  plain : start ≤ now → Fits (now - start) → Fits (deadline - start) →
    e.elapsed = (now - start) / 1000000 ∧
      e.remaining = max 0 (max 0 (deadline - start) / 1000000 - e.elapsed)

theorem told_of_tells {call : Call} {start deadline now : Instant} {e : ClientError}
    (tells : call.Tells now e) (start_eq : call.start = start)
    (budget_eq : call.budget = remainingUntil deadline start) : Told start deadline now e := by
  obtain ⟨elapsed_eq, remaining_eq⟩ := tells
  rw [budget_eq, ← elapsed_eq] at remaining_eq
  rw [Call.elapsed, start_eq] at elapsed_eq
  refine ⟨elapsed_eq, remaining_eq, fun order fits ahead => ⟨?_, ?_⟩⟩
  · rw [elapsed_eq, Instant.since, wrap64_of_fits fits,
      toMillis_of_nonneg (Int.sub_nonneg_of_le order)]
  · rw [remaining_eq, remainingUntil_of_fits ahead, toMillis_of_nonneg (Int.le_max_left ..)]

/-- A call is admitted in the world in which it gets its permit. -/
def Admits (p : Pause) (deadline : Instant) (w w₁ : World) : Prop :=
  (obtainPermit deadline).Ensures p ((w.mapUsage Usage.addCall).note .begun) fun r w' =>
    r = .ok () ∧ w' = w₁

variable {deadline : Instant}

theorem decode_stamps (call : Call) (response : Response) (attempts : Nat) :
    call.Stamps (decode call response attempts) := by
  unfold decode
  split
  · exact .pure _
  · exact call.fail_stamps _ _
  · exact .json _

theorem begun_tells {messages : List Message} {stream : Bool} {rest : Call → Request → Flow α}
    (stamps : ∀ (call : Call) request, call.Stamps (rest call request)) :
    (do
      let call ← beginCall deadline
      rest call (← makeRequest messages stream call.key) : Flow α).Ensures p w fun r w' =>
        ∀ e, r = .error (.client e) → Told w.now deadline w'.now e := by
  apply begun_ensures
  · rintro chance - e ⟨⟩
  · intro call request chance start_eq budget_eq _
    apply (stamps call request p _).mono
    exact fun r w' tells e failed => told_of_tells (tells e failed) start_eq budget_eq

theorem chatAdmitted_tells (messages : List Message) :
    (chatAdmitted messages deadline).Ensures p w fun r w' =>
      ∀ e, r = .error (.client e) → Told w.now deadline w'.now e := by
  simp only [chatAdmitted, chatAnswered, bind_assoc]
  apply begun_tells
  intro call request
  refine .bind (Retry.run_stamps call .unary _) fun answer => ?_
  exact decode_stamps call _ _

theorem streamAdmitted_tells (messages : List Message) :
    (streamAdmitted messages deadline).Ensures p w fun r w' =>
      ∀ e, r = .error (.client e) → Told w.now deadline w'.now e := by
  apply begun_tells
  intro call request
  refine .bind (Retry.run_stamps call .streaming _) fun _ => ?_
  exact .bind (.lift _) fun _ => .pure _

/-- Nothing that a call does after it has failed takes time. -/
theorem counted_tells {w₁ : World} {rest : Flow α} (admitted : Admits p deadline w w₁)
    (tells : ∀ w, rest.Ensures p w fun r w' =>
      ∀ e, r = .error (.client e) → Told w.now deadline w'.now e) :
    (counted do
      obtainPermit deadline
      Job.note .admitted
      rest).Ensures p w fun r w' =>
        ∀ e, r = .error (.client e) → Told w₁.now deadline w'.now e := by
  simp only [ensures_counted, Flow.ensures_bind, Flow.ensures_lift, Job.ensures_note]
  apply Flow.Ensures.mono admitted
  rintro _ w₂ ⟨rfl, rfl⟩
  apply (tells (w₂.note .admitted)).mono
  rintro (f | a) w' told
  · exact told
  · exact told

/-- Whatever a call fails with after its admission: if it is an error of calls, it tells how many
whole milliseconds the call took from its admission until now, and how many were left of its budget.
-/
theorem call_tells {w₁ : World} (admitted : Admits p deadline w w₁) (messages : List Message) :
    (chat messages deadline).Ensures p w (fun r w' =>
        ∀ e, r = .error (.client e) → Told w₁.now deadline w'.now e) ∧
      (stream messages deadline).Ensures p w fun r w' =>
        ∀ e, r = .error (.client e) → Told w₁.now deadline w'.now e := by
  constructor
  · unfold chat
    rw [Flow.ensures_ite]
    split
    · rintro e ⟨⟩
    · apply counted_tells admitted
      intro w
      rw [Flow.ensures_bind, Flow.ensures_andAlways, ensures_succeeding]
      apply (chatAdmitted_tells messages).mono
      rintro (f | completion) w' told
      · intro e failed
        exact told e (by cases failed; rfl)
      · rintro e ⟨⟩
  · unfold stream
    rw [Flow.ensures_ite]
    split
    · rintro e ⟨⟩
    · apply counted_tells admitted
      intro w
      rw [Flow.ensures_bind, Flow.ensures_onFailure]
      apply (streamAdmitted_tells messages).mono
      rintro (f | ⟨call, source⟩) w' told
      · intro e failed
        exact told e (by cases failed; rfl)
      · rintro e ⟨⟩

/-- A call that is limited once and then breaks off with numbers that the transport made up. -/
theorem call_tells_stale :
    let c : Config := { clientTag := [] }
    let stale : ClientError := {
      kind := .streamTimeout, reason := .readTimedOut, elapsed := 77, remaining := 88 }
    let soon : Headers := [(ascii "retry-after", ascii "0")]
    let w : World := {
      config := c, client := .ofConfig c 1, chance := .ofSeed 1
      script := { replies := [
        { status := 429, headers := soon, delay := 2000000 },
        { failure := some (.client stale), delay := 3500000 }] } }
    let hi : List Message := [{ role := ascii "user", content := ascii "hi" }]
    ∃ w₁, Admits .quiet 9000000 w w₁ ∧
      (chat hi 9000000).Ensures .quiet w fun r w' => w'.now = 5500000 ∧ w'.sent.length = 2 ∧
        r = .error (.client { stale with elapsed := 5, remaining := 4 }) ∧
          Told w₁.now 9000000 w'.now { stale with elapsed := 5, remaining := 4 } := by
  intro c stale soon w hi
  have admitted : Admits .quiet 9000000 w
      (((w.mapUsage Usage.addCall).note .begun).mapSemaphore Semaphore.take) := ⟨rfl, rfl⟩
  have ends : (chat hi 9000000).Ensures .quiet w fun r w' => w'.now = 5500000 ∧
      w'.sent.length = 2 ∧ r = .error (.client { stale with elapsed := 5, remaining := 4 }) := by
    decide +kernel
  refine ⟨_, admitted, ?_⟩
  apply (ends.and (call_tells admitted hi).1).mono
  rintro r w' ⟨⟨now, sent, failed⟩, told⟩
  exact ⟨now, sent, failed, told _ failed⟩

end Client

end Parley
