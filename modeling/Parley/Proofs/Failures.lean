import Parley.Client
import Parley.Proofs.Job
import Parley.Proofs.Texts

/-!
What may go wrong, whatever world something is done in and whatever happens meanwhile. There is one
rule for each way of building a flow, as for `Ensures`, but here nothing is said of worlds.
-/
namespace Parley

variable {α β : Type}

namespace Flow

/-- Every failure satisfies a condition. -/
def FailsBy (Q : Failure → Prop) (f : Flow α) : Prop :=
  ∀ p w, f.Ensures p w fun r _ => ∀ e, r = .error e → Q e

namespace FailsBy

variable {Q Q' : Failure → Prop} {f : Flow α}

theorem mono (h : FailsBy Q f) (weaken : ∀ e, Q e → Q' e) : FailsBy Q' f :=
  fun p w e failed => weaken e (h p w e failed)

theorem pure (a : α) : FailsBy Q (pure a) := by
  intro p w
  rw [ensures_pure]
  intro e failed
  cases failed

theorem throw {e : Failure} (h : Q e) : FailsBy Q (throw e : Flow α) := by
  intro p w
  rw [ensures_throw]
  rintro _ ⟨⟩
  exact h

theorem bind {k : α → Flow β} (h : FailsBy Q f) (next : ∀ a, FailsBy Q (k a)) :
    FailsBy Q (f >>= k) := by
  intro p w
  rw [ensures_bind]
  apply (h p w).mono
  intro r w' failed
  cases r with
  | ok a => exact next a p w'
  | error e => exact fun e' same => failed e' (by cases same; rfl)

theorem lift (j : Job α) : FailsBy Q (liftM j) := by
  intro p w
  rw [ensures_lift]
  intro e failed
  cases failed

theorem get {k : World → Flow β} (next : ∀ w, FailsBy Q (k w)) : FailsBy Q (get >>= k) :=
  fun p w => next w p w

theorem ite {c : Prop} [Decidable c] {g : Flow α} (yes : c → FailsBy Q f)
    (no : ¬ c → FailsBy Q g) : FailsBy Q (if c then f else g) := by
  split
  · exact yes ‹_›
  · exact no ‹_›

theorem ofExcept {r : Except Failure α} (h : ∀ e, r = .error e → Q e) : FailsBy Q (ofExcept r) := by
  cases r with
  | ok a => exact .pure a
  | error e => exact .throw (h e rfl)

theorem onFailure (h : FailsBy Q f) (last : Job Unit) : FailsBy Q (f.onFailure last) := by
  intro p w
  rw [ensures_onFailure]
  apply (h p w).mono
  intro r w' failed
  cases r with
  | ok a =>
    intro e failed
    cases failed
  | error e => exact failed

end FailsBy

end Flow

/-- Whether a failure is one of calls, and not of those who make them. -/
def Failure.IsClient (f : Failure) : Prop := ∃ e, f = .client e

namespace Session

variable {i : Nat}

/-- The failure of somebody who waited for a connection in vain. -/
abbrev exhausted : Failure := .client { kind := .connectionFailed, reason := .poolExhausted }

/-- What it comes to if something cannot be done over the wire. -/
def IsWire (f : Failure) : Prop := ∃ reason, f = .client { kind := .connectionFailed, reason }

/-- The same, where nobody waits for a connection. -/
def IsOther (f : Failure) : Prop := IsWire f ∧ f ≠ exhausted

theorem failure_isOther (e : WireError) (step : Bytes) : IsOther (e.failure step) := by
  constructor
  · exact ⟨_, rfl⟩
  · unfold WireError.failure
    split <;> exact nofun

theorem resolve_failsBy (limit : Instant) : Flow.FailsBy IsOther (resolve i limit) := by
  unfold resolve connectionFailed
  refine .bind (.lift _) fun s => .get fun _ => .ite (fun _ => .pure _) fun _ => ?_
  refine .bind (.lift _) fun _ => .bind (.lift _) fun outcome => .get fun _ => ?_
  refine .ite (fun _ => ?_) fun _ => ?_
  · exact .bind (.lift _) fun _ => .bind (.lift _) fun _ => .throw ⟨⟨_, rfl⟩, nofun⟩
  · refine .bind (.lift _) fun _ => ?_
    split
    · exact .throw ⟨⟨_, rfl⟩, nofun⟩
    · exact .lift _

theorem connect_failsBy (deadline : Instant) : Flow.FailsBy IsOther (connect i deadline) := by
  unfold connect
  refine .bind (.lift _) fun s => .get fun _ => .bind (resolve_failsBy _) fun _ => .get fun _ => ?_
  refine .bind (.lift _) fun _ => .bind (.lift _) fun _ => .bind (.lift _) fun _ => ?_
  refine .bind (.lift _) fun outcome => .bind (.lift _) fun error => ?_
  split
  · exact .bind (.lift _) fun _ => .throw (failure_isOther _ _)
  · exact .bind (.lift _) fun _ => .bind (.lift _) fun _ => .pure _

/-- Whatever else than a full session a claim brings, nobody waits for a connection. -/
theorem settle_failsBy (deadline : Instant) {claim : Claim} (other : claim ≠ .full) :
    Flow.FailsBy IsOther (settle i deadline claim) := by
  cases claim with
  | closed => exact .throw ⟨⟨_, rfl⟩, nofun⟩
  | idle c => exact .pure c
  | slot => exact .onFailure (connect_failsBy deadline) _
  | full => exact absurd rfl other

theorem checkout_failsBy (deadline : Instant) : Flow.FailsBy IsWire (checkout i deadline) := by
  have settled (claim : Claim) : Flow.FailsBy IsWire (settle i deadline claim) := by
    by_cases full : claim = .full
    · subst full
      exact .throw ⟨_, rfl⟩
    · exact (settle_failsBy deadline full).mono fun _ => And.left
  unfold checkout
  refine .bind (.lift _) fun claim => ?_
  split
  · refine .bind (.lift _) fun room => .ite (fun _ => ?_) fun _ => .throw ⟨_, rfl⟩
    exact .bind (.lift _) settled
  · exact settled claim

theorem answered_failsBy (request : WireRequest) (deadline : Instant) :
    Flow.FailsBy IsWire (answered i request deadline) := by
  refine .bind (checkout_failsBy deadline) fun c => .bind (.lift _) fun result => ?_
  split
  · exact .pure _
  · refine .bind (.lift _) fun _ => .ite (fun _ => ?_) fun _ => .throw ⟨_, rfl⟩
    refine .bind (.lift _) fun _ => .bind (checkout_failsBy deadline) fun c => ?_
    refine .bind (.lift _) fun result => ?_
    split
    · exact .pure _
    · exact .bind (.lift _) fun _ => .throw ⟨_, rfl⟩

/-- An exchange may also fail because its request is none that can be written. -/
theorem ofRequest_client {host : Bytes} {request : Request} {f : Failure}
    (failed : WireRequest.ofRequest host request = .error f) : ¬ f.IsClient := by
  unfold WireRequest.ofRequest at failed
  split at failed
  · cases failed
  · cases failed
    rintro ⟨e, same⟩
    cases same

theorem send_failsBy (request : Request) (timeout : Millis) :
    Flow.FailsBy (fun f => f.IsClient → IsWire f) (send i request timeout) := by
  refine .get fun w => .bind (.lift _) fun s => ?_
  refine .bind (.ofExcept fun f failed client => absurd client (ofRequest_client failed)) ?_
  intro request
  refine .bind ((answered_failsBy request _).mono fun _ wire _ => wire) ?_
  rintro ⟨head, c⟩
  refine .bind (.lift _) fun left => .bind (.lift _) fun _ => .bind (.lift _) ?_
  rintro ⟨result, rest⟩
  cases result with
  | error e => exact .bind (.lift _) fun _ => .throw fun _ => ⟨_, rfl⟩
  | ok body => exact .bind (.lift _) fun _ => .pure _

theorem sendStreaming_failsBy (request : Request) (timeout : Millis) :
    Flow.FailsBy (fun f => f.IsClient → IsWire f) (sendStreaming i request timeout) := by
  refine .get fun w => .bind (.lift _) fun s => ?_
  refine .bind (.ofExcept fun f failed client => absurd client (ofRequest_client failed)) ?_
  intro request
  refine .bind ((answered_failsBy request _).mono fun _ wire _ => wire) ?_
  rintro ⟨head, c⟩
  exact .pure _

/-- A session that was found full tells so. -/
theorem request_crowded {p : Pause} {w : World} :
    (request i).Ensures p w fun claim w' => claim = .full →
      ∃ past, w'.journal = ⟨i, .crowded, w'.now⟩ :: past := by
  simp only [request, Job.ensures_bind, ensures_current, Job.ensures_ite, Job.ensures_pure]
  split
  · intro full
    cases full
  · apply Job.Ensures.of_all
    intro _ w₁
    cases claimed : (find w₁ i).claim with
    | full => exact fun _ => ⟨w₁.journal, rfl⟩
    | closed | idle | slot =>
      intro full
      cases full

/-- Somebody fails for want of a connection only after the session was found full. -/
theorem checkout_exhausted (deadline : Instant) {p : Pause} {w : World} :
    (checkout i deadline).Ensures p w fun r _ => r = .error exhausted →
      (request i).Ensures p w fun _ w' => ∃ past, w'.journal = ⟨i, .crowded, w'.now⟩ :: past := by
  by_cases crowded : (request i).Ensures p w fun _ w' =>
    ∃ past, w'.journal = ⟨i, .crowded, w'.now⟩ :: past
  · exact .of_all fun _ _ _ => crowded
  · have other : (request i).Ensures p w fun claim _ => claim ≠ .full :=
      fun full => crowded (request_crowded full)
    unfold checkout
    rw [Flow.ensures_bind, Flow.ensures_lift]
    apply other.mono
    intro claim w' other
    have settled := settle_failsBy (i := i) deadline other p w'
    cases claim with
    | full => exact absurd rfl other
    | closed | idle | slot => exact settled.mono fun r _ failed same => absurd rfl (failed _ same).2

end Session

namespace Retry

variable (call : Call) (kind : Answering α)

theorem fail_failsBy (reason : ErrorKind) (text : Reason) :
    Flow.FailsBy Failure.IsClient (call.fail reason text : Flow α) :=
  .bind (.lift _) fun e => .throw ⟨e, rfl⟩

/-- Whatever goes wrong in an attempt, it is told in the terms of the call. -/
theorem attemptOnce_failsBy (attempt : Flow α) :
    Flow.FailsBy Failure.IsClient (attemptOnce call kind attempt) := by
  refine .bind (.lift _) fun result => ?_
  split
  · exact .pure _
  · rename_i e
    refine .ite (fun _ => .pure _) fun _ => .get fun w => .throw ⟨_, rfl⟩
  · exact fail_failsBy call _ _

theorem allow_failsBy (number : Nat) : Flow.FailsBy Failure.IsClient (allow call number) := by
  have counts (elapsed : Millis) : Flow.FailsBy Failure.IsClient (do
      Job.count (Usage.addAttempt number)
      Job.note .tried
      Job.mark (.tried call (call.budget - elapsed))
      return call.budget - elapsed : Flow Millis) :=
    .bind (.lift _) fun _ => .bind (.lift _) fun _ => .bind (.lift _) fun _ => .pure _
  refine .get fun w => .ite (fun _ => .bind (fail_failsBy call _ _) fun _ => ?_) fun _ => ?_
  all_goals
    refine .get fun w' => .ite (fun _ => .bind (fail_failsBy call _ _) fun _ => ?_) fun _ => ?_
  all_goals exact counts _

theorem waitOut_failsBy (number : Nat) (e : ClientError) (wait : Millis) :
    Flow.FailsBy Failure.IsClient (waitOut call number e wait) := by
  have sleeps : Flow.FailsBy Failure.IsClient (do
      Job.notice (.retrying e.message number (← get).config.retryAttempts wait call.key)
      if !(← sleep wait) then call.fail .canceled .shutDownWhileWaiting : Flow Unit) := by
    refine .get fun w => .bind (.lift _) fun _ => .bind (.lift _) fun awake => ?_
    exact .ite (fun _ => fail_failsBy call _ _) fun _ => .pure _
  refine .get fun w => .ite (fun _ => ?_) fun _ => sleeps
  exact .bind (.lift _) fun e => .bind (.throw ⟨e, rfl⟩) fun _ => sleeps

theorem attemptThen_failsBy (attempt : Millis → Flow α) (number : Nat)
    {next : ClientError → Millis → Flow (α × Nat)}
    (goesOn : ∀ e wait, Flow.FailsBy Failure.IsClient (next e wait)) :
    Flow.FailsBy Failure.IsClient (attemptThen call kind attempt number next) := by
  refine .bind (allow_failsBy call number) fun timeout => ?_
  refine .bind (attemptOnce_failsBy call kind _) fun result => ?_
  split
  · exact .pure _
  · refine .bind (.lift _) fun wait => ?_
    split
    · exact .bind (.lift _) fun _ => .throw ⟨_, rfl⟩
    · exact goesOn _ _

theorem attempts_failsBy (attempt : Millis → Flow α) (left number : Nat) :
    Flow.FailsBy Failure.IsClient (attempts call kind attempt left number) := by
  induction left generalizing number with
  | zero =>
    exact attemptThen_failsBy call kind attempt number fun e _ =>
      .bind (.lift _) fun e => .throw ⟨e, rfl⟩
  | succ left ih =>
    exact attemptThen_failsBy call kind attempt number fun e wait =>
      .bind (waitOut_failsBy call number e wait) fun _ => ih (number + 1)

theorem run_failsBy (attempt : Millis → Flow α) :
    Flow.FailsBy Failure.IsClient (run call kind attempt) := by
  refine .get fun w => ?_
  split
  · exact fail_failsBy call _ _
  · exact attempts_failsBy call kind attempt _ 1

end Retry

namespace Client

variable {p : Pause} {w : World}

theorem obtainPermit_failsBy (deadline : Instant) :
    Flow.FailsBy Failure.IsClient (obtainPermit deadline) := by
  have late (start : Instant) (reason : Reason) : Flow.FailsBy Failure.IsClient (do
      throw (.client {
        kind := .deadlineExceeded, reason
        elapsed := toMillis ((← get).now.since start) }) : Flow Unit) :=
    .get fun _ => .throw ⟨_, rfl⟩
  have canceled : Flow.FailsBy Failure.IsClient
      (throw (.client { kind := .canceled, reason := .shutDown }) : Flow Unit) := .throw ⟨_, rfl⟩
  have ends : Flow.FailsBy Failure.IsClient (do
      if (← get).client.shutdown then
        releasePermit
        throw (.client { kind := .canceled, reason := .shutDown }) : Flow Unit) :=
    .get fun _ => .ite (fun _ => .bind (.lift _) fun _ => canceled) fun _ => .pure _
  refine .get fun w => .ite (fun _ => .bind canceled fun _ => ?_) fun _ => ?_
  all_goals
    refine .get fun start => .bind (.lift _) fun taken => .ite (fun _ => late _ _) fun _ => ?_
    exact .get fun _ => .ite (fun _ => .bind (.lift _) fun _ => late _ _) fun _ => ends

theorem takePermit_config (keeps : ∀ t stop w, (p t stop w).config = w.config)
    (deadline : Instant) :
    (takePermit deadline).Ensures p w fun _ w' => w'.config = w.config := by
  simp only [takePermit, Job.ensures_bind, Job.ensures_await, Job.ensures_ite, Job.ensures_modify,
    Job.ensures_pure]
  split
  · rfl
  · split
    · exact keeps ..
    · exact keeps ..

theorem obtainPermit_config (keeps : ∀ t stop w, (p t stop w).config = w.config)
    (deadline : Instant) :
    (obtainPermit deadline).Ensures p w fun _ w' => w'.config = w.config := by
  simp only [obtainPermit, Flow.ensures_bind, Flow.ensures_get, Flow.ensures_ite,
    Flow.ensures_throw, Flow.ensures_lift]
  split
  · exact trivial
  · apply (takePermit_config keeps deadline).mono
    intro taken w' same
    cases taken with
    | false => exact same
    | true =>
      simp only [Bool.not_true, Bool.false_eq_true, if_false]
      split
      · exact same
      · split
        · exact same
        · exact same

/-- Whether a call gets a permit without waiting for it. -/
structure AtOnce (w : World) (deadline : Instant) : Prop where
  running : w.client.shutdown = false
  room : w.client.semaphore.hasRoom = true
  within : w.now ≤ deadline

theorem obtainPermit_at_once (deadline : Instant) :
    (obtainPermit deadline).Ensures p w fun r w' =>
      AtOnce w deadline → r = .ok () ∧ w' = w.mapSemaphore Semaphore.take := by
  by_cases atOnce : AtOnce w deadline
  · obtain ⟨running, room, within⟩ := atOnce
    have taken : (takePermit deadline).Ensures p w fun taken w' =>
        taken = true ∧ w' = w.mapSemaphore Semaphore.take := by
      simp [takePermit, room]
    simp only [obtainPermit, Flow.ensures_bind, Flow.ensures_get, Flow.ensures_ite,
      Flow.ensures_throw, Flow.ensures_lift, running, Bool.false_eq_true, if_false]
    apply taken.mono
    rintro _ _ ⟨rfl, rfl⟩
    have still : ¬ deadline < (w.mapSemaphore Semaphore.take).now := Int.not_lt.mpr within
    have runs : (w.mapSemaphore Semaphore.take).client.shutdown = false := running
    simp [still, runs]
  · exact .of_all fun _ _ once => absurd once atOnce

/-- How something ends that needs a request, if its texts are well-formed or if they are not. -/
structure Ends (texts : Bool) (Q : Failure → Prop) (r : Except Failure α) : Prop where
  failed : texts = true → ∀ f, r = .error f → Q f
  unwritten : texts = false → r = .error (.json .wrongType)

theorem Ends.mono {texts : Bool} {Q Q' : Failure → Prop} {r : Except Failure α}
    (h : Ends texts Q r) (weaken : ∀ f, Q f → Q' f) : Ends texts Q' r where
  failed formed f same := weaken f (h.failed formed f same)
  unwritten := h.unwritten

theorem ends_bind {texts : Bool} {Q : Failure → Prop} {f : Flow α} {k : α → Flow β}
    (h : f.Ensures p w fun r _ => Ends texts Q r) (next : ∀ a, Flow.FailsBy Q (k a)) :
    (f >>= k).Ensures p w fun r _ => Ends texts Q r := by
  rw [Flow.ensures_bind]
  apply h.mono
  intro r w' ends
  cases r with
  | error f =>
    constructor
    case failed =>
      rintro formed _ ⟨⟩
      exact ends.failed formed f rfl
    case unwritten => exact fun none => congrArg _ (Except.error.inj (ends.unwritten none))
  | ok a =>
    apply (next a p w').mono
    intro r w'' fails
    constructor
    case failed => exact fun _ => fails
    case unwritten =>
      intro none
      cases ends.unwritten none

/-- A request is written without touching the world, unless one of its texts is not well-formed. -/
theorem makeRequest_writes (messages : List Message) (stream : Bool) (key : Bytes) :
    (makeRequest messages stream key).Ensures p w fun r w' => w' = w ∧
      match r with
      | .ok request => w.config.areTexts messages = true ∧
          (chatRequest w.config messages stream).write = .ok request.body
      | .error f => w.config.areTexts messages = false ∧ f = .json .wrongType := by
  have writes := Json.writes (chatRequest w.config messages stream)
  rw [isText_chatRequest] at writes
  simp only [makeRequest, Flow.ensures_bind, Flow.ensures_get]
  cases written : (chatRequest w.config messages stream).write with
  | error fault =>
    rw [written] at writes
    obtain ⟨none, rfl⟩ := writes
    exact ⟨rfl, none, rfl⟩
  | ok body =>
    rw [written] at writes
    exact ⟨rfl, writes, rfl⟩

theorem ensures_makeRequest {messages : List Message} {stream : Bool} {key : Bytes}
    {Q : Failure → Prop} {next : Request → Flow α}
    (rest : ∀ request, Flow.FailsBy Q (next request)) :
    (makeRequest messages stream key >>= next).Ensures p w fun r _ =>
      Ends (w.config.areTexts messages) Q r := by
  rw [Flow.ensures_bind]
  apply (makeRequest_writes messages stream key).mono
  rintro (f | request) w₁ ⟨rfl, texts, written⟩
  · subst written
    exact ⟨fun formed => absurd (texts.symm.trans formed) Bool.false_ne_true, fun _ => rfl⟩
  · apply (rest request p w₁).mono
    intro r w' fails
    exact ⟨fun _ => fails, fun none => absurd (none.symm.trans texts) Bool.false_ne_true⟩

theorem beginCall_config (deadline : Instant) :
    (beginCall deadline).Ensures p w fun _ w' => w'.config = w.config := by
  rfl

theorem chatAnswered_ends (messages : List Message) (deadline : Instant) :
    (chatAnswered messages deadline).Ensures p w fun r _ =>
      Ends (w.config.areTexts messages) Failure.IsClient r := by
  unfold chatAnswered
  rw [Flow.ensures_bind, Flow.ensures_lift]
  apply (beginCall_config deadline).mono
  intro call w' same
  rw [← same]
  apply ensures_makeRequest
  intro request
  exact .bind (Retry.run_failsBy call .unary _) fun _ => .pure _

theorem streamAdmitted_ends (messages : List Message) (deadline : Instant) :
    (streamAdmitted messages deadline).Ensures p w fun r _ =>
      Ends (w.config.areTexts messages) Failure.IsClient r := by
  unfold streamAdmitted
  rw [Flow.ensures_bind, Flow.ensures_lift]
  apply (beginCall_config deadline).mono
  intro call w' same
  rw [← same]
  apply ensures_makeRequest
  intro request
  refine .bind (Retry.run_failsBy call .streaming _) fun _ => ?_
  exact .bind (.lift _) fun _ => .pure _

/-- What a call in one piece fails with: it may also be an answer with a number in it that is too
large. -/
def IsUnread (f : Failure) : Prop := f.IsClient ∨ f = .json .outOfRange

theorem decode_ends (call : Call) (response : Response) (attempts : Nat) :
    (decode call response attempts).Ensures p w fun r _ => (∀ f, r = .error f → IsUnread f) ∧
      (r = .error (.json .outOfRange) ↔ Json.parse response.body = .error .outOfRange) := by
  have reads := Json.reads_parse response.body
  unfold decode
  cases parsed : Json.parse response.body with
  | ok body => simp
  | error fault =>
    cases fault with
    | wrongType => exact absurd rfl (reads _ parsed)
    | malformed =>
      apply (Retry.fail_failsBy call _ _ p w).mono
      intro r w' fails
      constructor
      · exact fun f failed => .inl (fails f failed)
      · constructor
        · intro failed
          obtain ⟨e, same⟩ := fails _ failed
          cases same
        · intro same
          cases same
    | outOfRange => simp [IsUnread]

theorem chatAdmitted_ends (messages : List Message) (deadline : Instant) :
    (chatAdmitted messages deadline).Ensures p w fun r _ =>
      Ends (w.config.areTexts messages) IsUnread r := by
  have answered : (chatAnswered messages deadline).Ensures p w fun r _ =>
      Ends (w.config.areTexts messages) IsUnread r :=
    (chatAnswered_ends messages deadline).mono fun _ _ ends => ends.mono fun _ => .inl
  apply ends_bind answered
  rintro ⟨call, response, attempts⟩ p w
  exact (decode_ends call response attempts).mono fun _ _ => And.left

/-- A call in one piece has a number that is too large if its answer has one, and only then. -/
theorem chatAdmitted_outOfRange (messages : List Message) (deadline : Instant) :
    ((chatAdmitted messages deadline).Ensures p w fun r _ => r = .error (.json .outOfRange)) ↔
      (chatAnswered messages deadline).Ensures p w fun r _ => ∃ call response attempts,
        r = .ok (call, response, attempts) ∧ Json.parse response.body = .error .outOfRange := by
  have ends := chatAnswered_ends (p := p) (w := w) messages deadline
  unfold chatAdmitted
  rw [Flow.ensures_bind]
  constructor
  · intro h
    apply (ends.and h).mono
    rintro r w' ⟨ends, h⟩
    cases r with
    | error f =>
      cases h
      cases texts : w.config.areTexts messages with
      | true =>
        obtain ⟨e, same⟩ := ends.failed texts _ rfl
        cases same
      | false => cases ends.unwritten texts
    | ok answer =>
      obtain ⟨call, response, attempts⟩ := answer
      have decoded := (decode_ends (p := p) (w := w') call response attempts).and h
      exact ⟨call, response, attempts, rfl, decoded.1.2.mp decoded.2⟩
  · intro h
    apply Flow.Ensures.mono h
    rintro _ w' ⟨call, response, attempts, rfl, large⟩
    exact (decode_ends call response attempts).mono fun _ _ decoded => decoded.2.mpr large

/-- How a call ends, if its texts are well-formed, if they are not, and if it gets a permit at once
then. -/
structure CallEnds (texts atOnce : Prop) (Q : Failure → Prop) (r : Except Failure α) : Prop where
  failed : texts → ∀ f, r = .error f → Q f
  unwritten : ¬ texts → ∃ f, r = .error f ∧ (f.IsClient ∨ f = .json .wrongType)
  unwritten_at_once : ¬ texts → atOnce → r = .error (.json .wrongType)

theorem counted_ends (keeps : ∀ t stop w, (p t stop w).config = w.config) {deadline : Instant}
    {texts : Bool} {Q : Failure → Prop} (weaken : ∀ f, Failure.IsClient f → Q f) {rest : Flow α}
    (h : ∀ w', w'.config = w.config → rest.Ensures p w' fun r _ => Ends texts Q r) :
    (counted do
      obtainPermit deadline
      Job.note .admitted
      rest).Ensures p w fun r _ => CallEnds (texts = true) (AtOnce w deadline) Q r := by
  simp only [ensures_counted, Flow.ensures_bind, Flow.ensures_lift, Job.ensures_note]
  generalize begun : (w.mapUsage Usage.addCall).note .begun = w₁
  have config : w₁.config = w.config := by
    rw [← begun]
    rfl
  have atOnce (once : AtOnce w deadline) : AtOnce w₁ deadline := by
    rw [← begun]
    exact ⟨once.running, once.room, once.within⟩
  have permit := ((obtainPermit_failsBy deadline p w₁).and (obtainPermit_config keeps deadline)).and
    (obtainPermit_at_once deadline)
  apply permit.mono
  rintro r w₂ ⟨⟨fails, same⟩, once⟩
  cases r with
  | error f =>
    have client := fails f rfl
    constructor
    case failed =>
      rintro _ _ ⟨⟩
      exact weaken f client
    case unwritten => exact fun _ => ⟨f, rfl, .inl client⟩
    case unwritten_at_once =>
      intro _ room
      cases (once (atOnce room)).1
  | ok _ =>
    apply (h (w₂.note .admitted) (same.trans config)).mono
    intro r w₃ ends
    have outcome : CallEnds (texts = true) (AtOnce w deadline) Q r := by
      constructor
      case failed => exact ends.failed
      case unwritten =>
        intro none
        exact ⟨_, ends.unwritten (by simpa using none), .inr rfl⟩
      case unwritten_at_once => exact fun none _ => ends.unwritten (by simpa using none)
    cases r with
    | ok a => exact outcome
    | error f => exact outcome

/-- A call fails as calls do, unless its request cannot be written because one of its texts is not
well-formed, or it is one in one piece and the answer has a number in it that is too large. Those
two failures are no failures of calls, and they happen whenever there is a reason for them. -/
theorem call_ends (keeps : ∀ t stop w, (p t stop w).config = w.config) {messages : List Message}
    (some : messages ≠ []) (deadline : Instant) :
    (chat messages deadline).Ensures p w (fun r _ =>
        CallEnds (w.config.areTexts messages = true) (AtOnce w deadline) IsUnread r) ∧
      (stream messages deadline).Ensures p w (fun r _ =>
        CallEnds (w.config.areTexts messages = true) (AtOnce w deadline) Failure.IsClient r) ∧
      (((chatAdmitted messages deadline).Ensures p w fun r _ => r = .error (.json .outOfRange)) ↔
        (chatAnswered messages deadline).Ensures p w fun r _ => ∃ call response attempts,
          r = .ok (call, response, attempts) ∧ Json.parse response.body = .error .outOfRange) := by
  have begun : messages.isEmpty = false := by simpa using some
  constructor
  · unfold chat
    rw [begun, if_neg Bool.false_ne_true]
    apply counted_ends keeps fun f => .inl
    intro w' same
    rw [← same]
    have admitted :
        ((succeeding (chatAdmitted messages deadline)).andAlways releasePermit).Ensures p w'
        fun r _ => Ends (w'.config.areTexts messages) IsUnread r := by
      rw [Flow.ensures_andAlways]
      exact ends_bind (chatAdmitted_ends messages deadline) fun completion =>
        .bind (.lift _) fun _ => .pure _
    apply ends_bind admitted
    exact fun completion => .bind (.lift _) fun _ => .pure _
  constructor
  · unfold stream
    rw [begun, if_neg Bool.false_ne_true]
    apply counted_ends keeps fun f => id
    intro w' same
    rw [← same]
    have admitted : ((streamAdmitted messages deadline).onFailure releasePermit).Ensures p w'
        fun r _ => Ends (w'.config.areTexts messages) Failure.IsClient r := by
      rw [Flow.ensures_onFailure]
      apply (streamAdmitted_ends messages deadline).mono
      intro r w'' ends
      cases r with
      | ok a => exact ends
      | error f => exact ends
    apply ends_bind admitted
    rintro ⟨call, source⟩
    exact .bind (.lift _) fun s => .bind (.lift _) fun _ => .pure _
  · exact chatAdmitted_outOfRange messages deadline

/-- A message that is no text, and an answer with a number that no double holds. -/
theorem call_ends_badly :
    let c : Config := { clientTag := [] }
    let w : World := {
      config := c, client := .ofConfig c 1, chance := .ofSeed 1
      script := { replies := [{ body := ascii "1e999" }] } }
    let torn : List Message := [{ role := ascii "user", content := [0xFF] }]
    let hi : List Message := [{ role := ascii "user", content := ascii "hi" }]
    (chat torn 5000000).Ensures .quiet w (fun r _ => r = .error (.json .wrongType)) ∧
      (stream torn 5000000).Ensures .quiet w (fun r _ => r = .error (.json .wrongType)) ∧
      (chat hi 5000000).Ensures .quiet w fun r _ => r = .error (.json .outOfRange) := by
  intro c w torn hi
  have keeps (t : Instant) (stop : World → Bool) (w : World) :
      (Pause.quiet t stop w).config = w.config := by
    unfold Pause.quiet
    split <;> rfl
  have none : ¬ w.config.areTexts torn = true := by decide
  have atOnce : AtOnce w 5000000 := ⟨rfl, rfl, by decide⟩
  have ends := call_ends (w := w) keeps (List.cons_ne_nil _ _ : torn ≠ []) 5000000
  have large : (chat hi 5000000).Ensures .quiet w fun r _ => r = .error (.json .outOfRange) := by
    decide +kernel
  exact ⟨ends.1.mono fun _ _ h => h.unwritten_at_once none atOnce,
    ends.2.1.mono fun _ _ h => h.unwritten_at_once none atOnce, large⟩

end Client

end Parley
