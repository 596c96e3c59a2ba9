import Parley.Proofs.Replies

/-!
A call goes its course: attempts are made one after another as `Retry.Course` computes them, up to
the first at which the course stops.

* `attemptOnce_ensures`: one attempt comes to what the course has for it;
* `attempts_ensures`: the loop, by induction on the attempts that are left;
* `call_follows`: a call of a client with a valid configuration, from its beginning to its end.
-/
namespace Parley.Retry

open Client

variable {w : World}

namespace Course

variable {c : Course} {s : Sending}

section Attempt
variable {α : Type} {kind : Answering α} {attempt : Millis → Flow α} {answers : Reply → α → Prop}
variable {b : Backoff} {k : Nat}

/-- An error of the call, at an instant that the clock can show. -/
theorem error_ensures (valid : c.Valid) {t : Instant} (h : c.Matches s t b k w)
    (after : c.call.start ≤ t) (fits : t < 0x8000000000000000) (kind : ErrorKind)
    (reason : Reason) :
    (c.call.error kind reason).Ensures .quiet w fun e w' =>
      e = c.timed t { kind, reason } ∧ w' = w := by
  simp only [Call.error, Job.ensures_bind, Job.ensures_get, Job.ensures_pure, h.now_eq,
    valid.call_annotate after fits, true_and]

/-- What an attempt may come to, with an error or without one. -/
def Ends (c : Course) (k : Nat) (answers : Reply → α → Prop)
    (r : Except Failure (Attempt α)) : Prop :=
  match c.error k with
  | none => ∃ a, r = .ok (.accepted a) ∧ answers (c.reply k) a
  | some e => r = .ok (.refused e) ∨ e.isRetriable = false ∧ r = .error (.client e)

/-- A failure of an attempt, in the terms of the call. -/
theorem caught_ensures (valid : c.Valid) {f : Failure} (fate : c.fate k = .ofFailure f)
    (h : c.Matches s (c.known k) b (k + 1) w) (fits : c.known k < 0x8000000000000000) :
    Flow.Ensures (match (.error f : Except Failure (Attempt α)) with
      | .ok result => return result
      | .error (.client e) => do
        if e.isRetriable then return .refused e
        throw (.client (c.call.annotate (← get).now e))
      | .error f => c.call.fail .unexpected (.reported f.message)) .quiet w fun r w' =>
        c.Matches s (c.known k) b (k + 1) w' ∧ c.Ends k answers r := by
  have after := valid.call_le_known k
  cases f with
  | client e =>
    have error : c.error k = some (if e.isRetriable then e else c.timed (c.known k) e) := by
      rw [Course.error, fate]
      rfl
    simp only [Flow.ensures_ite, Flow.ensures_pure, Flow.ensures_bind, Flow.ensures_get,
      Flow.ensures_throw, h.now_eq, valid.call_annotate after fits]
    split
    · next retriable => exact ⟨h, by simp [Ends, error, retriable]⟩
    · next final =>
      have same : (c.timed (c.known k) e).isRetriable = e.isRetriable := rfl
      exact ⟨h, by simp [Ends, error, final, same]⟩
  | _ =>
    simp only [Call.fail, Flow.ensures_bind, Flow.ensures_lift, Flow.ensures_throw]
    apply (error_ensures valid h after fits _ _).mono
    rintro e w' ⟨rfl, rfl⟩
    refine ⟨h, ?_⟩
    rw [Ends, Course.error, fate]
    exact .inr ⟨rfl, rfl⟩

theorem attemptOnce_ensures (valid : c.Valid) (plays : c.Plays s kind attempt answers)
    (h : c.Matches s (c.start k) b k w) (fits : c.known k < 0x8000000000000000) :
    (attemptOnce c.call kind (attempt (c.sent s k).timeout)).Ensures .quiet w fun r w' =>
      c.Matches s (c.known k) b (k + 1) w' ∧ c.Ends k answers r := by
  have after := valid.call_le_known k
  simp only [attemptOnce, Flow.ensures_bind, Flow.ensures_attempt]
  apply (plays.attempt_ensures h).mono
  rintro r w₁ ⟨sent, answer⟩
  rcases failure : (c.reply k).failure with _ | f
  · rw [failure] at answer
    obtain ⟨a, rfl, isAnswer⟩ := answer
    simp only [judge, plays.status_eq isAnswer, plays.header_eq _ isAnswer, Flow.ensures_bind,
      Flow.ensures_ite, Flow.ensures_pure, valid.plusMillis_budget]
    split
    · next success =>
      have outcome := outcomeAt_of_success (c := c) (t := c.start k) failure success
      have known : c.known k = max (c.start k) (c.start k + (c.reply k).delay) :=
        congrArg Prod.snd outcome
      have error : c.error k = none := by
        rw [Course.error, fate, outcome]
        rfl
      rw [Ends, error]
      exact ⟨known ▸ sent, a, rfl, isAnswer⟩
    · next other =>
      rw [Bool.not_eq_true] at other
      apply (plays.errorBody_ensures isAnswer sent).mono
      rintro r w₂ ⟨rfl, done⟩
      rcases read : c.readBody (max (c.start k) (c.start k + (c.reply k).delay)) (c.reply k)
        with ⟨f | body, time⟩
      · have outcome := outcomeAt_of_unreadable failure other read
        have known : c.known k = time := congrArg Prod.snd outcome
        rw [read] at done
        exact caught_ensures valid (congrArg Prod.fst outcome) (known ▸ done) fits
      · have outcome := outcomeAt_of_body failure other read
        have known : c.known k = time := congrArg Prod.snd outcome
        have error : c.error k = c.errorAt (c.known k) (.status (c.reply k).status
            ((c.reply k).headers.lookup (ascii "Retry-After")) body) := by
          rw [Course.error, fate, outcome]
        rw [read, ← known] at done
        simp only [Flow.ensures_lift]
        apply (error_ensures valid done after fits _ _).mono
        rintro e w₃ ⟨rfl, rfl⟩
        refine ⟨done, ?_⟩
        rw [Ends, error]
        left
        simp only [Course.timed, ErrorKind.ofStatus_eq_rateLimited]
  · rw [failure] at answer
    subst answer
    have outcome := outcomeAt_of_failure (c := c) (t := c.start k) failure
    have known : c.known k = max (c.start k) (c.start k + (c.reply k).delay) :=
      congrArg Prod.snd outcome
    exact caught_ensures valid (congrArg Prod.fst outcome) (known ▸ sent) fits

theorem waitAfter_ensures {t : Instant} (h : c.Matches s t b k w) (number : Nat) (e : ClientError) :
    (waitAfter number e).Ensures .quiet w fun r w' =>
      if e.isRetriable then
        r = some (waitFor b number e).1 ∧ c.Matches s t (waitFor b number e).2 k w'
      else r = none ∧ c.Matches s t b k w' := by
  have kind : e.isRetriable = e.kind.isRetriable := rfl
  unfold waitAfter
  rw [kind]
  cases limited : e.kind <;>
    simp only [Job.ensures_bind, Job.ensures_count, Job.ensures_pure, Job.ensures_modifyGet,
      ErrorKind.isRetriable, if_true, Bool.false_eq_true, if_false, true_and, h]
  case rateLimited =>
    constructor
    · simp [waitFor, limited]
    · simpa [waitFor, limited] using { h with }
  all_goals
    rw [h.backoff_eq]
    constructor
    · simp [waitFor, limited]
    · simpa [waitFor, limited] using { h with backoff_eq := rfl }

/-- How a call ends with its attempt `m`. -/
structure Concludes (c : Course) (s : Sending) (answers : Reply → α → Prop) (m : Nat)
    (r : Except Failure (α × Nat)) (w' : World) : Prop where
  now_eq : w'.now = c.known m
  sent_eq : w'.sent = s.past ++ (List.range (m + 1)).map (c.sent s)
  result :
    match c.verdict m with
    | none => ∃ a, r = .ok (a, m + 1) ∧ answers (c.reply m) a
    | some e => r = .error (.client e)

/-- An attempt that begins within the budget is allowed. -/
theorem allow_ensures (valid : c.Valid) (h : c.Matches s (c.start k) b k w)
    (inTime : c.elapsedAt (c.start k) < c.call.budget) (fits : c.known k < 0x8000000000000000)
    (number : Nat) :
    (allow c.call number).Ensures .quiet w fun r w' =>
      r = .ok (c.sent s k).timeout ∧ c.Matches s (c.start k) b k w' := by
  have elapsed := valid.call_elapsed (valid.call_le_start k)
    (Int.lt_of_le_of_lt (valid.start_le_known k) fits)
  have early : ¬ c.call.budget ≤ c.elapsedAt (c.start k) := Int.not_le.mpr inTime
  simp only [allow, Flow.ensures_bind, Flow.ensures_get, Flow.ensures_ite, Flow.ensures_lift,
    Job.ensures_count, Flow.ensures_pure, h.running, h.now_eq, elapsed, early, if_false,
    Bool.false_eq_true]
  exact ⟨rfl, { h with }⟩

/-- An attempt that would begin after the budget is used up is not made. -/
theorem attempts_late (valid : c.Valid) {t : Instant} (h : c.Matches s t b k w)
    (after : c.call.start ≤ t) (fits : t < 0x8000000000000000)
    (late : c.call.budget ≤ c.elapsedAt t) (left number : Nat) :
    (Retry.attempts c.call kind attempt left number).Ensures .quiet w fun r w' =>
      r = .error (.client (c.timed t
        { kind := .deadlineExceeded, reason := .budgetExhausted number })) ∧ w' = w := by
  have refused {next : ClientError → Millis → Flow (α × Nat)} :
      (attemptThen c.call kind attempt number next).Ensures .quiet w fun r w' =>
        r = .error (.client (c.timed t
          { kind := .deadlineExceeded, reason := .budgetExhausted number })) ∧ w' = w := by
    simp only [attemptThen, allow, Call.fail, Flow.ensures_bind, Flow.ensures_get, Flow.ensures_ite,
      Flow.ensures_lift, Flow.ensures_throw, h.running, h.now_eq, valid.call_elapsed after fits,
      late, if_true, if_false, Bool.false_eq_true]
    apply (error_ensures valid h after fits _ _).mono
    rintro e w' ⟨rfl, rfl⟩
    exact ⟨rfl, rfl⟩
  cases left <;> (rw [Retry.attempts]; exact refused)

/-- What every attempt has in common: it ends the call, or its error is one that a wait follows. -/
theorem attemptThen_ensures (valid : c.Valid) (plays : c.Plays s kind attempt answers)
    (h : c.Matches s (c.start k) (c.begins k).2 k w)
    (inTime : c.elapsedAt (c.start k) < c.call.budget) (going : ∀ j < k, ¬ c.Stops j)
    {next : ClientError → Millis → Flow (α × Nat)} {post : Except Failure (α × Nat) → World → Prop}
    (ends : ∀ r w', c.Stops k → c.Concludes s answers k r w' → post r w')
    (goesOn : ∀ e w', c.error k = some e → e.isRetriable →
      c.Matches s (c.known k) (c.begins (k + 1)).2 (k + 1) w' →
      (next e (c.wait k)).Ensures .quiet w' post) :
    (attemptThen c.call kind attempt (k + 1) next).Ensures .quiet w post := by
  have fits := valid.known_fits k going
  simp only [attemptThen, Flow.ensures_bind]
  apply (allow_ensures valid h inTime fits _).mono
  rintro r w₀ ⟨rfl, begun⟩
  apply (attemptOnce_ensures valid plays begun fits).mono
  rintro r w₁ ⟨done, result⟩
  rw [Ends] at result
  cases error : c.error k with
  | none =>
    rw [error] at result
    obtain ⟨a, rfl, isAnswer⟩ := result
    refine ends _ _ (by simp [Stops, error]) ⟨done.now_eq, done.sent_eq, ?_⟩
    simp only [verdict, error, Option.map_none]
    exact ⟨a, rfl, isAnswer⟩
  | some e =>
    rw [error] at result
    have final {w' : World} (lasting : e.isRetriable = false)
        (done : c.Matches s (c.known k) (c.begins k).2 (k + 1) w') :
        post (.error (.client e)) w' := by
      refine ends _ _ (by simp [Stops, error, lasting]) ⟨done.now_eq, done.sent_eq, ?_⟩
      simp only [verdict, error, Option.map_some, lasting, Bool.not_false, if_true]
    rcases result with rfl | ⟨lasting, rfl⟩
    · simp only [Flow.ensures_bind, Flow.ensures_lift]
      apply (waitAfter_ensures done (k + 1) e).mono
      intro r w₂ waited
      by_cases retriable : e.isRetriable
      · rw [if_pos retriable] at waited
        obtain ⟨rfl, waited⟩ := waited
        have wait : c.wait k = (waitFor (c.begins k).2 (k + 1) e).1 := by rw [Course.wait, error]
        have later : (c.begins (k + 1)).2 = (waitFor (c.begins k).2 (k + 1) e).2 := by
          rw [begins_succ, error]
        rw [← wait]
        exact goesOn e w₂ error retriable (later ▸ waited)
      · rw [if_neg retriable] at waited
        obtain ⟨rfl, waited⟩ := waited
        rw [Bool.not_eq_true] at retriable
        exact final retriable { waited with }
    · exact final lasting done

theorem conclude_ensures (valid : c.Valid) (h : c.Matches s (c.known k) b (k + 1) w)
    (fits : c.known k < 0x8000000000000000) (kind : ErrorKind) (reason : Reason)
    (last : ClientError) :
    (conclude c.call kind reason last).Ensures .quiet w fun e w' =>
      e = c.concluded k kind reason last ∧ w' = w := by
  have after := valid.call_le_known k
  simp only [conclude, Job.ensures_bind]
  apply (error_ensures valid h after fits kind reason).mono
  rintro e w' ⟨rfl, rfl⟩
  exact ⟨rfl, rfl⟩

/-- Where nothing happens, a sleep lasts as long as it should. -/
theorem sleep_ensures {t : Instant} (h : c.Matches s t b k w) (duration : Millis) :
    (sleep duration).Ensures .quiet w fun r w' =>
      r = true ∧ c.Matches s (max t (t.plusMillis duration)) b k w' := by
  have slept : Pause.quiet (t.plusMillis duration) (·.client.shutdown) w =
      w.advanceTo (t.plusMillis duration) := by
    simp only [Pause.quiet, h.running, Bool.false_eq_true, if_false]
  have after := h.advanceTo (t.plusMillis duration)
  simp only [sleep, Job.ensures_bind, Job.ensures_get, Job.ensures_await, Job.ensures_pure,
    h.now_eq, slept, h.running, after.running, Bool.false_eq_true, if_false, Bool.not_false,
    true_and]
  exact after

/-- A wait that fits into the budget is slept through; one that does not ends the call. -/
theorem waitOut_ensures (valid : c.Valid) (h : c.Matches s (c.known k) b (k + 1) w)
    (fits : c.known k < 0x8000000000000000) (number : Nat) (e : ClientError) :
    (waitOut c.call number e (c.wait k)).Ensures .quiet w fun r w' =>
      if c.call.budget - c.elapsed k ≤ c.wait k then
        r = .error (.client
          (c.concluded k .deadlineExceeded (.waitTooLong (c.wait k) e.message) e)) ∧ w' = w
      else r = .ok () ∧ c.Matches s (c.start (k + 1)) b (k + 1) w' := by
  have after := valid.call_le_known k
  have elapsed : c.call.elapsed (c.known k) = c.elapsed k := valid.call_elapsed after fits
  simp only [waitOut, Flow.ensures_bind, Flow.ensures_get, Flow.ensures_ite, Flow.ensures_lift,
    Job.ensures_notice, h.now_eq, elapsed]
  split
  · apply (conclude_ensures valid h fits _ _ _).mono
    rintro e w' ⟨rfl, same⟩
    exact ⟨rfl, same⟩
  · next short =>
    have told : c.Matches s (c.known k) b (k + 1)
        (w.tell (.retrying e.message number w.config.retryAttempts (c.wait k) c.call.key)) :=
      { h with }
    apply (sleep_ensures told (c.wait k)).mono
    rintro r w' ⟨rfl, begun⟩
    rw [valid.wake fits (Int.not_le.mp short)] at begun
    simpa using begun

theorem attempts_ensures (valid : c.Valid) (plays : c.Plays s kind attempt answers) (left : Nat)
    {k : Nat} (total : k + 1 + left = c.attempts)
    (h : c.Matches s (c.start k) (c.begins k).2 k w)
    (inTime : c.elapsedAt (c.start k) < c.call.budget) (going : ∀ j < k, ¬ c.Stops j) :
    (Retry.attempts c.call kind attempt left (k + 1)).Ensures .quiet w fun r w' =>
      ∃ m, c.Stops m ∧ (∀ j < m, ¬ c.Stops j) ∧ c.Concludes s answers m r w' := by
  induction left generalizing k w with
  | zero =>
    have fits := valid.known_fits k going
    have exhausted : k + 1 = c.attempts := total
    rw [Retry.attempts]
    apply attemptThen_ensures valid plays h inTime going
    case ends => exact fun r w' stops done => ⟨k, stops, going, done⟩
    intro e w' error retriable done
    simp only [Flow.ensures_bind, Flow.ensures_lift, Flow.ensures_throw]
    apply (conclude_ensures valid done fits _ _ _).mono
    rintro e' w'' ⟨rfl, rfl⟩
    refine ⟨k, by simp [Stops, exhausted], going, done.now_eq, done.sent_eq, ?_⟩
    simp [verdict, error, retriable, exhausted]
  | succ left ih =>
    have fits := valid.known_fits k going
    have more : k + 1 ≠ c.attempts := by omega
    rw [Retry.attempts]
    apply attemptThen_ensures valid plays h inTime going
    case ends => exact fun r w' stops done => ⟨k, stops, going, done⟩
    intro e w' error retriable done
    simp only [Flow.ensures_bind]
    apply (waitOut_ensures valid done fits _ e).mono
    intro r w'' waited
    split at waited
    · next long =>
      obtain ⟨rfl, rfl⟩ := waited
      refine ⟨k, by simp [Stops, long], going, done.now_eq, done.sent_eq, ?_⟩
      simp [verdict, error, retriable, more, long]
    · next short =>
      obtain ⟨rfl, begun⟩ := waited
      by_cases spent : c.call.budget ≤ c.elapsed k
      · -- a negative wait after the budget was used up
        have prompt : c.start (k + 1) = c.known k := by
          have fit := Int.not_le.mp short
          rw [start_succ]
          unfold Instant Millis at *
          omega
        have after := valid.call_le_known k
        rw [prompt] at begun
        apply (attempts_late valid begun after fits spent left (k + 2)).mono
        rintro r w₃ ⟨rfl, rfl⟩
        refine ⟨k, by simp [Stops, spent], going, begun.now_eq, begun.sent_eq, ?_⟩
        simp [verdict, error, retriable, more, short]
      · have goesOn : ¬ c.Stops k := by
          simp [Stops, error, retriable, more, short, spent]
        have going' : ∀ j < k + 1, ¬ c.Stops j := by
          intro j hj
          obtain before | rfl := Nat.lt_succ_iff_lt_or_eq.mp hj
          · exact going j before
          · exact goesOn
        have inTime' := (valid.begun (Int.not_le.mp short) (Int.not_le.mp spent)).1
        exact ih (by omega) begun inTime' going'

end Attempt

/-- How a call ends: at once if it has no time, and otherwise with the first attempt at which its
course stops. -/
def Follows {α : Type} (c : Course) (s : Sending) (answers : Reply → α → Prop)
    (r : Except Failure (α × Nat)) (w' : World) : Prop :=
  if c.call.budget = 0 then
    w'.sent = s.past ∧ r = .error (.client (c.timed c.call.start
      { kind := .deadlineExceeded, reason := .budgetExhausted 1 }))
  else ∃ m, c.Stops m ∧ (∀ j < m, ¬ c.Stops j) ∧ c.Concludes s answers m r w'

theorem run_follows {α : Type} {kind : Answering α} {attempt : Millis → Flow α}
    {answers : Reply → α → Prop} (valid : c.Valid) (plays : c.Plays s kind attempt answers)
    (attempts : w.config.retryAttempts = c.attempts) (some : c.attempts ≠ 0)
    (h : c.Matches s c.call.start c.backoff 0 w) :
    (Retry.run c.call kind attempt).Ensures .quiet w (c.Follows s answers) := by
  obtain ⟨left, total⟩ := Nat.exists_eq_add_one_of_ne_zero some
  have number : w.config.retryAttempts.toNat = left + 1 := by rw [attempts, total]; rfl
  have zero : c.elapsedAt c.call.start = 0 := by simp [elapsedAt]
  simp only [Retry.run, Flow.ensures_bind, Flow.ensures_get, number]
  by_cases none : c.call.budget = 0
  · have fits : c.call.start < 0x8000000000000000 := by
      have := valid.deadline_fits
      rw [none] at this
      simpa using this
    apply (attempts_late valid h (Int.le_refl _) fits (by rw [none, zero]) left 1).mono
    rintro r w' ⟨late, rfl⟩
    rw [Follows, if_pos none]
    exact ⟨by simpa using h.sent_eq, late⟩
  · have inTime : c.elapsedAt (c.start 0) < c.call.budget := by
      have := valid.budget_nonneg
      change c.elapsedAt c.call.start < c.call.budget
      rw [zero]
      lia
    apply (attempts_ensures (k := 0) valid plays left (by omega) h inTime (by omega)).mono
    intro r w' ends
    rw [Follows, if_neg none]
    exact ends

/-- The course of a call that begins in some world, by its configuration and its script. -/
def ofWorld (w : World) (call : Call)
    (readBody : Instant → Reply → Except Failure Bytes × Instant) : Course where
  call := call
  attempts := w.config.retryAttempts.toNat
  backoff := w.client.backoff
  reply k := (w.script.replies[k]?).getD w.script.fallback
  readBody := readBody

/-- The body of an answer in one piece is there at once. -/
def wholeBody (t : Instant) (r : Reply) : Except Failure Bytes × Instant := (.ok r.body, t)

/-- Every outcome comes before 64 bits run out of nanoseconds. -/
def InTime (c : Course) : Prop :=
  ∀ k, (∀ j < k, ¬ c.Stops j) → c.known k < 0x8000000000000000

/-- What is meant to follow an attempt: nothing after a success, after an error that will not pass,
after the last attempt, and where the wait does not fit into the budget; otherwise another attempt,
right after the wait. -/
def Meant (c : Course) (k : Nat) : Prop :=
  (c.Stops k ↔ ∀ e ∈ c.error k, e.isRetriable →
    k + 1 = c.attempts ∨ c.call.budget - c.elapsed k ≤ c.wait k) ∧
  c.start (k + 1) = c.known k + c.wait k * 1000000

/-- Everything goes as it is meant, except after a negative wait. -/
theorem meant_iff (k : Nat) : c.Meant k ↔ 0 ≤ c.wait k := by
  rw [Meant, start_succ]
  constructor
  · rintro ⟨-, start⟩
    unfold Instant Millis at *
    omega
  · intro wait
    refine ⟨⟨?_, ?_⟩, ?_⟩
    · intro stops e error retriable
      have := stops e error retriable
      unfold Millis at *
      omega
    · intro meant e error retriable
      have := meant e error retriable
      unfold Millis at *
      omega
    · unfold Instant Millis at *
      omega

end Course

/-- A client with a valid configuration that is not shut down, over a scripted transport that is not
closed. No failure in its script asks for a negative wait. -/
structure Ready (w : World) (number : Nat) : Prop where
  valid : ∃ url, w.config.validate = .ok url
  base_eq : w.client.backoff.base = w.config.retryBaseDelay
  cap_eq : w.client.backoff.cap = w.config.maxRetryDelay
  now_nonneg : 0 ≤ w.now
  now_fits : w.now < 0x8000000000000000
  running : w.client.shutdown = false
  transport_eq : w.transport = some (.scripted number false)
  retryAfter_nonneg : ∀ r ∈ w.script.fallback :: w.script.replies, ∀ e,
    r.failure = some (.client e) → 0 ≤ e.retryAfter

theorem remainingUntil_eq {deadline now : Instant} (nonneg : 0 ≤ now)
    (fits : deadline < 0x8000000000000000) :
    remainingUntil deadline now = max 0 (deadline - now) / 1000000 := by
  unfold remainingUntil Instant.since
  unfold Instant at *
  split
  · next late =>
    have none : max 0 (deadline - now) = 0 := by omega
    rw [none]
    rfl
  · have some : max 0 (deadline - now) = deadline - now := by omega
    rw [some, wrap64_of_fits ⟨by omega, by omega⟩, toMillis_of_nonneg (by unfold Nanos; omega)]

theorem beginCall_ensures {p : Pause} (deadline : Instant) :
    (beginCall deadline).Ensures p w fun call w' =>
      call.start = w.now ∧ call.budget = remainingUntil deadline w.now ∧
        ∃ chance, w' = { w with chance } :=
  ⟨rfl, rfl, _, rfl⟩

section Following
variable {number : Nat} {call : Call} {deadline : Instant}
variable {readBody : Instant → Reply → Except Failure Bytes × Instant}

theorem Ready.course_valid (ready : Ready w number) (fits : deadline < 0x8000000000000000)
    (start : call.start = w.now) (budget : call.budget = max 0 (deadline - w.now) / 1000000)
    (le_readBody : ∀ t r, t ≤ (readBody t r).2)
    (readBody_ne : ∀ t r e, (readBody t r).1 ≠ .error (.client e))
    (inTime : (Course.ofWorld w call readBody).InTime) :
    (Course.ofWorld w call readBody).Valid := by
  obtain ⟨url, config⟩ := ready.valid
  obtain ⟨-, base, cap⟩ := Config.validate_ok config
  have now := ready.now_nonneg
  refine ⟨?_, ?_, ?_, ?_, ?_, ?_, le_readBody, readBody_ne, inTime⟩
  all_goals simp only [Course.ofWorld, start, budget, ready.base_eq, ready.cap_eq]
  · exact now
  · exact Int.ediv_nonneg (Int.le_max_left ..) (by decide)
  · have := ready.now_fits
    unfold Instant at *
    omega
  · exact base
  · exact cap
  · intro k e failure
    refine ready.retryAfter_nonneg _ ?_ e failure
    cases reply : w.script.replies[k]? with
    | none => simp
    | some r => exact List.mem_cons_of_mem _ (List.mem_of_getElem? reply)

variable (readBody) in
/-- The client is where its course begins. -/
theorem Ready.matches_start (ready : Ready w number) (start : call.start = w.now)
    (request : Request) (streaming : Bool) (chance : Twister) :
    (Course.ofWorld w call readBody).Matches ⟨request, streaming, number, w.sent⟩ call.start
      w.client.backoff 0 { w with chance } where
  now_eq := start.symm
  backoff_eq := rfl
  running := ready.running
  transport_eq := ready.transport_eq
  replies_eq j := by rw [Nat.zero_add]; rfl
  sent_eq := (List.append_nil _).symm

theorem Ready.attempts_eq (ready : Ready w number) :
    w.config.retryAttempts = w.config.retryAttempts.toNat ∧ w.config.retryAttempts.toNat ≠ 0 := by
  obtain ⟨url, config⟩ := ready.valid
  obtain ⟨some, -, -⟩ := Config.validate_ok config
  omega

theorem Ready.run_follows {α : Type} {kind : Answering α} {attempt : Millis → Flow α}
    {answers : Reply → α → Prop} {request : Request} {streaming : Bool} (ready : Ready w number)
    (start : call.start = w.now) (valid : (Course.ofWorld w call readBody).Valid)
    (plays : (Course.ofWorld w call readBody).Plays ⟨request, streaming, number, w.sent⟩ kind
      attempt answers) (chance : Twister) :
    (Retry.run call kind attempt).Ensures .quiet { w with chance }
      ((Course.ofWorld w call readBody).Follows ⟨request, streaming, number, w.sent⟩ answers) := by
  obtain ⟨attempts, some⟩ := ready.attempts_eq
  have begun := ready.matches_start readBody start request streaming chance
  have follows := Course.run_follows (c := Course.ofWorld w call readBody) (w := { w with chance })
    valid plays attempts some begun
  exact follows

end Following

/-- A call follows its course, whatever it is answered. The course is the one that is meant exactly
where no wait is negative; by `Course.Valid.wait_cases` a wait is negative only where the backoff
leaves the range of 64 bits. -/
theorem call_follows {number : Nat} {deadline : Instant} (ready : Ready w number)
    (fits : deadline < 0x8000000000000000) :
    (beginCall deadline).Ensures .quiet w fun call w₁ =>
      call.start = w.now ∧ call.budget = max 0 (deadline - w.now) / 1000000 ∧
      ∀ request,
        let unary := Course.ofWorld w call Course.wholeBody
        let streaming := Course.ofWorld w call
          (streamedBody (call.start + call.budget * 1000000))
        (∀ k, (unary.Meant k ↔ 0 ≤ unary.wait k) ∧ (streaming.Meant k ↔ 0 ≤ streaming.wait k)) ∧
        (unary.InTime →
          (Retry.run call .unary (sendUnary request)).Ensures .quiet w₁
            (unary.Follows ⟨request, false, number, w.sent⟩ Course.IsResponse)) ∧
        (streaming.InTime →
          (Retry.run call .streaming (sendStreaming request)).Ensures .quiet w₁
            (streaming.Follows ⟨request, true, number, w.sent⟩ Course.IsStream)) := by
  apply (beginCall_ensures deadline).mono
  rintro call w₁ ⟨start, budget, chance, rfl⟩
  rw [remainingUntil_eq ready.now_nonneg fits] at budget
  refine ⟨start, budget, ?_⟩
  intro request unary streaming
  refine ⟨fun k => ⟨Course.meant_iff k, Course.meant_iff k⟩, ?_, ?_⟩
  · intro inTime
    have valid : unary.Valid := ready.course_valid fits start budget (fun _ _ => Int.le_refl _)
      (by simp [Course.wholeBody]) inTime
    have plays := Course.plays_unary (c := unary) (s := ⟨request, false, number, w.sent⟩) rfl
      fun _ _ => rfl
    exact ready.run_follows start valid plays chance
  · intro inTime
    have valid : streaming.Valid := ready.course_valid fits start budget le_streamedBody
      streamedBody_ne inTime
    have plays := Course.plays_streaming (c := streaming) (s := ⟨request, true, number, w.sent⟩) rfl
      fun _ _ => rfl
    exact ready.run_follows start valid plays chance

/-- A call that is limited once goes on after a second. -/
theorem call_follows_limited :
    let config : Config := { clientTag := [] }
    let w : World := {
      config, client := .ofConfig config 1, chance := .ofSeed 1
      transport := some (.scripted 1 false)
      script := { replies := [{ status := 429 }] } }
    (beginCall 5000000000).Ensures .quiet w fun call w₁ =>
      ∀ request, (Retry.run call .unary (sendUnary request)).Ensures .quiet w₁ fun r w' =>
        r = .ok ({ status := 200, headers := [], body := Reply.plain.body }, 2) ∧
          w'.sent = [
            { request, timeout := 5000, streaming := false, transport := 1, time := 0 },
            { request, timeout := 4000, streaming := false, transport := 1,
              time := 1000000000 }] := by
  intro config w
  have ready : Ready w 1 := by
    refine ⟨?_, rfl, rfl, by decide, by decide, rfl, rfl, ?_⟩
    · exact ⟨_, rfl⟩
    · simp [w, Reply.plain]
  apply (call_follows ready (by decide)).mono
  rintro call w₁ ⟨start, budget, follows⟩ request
  obtain ⟨-, unary, -⟩ := follows request
  obtain ⟨callStart, callBudget, key⟩ := call
  simp only at start budget
  subst start budget
  generalize course : Course.ofWorld w _ Course.wholeBody = c at unary
  have budget : c.call.budget = 5000 := by
    rw [← course]
    rfl
  have known : c.known 0 = 0 ∧ c.elapsed 0 = 0 := by
    rw [← course]
    exact ⟨rfl, rfl⟩
  obtain ⟨e, limited, kind, wait⟩ :
      ∃ e, c.error 0 = some e ∧ e.kind = .rateLimited ∧ e.retryAfter = 1000 := by
    rw [← course]
    exact ⟨_, rfl, rfl, rfl⟩
  have wait : c.wait 0 = 1000 := by
    rw [Course.wait, limited]
    simp only [Course.waitFor, kind, wait, if_true]
  have start : c.start 1 = 1000000000 := by
    rw [Course.start_succ, known.1, wait]
    rfl
  have success : c.error 1 = none := by
    rw [← course]
    rfl
  have goesOn : ¬ c.Stops 0 := by
    intro stops
    have := stops e limited (by rw [ClientError.isRetriable, kind]; rfl)
    rw [budget, known.2, wait, ← course] at this
    simp [Course.ofWorld, w, config] at this
  have stops : c.Stops 1 := by simp [Course.Stops, success]
  have inTime : c.InTime := by
    intro k going
    rcases k with _ | _ | k
    · rw [known.1]
      decide
    · have known : c.known 1 = 1000000000 := by
        rw [← course]
        rfl
      rw [known]
      decide
    · exact absurd stops (going 1 (by omega))
  apply (unary inTime).mono
  intro r w' ends
  rw [Course.Follows, if_neg (by rw [budget]; decide)] at ends
  obtain ⟨m, stopped, before, now, sent, result⟩ := ends
  obtain rfl : m = 1 := by
    rcases m with _ | _ | m
    · exact absurd stopped goesOn
    · rfl
    · exact absurd stops (before 1 (by omega))
  simp only [Course.verdict, success, Option.map_none] at result
  obtain ⟨a, rfl, answer⟩ := result
  refine ⟨?_, ?_⟩
  · rw [answer, ← course]
    rfl
  · rw [sent, ← course]
    rfl

end Parley.Retry
