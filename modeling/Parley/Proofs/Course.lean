import Parley.Proofs.Instants
import Parley.Proofs.Waits
import Parley.Retry

/-!
The course of a call, computed from the answers to its attempts. Attempts are counted from zero
here: attempt `k` is the one that is told about as number `k + 1`. All of it is arithmetic on
answers and instants, for as many attempts as one likes; `Stops` tells at which of them the call
ends, and `verdict` how.
-/
namespace Parley

/-- The conditions that a configuration has to meet. -/
structure Config.Valid (c : Config) (url : Url) : Prop where
  parse_eq : Url.parse c.baseUrl = .ok url
  scheme : url.scheme = ascii "http" ∨ url.scheme = ascii "https"
  timeout : 0 < c.timeout
  maxConcurrent : c.maxConcurrent ≠ 0
  retryAttempts : 1 ≤ c.retryAttempts
  retryBaseDelay : 0 ≤ c.retryBaseDelay
  delays : c.retryBaseDelay ≤ c.maxRetryDelay
  connectTimeout : 0 < c.connectTimeout
  maxTokens : 1 ≤ c.maxTokens
  model : c.model ≠ []

theorem Config.validate_eq_ok {c : Config} {url : Url} : c.validate = .ok url ↔ c.Valid url := by
  constructor
  · intro h
    unfold validate at h
    repeat' split at h
    all_goals cases h
    rename_i timeout maxConcurrent attempts delays order connect tokens model parse_eq scheme
    simp only [not_le, not_lt, not_or, not_and, Decidable.not_not, ne_eq] at *
    exact ⟨parse_eq, or_iff_not_imp_left.mpr scheme, timeout, maxConcurrent, attempts, delays.1,
      order, connect, tokens, model⟩
  · intro h
    have scheme : ¬ (url.scheme ≠ ascii "http" ∧ url.scheme ≠ ascii "https") :=
      fun other => h.scheme.elim other.1 other.2
    have delays : ¬ (c.retryBaseDelay < 0 ∨ c.maxRetryDelay < 0) := by
      have base := h.retryBaseDelay
      have order := h.delays
      unfold Millis at *
      omega
    simp only [validate, h.parse_eq]
    rw [if_neg scheme, if_neg h.timeout.not_ge, if_neg h.maxConcurrent,
      if_neg h.retryAttempts.not_gt, if_neg delays, if_neg h.delays.not_gt,
      if_neg h.connectTimeout.not_ge, if_neg h.maxTokens.not_gt, if_neg h.model]

theorem Config.validate_ok {c : Config} {url : Url} (h : c.validate = .ok url) :
    1 ≤ c.retryAttempts ∧ 0 ≤ c.retryBaseDelay ∧ 0 ≤ c.maxRetryDelay :=
  have valid := validate_eq_ok.mp h
  ⟨valid.retryAttempts, valid.retryBaseDelay, valid.retryBaseDelay.trans valid.delays⟩

theorem ErrorKind.ofStatus_eq_rateLimited (code : Nat) :
    ErrorKind.ofStatus code = .rateLimited ↔ code = 429 := by
  unfold ErrorKind.ofStatus
  repeat' split
  all_goals simp [*]

namespace Retry

/-- What an attempt comes to. -/
inductive Fate where
  | success
  | status (code : Nat) (retryAfter body : Bytes)
  | threw (e : ClientError)
  | broke (message : Bytes)

def Fate.ofFailure : Failure → Fate
  | .client e => .threw e
  | f => .broke f.message

/-- What it takes to tell how a call will go. -/
structure Course where
  call : Call
  attempts : Nat
  backoff : Backoff
  /-- The answers, in order. -/
  reply : Nat → Reply
  /-- What is read of the body of an answer from some instant on, and when that is done. -/
  readBody : Instant → Reply → Except Failure Bytes × Instant

namespace Course

variable (c : Course)

/-- The whole milliseconds from the start of the call to an instant. -/
def elapsedAt (t : Instant) : Millis := (t - c.call.start) / 1000000

/-- What an attempt begun at some instant comes to, and when that is known. -/
def outcomeAt (t : Instant) (r : Reply) : Fate × Instant :=
  let arrived := max t (t + r.delay)
  match r.failure with
  | some f => (.ofFailure f, arrived)
  | none =>
    if isSuccess r.status then (.success, arrived)
    else
      match c.readBody arrived r with
      | (.ok body, known) =>
        (.status r.status (r.headers.lookup (ascii "Retry-After")) body, known)
      | (.error f, known) => (.ofFailure f, known)

/-- An error that tells the time of the call. -/
def timed (t : Instant) (e : ClientError) : ClientError :=
  { e with elapsed := c.elapsedAt t, remaining := max 0 (c.call.budget - c.elapsedAt t) }

/-- The error that an attempt ends with, if it is no success. -/
def errorAt (t : Instant) : Fate → Option ClientError
  | .success => none
  | .status code retryAfter body =>
    some { c.timed t { kind := .ofStatus code, reason := statusReason code body } with
      httpStatus := code
      retryAfter := if code = 429 then RetryAfter.parse retryAfter else 0 }
  | .threw e => some (if e.isRetriable then e else c.timed t e)
  | .broke message => some (c.timed t { kind := .unexpected, reason := .reported message })

/-- How long to wait after an error of the attempt with some number. -/
def waitFor (b : Backoff) (number : Nat) (e : ClientError) : Millis × Backoff :=
  if e.kind = .rateLimited then (e.retryAfter, b) else b.delayFor number

/-- When an attempt begins, and the state of the backoff then. The next one begins when the outcome
is known and the wait is over. -/
def begins : Nat → Instant × Backoff
  | 0 => (c.call.start, c.backoff)
  | k + 1 =>
    let (t, b) := begins k
    let (fate, known) := c.outcomeAt t (c.reply k)
    match c.errorAt known fate with
    | none => (known, b)
    | some e =>
      let (wait, b) := waitFor b (k + 1) e
      (known + max 0 wait * 1000000, b)

def start (k : Nat) : Instant := (c.begins k).1

def fate (k : Nat) : Fate := (c.outcomeAt (c.start k) (c.reply k)).1

def known (k : Nat) : Instant := (c.outcomeAt (c.start k) (c.reply k)).2

def elapsed (k : Nat) : Millis := c.elapsedAt (c.known k)

def error (k : Nat) : Option ClientError := c.errorAt (c.known k) (c.fate k)

def wait (k : Nat) : Millis :=
  match c.error k with
  | none => 0
  | some e => (waitFor (c.begins k).2 (k + 1) e).1

/-- Whether no attempt follows. That the budget is used up matters after a negative wait only: any
other wait does not fit into it then. -/
def Stops (k : Nat) : Prop :=
  ∀ e ∈ c.error k, e.isRetriable →
    k + 1 = c.attempts ∨ c.call.budget - c.elapsed k ≤ c.wait k ∨ c.call.budget ≤ c.elapsed k

/-- The error of a call that ends because of an attempt's error. -/
def concluded (k : Nat) (kind : ErrorKind) (reason : Reason) (last : ClientError) : ClientError :=
  { c.timed (c.known k) { kind, reason } with
    lastKind := last.kind, httpStatus := last.httpStatus, retryAfter := last.retryAfter }

/-- The error of a call that ends with an attempt, if that is no success. -/
def verdict (k : Nat) : Option ClientError :=
  (c.error k).map fun e =>
    if !e.isRetriable then e
    else if k + 1 = c.attempts then
      c.concluded k .maxRetriesExceeded (.gaveUp (k + 1) (some e.message)) e
    else if c.call.budget - c.elapsed k ≤ c.wait k then
      c.concluded k .deadlineExceeded (.waitTooLong (c.wait k) e.message) e
    else c.timed (c.known k) { kind := .deadlineExceeded, reason := .budgetExhausted (k + 2) }

/-- The conditions under which a call goes its course: the clock has 64 bits, nobody asks for a
negative wait, and reading a body takes time forwards. -/
structure Valid : Prop where
  start_nonneg : 0 ≤ c.call.start
  budget_nonneg : 0 ≤ c.call.budget
  deadline_fits : c.call.start + c.call.budget * 1000000 < 0x8000000000000000
  base_nonneg : 0 ≤ c.backoff.base
  cap_nonneg : 0 ≤ c.backoff.cap
  retryAfter_nonneg : ∀ k e, (c.reply k).failure = some (.client e) → 0 ≤ e.retryAfter
  le_readBody : ∀ t r, t ≤ (c.readBody t r).2
  readBody_ne : ∀ t r e, (c.readBody t r).1 ≠ .error (.client e)
  /-- The outcome of every attempt that is made is known in time for the clock. -/
  known_fits : ∀ k, (∀ j < k, ¬ c.Stops j) → c.known k < 0x8000000000000000

variable {c}

section Outcome
variable {t known : Instant} {r : Reply}

theorem outcomeAt_of_failure {f : Failure} (failure : r.failure = some f) :
    c.outcomeAt t r = (.ofFailure f, max t (t + r.delay)) := by
  simp only [outcomeAt, failure]

theorem outcomeAt_of_success (failure : r.failure = none) (success : isSuccess r.status) :
    c.outcomeAt t r = (.success, max t (t + r.delay)) := by
  simp only [outcomeAt, failure, success, if_true]

theorem outcomeAt_of_body {body : Bytes} (failure : r.failure = none)
    (other : isSuccess r.status = false)
    (read : c.readBody (max t (t + r.delay)) r = (.ok body, known)) :
    c.outcomeAt t r =
      (.status r.status (r.headers.lookup (ascii "Retry-After")) body, known) := by
  simp [outcomeAt, failure, other, read]

theorem outcomeAt_of_unreadable {f : Failure} (failure : r.failure = none)
    (other : isSuccess r.status = false)
    (read : c.readBody (max t (t + r.delay)) r = (.error f, known)) :
    c.outcomeAt t r = (.ofFailure f, known) := by
  simp [outcomeAt, failure, other, read]

end Outcome

theorem begins_succ (k : Nat) :
    c.begins (k + 1) =
      match c.error k with
      | none => (c.known k, (c.begins k).2)
      | some e =>
        (c.known k + max 0 (waitFor (c.begins k).2 (k + 1) e).1 * 1000000,
          (waitFor (c.begins k).2 (k + 1) e).2) := by
  rw [begins]
  rfl

theorem start_succ (k : Nat) : c.start (k + 1) = c.known k + max 0 (c.wait k) * 1000000 := by
  rw [start, begins_succ, wait]
  cases c.error k with
  | none => simp
  | some e => rfl

namespace Valid

variable (valid : c.Valid)
include valid

theorem le_outcomeAt (t : Instant) (r : Reply) : t ≤ (c.outcomeAt t r).2 := by
  have arrived : t ≤ max t (t + r.delay) := Int.le_max_left ..
  unfold outcomeAt
  split
  · exact arrived
  · split
    · exact arrived
    · have later := Int.le_trans arrived (valid.le_readBody (max t (t + r.delay)) r)
      rcases h : c.readBody (max t (t + r.delay)) r with ⟨_ | _, known⟩
      all_goals simpa only [h] using later

theorem start_le_known (k : Nat) : c.start k ≤ c.known k := valid.le_outcomeAt ..

theorem call_le_start (k : Nat) : c.call.start ≤ c.start k := by
  induction k with
  | zero => exact Int.le_refl _
  | succ k ih =>
    have := valid.start_le_known k
    rw [start_succ]
    unfold Instant Millis at *
    omega

theorem call_le_known (k : Nat) : c.call.start ≤ c.known k :=
  Int.le_trans (valid.call_le_start k) (valid.start_le_known k)

theorem begins_bounds (k : Nat) : 0 ≤ (c.begins k).2.base ∧ 0 ≤ (c.begins k).2.cap := by
  induction k with
  | zero => exact ⟨valid.base_nonneg, valid.cap_nonneg⟩
  | succ k ih =>
    rw [begins_succ]
    cases c.error k with
    | none => exact ih
    | some e =>
      simp only [waitFor]
      split <;> exact ih

theorem failure_of_threw {t : Instant} {r : Reply} {e : ClientError}
    (h : (c.outcomeAt t r).1 = .threw e) : r.failure = some (.client e) := by
  unfold outcomeAt at h
  rcases failure : r.failure with _ | f
  · simp only [failure] at h
    split at h
    · cases h
    · rcases body : c.readBody (max t (t + r.delay)) r with ⟨f | _, known⟩
      · have other := valid.readBody_ne (max t (t + r.delay)) r
        rw [body] at other h
        cases f with
        | client e => exact absurd rfl (other e)
        | _ => cases h
      · rw [body] at h
        cases h
  · rw [failure] at h
    cases f with
    | client e =>
      cases h
      rfl
    | _ => cases h

/-- No error that limits the rate asks for a negative wait. -/
theorem error_retryAfter {k : Nat} {e : ClientError} (h : c.error k = some e)
    (limited : e.kind = .rateLimited) : 0 ≤ e.retryAfter := by
  unfold error at h
  cases fate : c.fate k with
  | success => simp [fate, errorAt] at h
  | status code retryAfter body =>
    simp only [fate, errorAt, Option.some.injEq] at h
    subst h
    simp only
    split
    · exact RetryAfter.parse_nonneg _
    · exact Int.le_refl 0
  | threw e₀ =>
    simp only [fate, errorAt, Option.some.injEq] at h
    have asked := valid.retryAfter_nonneg k e₀ (valid.failure_of_threw fate)
    rw [← h]
    split <;> exact asked
  | broke message =>
    simp only [fate, errorAt, Option.some.injEq] at h
    rw [← h] at limited
    cases limited

theorem wait_cases (k : Nat) : 0 ≤ c.wait k ∨ c.wait k = Double.leastInt64 := by
  unfold wait
  cases h : c.error k with
  | none => exact .inl (Int.le_refl 0)
  | some e =>
    simp only [waitFor]
    split
    · next limited => exact .inl (valid.error_retryAfter h limited)
    · obtain ⟨base, cap⟩ := valid.begins_bounds k
      exact (c.begins k).2.delayFor_cases _ base cap

/-- As long as the clock has 64 bits, the call measures its time exactly. -/
theorem call_elapsed {t : Instant} (after : c.call.start ≤ t) (fits : t < 0x8000000000000000) :
    c.call.elapsed t = c.elapsedAt t := by
  have := valid.start_nonneg
  unfold Call.elapsed Instant.since elapsedAt
  unfold Instant at *
  rw [wrap64_of_fits ⟨by omega, by omega⟩, toMillis_of_nonneg (Int.sub_nonneg_of_le after)]

theorem call_annotate {t : Instant} (after : c.call.start ≤ t) (fits : t < 0x8000000000000000)
    (e : ClientError) : c.call.annotate t e = c.timed t e := by
  unfold Call.annotate timed
  rw [valid.call_elapsed after fits]
  congr 1
  unfold Millis at *
  split <;> omega

theorem plusMillis_budget :
    c.call.start.plusMillis c.call.budget = c.call.start + c.call.budget * 1000000 := by
  have := valid.start_nonneg
  have := valid.budget_nonneg
  have := valid.deadline_fits
  unfold Instant.plusMillis Instant.plus
  unfold Instant Millis at *
  rw [nanos_of_fits ⟨by omega, by omega⟩, wrap64_of_fits ⟨by omega, by omega⟩]

/-- After a wait that fits into the budget, the next attempt begins. A negative wait takes no
time. -/
theorem wake {k : Nat} (fits : c.known k < 0x8000000000000000)
    (short : c.wait k < c.call.budget - c.elapsed k) :
    max (c.known k) ((c.known k).plusMillis (c.wait k)) = c.start (k + 1) := by
  have after := valid.call_le_known k
  have := valid.start_nonneg
  have := valid.deadline_fits
  have wait_cases := valid.wait_cases k
  rw [start_succ]
  unfold Instant.plusMillis Instant.plus elapsed elapsedAt at *
  unfold Instant Millis at *
  rcases wait_cases with wait | wait
  · rw [nanos_of_fits ⟨by omega, by omega⟩, wrap64_of_fits ⟨by omega, by omega⟩]
    omega
  · have none : Millis.nanos Double.leastInt64 = 0 := by decide
    have negative : Double.leastInt64 = -0x8000000000000000 := rfl
    rw [wait, none, wrap64_of_fits ⟨by omega, by omega⟩]
    omega

/-- An attempt that follows another one begins within the budget. -/
theorem begun {k : Nat} (short : c.wait k < c.call.budget - c.elapsed k)
    (left : c.elapsed k < c.call.budget) :
    c.elapsedAt (c.start (k + 1)) < c.call.budget ∧ c.start (k + 1) < 0x8000000000000000 := by
  have after := valid.call_le_known k
  have := valid.deadline_fits
  rw [start_succ]
  unfold elapsed elapsedAt at *
  unfold Instant Millis at *
  omega

end Valid

end Course

end Retry

end Parley
