import Parley.RetryAfter
import Parley.Source

/-!
Attempts of one call, inside its budget of time. An attempt that is answered with a success ends the
call; one that fails in a way that may pass is followed by a wait and another attempt, as long as
attempts are left and the wait fits into the budget. The server says how long to wait when it limits
the rate of calls; otherwise the wait backs off.
-/
namespace Parley

namespace Call

/-- Writes into an error how much of the call's time is used up. -/
def annotate (c : Call) (now : Instant) (e : ClientError) : ClientError :=
  { e with
    elapsed := c.elapsed now
    remaining := if c.budget ≤ c.elapsed now then 0 else c.budget - c.elapsed now }

/-- An error of this call. -/
def error (c : Call) (kind : ErrorKind) (reason : Reason) : Job ClientError :=
  return c.annotate (← get).now { kind, reason }

def fail {α : Type} (c : Call) (kind : ErrorKind) (reason : Reason) : Flow α := do
  throw (.client (← c.error kind reason))

end Call

/-- How the answers to one kind of request are looked at. -/
structure Answering (α : Type) where
  status : α → Nat
  header : α → Bytes → Bytes
  /-- What an answer that is no success says, read until an instant. Nothing is left of it. -/
  errorBody : α → Instant → Flow Bytes

namespace Answering

def unary : Answering Response where
  status r := r.status
  header r name := r.header name
  errorBody r _ := return r.body

/-- A streamed body that cannot be read is told about in its place. -/
def streaming : Answering Source where
  status s := s.status
  header s name := s.header name
  errorBody s limit := do
    let (result, s) ← s.readAll limit
    s.dispose
    match result with
    | .ok body => return body
    | .error (.client e) => return ascii "(error body unavailable: " ++ e.message ++ ascii ")"
    | .error f => throw f

end Answering

/-- How one attempt ended, unless the call fails because of it. -/
inductive Attempt (α : Type) where
  | accepted (answer : α)
  | refused (e : ClientError)

namespace Retry

variable {α : Type}

/-- What an answer means for the call. -/
def judge (call : Call) (kind : Answering α) (answer : α) : Flow (Attempt α) := do
  let status := kind.status answer
  if isSuccess status then return .accepted answer
  let body ← kind.errorBody answer (call.start.plusMillis call.budget)
  let e ← call.error (.ofStatus status) (statusReason status body)
  return .refused { e with
    httpStatus := status
    retryAfter :=
      if e.kind = .rateLimited then RetryAfter.parse (kind.header answer (ascii "Retry-After"))
      else 0 }

/-- One attempt. What fails and will not pass ends the call, in the terms of the call. -/
def attemptOnce (call : Call) (kind : Answering α) (attempt : Flow α) : Flow (Attempt α) := do
  match ← (do judge call kind (← attempt) : Flow (Attempt α)).attempt with
  | .ok result => return result
  | .error (.client e) =>
    if e.isRetriable then return .refused e
    throw (.client (call.annotate (← get).now e))
  | .error f => call.fail .unexpected (.reported f.message)

/-- How long to wait after an error, if the attempt may be repeated. -/
def waitAfter (attempt : Nat) (e : ClientError) : Job (Option Millis) := do
  match e.kind with
  | .rateLimited =>
    Job.count fun u => { u with rateLimited := u.rateLimited + 1 }
    return some e.retryAfter
  | .server5xx | .connectionFailed =>
    modifyGet fun w =>
      let (delay, backoff) := w.client.backoff.delayFor attempt
      (some delay, { w with client := { w.client with backoff } })
  | _ => return none

/-- The error of a call that ends because of the last attempt's error. -/
def conclude (call : Call) (kind : ErrorKind) (reason : Reason) (last : ClientError) :
    Job ClientError := do
  return { ← call.error kind reason with
    lastKind := last.kind, httpStatus := last.httpStatus, retryAfter := last.retryAfter }

/-- Sleeps, unless the client is shut down. The answer is whether it still runs. -/
def sleep (duration : Millis) : Job Bool := do
  let awake := (← get).now.plusMillis duration
  return !(← Job.await awake (·.client.shutdown))

/-- Allows an attempt, for the time that is left of the call. -/
def allow (call : Call) (number : Nat) : Flow Millis := do
  if (← get).client.shutdown then call.fail .canceled .shutDown
  let elapsed := call.elapsed (← get).now
  if call.budget ≤ elapsed then call.fail .deadlineExceeded (.budgetExhausted number)
  Job.count (Usage.addAttempt number)
  Job.note .tried
  Job.mark (.tried call (call.budget - elapsed))
  return call.budget - elapsed

/-- One attempt, and what follows it if another one may, after a wait. -/
def attemptThen (call : Call) (kind : Answering α) (attempt : Millis → Flow α) (number : Nat)
    (next : ClientError → Millis → Flow (α × Nat)) : Flow (α × Nat) := do
  match ← attemptOnce call kind (attempt (← allow call number)) with
  | .accepted answer => return (answer, number)
  | .refused e =>
    match ← waitAfter number e with
    | none =>
      Job.notice (.notRetrying e.message)
      throw (.client e)
    | some wait => next e wait

/-- Waits for the attempt after the one with this number, if the wait fits into the budget. -/
def waitOut (call : Call) (number : Nat) (e : ClientError) (wait : Millis) : Flow Unit := do
  let now := call.elapsed (← get).now
  if call.budget - now ≤ wait then
    throw (.client (← conclude call .deadlineExceeded (.waitTooLong wait e.message) e))
  Job.notice (.retrying e.message number (← get).config.retryAttempts wait call.key)
  if !(← sleep wait) then call.fail .canceled .shutDownWhileWaiting

/-- Attempts until one succeeds. `left` attempts are left after the one numbered `number`. -/
def attempts (call : Call) (kind : Answering α) (attempt : Millis → Flow α) :
    (left number : Nat) → Flow (α × Nat)
  | 0, number => attemptThen call kind attempt number fun e _ => do
    throw (.client (← conclude call .maxRetriesExceeded (.gaveUp number (some e.message)) e))
  | left + 1, number => attemptThen call kind attempt number fun e wait => do
    waitOut call number e wait
    attempts call kind attempt left (number + 1)

/-- All attempts of a call. -/
def run (call : Call) (kind : Answering α) (attempt : Millis → Flow α) : Flow (α × Nat) := do
  match (← get).config.retryAttempts.toNat with
  | 0 => call.fail .maxRetriesExceeded (.gaveUp 0 none)
  | left + 1 => attempts call kind attempt left 1

end Retry

end Parley
