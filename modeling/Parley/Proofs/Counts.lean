import Mathlib.Algebra.Group.Basic
import Parley.Proofs.Views

/-!
What a job adds to the counters of calls. Others count as well, whenever the job waits; so what is
said of a job is what it counts itself, between its waits, whatever it finds when it goes on.

* `Strand.Counts`, `Job.Counts`, `Flow.Counts`: what is counted by the end, with one rule for each
  way of building a job;
* `Job.Uncounted`, `Flow.Uncounted`: nothing is. Exchanges, bodies and attempts are like that, and
  so is whatever a call does under its permit.
-/
namespace Parley

/-- How many calls have begun, and how many have been counted as ended, in either way. -/
@[ext] structure Tally where
  begun : Nat
  succeeded : Nat
  failed : Nat

namespace Tally

instance : Zero Tally := ⟨0, 0, 0⟩

instance : Add Tally :=
  ⟨fun a b => ⟨a.begun + b.begun, a.succeeded + b.succeeded, a.failed + b.failed⟩⟩

instance : AddCommMonoid Tally where
  add_assoc a b c := Tally.ext (Nat.add_assoc ..) (Nat.add_assoc ..) (Nat.add_assoc ..)
  zero_add a := Tally.ext (Nat.zero_add _) (Nat.zero_add _) (Nat.zero_add _)
  add_zero a := rfl
  add_comm a b := Tally.ext (Nat.add_comm ..) (Nat.add_comm ..) (Nat.add_comm ..)
  nsmul := nsmulRec

/-- A call begins. -/
def call : Tally := ⟨1, 0, 0⟩

def success : Tally := ⟨0, 1, 0⟩

def failure : Tally := ⟨0, 0, 1⟩

end Tally

namespace World

def tally (w : World) : Tally :=
  ⟨w.client.usage.totalCalls, w.client.usage.successfulCalls, w.client.usage.failedCalls⟩

/-- The counters of calls are not on the wire. -/
theorem unwired_tally : Unwired tally :=
  ⟨fun _ _ _ => rfl, fun _ _ => rfl, fun _ _ => rfl, fun _ _ => rfl, fun _ _ => rfl⟩

end World

variable {α β : Type} {before : Tally}

/-! ### Strands -/

/-- Going on from a world with this tally, it counts something by its end. Whatever the tally is
after a wait, what is counted next is added to that. -/
def Strand.Counts : Strand α → Tally → (α → Tally → Prop) → Prop
  | ends a w, before, post => ∃ d, w.tally = before + d ∧ post a d
  | waits _ _ w resume, before, post => ∃ d, w.tally = before + d ∧
      ∀ w', (resume w').Counts w'.tally fun a d' => post a (d + d')

namespace Strand.Counts

variable {s : Strand α} {post post' : α → Tally → Prop}

theorem mono (h : s.Counts before post) (weaken : ∀ a d, post a d → post' a d) :
    s.Counts before post' := by
  induction s generalizing before post post' with
  | ends a w =>
    obtain ⟨d, tally_eq, holds⟩ := h
    exact ⟨d, tally_eq, weaken a d holds⟩
  | waits t stop w resume ih =>
    obtain ⟨d, tally_eq, goes⟩ := h
    exact ⟨d, tally_eq, fun w' => ih w' (goes w') fun a d' => weaken a (d + d')⟩

/-- What has been counted just before belongs to it. -/
theorem shift {d : Tally} (h : s.Counts (before + d) fun a d' => post a (d + d')) :
    s.Counts before post := by
  cases s with
  | ends a w =>
    obtain ⟨d', tally_eq, holds⟩ := h
    exact ⟨d + d', by rw [tally_eq, add_assoc], holds⟩
  | waits t stop w resume =>
    obtain ⟨d', tally_eq, goes⟩ := h
    refine ⟨d + d', by rw [tally_eq, add_assoc], fun w' => ?_⟩
    simpa only [add_assoc] using goes w'

theorem bind {next : α → World → Strand β} {last : β → Tally → Prop} (h : s.Counts before post)
    (goes : ∀ a d w, post a d → (next a w).Counts w.tally fun b d' => last b (d + d')) :
    (s.bind next).Counts before last := by
  induction s generalizing before post last with
  | ends a w =>
    obtain ⟨d, tally_eq, holds⟩ := h
    exact shift (tally_eq ▸ goes a d w holds)
  | waits t stop w resume ih =>
    obtain ⟨d, tally_eq, rest⟩ := h
    refine ⟨d, tally_eq, fun w' => ih w' (rest w') fun a d' w holds => ?_⟩
    simpa only [add_assoc] using goes a (d + d') w holds

end Strand.Counts

/-- Nothing is counted by what does not change the counters. -/
theorem Strand.Preserves.counts {s : Strand α} (h : s.Preserves World.tally before) :
    s.Counts before fun _ d => d = 0 := by
  induction s generalizing before with
  | ends a w => exact ⟨0, (add_zero before).symm ▸ h, rfl⟩
  | waits t stop w resume ih =>
    refine ⟨0, (add_zero before).symm ▸ h.1, fun w' => ?_⟩
    exact (ih w' (h.2 w')).mono fun _ d none => (zero_add d).trans none

/-! ### Jobs -/

/-- What a job counts by its end. -/
def Job.Counts (j : Job α) (post : α → Tally → Prop) : Prop := ∀ w, (j w).Counts w.tally post

/-- A job that counts nothing. -/
abbrev Job.Uncounted (j : Job α) : Prop := j.Preserves World.tally

/-- What something that may fail counts by its end. -/
def Flow.Counts (f : Flow α) (post : Except Failure α → Tally → Prop) : Prop :=
  Job.Counts f.run post

abbrev Flow.Uncounted (f : Flow α) : Prop := f.Preserves World.tally

theorem Job.Preserves.counts {j : Job α} {post : α → Tally → Prop} (h : j.Uncounted)
    (holds : ∀ a, post a 0) : j.Counts post :=
  fun w => (h w).counts.mono fun a _ none => none ▸ holds a

theorem Flow.Preserves.counts {f : Flow α} {post : Except Failure α → Tally → Prop}
    (h : f.Uncounted) (holds : ∀ r, post r 0) : f.Counts post :=
  Job.Preserves.counts h holds

namespace Job.Counts

variable {j : Job α} {post post' : α → Tally → Prop}

theorem mono (h : j.Counts post) (weaken : ∀ a d, post a d → post' a d) : j.Counts post' :=
  fun w => (h w).mono weaken

theorem ret {a : α} (holds : post a 0) : (pure a : Job α).Counts post :=
  fun w => ⟨0, (add_zero w.tally).symm, holds⟩

theorem bind {k : α → Job β} {last : β → Tally → Prop} (h : j.Counts post)
    (next : ∀ a d, post a d → (k a).Counts fun b d' => last b (d + d')) :
    (j >>= k).Counts last :=
  fun w => (h w).bind fun a d w' holds => next a d holds w'

/-- First something that counts nothing. -/
theorem after {k : α → Job β} {last : β → Tally → Prop} (h : j.Uncounted)
    (next : ∀ a, (k a).Counts last) : (j >>= k).Counts last := by
  have none : j.Counts fun _ d => d = 0 := h.counts fun _ => rfl
  refine .bind none fun a d none => ?_
  subst none
  simpa only [zero_add] using next a

theorem look {k : World → Job β} {last : β → Tally → Prop} (next : ∀ w, (k w).Counts last) :
    (get >>= k).Counts last :=
  fun w => next w w

theorem ite {c : Prop} [Decidable c] {k : Job α} (yes : j.Counts post) (no : k.Counts post) :
    (if c then j else k).Counts post := by
  split
  · exact yes
  · exact no

theorem counted {f : Usage → Usage} {d : Tally}
    (counts : ∀ w : World, (w.mapUsage f).tally = w.tally + d) :
    (Job.count f).Counts fun _ d' => d' = d :=
  fun w => ⟨d, counts w, rfl⟩

/-- Something is counted first. -/
theorem count {f : Usage → Usage} {d : Tally} {k : Unit → Job β} {last : β → Tally → Prop}
    (counts : ∀ w : World, (w.mapUsage f).tally = w.tally + d)
    (next : (k ()).Counts fun b d' => last b (d + d')) : (Job.count f >>= k).Counts last :=
  .bind (counted counts) fun _ _ same => same ▸ next

end Job.Counts

namespace Flow.Counts

variable {f : Flow α} {post post' : Except Failure α → Tally → Prop}

theorem mono (h : f.Counts post) (weaken : ∀ r d, post r d → post' r d) : f.Counts post' :=
  Job.Counts.mono h weaken

theorem ret {a : α} (holds : post (.ok a) 0) : (pure a : Flow α).Counts post := Job.Counts.ret holds

theorem fail {e : Failure} (holds : post (.error e) 0) : (throw e : Flow α).Counts post :=
  Job.Counts.ret holds

theorem lift {j : Job α} (h : j.Counts fun a => post (.ok a)) : (liftM j : Flow α).Counts post :=
  Job.Counts.bind h fun a d holds => .ret (by simpa only [add_zero] using holds)

theorem bind {k : α → Flow β} {last : Except Failure β → Tally → Prop} (h : f.Counts post)
    (next : ∀ a d, post (.ok a) d → (k a).Counts fun r d' => last r (d + d'))
    (fails : ∀ e d, post (.error e) d → last (.error e) d) : (f >>= k).Counts last := by
  refine Job.Counts.bind h fun r d holds => ?_
  cases r with
  | ok a => exact next a d holds
  | error e => exact .ret (by simpa only [add_zero] using fails e d holds)

/-- First something that counts nothing. -/
theorem after {k : α → Flow β} {last : Except Failure β → Tally → Prop} (h : f.Uncounted)
    (next : ∀ a, (k a).Counts last) (fails : ∀ e, last (.error e) 0) : (f >>= k).Counts last := by
  have none : f.Counts fun _ d => d = 0 := h.counts fun _ => rfl
  refine .bind none (fun a d none => ?_) fun e d none => ?_
  · subst none
    simpa only [zero_add] using next a
  · subst none
    exact fails e

theorem liftBind {j : Job α} {k : α → Flow β} {post : α → Tally → Prop}
    {last : Except Failure β → Tally → Prop} (h : j.Counts post)
    (next : ∀ a d, post a d → (k a).Counts fun r d' => last r (d + d')) :
    (liftM j >>= k).Counts last := by
  have lifted : (liftM j : Flow α).Counts fun r d => ∃ a, r = .ok a ∧ post a d :=
    .lift (h.mono fun a d holds => ⟨a, rfl, holds⟩)
  refine .bind lifted ?_ ?_
  · rintro a d ⟨_, ⟨⟩, holds⟩
    exact next a d holds
  · rintro e d ⟨_, ⟨⟩, _⟩

/-- Something is counted first. -/
theorem count {f : Usage → Usage} {d : Tally} {k : Unit → Flow β}
    {last : Except Failure β → Tally → Prop}
    (counts : ∀ w : World, (w.mapUsage f).tally = w.tally + d)
    (next : (k ()).Counts fun r d' => last r (d + d')) : (liftM (Job.count f) >>= k).Counts last :=
  .liftBind (Job.Counts.counted counts) fun _ _ same => same ▸ next

theorem liftAfter {j : Job α} {k : α → Flow β} {last : Except Failure β → Tally → Prop}
    (h : j.Uncounted) (next : ∀ a, (k a).Counts last) : (liftM j >>= k).Counts last := by
  have none : j.Counts fun _ d => d = 0 := h.counts fun _ => rfl
  refine .liftBind none fun a d none => ?_
  subst none
  simpa only [zero_add] using next a

theorem andAlways {last : Job Unit} (h : f.Counts post) (ends : last.Uncounted) :
    (f.andAlways last).Counts post := by
  refine .liftBind h fun r d holds => .liftAfter ends fun _ => ?_
  cases r with
  | ok a => exact .ret (by simpa only [add_zero] using holds)
  | error e => exact .fail (by simpa only [add_zero] using holds)

theorem onFailure {last : Job Unit} (h : f.Counts post)
    (succeeds : ∀ a d, post (.ok a) d → post' (.ok a) d)
    (fails : ∀ e d, post (.error e) d → last.Counts fun _ d' => post' (.error e) (d + d')) :
    (f.onFailure last).Counts post' := by
  refine .liftBind h fun r d holds => ?_
  cases r with
  | ok a => exact .ret (by simpa only [add_zero] using succeeds a d holds)
  | error e =>
    exact .liftBind (fails e d holds) fun _ d' failed => .fail (by simpa only [add_zero] using failed)

theorem look {k : World → Flow β} {last : Except Failure β → Tally → Prop}
    (next : ∀ w, (k w).Counts last) : (get >>= k).Counts last :=
  fun w => next w w

theorem ite {c : Prop} [Decidable c] {g : Flow α} (yes : f.Counts post) (no : g.Counts post) :
    (if c then f else g).Counts post :=
  Job.Counts.ite yes no

end Flow.Counts

namespace Job

theorem notice_uncounted (n : Notice) : (notice n).Uncounted := .change fun _ => rfl

theorem note_uncounted (turn : Turn) : (note turn).Uncounted := .change fun _ => rfl

theorem mark_uncounted (m : Mark) : (mark m).Uncounted := .change fun _ => rfl

theorem enrol_uncounted (e : Registration) : (enrol e).Uncounted := .change fun _ => rfl

/-- What streams deliver and attempts are is counted apart from the calls. -/
theorem count_uncounted {f : Usage → Usage} (same : ∀ w : World, (w.mapUsage f).tally = w.tally) :
    (count f).Uncounted :=
  .change same

end Job

/-! ### Exchanges over connections -/

namespace Session

open Job (notice_uncounted mark_uncounted)
open World (unwired_tally)

variable (i : Nat) (c : Connection) (deadline : Instant)

theorem begin_uncounted (request : WireRequest) : (begin i c request deadline).Uncounted := by
  have broken (e : WireError) : (do
      Job.mark (.broke e)
      return .error e : Job (Except WireError (Head × Connection))).Uncounted :=
    .bind (mark_uncounted _) fun _ => .ret _
  refine .bind (left_preserves _) fun left => .bind (record_preserves unwired_tally _) fun _ => ?_
  refine .bind (mark_uncounted _) fun _ => .bind (takeExchange_preserves unwired_tally) fun exchange => ?_
  refine .bind (operate_preserves _ _) fun written => ?_
  split
  · exact broken _
  · refine .bind (left_preserves _) fun left => .bind (record_preserves unwired_tally _) fun _ => ?_
    refine .bind (operate_preserves _ _) fun headed => ?_
    split
    · exact broken _
    · exact .bind (deal_preserves unwired_tally _ _) fun _ => .bind (mark_uncounted _) fun _ => .ret _

theorem answered_uncounted (request : WireRequest) : (answered i request deadline).Uncounted := by
  have once (c : Connection) := begin_uncounted i c deadline request
  have gone (c : Connection) := discard_preserves unwired_tally i c
  refine .bind (checkout_preserves unwired_tally i deadline) fun c => .bind (.lift (once c)) fun begun => ?_
  split
  · exact .ret _
  · refine .bind (.lift (gone c)) fun _ => .ite ?_ (.fail _)
    refine .bind (.lift (notice_uncounted _)) fun _ => ?_
    refine .bind (checkout_preserves unwired_tally i deadline) fun c => .bind (.lift (once c)) fun begun => ?_
    split
    · exact .ret _
    · exact .bind (.lift (gone c)) fun _ => .fail _

theorem readPieces_uncounted (number : Nat) (body : Bytes) (pieces : List Piece) :
    (readPieces i number deadline body pieces).Uncounted := by
  induction pieces generalizing body with
  | nil => exact .ret _
  | cons p pieces ih =>
    refine .bind (operate_preserves _ _) fun error => ?_
    split
    · exact .ret _
    · exact .bind (deal_preserves unwired_tally _ _) fun _ => ih _

theorem send_uncounted (request : Request) (timeout : Millis) :
    (send i request timeout).Uncounted := by
  refine .look fun w => .bind (.lift (current_preserves i)) fun s => ?_
  refine .bind (.ofExcept _) fun wired => .bind (answered_uncounted i _ _) ?_
  rintro ⟨head, c⟩
  refine .bind (.lift (left_preserves _)) fun left => .bind (.lift (record_preserves unwired_tally _)) fun _ => ?_
  refine .bind (.lift (readPieces_uncounted i _ _ _ _)) ?_
  rintro ⟨e | body, unread⟩
  · refine .bind (.lift (mark_uncounted _)) fun _ => ?_
    exact .bind (.lift (discard_preserves unwired_tally _ _)) fun _ => .fail _
  · exact .bind (.lift (checkin_preserves unwired_tally _ _)) fun _ => .ret _

theorem sendStreaming_uncounted (request : Request) (timeout : Millis) :
    (sendStreaming i request timeout).Uncounted := by
  refine .look fun w => .bind (.lift (current_preserves i)) fun s => ?_
  refine .bind (.ofExcept _) fun wired => .bind (answered_uncounted i _ _) ?_
  rintro ⟨head, c⟩
  exact .ret _

theorem readPiece_uncounted (capacity : Nat) (pieces : List Piece) :
    (readPiece i c capacity deadline pieces).Uncounted := by
  induction pieces with
  | nil => exact .bind (checkin_preserves unwired_tally _ _) fun _ => .ret _
  | cons p pieces ih =>
    rw [readPiece]
    refine .look fun w => .ite ?_ ?_
    · exact .bind (discard_preserves unwired_tally _ _) fun _ => .ret _
    · refine .bind (left_preserves _) fun left => .bind (record_preserves unwired_tally _) fun _ => ?_
      refine .bind (operate_preserves _ _) fun error => ?_
      split
      · exact .bind (discard_preserves unwired_tally _ _) fun _ => .ret _
      · refine .bind (deal_preserves unwired_tally _ _) fun _ => ?_
        split
        · exact .ret _
        · exact .bind (checkin_preserves unwired_tally _ _) fun _ => .ret _
        · exact .ite ih (.ret _)

end Session

/-! ### Bodies -/

section Bodies
variable (deadline : Instant)

theorem WireBody.read_uncounted (b : WireBody) (capacity : Nat) :
    (b.read capacity deadline).Uncounted := by
  rcases b with ⟨session, connection, status, headers⟩
  cases connection with
  | none => exact .ret _
  | some c => exact .bind (Session.readPiece_uncounted _ _ _ _ _) fun _ => .ret _

theorem WireBody.dispose_uncounted (b : WireBody) : b.dispose.Uncounted := by
  rcases b with ⟨session, connection, status, headers⟩
  cases connection with
  | none => exact .ret _
  | some c => exact Session.discard_preserves World.unwired_tally _ _

/-- Something comes at once, or after a delay that may be too long. -/
theorem ScriptedBody.delayed_uncounted {late j : Job α} {delay : Nanos}
    (tooLate : late.Uncounted) (atOnce : j.Uncounted) :
    Job.Uncounted (do
      if 0 < delay then
        if deadline < (← get).now + delay then late else
          Job.wait delay
          j
      else j) :=
  .ite (.look fun _ => .ite tooLate (.bind (.wait _) fun _ => atOnce)) atOnce

theorem ScriptedBody.readChunk_uncounted (capacity : Nat) (chunks : List Chunk) :
    (readChunk capacity deadline chunks).Uncounted := by
  induction chunks with
  | nil => exact .ret _
  | cons c chunks ih =>
    apply delayed_uncounted
    · exact .bind (.waitUntil _) fun _ => .ret _
    · split
      · exact .ret _
      · exact ih
      · exact .ret _

namespace Source

theorem read_uncounted (s : Source) (capacity : Nat) : (s.read capacity deadline).Uncounted := by
  cases s with
  | scripted b =>
    have reads : (b.read capacity deadline).Uncounted :=
      .bind (ScriptedBody.readChunk_uncounted _ _ _) fun _ => .ret _
    exact .bind reads fun _ => .ret _
  | wire b => exact .bind (b.read_uncounted _ _) fun _ => .ret _

theorem dispose_uncounted (s : Source) : s.dispose.Uncounted := by
  cases s with
  | scripted b => exact .bind (.change fun _ => rfl) fun _ => Job.mark_uncounted _
  | wire b => exact b.dispose_uncounted

theorem script_uncounted (status : Nat) (headers : Headers) (chunks : List Chunk) :
    (script status headers chunks).Uncounted :=
  .take fun _ => rfl

theorem readRest_uncounted (reads : Nat) (body : Bytes) (s : Source) :
    (readRest deadline reads body s).Uncounted := by
  induction reads generalizing body s with
  | zero => exact .ret _
  | succ reads ih =>
    refine .bind (s.read_uncounted _ _) ?_
    rintro ⟨f | _ | ⟨b, data⟩, s⟩
    · exact .ret _
    · exact .ret _
    · exact ih _ _

end Source

end Bodies

/-! ### Attempts -/

theorem Call.error_uncounted (call : Call) (kind : ErrorKind) (reason : Reason) :
    (call.error kind reason).Uncounted :=
  .look fun _ => .ret _

theorem Call.fail_uncounted (call : Call) (kind : ErrorKind) (reason : Reason) :
    (call.fail kind reason : Flow α).Uncounted :=
  .bind (.lift (call.error_uncounted _ _)) fun _ => .fail _

/-- Looking at what an answer says counts nothing. -/
def Answering.Uncounted (kind : Answering α) : Prop :=
  ∀ answer limit, (kind.errorBody answer limit).Uncounted

theorem Answering.unary_uncounted : unary.Uncounted := fun _ _ => .ret _

theorem Answering.streaming_uncounted : streaming.Uncounted := by
  intro s limit
  refine .bind (.lift (Source.readRest_uncounted _ _ _ _)) ?_
  rintro ⟨result, s⟩
  refine .bind (.lift s.dispose_uncounted) fun _ => ?_
  split
  · exact .ret _
  · exact .ret _
  · exact .fail _

namespace Retry

variable {kind : Answering α} (call : Call)

theorem judge_uncounted (uncounted : kind.Uncounted) (answer : α) :
    (judge call kind answer).Uncounted := by
  refine .ite (.ret _) (.bind (uncounted _ _) fun body => ?_)
  exact .bind (.lift (call.error_uncounted _ _)) fun e => .ret _

theorem attemptOnce_uncounted (uncounted : kind.Uncounted) {attempt : Flow α}
    (tried : attempt.Uncounted) : (attemptOnce call kind attempt).Uncounted := by
  have judged : (attempt >>= judge call kind).Uncounted :=
    .bind tried fun answer => judge_uncounted call uncounted answer
  refine .bind judged.attempt fun result => ?_
  rcases result with f | result
  · cases f with
    | client e => exact .ite (.ret _) (.look fun _ => .fail _)
    | _ => exact call.fail_uncounted _ _
  · exact .ret _

theorem waitAfter_uncounted (number : Nat) (e : ClientError) :
    (waitAfter number e).Uncounted := by
  unfold waitAfter
  split
  · exact .bind (Job.count_uncounted fun _ => rfl) fun _ => .ret _
  · exact .take fun _ => rfl
  · exact .take fun _ => rfl
  · exact .ret _

theorem conclude_uncounted (kind : ErrorKind) (reason : Reason) (last : ClientError) :
    (conclude call kind reason last).Uncounted :=
  .bind (call.error_uncounted _ _) fun _ => .ret _

theorem sleep_uncounted (duration : Millis) : (sleep duration).Uncounted :=
  .look fun _ => .bind (.await _ _) fun _ => .ret _

theorem allow_uncounted (number : Nat) : (allow call number).Uncounted := by
  refine .look fun w => .guarded (call.fail_uncounted _ _) ?_
  refine .look fun w => .guarded (call.fail_uncounted _ _) ?_
  refine .bind (.lift (Job.count_uncounted fun _ => rfl)) fun _ => ?_
  refine .bind (.lift (Job.note_uncounted _)) fun _ => ?_
  exact .bind (.lift (Job.mark_uncounted _)) fun _ => .ret _

theorem waitOut_uncounted (number : Nat) (e : ClientError) (wait : Millis) :
    (waitOut call number e wait).Uncounted := by
  refine .look fun w => .ite ?_ ?_
  · exact .bind (.lift (conclude_uncounted _ _ _ _)) fun _ => .fail _
  · refine .look fun w => .bind (.lift (Job.notice_uncounted _)) fun _ => ?_
    refine .bind (.lift (sleep_uncounted _)) fun awake => ?_
    exact .ite (call.fail_uncounted _ _) (.ret _)

section Attempts
variable (uncounted : kind.Uncounted) {attempt : Millis → Flow α}
  (tried : ∀ t, (attempt t).Uncounted)
include uncounted tried

theorem attemptThen_uncounted (number : Nat) {next : ClientError → Millis → Flow (α × Nat)}
    (goes : ∀ e wait, (next e wait).Uncounted) :
    (attemptThen call kind attempt number next).Uncounted := by
  refine .bind (allow_uncounted call number) fun t => ?_
  refine .bind (attemptOnce_uncounted call uncounted (tried t)) fun result => ?_
  cases result with
  | accepted answer => exact .ret _
  | refused e =>
    refine .bind (.lift (waitAfter_uncounted _ _)) fun wait => ?_
    cases wait with
    | none => exact .bind (.lift (Job.notice_uncounted _)) fun _ => .fail _
    | some wait => exact goes e wait

theorem attempts_uncounted (left number : Nat) :
    (attempts call kind attempt left number).Uncounted := by
  induction left generalizing number with
  | zero =>
    refine attemptThen_uncounted call uncounted tried number fun e wait => ?_
    exact .bind (.lift (conclude_uncounted _ _ _ _)) fun _ => .fail _
  | succ left ih =>
    refine attemptThen_uncounted call uncounted tried number fun e wait => ?_
    exact .bind (waitOut_uncounted _ _ _ _) fun _ => ih _

theorem run_uncounted : (run call kind attempt).Uncounted := by
  refine .look fun w => ?_
  split
  · exact call.fail_uncounted _ _
  · exact attempts_uncounted call uncounted tried _ _

end Attempts

end Retry

/-! ### Calls -/

namespace Client

theorem takeMaking_uncounted : takeMaking.Uncounted := by
  refine .take fun w => ?_
  split <;> rfl

theorem takeReply_uncounted : takeReply.Uncounted := by
  refine .take fun w => ?_
  split <;> rfl

theorem makeTransport_uncounted : makeTransport.Uncounted := by
  refine .bind (.lift takeMaking_uncounted) fun making => ?_
  cases making with
  | nothing => exact .bind (.lift (.change fun _ => rfl)) fun _ => .fail _
  | failure message => exact .fail _
  | transport =>
    refine .bind (.lift (.change fun _ => rfl)) fun _ => .look fun w => .ite ?_ ?_
    · split
      · exact .fail _
      · refine .bind (.lift (.change fun _ => rfl)) fun _ => ?_
        exact .bind (.lift (Job.enrol_uncounted _)) fun _ => .ret _
    · refine .bind (.lift (.change fun _ => rfl)) fun _ => ?_
      exact .bind (.lift (Job.enrol_uncounted _)) fun _ => .ret _

theorem handOver_uncounted (request : Request) : (handOver request).Uncounted := by
  have found : transport.Uncounted := by
    refine .look fun w => ?_
    split
    · exact .ite makeTransport_uncounted (.ret _)
    · exact makeTransport_uncounted
  exact .bind found fun t => .bind (.lift (Job.enrol_uncounted _)) fun _ => .ret _

theorem receive_uncounted (number : Nat) (request : Request) (timeout : Millis)
    (streaming : Bool) : (receive number request timeout streaming).Uncounted := by
  refine .bind (.lift (.change fun _ => rfl)) fun _ => ?_
  refine .bind (.lift takeReply_uncounted) fun reply => ?_
  refine .bind (.lift (.wait _)) fun _ => ?_
  split
  · exact .fail _
  · exact .ret _

theorem sendUnary_uncounted (request : Request) (timeout : Millis) :
    (sendUnary request timeout).Uncounted := by
  refine .bind (handOver_uncounted request) fun t => ?_
  cases t with
  | session i => exact Session.send_uncounted _ _ _
  | scripted number closed => exact .bind (receive_uncounted _ _ _ _) fun _ => .ret _

theorem sendStreaming_uncounted (request : Request) (timeout : Millis) :
    (sendStreaming request timeout).Uncounted := by
  refine .bind (handOver_uncounted request) fun t => ?_
  cases t with
  | session i => exact .bind (Session.sendStreaming_uncounted _ _ _) fun _ => .ret _
  | scripted number closed =>
    exact .bind (receive_uncounted _ _ _ _) fun _ => .lift (Source.script_uncounted _ _ _)

theorem releasePermit_uncounted : releasePermit.Uncounted := .change fun _ => rfl

theorem obtainPermit_uncounted (deadline : Instant) : (obtainPermit deadline).Uncounted := by
  have takes : (takePermit deadline).Uncounted := by
    refine .bind (.await _ _) fun room => .ite ?_ (.ret _)
    exact .bind (.change fun _ => rfl) fun _ => .ret _
  refine .look fun w => .guarded (.fail _) ?_
  refine .look fun w => .bind (.lift takes) fun taken => .ite (.look fun w => .fail _) ?_
  refine .look fun w => .ite ?_ (.look fun w => .ite ?_ (.ret _))
  · exact .bind (.lift releasePermit_uncounted) fun _ => .look fun w => .fail _
  · exact .bind (.lift releasePermit_uncounted) fun _ => .fail _

theorem beginCall_uncounted (deadline : Instant) : (beginCall deadline).Uncounted :=
  .look fun _ => .bind (.take fun _ => rfl) fun _ => .ret _

theorem makeRequest_uncounted (messages : List Message) (stream : Bool) (key : Bytes) :
    (makeRequest messages stream key).Uncounted := by
  refine .look fun w => ?_
  split
  · exact .fail _
  · exact .ret _

theorem chatAdmitted_uncounted (messages : List Message) (deadline : Instant) :
    (chatAdmitted messages deadline).Uncounted := by
  have answered : (chatAnswered messages deadline).Uncounted := by
    refine .bind (.lift (beginCall_uncounted deadline)) fun call => ?_
    refine .bind (makeRequest_uncounted _ _ _) fun request => ?_
    exact .bind (Retry.run_uncounted call Answering.unary_uncounted
      (sendUnary_uncounted request)) fun _ => .ret _
  have decoded (call : Call) (response : Response) (attempts : Nat) :
      (decode call response attempts).Uncounted := by
    unfold decode
    split
    · exact .ret _
    · exact call.fail_uncounted _ _
    · exact .fail _
  exact .bind answered fun (call, response, attempts) => decoded call response attempts

theorem streamAdmitted_uncounted (messages : List Message) (deadline : Instant) :
    (streamAdmitted messages deadline).Uncounted := by
  refine .bind (.lift (beginCall_uncounted deadline)) fun call => ?_
  refine .bind (makeRequest_uncounted _ _ _) fun request => ?_
  refine .bind (Retry.run_uncounted call Answering.streaming_uncounted
    (sendStreaming_uncounted request)) ?_
  rintro ⟨source, attempts⟩
  exact .bind (.lift (Job.notice_uncounted _)) fun _ => .ret _

end Client

end Parley
