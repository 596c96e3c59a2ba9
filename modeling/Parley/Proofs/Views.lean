import Parley.Proofs.Job

/-!
What a job leaves alone. A view of the world is what can be seen of it in some respect; a job
preserves a view if nothing that it does itself, between its waits, changes what is seen. What
others do during its waits may do so.

* `Job.Preserves`, `Flow.Preserves`: one rule for each way of building a job;
* `Unwired`: views in which nothing is seen of what happens on the wire. They are preserved by
  whatever it takes to get a connection and to give it back: `Session.checkout_preserves`,
  `Session.checkin_preserves`.
-/
namespace Parley

variable {α β γ : Type} {view : World → γ}

/-- Going on from a world of which this is seen, it does not change that. -/
def Strand.Preserves (view : World → γ) : Strand α → γ → Prop
  | ends _ w, seen => view w = seen
  | waits _ _ w resume, seen => view w = seen ∧ ∀ w', (resume w').Preserves view (view w')

theorem Strand.Preserves.bind {s : Strand α} {seen : γ} {next : α → World → Strand β}
    (h : s.Preserves view seen) (goes : ∀ a w, (next a w).Preserves view (view w)) :
    (s.bind next).Preserves view seen := by
  induction s generalizing seen with
  | ends a w => exact (h : view w = seen) ▸ goes a w
  | waits t stop w resume ih => exact ⟨h.1, fun w' => ih w' (h.2 w')⟩

/-- A job that does not change a view. -/
def Job.Preserves (view : World → γ) (j : Job α) : Prop := ∀ w, (j w).Preserves view (view w)

def Flow.Preserves (view : World → γ) (f : Flow α) : Prop := Job.Preserves view f.run

namespace Job.Preserves

variable {j : Job α}

theorem ret (a : α) : Job.Preserves view (pure a : Job α) := fun _ => rfl

theorem bind {k : α → Job β} (h : Job.Preserves view j) (next : ∀ a, Job.Preserves view (k a)) :
    Job.Preserves view (j >>= k) :=
  fun w => (h w).bind next

theorem look {k : World → Job β} (next : ∀ w, Job.Preserves view (k w)) :
    Job.Preserves view (get >>= k) :=
  fun w => next w w

theorem ite {c : Prop} [Decidable c] {k : Job α} (yes : Job.Preserves view j)
    (no : Job.Preserves view k) : Job.Preserves view (if c then j else k) := by
  split
  · exact yes
  · exact no

theorem change {f : World → World} (same : ∀ w, view (f w) = view w) :
    Job.Preserves view (modify f : Job Unit) :=
  same

theorem take {f : World → α × World} (same : ∀ w, view (f w).2 = view w) :
    Job.Preserves view (modifyGet f : Job α) :=
  same

theorem pause (t : Instant) (stop : World → Bool) : Job.Preserves view (Job.pause t stop) :=
  fun _ => ⟨rfl, fun _ => rfl⟩

theorem waitUntil (t : Instant) : Job.Preserves view (Job.waitUntil t) := .pause t _

theorem wait (d : Nanos) : Job.Preserves view (Job.wait d) := .look fun _ => .waitUntil _

theorem await (t : Instant) (condition : World → Bool) :
    Job.Preserves view (Job.await t condition) := by
  refine .look fun w => .ite (.ret true) ?_
  exact .bind (.pause t condition) fun _ => .look fun w => .ret _

theorem forM {δ : Type} {job : δ → Job Unit} (items : List δ)
    (each : ∀ c, Job.Preserves view (job c)) : Job.Preserves view (items.forM job) := by
  induction items with
  | nil => exact .ret ()
  | cons c items ih => exact .bind (each c) fun _ => ih

end Job.Preserves

namespace Flow.Preserves

variable {f : Flow α}

theorem ret (a : α) : Flow.Preserves view (pure a : Flow α) := Job.Preserves.ret _

theorem fail (e : Failure) : Flow.Preserves view (throw e : Flow α) := Job.Preserves.ret _

theorem lift {j : Job α} (h : Job.Preserves view j) : Flow.Preserves view (liftM j : Flow α) :=
  Job.Preserves.bind h fun _ => .ret _

theorem bind {k : α → Flow β} (h : Flow.Preserves view f)
    (next : ∀ a, Flow.Preserves view (k a)) : Flow.Preserves view (f >>= k) := by
  refine Job.Preserves.bind h fun r => ?_
  cases r with
  | ok a => exact next a
  | error e => exact .ret _

theorem look {k : World → Flow β} (next : ∀ w, Flow.Preserves view (k w)) :
    Flow.Preserves view (get >>= k) :=
  fun w => next w w

theorem ite {c : Prop} [Decidable c] {g : Flow α} (yes : Flow.Preserves view f)
    (no : Flow.Preserves view g) : Flow.Preserves view (if c then f else g) :=
  Job.Preserves.ite yes no

/-- Something comes before the rest, in some cases. -/
theorem guarded {c : Prop} [Decidable c] {stops : Flow Unit} (first : Flow.Preserves view stops)
    (rest : Flow.Preserves view f) : Flow.Preserves view (do
      if c then stops
      f) :=
  .ite (.bind first fun _ => rest) rest

theorem ofExcept (r : Except Failure α) : Flow.Preserves view (Flow.ofExcept r) := by
  cases r with
  | ok a => exact .ret a
  | error e => exact .fail e

theorem attempt (h : Flow.Preserves view f) : Flow.Preserves view f.attempt := .lift h

theorem onFailure {last : Job Unit} (h : Flow.Preserves view f) (ends : Job.Preserves view last) :
    Flow.Preserves view (f.onFailure last) := by
  refine .bind h.attempt fun r => ?_
  cases r with
  | ok a => exact .ret a
  | error e => exact .bind (.lift ends) fun _ => .fail e

end Flow.Preserves

/-! ### Views without the wire -/

/-- Nothing is seen of what happens on the wire. -/
structure Unwired (view : World → γ) : Prop where
  deal (w : World) (i : Nat) (dealing : Dealing) : view (w.deal i dealing) = view w
  record (w : World) (event : WireEvent) : view (w.record event) = view w
  tell (w : World) (n : Notice) : view (w.tell n) = view w
  script (w : World) (script : Script) : view { w with script } = view w
  connections (w : World) (connections : Nat) : view { w with connections } = view w

namespace Session

variable (unwired : Unwired view) (i : Nat) (c : Connection) (deadline : Instant)

theorem current_preserves : Job.Preserves view (current i) := .look fun _ => .ret _

theorem left_preserves : Job.Preserves view (left deadline) := .look fun _ => .ret _

theorem operate_preserves (outcome : WireOutcome) (expiry : Instant) :
    Job.Preserves view (operate outcome expiry) := by
  refine .look fun w => .ite ?_ ?_
  · exact .bind (.waitUntil _) fun _ => .ret _
  · exact .bind (.wait _) fun _ => .ret _

include unwired

theorem deal_preserves (dealing : Dealing) : Job.Preserves view (deal i dealing) :=
  .change fun w => unwired.deal w i dealing

theorem record_preserves (event : WireEvent) : Job.Preserves view (Job.record event) :=
  .change fun w => unwired.record w event

theorem notice_preserves (n : Notice) : Job.Preserves view (Job.notice n) :=
  .change fun w => unwired.tell w n

theorem dropIdle_preserves (connections : List Connection) :
    Job.Preserves view (dropIdle connections) :=
  .forM _ fun _ => record_preserves unwired _

theorem discard_preserves : Job.Preserves view (discard i c) := by
  refine .bind (record_preserves unwired _) fun _ => .bind (record_preserves unwired _) fun _ => ?_
  exact deal_preserves unwired _ _

theorem checkin_preserves : Job.Preserves view (checkin i c) :=
  .bind (current_preserves i) fun _ =>
    .ite (deal_preserves unwired _ _) (discard_preserves unwired _ _)

theorem request_preserves : Job.Preserves view (request i) := by
  have drops : Job.Preserves view (dropExpired i) := by
    refine .bind (current_preserves i) fun s => .look fun w => .ite ?_ (.ret ())
    exact .bind (deal_preserves unwired _ _) fun _ => dropIdle_preserves unwired _
  refine .bind (current_preserves i) fun s => .ite (.ret _) ?_
  refine .bind drops fun _ => .bind (current_preserves i) fun s => ?_
  cases s.claim with
  | closed => exact .ret _
  | idle | slot | full => exact .bind (deal_preserves unwired _ _) fun _ => .ret _

theorem takeResolve_preserves : Job.Preserves view takeResolve := by
  refine .take fun w => ?_
  split
  · exact unwired.script w _
  · rfl

theorem takeConnect_preserves : Job.Preserves view takeConnect := by
  refine .take fun w => ?_
  split
  · exact unwired.script w _
  · rfl

theorem takeExchange_preserves : Job.Preserves view takeExchange := by
  refine .take fun w => ?_
  split
  · exact unwired.script w _
  · rfl

theorem resolve_preserves (limit : Instant) : Flow.Preserves view (resolve i limit) := by
  refine .bind (.lift (current_preserves i)) fun s => .look fun w => .ite (.ret ()) ?_
  refine .bind (.lift (record_preserves unwired _)) fun _ => ?_
  refine .bind (.lift (takeResolve_preserves unwired)) fun outcome => .look fun w => .ite ?_ ?_
  · refine .bind (.lift (.waitUntil _)) fun _ => ?_
    exact .bind (.lift (record_preserves unwired _)) fun _ => .fail _
  · refine .bind (.lift (.wait _)) fun _ => ?_
    split
    · exact .fail _
    · exact .lift (deal_preserves unwired _ _)

theorem connect_preserves : Flow.Preserves view (connect i deadline) := by
  refine .bind (.lift (current_preserves i)) fun s => .look fun w => ?_
  refine .bind (resolve_preserves unwired _ _) fun _ => .look fun w => ?_
  refine .bind (.lift (.change fun w => unwired.connections w _)) fun _ => ?_
  refine .bind (.lift (left_preserves _)) fun left => ?_
  refine .bind (.lift (record_preserves unwired _)) fun _ => ?_
  refine .bind (.lift (takeConnect_preserves unwired)) fun outcome => ?_
  refine .bind (.lift (operate_preserves _ _)) fun error => ?_
  split
  · exact .bind (.lift (record_preserves unwired _)) fun _ => .fail _
  · refine .bind (.lift (deal_preserves unwired _ _)) fun _ => ?_
    exact .bind (.lift (notice_preserves unwired _)) fun _ => .ret _

theorem checkout_preserves : Flow.Preserves view (checkout i deadline) := by
  have settled (claim : Claim) : Flow.Preserves view (settle i deadline claim) := by
    cases claim with
    | closed => exact .fail _
    | idle c => exact .ret c
    | slot => exact .onFailure (connect_preserves unwired _ _) (deal_preserves unwired _ _)
    | full => exact .fail _
  refine .bind (.lift (request_preserves unwired i)) fun claim => ?_
  split
  · refine .bind (.lift (.await _ _)) fun room => .ite ?_ (.fail _)
    exact .bind (.lift (request_preserves unwired i)) settled
  · exact settled claim

end Session

end Parley
