import Parley.Proofs.Failures

/-!
A call in one piece and a streamed one, side by side. As long as every reply refuses them, the one
cannot be told from the other by its attempts, its failure or its counters: two clients that are
twins stay twins, whichever of the two calls each of them makes.

* `Job.Twins`, `Flow.Twins`: two runs in step, with one rule for each way of building a job;
* `Source.readAll_prompt`: an error body that comes in pieces is the whole one;
* `Retry.run_twins`: the attempts of both calls, one by one.
-/
namespace Parley

/-! ### Clients in the same state -/

/-- What an entry of the log says about an attempt: when it began, and how long it might take. -/
def Marked.attempt? (m : Marked) : Option (Instant × Millis) :=
  match m.mark with
  | .tried _ timeout => some (m.time, timeout)
  | _ => none

/-- All attempts, the latest first. -/
def World.attempts (w : World) : List (Instant × Millis) := w.log.filterMap Marked.attempt?

/-- What is the same in requests of either kind. -/
def Sent.timing (s : Sent) : Nat × Instant × Millis := (s.transport, s.time, s.timeout)

/-- A reply that is an exception, or else no success; its body is the same at once and in pieces,
which are all there when it arrives. -/
def Reply.Refuses (r : Reply) : Prop :=
  r.failure = none → isSuccess r.status = false ∧
    (∀ c ∈ r.stream, c.delay ≤ 0 ∧ c.failure = none) ∧ r.stream.flatMap (·.data) = r.body

instance (r : Reply) : Decidable r.Refuses := inferInstanceAs (Decidable (_ → _ ∧ _ ∧ _))

def Script.Refuses (s : Script) : Prop := ∀ r ∈ s.fallback :: s.replies, r.Refuses

instance (s : Script) : Decidable s.Refuses :=
  inferInstanceAs (Decidable (∀ r ∈ s.fallback :: s.replies, r.Refuses))

/-- Two worlds in which calls cannot be told apart until one is answered: the clients are in the
same state, have made their attempts at the same times, and meet the same replies. -/
structure World.Twins (u v : World) : Prop where
  now_eq : v.now = u.now
  config_eq : v.config = u.config
  client_eq : v.client = u.client
  transport_eq : v.transport = u.transport
  made_eq : v.made = u.made
  script_eq : v.script = u.script
  attempts_eq : v.attempts = u.attempts
  sent_eq : v.sent.map Sent.timing = u.sent.map Sent.timing
  refuses : u.script.Refuses
  unwired : u.script.overWire = false
  scripted : ∀ i, u.transport ≠ some (.session i)

/-- A pause that treats twins alike. What is waited for depends on the client only. -/
def Pause.Even (p : Pause) : Prop :=
  ∀ t (stop : ClientState → Bool) u v, u.Twins v →
    (p t (fun w => stop w.client) u).Twins (p t (fun w => stop w.client) v)

/-- Both succeed, in related ways, or both fail in the same way. -/
inductive EndAlike {α β : Type} (post : α → β → Prop) : Except Failure α → Except Failure β → Prop
  | ok {a : α} {b : β} (h : post a b) : EndAlike post (.ok a) (.ok b)
  | error (f : Failure) : EndAlike post (.error f) (.error f)

section Rules

variable {α β α' β' : Type} {p : Pause} {post : α → β → Prop} {post' : α' → β' → Prop}

/-- Two jobs keep twins twins, and give related answers. -/
def Job.Twins (p : Pause) (j : Job α) (k : Job β) (post : α → β → Prop) : Prop :=
  ∀ u v, u.Twins v → j.Ensures p u fun a u' => k.Ensures p v fun b v' => u'.Twins v' ∧ post a b

/-- The same for jobs that may fail. -/
def Flow.Twins (p : Pause) (f : Flow α) (g : Flow β) (post : α → β → Prop) : Prop :=
  Job.Twins p f.run g.run (EndAlike post)

namespace Job.Twins

variable {j : Job α} {k : Job β}

theorem pure {a : α} {b : β} (h : post a b) : Job.Twins p (Pure.pure a) (Pure.pure b) post :=
  fun _ _ twins => ⟨twins, h⟩

theorem bind {j' : α → Job α'} {k' : β → Job β'} (h : Job.Twins p j k post)
    (next : ∀ a b, post a b → Job.Twins p (j' a) (k' b) post') :
    Job.Twins p (j >>= j') (k >>= k') post' := by
  intro u v twins
  obtain ⟨twins, related⟩ := h u v twins
  simp only [ensures_bind]
  exact next _ _ related _ _ twins

/-- What the two jobs answer is the same. -/
theorem bindEq {j k : Job α} {j' : α → Job α'} {k' : α → Job β'} (h : Job.Twins p j k Eq)
    (next : ∀ a, Job.Twins p (j' a) (k' a) post') : Job.Twins p (j >>= j') (k >>= k') post' :=
  h.bind fun a _ same => same ▸ next a

theorem get {j' : World → Job α'} {k' : World → Job β'}
    (next : ∀ u v, u.Twins v → Job.Twins p (j' u) (k' v) post') :
    Job.Twins p (MonadState.get >>= j') (MonadState.get >>= k') post' :=
  fun u v twins => next u v twins u v twins

theorem modify {f g : World → World} (h : ∀ u v, u.Twins v → (f u).Twins (g v)) :
    Job.Twins p (modify f) (modify g) fun _ _ => True :=
  fun u v twins => ⟨h u v twins, trivial⟩

theorem modifyGet {f : World → α × World} {g : World → β × World}
    (h : ∀ u v, u.Twins v → (f u).2.Twins (g v).2 ∧ post (f u).1 (g v).1) :
    Job.Twins p (modifyGet f) (modifyGet g) post :=
  fun u v twins => h u v twins

theorem ite {c d : Prop} [Decidable c] [Decidable d] {j' : Job α} {k' : Job β} (same : d ↔ c)
    (yes : c → Job.Twins p j k post) (no : ¬ c → Job.Twins p j' k' post) :
    Job.Twins p (if c then j else j') (if d then k else k') post := by
  by_cases h : c
  · rw [if_pos h, if_pos (same.mpr h)]
    exact yes h
  · rw [if_neg h, if_neg fun h' => h (same.mp h')]
    exact no h

theorem await (even : p.Even) (t : Instant) (stop : ClientState → Bool) :
    Job.Twins p (Job.await t (stop ·.client)) (Job.await t (stop ·.client)) Eq := by
  intro u v twins
  have waited := even t stop u v twins
  simp only [ensures_await, twins.client_eq]
  split
  · exact ⟨twins, trivial⟩
  · exact ⟨waited, congrArg stop waited.client_eq.symm⟩

theorem wait (even : p.Even) (d : Nanos) :
    Job.Twins p (Job.wait d) (Job.wait d) fun _ _ => True := by
  intro u v twins
  have waited := even (u.now + d) (fun _ => false) u v twins
  simp only [ensures_wait, twins.now_eq]
  exact ⟨waited, trivial⟩

end Job.Twins

namespace Flow.Twins

variable {f : Flow α} {g : Flow β}

theorem pure {a : α} {b : β} (h : post a b) : Flow.Twins p (Pure.pure a) (Pure.pure b) post :=
  fun _ _ twins => ⟨twins, .ok h⟩

theorem throw (e : Failure) :
    Flow.Twins p (MonadExcept.throw e : Flow α) (MonadExcept.throw e : Flow β) post :=
  fun _ _ twins => ⟨twins, .error e⟩

theorem lift {j : Job α} {k : Job β} (h : Job.Twins p j k post) :
    Flow.Twins p (liftM j) (liftM k) post := by
  intro u v twins
  obtain ⟨twins, related⟩ := h u v twins
  simp only [ensures_run, ensures_lift]
  exact ⟨twins, .ok related⟩

theorem bind {k : α → Flow α'} {l : β → Flow β'} (h : Flow.Twins p f g post)
    (next : ∀ a b, post a b → Flow.Twins p (k a) (l b) post') :
    Flow.Twins p (f >>= k) (g >>= l) post' := by
  have goesOn (r : Except Failure α) (r' : Except Failure β) (alike : EndAlike post r r') :
      Job.Twins p (ExceptT.bindCont k r) (ExceptT.bindCont l r') (EndAlike post') := by
    cases alike with
    | ok related => exact next _ _ related
    | error e => exact fun _ _ twins => ⟨twins, .error e⟩
  exact Job.Twins.bind h goesOn

theorem bindEq {f g : Flow α} {k : α → Flow α'} {l : α → Flow β'} (h : Flow.Twins p f g Eq)
    (next : ∀ a, Flow.Twins p (k a) (l a) post') : Flow.Twins p (f >>= k) (g >>= l) post' :=
  h.bind fun a _ same => same ▸ next a

/-- Each does something to its world, and goes on. -/
theorem change {c d : World → World} (h : ∀ u v, u.Twins v → (c u).Twins (d v))
    (next : Flow.Twins p f g post) :
    Flow.Twins p (do liftM (modify c : Job Unit); f)
      (do liftM (modify d : Job Unit); g) post :=
  .bind (.lift (.modify h)) fun _ _ _ => next

theorem modify {f g : World → World} (h : ∀ u v, u.Twins v → (f u).Twins (g v)) :
    Flow.Twins p (modify f) (modify g) fun _ _ => True :=
  .lift (.modify h)

theorem get {k : World → Flow α} {l : World → Flow β}
    (next : ∀ u v, u.Twins v → Flow.Twins p (k u) (l v) post) :
    Flow.Twins p (MonadState.get >>= k) (MonadState.get >>= l) post :=
  fun u v twins => next u v twins u v twins

theorem ite {c d : Prop} [Decidable c] [Decidable d] {f' : Flow α} {g' : Flow β} (same : d ↔ c)
    (yes : c → Flow.Twins p f g post) (no : ¬ c → Flow.Twins p f' g' post) :
    Flow.Twins p (if c then f else f') (if d then g else g') post :=
  Job.Twins.ite same yes no

theorem attempt (h : Flow.Twins p f g post) :
    Flow.Twins p f.attempt g.attempt (EndAlike post) :=
  .lift h

/-- Both fail, and the same is done before the failure goes on. -/
theorem onFailure {last last' : Job Unit} (h : Flow.Twins p f g post)
    (ends : Job.Twins p last last' fun _ _ => True) :
    Flow.Twins p (f.onFailure last) (g.onFailure last') post := by
  refine .bind h.attempt fun r r' alike => ?_
  cases alike with
  | ok related => exact .pure related
  | error e => exact .bind (.lift ends) fun _ _ _ => .throw e

/-- Where neither goes on, it makes no difference what one of them would do next. -/
theorem stopped {k : α → Flow α'} (h : Flow.Twins p f g fun _ _ => False) :
    Flow.Twins p (f >>= k) g fun _ _ => False := by
  have none (a : α) (r : Except Failure β) : ¬ EndAlike (fun _ _ => False) (.ok a) r := by
    rintro ⟨⟨⟩⟩
  intro u v twins
  rw [Flow.ensures_run, Flow.ensures_bind]
  apply Job.Ensures.mono (h u v twins)
  intro r u' alike
  cases r with
  | ok a => exact absurd alike.2 (none a _)
  | error e =>
    apply alike.mono
    rintro _ v' ⟨twins, ⟨⟩⟩
    exact ⟨twins, .error e⟩

/-- Where both fail, what is done in any case is what is done after a failure. -/
theorem ended {last last' : Job Unit} (h : Flow.Twins p f g fun _ _ => False)
    (ends : Job.Twins p last last' fun _ _ => True) :
    Flow.Twins p (f.andAlways last) (g.onFailure last') fun _ _ => False := by
  refine .bind h.attempt fun r r' alike => ?_
  cases alike with
  | ok none => exact none.elim
  | error e => exact .bind (.lift ends) fun _ _ _ => .throw e

end Flow.Twins

end Rules

namespace World.Twins

variable {u v : World}

theorem advanceTo (h : u.Twins v) (t : Instant) : (u.advanceTo t).Twins (v.advanceTo t) :=
  { h with now_eq := by rw [World.advanceTo, World.advanceTo, h.now_eq] }

theorem mapUsage (h : u.Twins v) (f : Usage → Usage) : (u.mapUsage f).Twins (v.mapUsage f) :=
  { h with client_eq := by rw [World.mapUsage, World.mapUsage, h.client_eq] }

theorem mapSemaphore (h : u.Twins v) (f : Semaphore → Semaphore) :
    (u.mapSemaphore f).Twins (v.mapSemaphore f) :=
  { h with client_eq := by rw [World.mapSemaphore, World.mapSemaphore, h.client_eq] }

theorem note (h : u.Twins v) (turn : Turn) : (u.note turn).Twins (v.note turn) := { h with }

theorem enrol (h : u.Twins v) (e e' : Registration) : (u.enrol e).Twins (v.enrol e') := { h with }

theorem tell (h : u.Twins v) (n n' : Notice) : (u.tell n).Twins (v.tell n') := { h with }

theorem tried (h : u.Twins v) (call call' : Call) (timeout : Millis) :
    (u.mark (.tried call timeout)).Twins (v.mark (.tried call' timeout)) := by
  have attempts_eq : (v.now, timeout) :: v.attempts = (u.now, timeout) :: u.attempts := by
    rw [h.now_eq, h.attempts_eq]
  exact { h with attempts_eq := attempts_eq }

/-- How long a call has been running does not depend on its key. -/
theorem elapsed_eq (h : u.Twins v) (call : Call) (key : Bytes) :
    ({ call with key } : Call).elapsed v.now = call.elapsed u.now :=
  congrArg call.elapsed h.now_eq

/-- One of them lets go of a body. -/
theorem freed (h : u.Twins v) (live : List Nat) (number : Nat) :
    u.Twins (World.mark { v with live } (.freed number)) :=
  { h with }

end World.Twins

/-- Where nothing else happens, it happens to both. -/
theorem Pause.quiet_even : Pause.quiet.Even := by
  intro t stop u v twins
  simp only [Pause.quiet, twins.client_eq]
  split
  · exact twins
  · exact twins.advanceTo t

/-! ### Bodies in pieces -/

section Bodies

variable {p : Pause} {w : World} {limit : Instant}

/-- Parts that are there. -/
def Prompt (chunks : List Chunk) : Prop := ∀ c ∈ chunks, c.delay ≤ 0 ∧ c.failure = none

/-- A read of parts that are there takes no time. -/
theorem ScriptedBody.readChunk_prompt {capacity : Nat} (room : 0 < capacity) {chunks : List Chunk}
    (prompt : Prompt chunks) :
    (readChunk capacity limit chunks).Ensures p w fun r w' => w' = w ∧ Prompt r.2 ∧
      ∃ data, r.1 = .ok data ∧ chunks.flatMap (·.data) = data ++ r.2.flatMap (·.data) ∧
        (data = [] → r.2 = []) := by
  induction chunks with
  | nil => exact ⟨rfl, prompt, [], rfl, rfl, fun _ => rfl⟩
  | cons c chunks ih =>
    obtain ⟨⟨arrived, fine⟩, others⟩ := List.forall_mem_cons.mp prompt
    obtain ⟨data, delay, failure⟩ := c
    obtain rfl : failure = none := fine
    rw [readChunk, if_neg (Int.not_lt.mpr arrived)]
    -- A part without bytes is passed over: only the end of the body gives none.
    cases data with
    | nil => exact ih others
    | cons b data =>
      obtain ⟨n, rfl⟩ := Nat.exists_eq_add_one_of_ne_zero (Nat.pos_iff_ne_zero.mp room)
      refine ⟨rfl, List.forall_mem_cons.mpr ⟨⟨Int.le_refl _, rfl⟩, others⟩, _, rfl, ?_, by rintro ⟨⟩⟩
      change b :: data ++ _ = (b :: data).take (n + 1) ++ ((b :: data).drop (n + 1) ++ _)
      rw [← List.append_assoc, List.take_append_drop]

theorem Source.remaining_scripted (b : ScriptedBody) :
    (Source.scripted b).remaining = (b.chunks.flatMap (·.data)).length := by
  obtain ⟨number, status, headers, chunks⟩ := b
  induction chunks with
  | nil => rfl
  | cons c chunks ih => simpa [remaining] using ih

theorem Source.readRest_prompt (reads : Nat) (body : Bytes) (b : ScriptedBody)
    (prompt : Prompt b.chunks) (enough : (b.chunks.flatMap (·.data)).length < reads) :
    (readRest limit reads body (.scripted b)).Ensures p w fun r w' => w' = w ∧
      r.1 = .ok (body ++ b.chunks.flatMap (·.data)) ∧
        ∃ chunks, r.2 = .scripted { b with chunks } := by
  induction reads generalizing body b with
  | zero => omega
  | succ reads ih =>
    simp only [readRest, read, ScriptedBody.read, Job.ensures_bind, Job.ensures_pure]
    apply (ScriptedBody.readChunk_prompt (by decide) prompt).mono
    rintro ⟨result, chunks⟩ w' ⟨rfl, prompt, data, rfl, whole, done⟩
    rw [whole] at enough ⊢
    cases data with
    | nil =>
      obtain rfl : chunks = [] := done rfl
      exact ⟨rfl, congrArg Except.ok (List.append_nil body).symm, _, rfl⟩
    | cons x data =>
      have fewer : (chunks.flatMap (·.data)).length < reads := by
        simp only [List.length_append, List.length_cons] at enough
        omega
      apply (ih (body ++ x :: data) { b with chunks } prompt fewer).mono
      rintro r w' ⟨rfl, result, left⟩
      exact ⟨rfl, by rw [result, List.append_assoc], left⟩

/-- A body whose parts are there is read at once, whatever would happen in a wait. -/
theorem Source.readAll_prompt (b : ScriptedBody) (prompt : Prompt b.chunks) :
    (readAll (.scripted b) limit).Ensures p w fun r w' => w' = w ∧
      r.1 = .ok (b.chunks.flatMap (·.data)) ∧ ∃ chunks, r.2 = .scripted { b with chunks } := by
  apply readRest_prompt _ _ b prompt
  rw [remaining_scripted]
  exact Nat.lt_succ_self _

end Bodies

/-! ### Attempts -/

/-- The same refusal, in one piece and as a stream. -/
def Refusal (r : Response) (s : Source) : Prop :=
  isSuccess r.status = false ∧ ∃ number chunks, Prompt chunks ∧
    chunks.flatMap (·.data) = r.body ∧
      s = .scripted { number, status := r.status, headers := r.headers, chunks }

namespace Call

variable {p : Pause} (call : Call) (key : Bytes)

theorem error_twins (kind : ErrorKind) (reason : Reason) :
    Job.Twins p (call.error kind reason) ({ call with key }.error kind reason) Eq := by
  refine .get fun u v twins => ?_
  rw [twins.now_eq]
  exact .pure rfl

theorem fail_twins {α β : Type} {post : α → β → Prop} (kind : ErrorKind) (reason : Reason) :
    Flow.Twins p (call.fail kind reason) ({ call with key }.fail kind reason) post := by
  refine .bindEq (.lift (call.error_twins key kind reason)) fun e => ?_
  exact .throw _

end Call

namespace Retry

variable {p : Pause} {r : Response} {s : Source} (call : Call) (key : Bytes)

/-- What is read of a refusal is the same, though it is let go of only as a stream. -/
theorem errorBody_twins (refusal : Refusal r s) (limit : Instant) :
    Flow.Twins p (Answering.unary.errorBody r limit) (Answering.streaming.errorBody s limit)
      Eq := by
  obtain ⟨-, number, chunks, prompt, whole, rfl⟩ := refusal
  intro u v twins
  simp only [Answering.unary, Answering.streaming, Flow.ensures_run, Flow.ensures_pure,
    Flow.ensures_bind, Flow.ensures_lift]
  apply (Source.readAll_prompt _ prompt).mono
  rintro ⟨result, s⟩ v' ⟨rfl, result_eq, left, s_eq⟩
  simp only at result_eq s_eq
  subst result_eq s_eq
  exact ⟨twins.freed _ _, .ok whole.symm⟩

theorem judge_twins (refusal : Refusal r s) :
    Flow.Twins p (judge call .unary r) (judge { call with key } .streaming s) fun a b =>
      ∃ e, a = .refused e ∧ b = .refused e := by
  have body := errorBody_twins (p := p) refusal (call.start.plusMillis call.budget)
  obtain ⟨other, number, chunks, -, -, rfl⟩ := refusal
  refine .ite Iff.rfl (fun success => ?_) fun _ => ?_
  · cases other.symm.trans success
  · refine .bindEq body fun text => ?_
    refine .bindEq (.lift (call.error_twins key _ _)) fun e => ?_
    exact .pure ⟨_, rfl, rfl⟩

/-- An attempt that is refused in both calls, or fails in both, ends in the same way. -/
theorem attemptOnce_twins {unary : Flow Response} {streaming : Flow Source}
    (sent : Flow.Twins p unary streaming Refusal) :
    Flow.Twins p (attemptOnce call .unary unary)
      (attemptOnce { call with key } .streaming streaming) fun a b =>
        ∃ e, a = .refused e ∧ b = .refused e := by
  have judged : Flow.Twins p (do judge call .unary (← unary))
      (do judge { call with key } .streaming (← streaming)) fun a b =>
        ∃ e, a = .refused e ∧ b = .refused e :=
    .bind sent fun _ _ refusal => judge_twins call key refusal
  refine .bind judged.attempt fun a b alike => ?_
  cases alike with
  | ok same =>
    obtain ⟨e, rfl, rfl⟩ := same
    exact .pure ⟨e, rfl, rfl⟩
  | error f =>
    -- The same exception ends both attempts, and both calls unless it may pass.
    cases f with
    | client e =>
      refine .ite Iff.rfl (fun _ => .pure ⟨e, rfl, rfl⟩) fun _ => .get fun u v twins => ?_
      rw [twins.now_eq]
      exact .throw _
    | _ => exact call.fail_twins key _ _

theorem allow_twins (number : Nat) :
    Flow.Twins p (allow call number) (allow { call with key } number) Eq := by
  refine .get fun u v twins => .ite (by rw [twins.client_eq]) (fun _ => call.fail_twins key _ _)
    fun _ => .get fun u v twins => ?_
  rw [twins.elapsed_eq call key]
  refine .ite Iff.rfl (fun _ => call.fail_twins key _ _) fun _ => ?_
  refine .change (fun _ _ twins => twins.mapUsage _) ?_
  refine .change (fun _ _ twins => twins.note _) ?_
  exact .change (fun _ _ twins => twins.tried _ _ _) (.pure rfl)

theorem waitAfter_twins (number : Nat) (e : ClientError) :
    Job.Twins p (waitAfter number e) (waitAfter number e) Eq := by
  rcases e with ⟨kind, reason, elapsed, remaining, retryAfter, httpStatus, lastKind⟩
  cases kind
  case rateLimited =>
    exact .bind (.modify fun _ _ twins => twins.mapUsage _) fun _ _ _ => .pure rfl
  case server5xx | connectionFailed =>
    refine .modifyGet fun u v twins => ?_
    simp only [twins.client_eq]
    exact ⟨{ twins with client_eq := rfl }, trivial⟩
  all_goals exact .pure rfl

theorem conclude_twins (kind : ErrorKind) (reason : Reason) (last : ClientError) :
    Job.Twins p (conclude call kind reason last) (conclude { call with key } kind reason last)
      Eq := by
  refine .bindEq (call.error_twins key kind reason) fun e => ?_
  exact .pure rfl

section Even
variable (even : p.Even)
include even

theorem sleep_twins (duration : Millis) : Job.Twins p (sleep duration) (sleep duration) Eq := by
  refine .get fun u v twins => ?_
  rw [twins.now_eq]
  refine .bindEq (.await even _ (·.shutdown)) fun _ => ?_
  exact .pure rfl

theorem waitOut_twins (number : Nat) (e : ClientError) (wait : Millis) :
    Flow.Twins p (waitOut call number e wait) (waitOut { call with key } number e wait)
      fun _ _ => True := by
  refine .get fun u v twins => ?_
  simp only [twins.elapsed_eq call key]
  refine .ite Iff.rfl (fun _ => ?_) fun _ => ?_
  · refine .bindEq (.lift (conclude_twins call key _ _ e)) fun _ => ?_
    exact .throw _
  · refine .get fun _ _ _ => .change (fun _ _ twins => twins.tell _ _) ?_
    refine .bindEq (.lift (sleep_twins even wait)) fun awake => ?_
    exact .ite Iff.rfl (fun _ => call.fail_twins key _ _) fun _ => .pure trivial

variable {unary : Millis → Flow Response} {streaming : Millis → Flow Source}
variable (sent : ∀ timeout, Flow.Twins p (unary timeout) (streaming timeout) Refusal)
include sent

omit even in
/-- Neither call gets past an attempt but by what follows it. -/
theorem attemptThen_twins (number : Nat) {next : ClientError → Millis → Flow (Response × Nat)}
    {next' : ClientError → Millis → Flow (Source × Nat)}
    (goesOn : ∀ e wait, Flow.Twins p (next e wait) (next' e wait) fun _ _ => False) :
    Flow.Twins p (attemptThen call .unary unary number next)
      (attemptThen { call with key } .streaming streaming number next') fun _ _ => False := by
  refine .bindEq (allow_twins call key number) fun timeout => ?_
  refine .bind (attemptOnce_twins call key (sent timeout)) fun _ _ refused => ?_
  obtain ⟨e, rfl, rfl⟩ := refused
  refine .bindEq (.lift (waitAfter_twins number e)) fun wait => ?_
  cases wait with
  | none => exact .change (fun _ _ twins => twins.tell _ _) (.throw _)
  | some wait => exact goesOn e wait

/-- By induction on the attempts that are left: each of them is refused in both calls. -/
theorem attempts_twins (left number : Nat) :
    Flow.Twins p (attempts call .unary unary left number)
      (attempts { call with key } .streaming streaming left number) fun _ _ => False := by
  induction left generalizing number with
  | zero =>
    refine attemptThen_twins call key sent number fun e wait => ?_
    refine .bindEq (.lift (conclude_twins call key _ _ e)) fun _ => ?_
    exact .throw _
  | succ left ih =>
    refine attemptThen_twins call key sent number fun e wait => ?_
    exact .bind (waitOut_twins call key even number e wait) fun _ _ _ => ih (number + 1)

theorem run_twins :
    Flow.Twins p (run call .unary unary) (run { call with key } .streaming streaming)
      fun _ _ => False := by
  refine .get fun u v twins => ?_
  rw [twins.config_eq]
  split
  · exact call.fail_twins key _ _
  · exact attempts_twins call key even sent _ _

end Even

end Retry

namespace Client

variable {p : Pause}

/-- The transport that a client makes, if it makes one, is scripted. -/
def Scripted (t t' : Transport) : Prop := t' = t ∧ ∃ number closed, t = .scripted number closed

theorem releasePermit_twins : Job.Twins p releasePermit releasePermit fun _ _ => True :=
  .modify fun _ _ twins => twins.mapSemaphore _

theorem takeMaking_twins : Job.Twins p takeMaking takeMaking Eq := by
  refine .modifyGet fun u v twins => ?_
  rw [twins.script_eq]
  split
  · exact ⟨{ twins with script_eq := rfl, refuses := twins.refuses, unwired := twins.unwired }, rfl⟩
  · exact ⟨twins, rfl⟩

theorem makeTransport_twins : Flow.Twins p makeTransport makeTransport Scripted := by
  refine .bindEq (.lift takeMaking_twins) fun making => ?_
  cases making with
  | nothing =>
    refine .bind (.modify fun u v twins => ?_) fun _ _ _ => .throw _
    exact { twins with transport_eq := rfl, scripted := by rintro _ ⟨⟩ }
  | failure message => exact .throw _
  | transport =>
    refine .bind (.modify fun u v twins => ?_) fun _ _ _ => .get fun u v twins => ?_
    · exact { twins with made_eq := congrArg (· + 1) twins.made_eq }
    · have unwired : v.script.overWire = false := by rw [twins.script_eq, twins.unwired]
      simp only [twins.unwired, unwired, twins.made_eq, Bool.false_eq_true, if_false]
      refine .bind (.modify fun u v twins => ?_) fun _ _ _ => ?_
      · exact { twins with transport_eq := rfl, scripted := by rintro _ ⟨⟩ }
      · refine .change (fun _ _ twins => twins.enrol _ _) ?_
        exact .pure ⟨rfl, _, _, rfl⟩

theorem transport_twins : Flow.Twins p transport transport Scripted := by
  refine .get fun u v twins => ?_
  have scripted := twins.scripted
  rw [twins.transport_eq]
  cases held : u.transport with
  | none => exact makeTransport_twins
  | some t =>
    cases t with
    | session i => exact absurd held (scripted i)
    | scripted number closed =>
      exact .ite Iff.rfl (fun _ => makeTransport_twins) fun _ => .pure ⟨rfl, _, _, rfl⟩

theorem handOver_twins (request request' : Request) :
    Flow.Twins p (handOver request) (handOver request') Scripted := by
  refine .bind transport_twins fun _ _ same => ?_
  exact .change (fun _ _ twins => twins.enrol _ _) (.pure same)

theorem takeReply_twins : Job.Twins p takeReply takeReply fun r r' => r' = r ∧ r.Refuses := by
  refine .modifyGet fun u v twins => ?_
  have refuses := twins.refuses
  rw [twins.script_eq]
  split
  · next r replies found =>
    rw [Script.Refuses, found] at refuses
    obtain ⟨fallback, first, others⟩ := by simpa using refuses
    refine ⟨{ twins with script_eq := rfl, refuses := ?_, unwired := twins.unwired }, rfl, first⟩
    exact List.forall_mem_cons.mpr ⟨fallback, others⟩
  · exact ⟨twins, rfl, refuses _ (List.mem_cons_self ..)⟩

section Even
variable (even : p.Even)
include even

theorem receive_twins (number : Nat) (request request' : Request) (timeout : Millis)
    (streaming streaming' : Bool) :
    Flow.Twins p (receive number request timeout streaming)
      (receive number request' timeout streaming') fun r r' => r' = r ∧ r.failure = none ∧
        r.Refuses := by
  refine .bind (.modify fun u v twins => ?_) fun _ _ _ => ?_
  · refine { twins with sent_eq := ?_ }
    simp only [List.map_append, twins.sent_eq, twins.now_eq, List.map_cons, List.map_nil,
      Sent.timing]
  · refine .bind (.lift takeReply_twins) fun _ r same => ?_
    obtain ⟨rfl, refuses⟩ := same
    refine .bind (.lift (.wait even _)) fun _ _ _ => ?_
    cases failure : r.failure with
    | some f => exact .throw f
    | none => exact .pure ⟨rfl, failure, refuses⟩

theorem send_twins (request request' : Request) (timeout : Millis) :
    Flow.Twins p (sendUnary request timeout) (sendStreaming request' timeout) Refusal := by
  refine .bind (handOver_twins request request') fun t _ scripted => ?_
  obtain ⟨rfl, number, closed, rfl⟩ := scripted
  refine .bind (receive_twins even number request request' timeout false true) fun r _ same => ?_
  obtain ⟨rfl, fine, refuses⟩ := same
  obtain ⟨other, prompt, whole⟩ := refuses fine
  intro u v twins
  exact ⟨{ twins with }, .ok ⟨other, _, _, prompt, whole, rfl⟩⟩

theorem takePermit_twins (deadline : Instant) :
    Job.Twins p (takePermit deadline) (takePermit deadline) Eq := by
  refine .bindEq (.await even deadline (·.semaphore.hasRoom)) fun room => ?_
  refine .ite Iff.rfl (fun _ => ?_) fun _ => .pure rfl
  exact .bind (.modify fun _ _ twins => twins.mapSemaphore _) fun _ _ _ => .pure rfl

theorem obtainPermit_twins (deadline : Instant) :
    Flow.Twins p (obtainPermit deadline) (obtainPermit deadline) fun _ _ => True := by
  have late (start : Instant) (reason : Reason) :
      let gives : Flow Unit := do
        throw (.client {
          kind := .deadlineExceeded, reason, elapsed := toMillis ((← get).now.since start) })
      Flow.Twins p gives gives fun _ _ => True := by
    refine .get fun u v twins => ?_
    rw [twins.now_eq]
    exact .throw _
  have shut (u v : World) (twins : u.Twins v) :
      v.client.shutdown = true ↔ u.client.shutdown = true := by rw [twins.client_eq]
  refine .get fun u v twins => .ite (shut u v twins) (fun _ => .throw _) fun _ => ?_
  refine .get fun u v twins => ?_
  rw [twins.now_eq]
  refine .bindEq (.lift (takePermit_twins even deadline)) fun taken => ?_
  refine .ite Iff.rfl (fun _ => late _ _) fun _ => .get fun u v twins => ?_
  rw [twins.now_eq]
  refine .ite Iff.rfl (fun _ => .bind (.lift releasePermit_twins) fun _ _ _ => late _ _) fun _ => ?_
  refine .get fun u v twins => .ite (shut u v twins) (fun _ => ?_) fun _ => .pure trivial
  exact .bind (.lift releasePermit_twins) fun _ _ _ => .throw _

end Even

/-- Both calls are made, or neither of them can be. -/
theorem makeRequest_twins (messages : List Message) (key key' : Bytes) :
    Flow.Twins p (makeRequest messages false key) (makeRequest messages true key')
      fun _ _ => True := by
  intro u v twins
  apply (makeRequest_writes messages false key).mono
  rintro r u' ⟨rfl, written⟩
  apply (makeRequest_writes messages true key').mono
  rintro r' v' ⟨rfl, written'⟩
  rw [twins.config_eq] at written'
  refine ⟨twins, ?_⟩
  cases r with
  | ok request =>
    cases r' with
    | ok request' => exact .ok trivial
    | error f => cases written.1.symm.trans written'.1
  | error f =>
    cases r' with
    | ok request' => cases written.1.symm.trans written'.1
    | error f' =>
      rw [written.2, written'.2]
      exact .error _

/-- Calls that begin at the same time differ in their keys only. -/
theorem beginCall_twins (deadline : Instant) :
    Job.Twins p (beginCall deadline) (beginCall deadline) fun call call' =>
      ∃ key, call' = { call with key } := by
  have drawn : Job.Twins p freshKey freshKey fun _ _ => True :=
    .modifyGet fun _ _ twins => ⟨{ twins with }, trivial⟩
  refine .get fun u v twins => ?_
  rw [twins.now_eq]
  exact .bind drawn fun _ key _ => .pure ⟨key, rfl⟩

theorem counted_twins {α β : Type} {f : Flow α} {g : Flow β} {post : α → β → Prop}
    (h : Flow.Twins p f g post) : Flow.Twins p (counted f) (counted g) post := by
  refine .change (fun _ _ twins => twins.mapUsage _) ?_
  refine .change (fun _ _ twins => twins.note _) ?_
  refine h.onFailure (.bind (.modify fun _ _ twins => twins.mapUsage _) fun _ _ _ => ?_)
  exact .modify fun _ _ twins => twins.note _

theorem admitted_twins (even : p.Even) (messages : List Message) (deadline : Instant) :
    Flow.Twins p (chatAdmitted messages deadline) (streamAdmitted messages deadline)
      fun _ _ => False := by
  refine .stopped (.bind (.lift (beginCall_twins deadline)) fun call _ same => ?_)
  obtain ⟨key, rfl⟩ := same
  refine .bind (makeRequest_twins messages call.key key) fun request request' _ => ?_
  have ran := Retry.run_twins call key even (send_twins even request request')
  exact .bind ran fun _ _ none => none.elim

/-- Both calls, when there is something to say: neither is answered. -/
theorem calls_twins (even : p.Even) {messages : List Message} (some : messages ≠ [])
    (deadline : Instant) :
    Flow.Twins p (chat messages deadline) (stream messages deadline) fun _ _ => False := by
  have nonempty : ¬ messages.isEmpty = true := mt List.isEmpty_iff.mp some
  rw [chat, stream, if_neg nonempty, if_neg nonempty]
  apply counted_twins
  refine .bind (obtainPermit_twins even deadline) fun _ _ _ => ?_
  refine .change (fun _ _ twins => twins.note _) ?_
  have fails : Flow.Twins p (succeeding (chatAdmitted messages deadline))
      (streamAdmitted messages deadline) fun _ _ => False :=
    (admitted_twins even messages deadline).stopped
  exact .bind (fails.ended releasePermit_twins) fun _ _ none => none.elim

/-- Of two clients in the same state that are refused whatever they send, one makes a call in one
piece and the other one a streamed call. Both make their attempts at the same times, each of them
for the same time, and fail in the same way, at the same instant and with everything counted alike.
A call without a message is turned away before that, by both. -/
theorem refused_alike (even : p.Even) {u v : World} (twins : u.Twins v) (messages : List Message)
    (deadline : Instant) :
    (chat messages deadline).Ensures p u fun r u' =>
      (stream messages deadline).Ensures p v fun r' v' => u'.Twins v' ∧
        if messages = [] then
          u' = u ∧ v' = v ∧
            r = .error (.invalidArgument (ascii "chatCompletion: messages must not be empty")) ∧
            r' = .error
              (.invalidArgument (ascii "streamChatCompletion: messages must not be empty"))
        else ∃ f, r = .error f ∧ r' = .error f := by
  cases messages with
  | nil => exact ⟨twins, rfl, rfl, rfl, rfl⟩
  | cons m messages =>
    have some : m :: messages ≠ [] := List.cons_ne_nil m messages
    simp only [if_neg some]
    apply Job.Ensures.mono (calls_twins even some deadline u v twins)
    intro r u' alike
    apply alike.mono
    rintro r' v' ⟨twins, ⟨none⟩ | f⟩
    · exact none.elim
    · exact ⟨twins, f, rfl, rfl⟩

/-- Limited once, in three parts where the call is streamed; not connected, then refused by a server
that is busy, and in the end without a route. -/
theorem refused_alike_four_times :
    let c : Config := { clientTag := [], retryAttempts := 4 }
    let script : Script := {
      fallback := { failure := some (.foreign (ascii "no route")) }
      replies := [
        { status := 429, headers := [(ascii "retry-after", ascii "1")], body := ascii "slow down",
          chunks := some [{ data := ascii "slow" }, {}, { data := ascii " down" }],
          delay := 2000000 },
        { failure := some (.client { kind := .connectionFailed, reason := .reported [] }) },
        { status := 503, body := ascii "busy" }] }
    let w : World := { config := c, client := .ofConfig c 1, chance := .ofSeed 1, script }
    let hi : List Message := [{ role := [], content := [104, 105] }]
    (chat hi 20000000000).Ensures .quiet w fun r u =>
      (stream hi 20000000000).Ensures .quiet w fun r' v =>
        (u.Twins v ∧ ∃ f, r = .error f ∧ r' = .error f) ∧
          u.attempts =
            [(1609000000, 18391), (1204000000, 18796), (1002000000, 18998), (0, 20000)] ∧
          v.client.usage =
            { totalCalls := 1, failedCalls := 1, totalAttempts := 4, totalRetries := 3,
              rateLimited := 1 } := by
  intro c script w hi
  have refuses : script.Refuses := by decide +kernel
  have twins : w.Twins w := by
    constructor
    case refuses => exact refuses
    case scripted => rintro _ ⟨⟩
    all_goals rfl
  have alike := refused_alike Pause.quiet_even twins hi 20000000000
  have course : (chat hi 20000000000).Ensures .quiet w fun _ u =>
      (stream hi 20000000000).Ensures .quiet w fun _ v =>
        u.attempts =
            [(1609000000, 18391), (1204000000, 18796), (1002000000, 18998), (0, 20000)] ∧
          v.client.usage =
            { totalCalls := 1, failedCalls := 1, totalAttempts := 4, totalRetries := 3,
              rateLimited := 1 } := by
    decide +kernel
  exact ⟨alike, course⟩

end Client

end Parley
