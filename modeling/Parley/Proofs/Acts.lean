import Parley.Proofs.Ledger
import Parley.Proofs.Trades
import Parley.Scenario

/-!
What acts do with things on hand. A stream of events has those of its body, and stands for a call
that is not over; a call has none once it has ended, except that the stream it ends with has some.
An act leaves everything that it does not put down under a name to others, and so do the acts that
happen while it waits: `Pause.acts_keeps`.
-/
namespace Parley

variable {α : Type} {σ : Setting} {p : Pause} {mine : List Holding} {w : World}

/-- Something that was begun is left off after a failure. -/
theorem Flow.Trades.failing {f : Flow α} {post : α → List Holding} {left left' : List Holding}
    (h : Flow.Trades σ p mine f post left) (move : ∀ w, Move σ (left, w) (left', w)) :
    Flow.Trades σ p mine f post left' := by
  intro w orderly
  apply Flow.Ensures.mono (h w orderly)
  intro r w' moves
  cases r with
  | ok a => exact moves
  | error e => exact moves.tail (move w')

/-- What is known of an answer may matter to what comes next. -/
theorem Flow.Trades.bindKnown {β : Type} {f : Flow α} {k : α → Flow β} {post : α → List Holding}
    {post' : β → List Holding} {left : List Holding} {fact : α → Prop}
    (h : Flow.Trades σ p mine f post left)
    (known : ∀ w, σ.Orderly w → f.Ensures p w fun r _ => ∀ a, r = .ok a → fact a)
    (next : ∀ a, fact a → Flow.Trades σ p (post a) (k a) post' left) :
    Flow.Trades σ p mine (f >>= k) post' left := by
  intro w orderly
  rw [Flow.ensures_run, Flow.ensures_bind]
  apply Flow.Ensures.mono (Flow.Ensures.and (h w orderly) (known w orderly))
  rintro r w' ⟨moves, known⟩
  cases r with
  | ok a =>
    apply Flow.Ensures.mono (next a (known a rfl) w' (moves.orderly orderly))
    exact fun b w'' moves' => moves.trans moves'
  | error e => exact moves

/-- The same of something that is begun only while the client is not shut down. -/
def Flow.RunningTrades (σ : Setting) (p : Pause) (mine : List Holding) (f : Flow α)
    (post : α → List Holding) (left : List Holding) : Prop :=
  ∀ w, σ.Orderly w → w.client.shutdown = false →
    f.Ensures p w fun r w' => Moves σ mine w (Flow.ending post left r) w'

namespace Flow.RunningTrades

variable {β : Type} {f : Flow α} {post : α → List Holding} {left : List Holding}

theorem bind {k : α → Flow β} {post' : β → List Holding}
    (h : Flow.RunningTrades σ p mine f post left)
    (next : ∀ a, Flow.Trades σ p (post a) (k a) post' left) :
    Flow.RunningTrades σ p mine (f >>= k) post' left := by
  intro w orderly running
  rw [Flow.ensures_bind]
  apply Flow.Ensures.mono (h w orderly running)
  intro r w' moves
  cases r with
  | ok a =>
    apply Flow.Ensures.mono (next a w' (moves.orderly orderly))
    exact fun b w'' moves' => moves.trans moves'
  | error e => exact moves

theorem attempt (h : Flow.RunningTrades σ p mine f post left) {left' : List Holding} :
    Flow.RunningTrades σ p mine f.attempt (Flow.ending post left) left' :=
  fun w orderly running => (Flow.ensures_attempt f).mpr (h w orderly running)

theorem failing {left' : List Holding} (h : Flow.RunningTrades σ p mine f post left)
    (move : ∀ w, Move σ (left, w) (left', w)) : Flow.RunningTrades σ p mine f post left' := by
  intro w orderly running
  apply Flow.Ensures.mono (h w orderly running)
  intro r w' moves
  cases r with
  | ok a => exact moves
  | error e => exact moves.tail (move w')

end Flow.RunningTrades

namespace EventStream

theorem holdings_append (s : OpenStream) :
    (EventStream.unfinished s).holdings ++ mine = s.source.holdings ++ .stream s.permit :: mine :=
  List.append_assoc ..

/-- What a new stream has on hand is its body and its permit; others see nothing of it. -/
theorem create_opens (permit : Bool) (source : Source) (deadline startedAt : Instant) :
    (create permit source deadline startedAt).Ensures p w fun s w' =>
      w'.core = w.core ∧ s.holdings ++ mine = source.holdings ++ .stream permit :: mine :=
  ⟨rfl, List.append_assoc ..⟩

theorem trades_finish (s : OpenStream) (succeeded : Bool) :
    Job.Trades σ p (s.source.holdings ++ .stream s.permit :: mine) (finish s succeeded)
      fun _ => mine := by
  refine .bind s.source.trades_dispose fun _ => .bind (.aside fun _ => rfl) fun _ w _ => ?_
  have closed (w : World) : Moves σ (.stream s.permit :: mine) w mine _ :=
    .single (.closeStream s.permit succeeded)
  simp only [Job.ensures_ite, Job.ensures_bind, Job.ensures_modify, Job.ensures_mark,
    Job.ensures_count, Job.ensures_note]
  split
  · rename_i permit
    have marked := closed (w.mark (.gaveBack s.source.number?))
    rw [if_pos permit] at marked
    exact (Relation.ReflTransGen.single (.mark trivial)).trans marked
  · rename_i none
    have closed := closed w
    rwa [if_neg none] at closed

theorem trades_close (s : EventStream) :
    Job.Trades σ p (s.holdings ++ mine) (close s) fun _ => mine := by
  cases s with
  | finished => exact .pure rfl
  | unfinished s => exact holdings_append s ▸ trades_finish s true

theorem trades_fail (s : OpenStream) (f : Failure) :
    Job.Trades σ p (s.source.holdings ++ .stream s.permit :: mine) (fail s f)
      fun (_, rest) => rest.holdings ++ mine := by
  refine .bind (trades_finish s false) fun _ => .get fun _ => ?_
  exact .pure rfl

/-- A stream asks for more of its body no later than at its deadline. -/
theorem trades_asked {deadline : Instant} {late : World → Prop} [DecidablePred late]
    (inTime : ∀ w, ¬ late w → w.now ≤ deadline) {j k : Job α} {post : α → List Holding}
    (tooLate : Job.Trades σ p mine k post) (asks : Job.Trades σ p mine j post) :
    Job.Trades σ p mine (do
      if late (← get) then k else
        Job.mark (.asked deadline)
        j) post := by
  intro w orderly
  rw [Job.ensures_bind, Job.ensures_get, Job.ensures_ite]
  split
  · exact tooLate w orderly
  · have marked : Moves σ mine w mine (w.mark (.asked deadline)) :=
      .single (.mark (inTime w ‹_›))
    rw [Job.ensures_bind, Job.ensures_mark]
    apply (asks _ (marked.orderly orderly)).mono
    exact fun _ _ moves => marked.trans moves

theorem trades_drain (keeps : p.Keeps σ) {deadline limit : Instant} (within : σ.Until limit)
    (sooner : limit ≤ deadline) (reads : Nat) (s : Source) :
    Job.Trades σ p (s.holdings ++ mine) (drain deadline limit reads s)
      fun (_, s') => s'.holdings ++ mine := by
  induction reads generalizing s with
  | zero => exact .pure rfl
  | succ reads ih =>
    have early (w : World) (before : ¬ limit ≤ w.now) : w.now ≤ deadline :=
      Int.le_trans (Int.le_of_lt (Int.not_le.mp before)) sooner
    refine trades_asked early (.pure rfl) ?_
    refine .bind (s.trades_read keeps within drainSize) ?_
    rintro ⟨f | _ | ⟨b, data⟩, s⟩
    · exact .pure rfl
    · exact .pure rfl
    · exact ih s

theorem trades_complete (keeps : p.Keeps σ) (s : OpenStream) (within : σ.Until s.deadline) :
    Job.Trades σ p (s.source.holdings ++ .stream s.permit :: mine) (complete s)
      fun (_, rest) => rest.holdings ++ mine := by
  refine .get fun w => ?_
  have sooner : σ.Until (min s.deadline (w.now.plusMillis drainWindow)) :=
    fun t le => within t (Int.le_trans le (Int.min_le_left ..))
  refine .bind (trades_drain keeps sooner (Int.min_le_left ..) _ s.source) ?_
  rintro ⟨result, source⟩
  have ends : Job.Trades σ p (source.holdings ++ .stream s.permit :: mine)
      (do
        finish { s with source } true
        return (Pulled.ended, EventStream.finished))
      fun (_, rest) => rest.holdings ++ mine :=
    .bind (trades_finish { s with source } true) fun _ => .pure rfl
  rcases result with f | _
  · cases f with
    | client e => exact .bind (.notice _) fun _ => ends
    | _ => exact trades_fail { s with source } _
  · exact ends

theorem trades_refuse (payloads : List Bytes) :
    Job.Trades σ p mine (refuse payloads) fun _ => mine :=
  .bind (.aside fun _ => rfl) fun _ => .forM fun _ _ => .notice _

theorem trades_deliver (value : Json) (rest : EventStream) :
    Job.Trades σ p (rest.holdings ++ mine) (deliver value rest)
      fun (_, rest) => rest.holdings ++ mine :=
  .bind (.aside fun _ => rfl) fun _ => .pure rfl

theorem trades_exhaust (s : OpenStream) :
    Job.Trades σ p (s.source.holdings ++ .stream s.permit :: mine) (exhaust s)
      fun (_, rest) => rest.holdings ++ mine := by
  have ends (pulled : Pulled) : Job.Trades σ p (s.source.holdings ++ .stream s.permit :: mine)
      (do
        finish s true
        return (pulled, EventStream.finished))
      fun (_, rest) => rest.holdings ++ mine :=
    .bind (trades_finish s true) fun _ => .pure rfl
  refine .bind (trades_refuse _) fun _ => ?_
  split
  · rename_i value _
    have counted : Job.Trades σ p (s.source.holdings ++ .stream s.permit :: mine)
        (do
          Job.count fun u => { u with eventsDelivered := u.eventsDelivered + 1 }
          finish s true
          return (Pulled.event value, EventStream.finished))
        fun (_, rest) => rest.holdings ++ mine :=
      .bind (.aside fun _ => rfl) fun _ => ends _
    exact counted
  · exact ends _

theorem trades_pull (keeps : p.Keeps σ) (reads : Nat) (s : OpenStream)
    (within : σ.Until s.deadline) :
    Job.Trades σ p (s.source.holdings ++ .stream s.permit :: mine) (pull reads s)
      fun (_, rest) => rest.holdings ++ mine := by
  induction reads generalizing s with
  | zero => exact trades_exhaust s
  | succ reads ih =>
    refine .bind (trades_refuse _) fun _ => ?_
    split
    · exact trades_complete keeps { s with consumed := _ } within
    · rename_i value _
      rw [← holdings_append]
      exact trades_deliver (p := p) value (.unfinished _)
    · refine trades_asked (fun w before => Int.not_lt.mp before) ?_ ?_
      · exact trades_fail (compact { s with consumed := _ }) _
      · refine .bind (s.source.trades_read keeps within Source.readSize) ?_
        rintro ⟨f | _ | ⟨b, data⟩, source⟩
        · exact trades_fail { makeRoom (compact { s with consumed := _ }) with source } f
        · exact trades_exhaust { makeRoom (compact { s with consumed := _ }) with source }
        · exact ih (receive { makeRoom (compact { s with consumed := _ }) with source } (b :: data))
            within

/-- No stream is read beyond its deadline. -/
theorem trades_next (keeps : p.Keeps σ) (s : EventStream)
    (within : ∀ open_, s = .unfinished open_ → σ.Until open_.deadline) :
    Job.Trades σ p (s.holdings ++ mine) (next s) fun (_, rest) => rest.holdings ++ mine := by
  cases s with
  | finished => exact .pure rfl
  | unfinished s =>
    rw [holdings_append]
    exact trades_pull keeps _ s (within s rfl)

end EventStream

theorem Call.trades_error (call : Call) (kind : ErrorKind) (reason : Reason) :
    Job.Trades σ p mine (call.error kind reason) fun _ => mine :=
  .get fun _ => .pure rfl

theorem Call.trades_fail {post : α → List Holding} (call : Call) (kind : ErrorKind)
    (reason : Reason) : Flow.Trades σ p mine (call.fail kind reason) post mine :=
  .bind (.lift (call.trades_error kind reason)) fun _ => .throw _

/-- Looking at an answer that is no success clears up what the answer has on hand. -/
def Answering.Clears (σ : Setting) (p : Pause) (kind : Answering α)
    (things : α → List Holding) : Prop :=
  ∀ mine answer limit, σ.Until limit →
    Flow.Trades σ p (things answer ++ mine) (kind.errorBody answer limit) (fun _ => mine) mine

theorem Answering.unary_clears : Answering.unary.Clears σ p fun _ => [] :=
  fun _ _ _ _ => .pure rfl

theorem Answering.streaming_clears (keeps : p.Keeps σ) :
    Answering.streaming.Clears σ p Source.holdings := by
  intro mine s limit within
  refine .bind (.lift (s.trades_readAll keeps within)) ?_
  rintro ⟨f | body, s⟩
  all_goals refine .bind (.lift s.trades_dispose) fun _ => ?_
  · cases f with
    | client e => exact .pure rfl
    | _ => exact .throw _
  · exact .pure rfl

/-- What an attempt has on hand once its answer was looked at. -/
def Attempt.holdings (things : α → List Holding) : Attempt α → List Holding
  | .accepted answer => things answer
  | .refused _ => []

namespace Retry

variable {call : Call} {kind : Answering α} {things : α → List Holding}

theorem trades_judge (clears : kind.Clears σ p things)
    (within : σ.Until (call.start.plusMillis call.budget)) (answer : α) :
    Flow.Trades σ p (things answer ++ mine) (judge call kind answer)
      (·.holdings things ++ mine) mine := by
  refine .ite (fun _ => .pure rfl) fun _ => ?_
  refine .bind (clears mine answer _ within) fun body => ?_
  exact .bind (.lift (call.trades_error _ _)) fun _ => .pure rfl

theorem trades_attemptOnce (clears : kind.Clears σ p things)
    (within : σ.Until (call.start.plusMillis call.budget)) {attempt : Flow α}
    (tried : Flow.RunningTrades σ p mine attempt (things · ++ mine) mine) :
    Flow.RunningTrades σ p mine (attemptOnce call kind attempt) (·.holdings things ++ mine)
      mine := by
  have judged := tried.bind fun answer => trades_judge clears within answer
  refine .bind (.attempt judged) fun result => ?_
  rcases result with f | result
  · cases f with
    | client e => exact .ite (fun _ => .pure rfl) fun _ => .get fun _ => .throw _
    | _ => exact call.trades_fail _ _
  · exact .pure rfl

theorem trades_waitAfter (number : Nat) (e : ClientError) :
    Job.Trades σ p mine (waitAfter number e) fun _ => mine := by
  unfold waitAfter
  split
  · exact .bind (.aside fun _ => rfl) fun _ => .pure rfl
  · exact .take fun _ => rfl
  · exact .take fun _ => rfl
  · exact .pure rfl

theorem trades_conclude (kind : ErrorKind) (reason : Reason) (last : ClientError) :
    Job.Trades σ p mine (conclude call kind reason last) fun _ => mine :=
  .bind (call.trades_error kind reason) fun _ => .pure rfl

section Anytime
variable (keeps : p.Keeps σ) (anytime : ∀ t, σ.awaited t)
include keeps anytime

theorem trades_sleep (duration : Millis) :
    Job.Trades σ p mine (sleep duration) fun _ => mine :=
  .get fun _ => .bind (.await keeps (anytime _) _) fun _ => .pure rfl

theorem trades_waitOut (number : Nat) (e : ClientError) (wait : Millis) :
    Flow.Trades σ p mine (waitOut call number e wait) (fun _ => mine) mine := by
  refine .get fun _ => .ite (fun _ => ?_) fun _ => ?_
  · exact .bind (.lift (trades_conclude _ _ _)) fun _ => .throw _
  · refine .get fun _ => .bind (.lift (.notice _)) fun _ => ?_
    refine .bind (.lift (trades_sleep keeps anytime wait)) fun awake => ?_
    exact .ite (fun _ => call.trades_fail _ _) fun _ => .pure rfl

end Anytime

variable {k : Nat}

/-- A call that may make another attempt is counted to make it, or makes no more. -/
theorem trades_allow (more : k < σ.config.retryAttempts.toNat) :
    Flow.Trades σ p (.call (.trying call k) :: mine) (allow call (k + 1))
      (fun _ => .call (.trying call (k + 1)) :: mine) (.call .leaving :: mine) := by
  intro w orderly
  have fails {β : Type} {post : β → List Holding} (kind : ErrorKind) (reason : Reason) :
      Flow.Trades σ p (.call (.trying call k) :: mine) (call.fail kind reason) post
        (.call .leaving :: mine) :=
    (call.trades_fail kind reason).failing fun _ => .desist []
  simp only [Flow.ensures_run, allow, Flow.ensures_bind, Flow.ensures_get, Flow.ensures_ite]
  split
  · exact fails _ _ w orderly
  · rename_i running
    split
    · exact fails _ _ w orderly
    · rename_i left
      exact .single (.attempt more (by simpa using running) (Int.not_le.mp left))

/-- No attempt is allowed when the client is shut down. -/
theorem allow_running (number : Nat) : (allow call number).Ensures p w fun r w' =>
    ∀ t, r = .ok t → w'.client.shutdown = false := by
  have fails (kind : ErrorKind) (reason : Reason) :
      (call.fail (α := Unit) kind reason).Ensures p w fun r _ => ∃ e, r = .error e := by
    simp only [Call.fail, Flow.ensures_bind, Flow.ensures_lift, Flow.ensures_throw]
    exact .of_all fun _ _ => ⟨_, rfl⟩
  simp only [allow, Flow.ensures_bind, Flow.ensures_get, Flow.ensures_ite]
  split
  · apply (fails _ _).mono
    rintro _ _ ⟨e, rfl⟩
    rintro _ ⟨⟩
  · rename_i running
    split
    · apply (fails _ _).mono
      rintro _ _ ⟨e, rfl⟩
      rintro _ ⟨⟩
    · have running : w.client.shutdown = false := by simpa using running
      rintro _ ⟨⟩
      exact running

theorem trades_attemptThen (clears : kind.Clears σ p things)
    (within : σ.Until (call.start.plusMillis call.budget)) {attempt : Millis → Flow α}
    (tried : ∀ mine, σ.Entitled mine → ∀ t,
      Flow.RunningTrades σ p mine (attempt t) (things · ++ mine) mine)
    {next : ClientError → Millis → Flow (α × Nat)} (more : k < σ.config.retryAttempts.toNat)
    (goes : ∀ e wait, Flow.Trades σ p (.call (.trying call (k + 1)) :: mine) (next e wait)
      (fun (answer, _) => things answer ++ .call .leaving :: mine) (.call .leaving :: mine)) :
    Flow.Trades σ p (.call (.trying call k) :: mine) (attemptThen call kind attempt (k + 1) next)
      (fun (answer, _) => things answer ++ .call .leaving :: mine) (.call .leaving :: mine) := by
  have entitled : σ.Entitled (.call (.trying call (k + 1)) :: mine) := .inr ⟨_, _, _, rfl⟩
  intro w orderly
  rw [Flow.ensures_run, attemptThen, Flow.ensures_bind]
  apply Flow.Ensures.mono (Flow.Ensures.and (trades_allow more w orderly) (allow_running (k + 1)))
  rintro (f | t) w₁ ⟨allowed, running⟩
  · exact allowed
  have orderly₁ : σ.Orderly w₁ := Moves.orderly allowed orderly
  refine Flow.Ensures.mono (Flow.RunningTrades.bind ((trades_attemptOnce clears within
    (tried _ entitled t)).failing fun _ => .desist []) (fun result => ?_) w₁ orderly₁
      (running t rfl)) fun r w₂ moves => allowed.trans moves
  cases result with
  | accepted answer => exact fun w _ => .single (.desist (things answer))
  | refused e =>
    refine .bind (.lift (trades_waitAfter (k + 1) e)) fun wait => ?_
    cases wait with
    | none =>
      refine .bind (.lift (.notice _)) fun _ => ?_
      exact Flow.Trades.failing (.throw _) fun _ => .desist []
    | some wait => exact goes e wait

section Anytime
variable (keeps : p.Keeps σ) (anytime : ∀ t, σ.awaited t)
include keeps anytime

/-- No more attempts are made than the configuration allows. -/
theorem trades_attempts (clears : kind.Clears σ p things) {attempt : Millis → Flow α}
    (tried : ∀ mine, σ.Entitled mine → ∀ t,
      Flow.RunningTrades σ p mine (attempt t) (things · ++ mine) mine)
    (left : Nat) (total : k + 1 + left = σ.config.retryAttempts.toNat) :
    Flow.Trades σ p (.call (.trying call k) :: mine) (attempts call kind attempt left (k + 1))
      (fun (answer, _) => things answer ++ .call .leaving :: mine) (.call .leaving :: mine) := by
  induction left generalizing k with
  | zero =>
    apply trades_attemptThen clears (fun t _ => anytime t) tried (by omega)
    intro e _
    refine .bind (.lift (trades_conclude _ _ _)) fun _ => ?_
    exact Flow.Trades.failing (.throw _) fun _ => .desist []
  | succ left ih =>
    apply trades_attemptThen clears (fun t _ => anytime t) tried (by omega)
    intro e wait
    refine .bind ((trades_waitOut keeps anytime (k + 1) e wait).failing fun _ => .desist [])
      fun _ => ?_
    exact ih (by omega)

theorem trades_run (clears : kind.Clears σ p things) {attempt : Millis → Flow α}
    (tried : ∀ mine, σ.Entitled mine → ∀ t,
      Flow.RunningTrades σ p mine (attempt t) (things · ++ mine) mine) :
    Flow.Trades σ p (.call (.trying call 0) :: mine) (run call kind attempt)
      (fun (answer, _) => things answer ++ .call .leaving :: mine) (.call .leaving :: mine) := by
  intro w orderly
  refine Flow.Trades.beginAt orderly ?_
  rw [orderly.config_eq]
  split
  · exact (call.trades_fail _ _).failing fun _ => .desist []
  · exact trades_attempts keeps anytime clears tried _ (by omega)

end Anytime

end Retry

namespace Client

theorem closeSession_retires : closeSession.Ensures p w fun _ w' =>
    Moves σ mine w mine w' ∧ w'.Idle := by
  rw [closeSession, Job.ensures_bind, Job.ensures_get]
  split
  · rename_i none
    have idle : w.Idle := by
      intro t some
      rw [none] at some
      cases some
    exact ⟨.refl, idle⟩
  · rename_i number closed current
    have retired : Moves σ mine w mine { w.enrol (.closed (.scripted number false)) with
        transport := some (.scripted number true) } := .single (.retire current)
    refine ⟨retired.tail (.aside rfl), ?_⟩
    rintro _ ⟨⟩
    rfl
  · rename_i i current
    exact Session.ensures_close current

theorem trades_closeSession : Job.Trades σ p mine closeSession fun _ => mine :=
  fun _ _ => closeSession_retires.mono fun _ _ retired => retired.1

/-- A client that was just told to refuse new calls. -/
def flagged (w : World) : World :=
  World.mark { w with client := { w.client with shutdown := true } } .shut

/-- It makes no difference to the transport whether it is closed before the client is shut down or
after that. -/
theorem closeSession_flagged (w : World) :
    ((closeSession.run p).run (flagged w)).2 = flagged ((closeSession.run p).run w).2 := by
  have flags : closeSession.Ensures p (flagged w) fun _ w' =>
      closeSession.Ensures p w fun _ w'' => w' = flagged w'' := by
    have transport : (flagged w).transport = w.transport := rfl
    simp only [closeSession, Job.ensures_bind, Job.ensures_get, transport]
    split
    · rfl
    · rfl
    · rename_i i current
      have idle : (Session.find ((flagged w).enrol (.closed (Transport.session i).base)) i).idle =
        (Session.find (w.enrol (.closed (Transport.session i).base)) i).idle := rfl
      simp only [Session.close, Job.ensures_bind, Job.ensures_enrol, Session.ensures_current,
        Session.ensures_deal, Job.ensures_ite, Job.ensures_notice, Session.ensures_dropIdle, idle]
      split <;> rfl
  exact flags

theorem trades_shutdown : Job.Trades σ p mine shutdown fun _ => mine := by
  intro w orderly
  have ends : closeSession.Ensures p (flagged w) fun _ w' =>
      w' = flagged ((closeSession.run p).run w).2 := closeSession_flagged w
  simp only [shutdown, Job.ensures_bind, Job.ensures_modify, Job.ensures_mark, Job.ensures_enrol]
  have closed : closeSession.Ensures p w fun _ w' => Moves σ mine w mine w' ∧ w'.Idle :=
    closeSession_retires
  obtain ⟨retired, idle⟩ := closed
  have shut := (retired.tail (.shutDown idle)).tail (.mark (m := .shut) rfl)
  apply ends.mono
  rintro _ _ rfl
  exact shut.tail (.windUp rfl idle)

theorem takeMaking_ensures : takeMaking.Ensures p w fun _ w' => w'.core = w.core := by
  rw [takeMaking, Job.ensures_modifyGet]
  split <;> rfl

/-- A transport is made only when the one there was is closed. It is open, and there from then
on. -/
theorem ensures_makeTransport (idle : w.Idle) (running : w.client.shutdown = false) :
    makeTransport.Ensures p w fun r w' => Moves σ mine w mine w' ∧ ∀ t, r = .ok t →
      w'.transport = some t ∧ isClosed w' t = false ∧ w'.client.shutdown = false := by
  rw [makeTransport, Flow.ensures_bind, Flow.ensures_lift]
  apply takeMaking_ensures.mono
  intro making w₁ core_eq
  have taken : Moves σ mine w mine w₁ := .single (.aside core_eq)
  have idle : w₁.Idle := by
    have idle : w.core.Idle := idle
    have idle : w₁.core.Idle := core_eq ▸ idle
    exact idle
  have running : w₁.client.shutdown = false :=
    (congrArg (·.client.shutdown) core_eq).trans running
  cases making with
  | nothing => exact ⟨taken.tail (.forsake (.inr idle)), fun _ failed => by cases failed⟩
  | failure message => exact ⟨taken, fun _ failed => by cases failed⟩
  | transport =>
    have made : Moves σ mine w mine { w₁ with made := w₁.made + 1 } := taken.tail (.aside rfl)
    have idle : World.Idle { w₁ with made := w₁.made + 1 } := idle
    simp only [Flow.ensures_bind, Flow.ensures_modify, Flow.ensures_get, Flow.ensures_ite]
    split
    · split
      · exact ⟨made, fun _ failed => by cases failed⟩
      · rename_i session new
        refine ⟨made.tail (.renew idle running new), ?_⟩
        rintro _ ⟨⟩
        have last :
            (w₁.sessions ++ [session]).getD w₁.sessions.length Session.absent = session := by simp
        exact ⟨rfl, (congrArg (·.closed) last).trans (Ledger.ofConfig_fresh new).closed, running⟩
    · rename_i unwired
      refine ⟨made.tail (.furnish idle running (by simpa using unwired) _), ?_⟩
      rintro _ ⟨⟩
      exact ⟨rfl, rfl, running⟩

/-- An attempt gets a transport that is not closed. -/
theorem ensures_transport (running : w.client.shutdown = false) :
    transport.Ensures p w fun r w' => Moves σ mine w mine w' ∧ ∀ t, r = .ok t →
      w'.transport = some t ∧ isClosed w' t = false ∧ w'.client.shutdown = false := by
  simp only [transport, Flow.ensures_bind, Flow.ensures_get]
  split
  · rename_i t current
    rw [Flow.ensures_ite]
    split
    · rename_i closed
      refine ensures_makeTransport (fun t' some => ?_) running
      rw [current] at some
      cases some
      exact closed
    · rename_i open_
      have open_ : isClosed w t = false := by simpa using open_
      refine ⟨.refl, ?_⟩
      rintro _ ⟨⟩
      exact ⟨current, open_, running⟩
  · rename_i none
    refine ensures_makeTransport (fun t some => ?_) running
    rw [none] at some
    cases some

theorem trades_handOver {request : Request} (allowed : σ.sends request) :
    Flow.RunningTrades σ p mine (handOver request) (fun _ => mine) mine := by
  intro w _ running
  have found : transport.Ensures p w fun r w' => Moves σ mine w mine w' ∧ ∀ t, r = .ok t →
      w'.transport = some t ∧ isClosed w' t = false ∧ w'.client.shutdown = false :=
    ensures_transport running
  rw [handOver, Flow.ensures_bind]
  apply found.mono
  rintro (f | t) w₁ ⟨moves, found⟩
  · exact moves
  · obtain ⟨current, open_, running⟩ := found t rfl
    exact moves.tail (.handOver running current open_ allowed)

theorem trades_takeReply : Job.Trades σ p mine takeReply fun _ => mine := by
  refine .take fun w => ?_
  split <;> rfl

section Anytime
variable (keeps : p.Keeps σ) (anytime : ∀ t, σ.awaited t)
include keeps anytime

theorem trades_receive (number : Nat) {request : Request} (allowed : σ.sends request)
    (timeout : Millis) (streaming : Bool) :
    Flow.Trades σ p mine (receive number request timeout streaming) (fun _ => mine) mine := by
  refine .bind (.lift (.modify fun _ => .send allowed)) fun _ => ?_
  refine .bind (.lift trades_takeReply) fun reply => ?_
  refine .bind (.lift (.get fun w => .waitUntil keeps (anytime _))) fun _ => ?_
  split
  · exact .throw _
  · exact .pure rfl

theorem trades_sendOver (entitled : σ.Entitled mine) {request : Request}
    (allowed : σ.sends request) (timeout : Millis) (t : Transport) :
    Flow.Trades σ p mine (sendOver request timeout t) (fun _ => mine) mine := by
  cases t with
  | session i =>
    exact fun w orderly =>
      Session.ensures_send keeps request orderly (fun t _ => anytime t) entitled
  | scripted number closed =>
    exact .bind (trades_receive keeps anytime _ allowed _ _) fun _ => .pure rfl

theorem trades_streamOver (entitled : σ.Entitled mine) {request : Request}
    (allowed : σ.sends request) (timeout : Millis) (t : Transport) :
    Flow.Trades σ p mine (streamOver request timeout t) (·.holdings ++ mine) mine := by
  cases t with
  | session i =>
    refine .bind (fun w orderly => ?_) fun _ => .pure rfl
    exact Session.ensures_sendStreaming keeps request orderly (fun t _ => anytime t) entitled
  | scripted number closed =>
    exact .bind (trades_receive keeps anytime _ allowed _ _) fun _ =>
      .lift (Source.trades_script _ _ _)

theorem trades_sendUnary (entitled : σ.Entitled mine) {request : Request}
    (allowed : σ.sends request) (timeout : Millis) :
    Flow.RunningTrades σ p mine (sendUnary request timeout) (fun _ => mine) mine :=
  .bind (trades_handOver allowed) (trades_sendOver keeps anytime entitled allowed timeout)

theorem trades_sendStreaming (entitled : σ.Entitled mine) {request : Request}
    (allowed : σ.sends request) (timeout : Millis) :
    Flow.RunningTrades σ p mine (sendStreaming request timeout) (·.holdings ++ mine) mine :=
  .bind (trades_handOver allowed) (trades_streamOver keeps anytime entitled allowed timeout)

end Anytime

section Permit
variable {deadline : Instant} (mine : List Holding) (keeps : p.Keeps σ)
  (within : σ.awaited deadline)
include keeps within

/-- Whoever waits for a permit takes it as soon as there is one. -/
theorem ensures_takePermit (orderly : σ.Orderly w) :
    (takePermit deadline).Ensures p w fun taken w' => ∃ w₀, Moves σ mine w mine w₀ ∧
      if taken then w₀.client.semaphore.hasRoom = true ∧ w' = w₀.mapSemaphore Semaphore.take
      else w' = w₀ := by
  have waited := keeps deadline within (·.client.semaphore.hasRoom) mine w orderly
  simp only [takePermit, Job.ensures_bind, Job.ensures_await, Job.ensures_ite, Job.ensures_modify,
    Job.ensures_pure]
  split
  · exact ⟨w, .refl, ‹_›, rfl⟩
  · split
    · exact ⟨_, waited, ‹_›, rfl⟩
    · exact ⟨_, waited, rfl⟩

/-- A call that has waited for a permit has one in time, or it has failed and has none. -/
theorem ensures_obtainPermit (orderly : σ.Orderly w) :
    (obtainPermit deadline).Ensures p w fun r w' =>
      match r with
      | .ok _ => ∃ w₀, Moves σ mine w mine w₀ ∧ w₀.client.semaphore.hasRoom = true ∧
          w₀.now ≤ deadline ∧ w' = w₀.mapSemaphore Semaphore.take
      | .error _ => Moves σ mine w mine w' := by
  simp only [obtainPermit, Flow.ensures_bind, Flow.ensures_get, Flow.ensures_ite,
    Flow.ensures_throw, Flow.ensures_lift]
  split
  · exact .refl
  · apply (ensures_takePermit mine keeps within orderly).mono
    rintro taken w' ⟨w₀, moves, result⟩
    cases taken with
    | false =>
      obtain rfl : w' = w₀ := result
      exact moves
    | true =>
      obtain ⟨room, rfl⟩ : _ ∧ _ := result
      have turnedAway := moves.tail (.turnAway room)
      simp only [Bool.not_true, Bool.false_eq_true, if_false]
      split
      · exact turnedAway
      · rename_i early
        split
        · exact turnedAway
        · exact ⟨w₀, moves, room, Int.not_lt.mp early, rfl⟩

end Permit

theorem trades_makeRequest (messages : List Message) (stream : Bool) (key : Bytes) :
    Flow.Trades σ p mine (makeRequest messages stream key) (fun _ => mine) mine := by
  refine .get fun _ => ?_
  split
  · exact .throw _
  · exact .pure rfl

theorem makeRequest_target (messages : List Message) (stream : Bool) (key : Bytes) :
    (makeRequest messages stream key).Ensures p w fun r _ => ∀ request, r = .ok request →
      request.target = w.target := by
  simp only [makeRequest, Flow.ensures_bind, Flow.ensures_get]
  split
  · rintro _ ⟨⟩
  · rintro _ ⟨⟩
    rfl

/-- The requests of a call with some messages may be handed to a transport. -/
def Sends (σ : Setting) (messages : List Message) (stream : Bool) : Prop :=
  ∀ (p : Pause) (w : World) (key : Bytes), σ.Orderly w →
    (makeRequest messages stream key).Ensures p w fun r _ => ∀ request, r = .ok request →
      σ.sends request

theorem trades_decode (call : Call) (response : Response) (attempts : Nat) :
    Flow.Trades σ p mine (decode call response attempts) (fun _ => mine) mine := by
  unfold decode
  split
  · exact .pure rfl
  · exact call.trades_fail _ _
  · exact .throw _

/-- A call that has a permit has the time from now until its deadline. -/
theorem trades_beginCall (deadline : Instant) :
    Job.Trades σ p (.call .admitted :: mine) (beginCall deadline)
      fun call => .call (.trying call 0) :: mine :=
  fun _ _ => (Relation.ReflTransGen.single (.aside rfl)).tail (.setOut rfl rfl)

section Anytime
variable (keeps : p.Keeps σ) (anytime : ∀ t, σ.awaited t)
include keeps anytime

theorem trades_chatAnswered {messages : List Message} (own : Sends σ messages false)
    (deadline : Instant) :
    Flow.Trades σ p (.call .admitted :: mine) (chatAnswered messages deadline)
      (fun _ => .call .leaving :: mine) (.call .leaving :: mine) := by
  refine .bind (.lift (trades_beginCall deadline)) fun call => ?_
  refine .bindKnown ((trades_makeRequest _ _ _).failing fun _ => .desist [])
    (fun w orderly => own p w _ orderly) fun request allowed => ?_
  refine .bind (Retry.trades_run keeps anytime Answering.unary_clears
    fun _ entitled t => trades_sendUnary keeps anytime entitled allowed t) ?_
  exact fun _ => .pure rfl

theorem trades_chatAdmitted {messages : List Message} (own : Sends σ messages false)
    (deadline : Instant) :
    Flow.Trades σ p (.call .admitted :: mine) (chatAdmitted messages deadline)
      (fun _ => .call .leaving :: mine) (.call .leaving :: mine) := by
  refine .bind (trades_chatAnswered keeps anytime own deadline) ?_
  rintro ⟨call, response, attempts⟩
  exact trades_decode call response attempts

theorem trades_streamAdmitted {messages : List Message} (own : Sends σ messages true)
    (deadline : Instant) :
    Flow.Trades σ p (.call .admitted :: mine) (streamAdmitted messages deadline)
      (fun (_, source) => source.holdings ++ .call .leaving :: mine) (.call .leaving :: mine) := by
  refine .bind (.lift (trades_beginCall deadline)) fun call => ?_
  refine .bindKnown ((trades_makeRequest _ _ _).failing fun _ => .desist [])
    (fun w orderly => own p w _ orderly) fun request allowed => ?_
  refine .bind (Retry.trades_run keeps anytime (Answering.streaming_clears keeps)
    fun _ entitled t => trades_sendStreaming keeps anytime entitled allowed t) ?_
  rintro ⟨source, attempts⟩
  exact .bind (.lift (.notice _)) fun _ => .pure rfl

end Anytime

/-- The rest of a call. If it succeeds the call is over; if it fails, it is over as soon as the
failure is counted. -/
def Finishes (σ : Setting) (p : Pause) (hand mine : List Holding) (rest : Flow α)
    (post : α → List Holding) : Prop :=
  ∀ w, σ.Orderly w → rest.Ensures p w fun r w' =>
    match r with
    | .ok a => Moves σ hand w (post a) w'
    | .error _ => Moves σ hand w mine ((w'.mapUsage Usage.addFailure).note .failed)

theorem trades_counted {rest : Flow α} {post : α → List Holding} (begins : σ.begins)
    (h : Finishes σ p (.call .waiting :: mine) mine rest post) :
    Flow.Trades σ p mine (counted rest) post mine := by
  intro w orderly
  have begun : Moves σ mine w (.call .waiting :: mine) ((w.mapUsage Usage.addCall).note .begun) :=
    .single (.beginCall begins)
  rw [Flow.ensures_run, ensures_counted]
  apply Flow.Ensures.mono (h _ (begun.orderly orderly))
  intro r w' moves
  cases r <;> exact begun.trans moves

section Anytime
variable (keeps : p.Keeps σ) (anytime : ∀ t, σ.awaited t)
include keeps anytime

/-- A call that gets no permit is over. -/
theorem finishes_admitted (deadline : Instant) {rest : Flow α} {post : α → List Holding}
    (h : Finishes σ p (.call .admitted :: mine) mine rest post) :
    Finishes σ p (.call .waiting :: mine) mine (do
      obtainPermit deadline
      Job.note .admitted
      rest) post := by
  intro w orderly
  rw [Flow.ensures_bind]
  apply Flow.Ensures.mono (ensures_obtainPermit _ keeps (anytime deadline) orderly)
  intro r w' obtained
  cases r with
  | error f => exact obtained.tail .refuse
  | ok _ =>
    obtain ⟨w₀, moves, room, -, rfl⟩ := obtained
    have admitted := moves.tail (.letIn room)
    simp only [Flow.ensures_bind, Flow.ensures_lift, Job.ensures_note]
    apply Flow.Ensures.mono (h _ (Moves.orderly admitted orderly))
    intro r w'' moves'
    cases r <;> exact admitted.trans moves'

theorem trades_chat (begins : σ.begins) {messages : List Message} (own : Sends σ messages false)
    (deadline : Instant) :
    Flow.Trades σ p mine (chat messages deadline) (fun _ => mine) mine := by
  refine .ite (fun _ => .throw _) fun _ =>
    trades_counted begins (finishes_admitted keeps anytime _ ?_)
  intro w orderly
  rw [Flow.ensures_bind, Flow.ensures_andAlways, ensures_succeeding]
  apply Flow.Ensures.mono (trades_chatAdmitted keeps anytime own deadline w orderly)
  intro r w' moves
  cases r with
  | error f => exact moves.tail .fail
  | ok completion => exact moves.tail .succeed

theorem trades_stream (begins : σ.begins) {messages : List Message} (own : Sends σ messages true)
    (deadline : Instant) :
    Flow.Trades σ p mine (stream messages deadline)
      (fun (_, s) => s.holdings ++ mine) mine := by
  refine .ite (fun _ => .throw _) fun _ =>
    trades_counted begins (finishes_admitted keeps anytime _ ?_)
  intro w orderly
  rw [Flow.ensures_bind, Flow.ensures_onFailure]
  apply Flow.Ensures.mono (trades_streamAdmitted keeps anytime own deadline w orderly)
  intro r w' moves
  cases r with
  | error f => exact moves.tail .fail
  | ok result =>
    obtain ⟨call, source⟩ := result
    simp only [Flow.ensures_bind, Flow.ensures_lift]
    apply (EventStream.create_opens true source deadline call.start).mono
    rintro s w'' ⟨core_eq, holdings⟩
    have opened := (moves.tail (.aside core_eq)).tail (.openStream source)
    rw [← holdings] at opened
    exact opened

end Anytime

end Client

namespace Act

theorem trades_answered {flow : Flow α} {post : α → List Holding} {answer : α → Job Answer}
    (h : Flow.Trades σ p mine flow post mine)
    (next : ∀ a, Job.Trades σ p (post a) (answer a) fun _ => mine) :
    Job.Trades σ p mine (answered flow answer) fun _ => mine := by
  refine .bind h fun result => ?_
  cases result with
  | ok a => exact next a
  | error f => exact .pure rfl

/-- Whoever gives a stream a name takes up the one that had the name. -/
theorem trades_putStream (name : Bytes) (s : EventStream) :
    Job.Trades σ p (s.holdings ++ mine) (putStream name s) (·.holdings ++ mine) :=
  fun _ _ => .single (.putStream name s)

theorem trades_takeStream (name : Bytes) :
    Job.Trades σ p mine (takeStream name) (·.holdings ++ mine) :=
  fun _ _ => .single (.takeStream name)

theorem trades_assignStream (name : Bytes) (s : EventStream) :
    Job.Trades σ p (s.holdings ++ mine) (assignStream name s) fun _ => mine :=
  .bind (trades_putStream name s) fun old => old.trades_close

theorem trades_pullStream (keeps : p.Keeps σ) (anytime : ∀ t, σ.awaited t) (name : Bytes)
    (times : Nat) : Job.Trades σ p mine (pullStream name times) fun _ => mine := by
  induction times with
  | zero => exact .pure rfl
  | succ times ih =>
    refine .bind (trades_putStream name .finished) fun s => ?_
    refine .bind (s.trades_next keeps fun _ _ t _ => anytime t) ?_
    rintro ⟨pulled, s⟩
    exact .bind (trades_assignStream name s) fun _ => .bind ih fun _ => .pure rfl

theorem trades_disposeOf (old : Option Source) :
    Job.Trades σ p (old.toList.flatMap Source.holdings ++ mine) (disposeOf old) fun _ => mine := by
  cases old with
  | none => exact .pure rfl
  | some s => simpa [disposeOf] using s.trades_dispose

section Raw
variable (raw : σ.raw)
include raw

theorem trades_takeSource (name : Bytes) :
    Job.Trades σ p mine (takeSource name) (·.toList.flatMap Source.holdings ++ mine) :=
  fun _ _ => .single (.takeSource raw name)

theorem trades_assignSource (name : Bytes) (s : Source) :
    Job.Trades σ p (s.holdings ++ mine) (assignSource name s) fun _ => mine := by
  have puts : Job.Trades σ p (s.holdings ++ mine) (putSource name s)
      (·.toList.flatMap Source.holdings ++ mine) :=
    fun _ _ => .single (.putSource raw name s)
  exact puts.bind fun old => trades_disposeOf old

theorem trades_readSource (name : Bytes) {read : Source → Job (Except Failure Bytes × Source)}
    (reads : ∀ s : Source, Job.Trades σ p (s.holdings ++ mine) (read s)
      fun (_, s') => s'.holdings ++ mine) :
    Job.Trades σ p mine (readSource name read) fun _ => mine := by
  refine .bind (trades_takeSource raw name) fun found => ?_
  cases found with
  | none => exact .pure rfl
  | some s =>
    rw [Option.toList_some, List.flatMap_singleton]
    refine .bind (reads s) ?_
    rintro ⟨result, s⟩
    refine .bind (trades_assignSource raw name s) fun _ => ?_
    cases result <;> exact .pure rfl

theorem trades_assignPermit (name : Bytes) (held : Bool) :
    Job.Trades σ p mine (assignPermit name held) fun _ => mine := by
  refine .get fun w => .ite (fun _ => ?_) fun _ => .aside fun _ => rfl
  exact .bind (.modify fun _ => .semaphore raw _) fun _ => .aside fun _ => rfl

theorem trades_releasePermit : Job.Trades σ p mine Client.releasePermit fun _ => mine :=
  .modify fun _ => .semaphore raw _

section Anytime
variable (keeps : p.Keeps σ) (anytime : ∀ t, σ.awaited t)
include keeps anytime

theorem trades_takePermit (deadline : Instant) :
    Job.Trades σ p mine (Client.takePermit deadline) fun _ => mine := by
  intro w orderly
  apply (Client.ensures_takePermit mine keeps (anytime deadline) orderly).mono
  rintro taken w' ⟨w₀, moves, result⟩
  cases taken with
  | false =>
    obtain rfl : w' = w₀ := result
    exact moves
  | true =>
    obtain ⟨-, rfl⟩ : _ ∧ _ := result
    exact moves.tail (.semaphore raw _)

theorem trades_acquirePermit : Job.Trades σ p mine acquirePermit fun _ => mine := by
  refine .get fun w => ?_
  split
  · exact .bind (trades_takePermit raw keeps anytime _) fun _ => .pure rfl
  · exact .bind (trades_takePermit raw keeps anytime _) fun _ => .pure rfl

end Anytime

end Raw

theorem trades_deadlineAfter (deadline : Option Nanos) :
    Job.Trades σ p mine (deadlineAfter deadline) fun _ => mine :=
  .get fun _ => .pure rfl

theorem trades_withSession {flow : Nat → Flow α} {post : α → List Holding}
    (h : ∀ i, Flow.Trades σ p mine (flow i) post mine) :
    Flow.Trades σ p mine (withSession flow) post mine := by
  refine .get fun w => ?_
  split
  · exact h _
  · exact Session.trades_connectionFailed _

theorem trades_perform (keeps : p.Keeps σ) (anytime : ∀ t, σ.awaited t) (begins : σ.begins)
    (own : ∀ messages stream, Client.Sends σ messages stream) (act : Act)
    (allowed : σ.raw ∨ act.ofClient = true) : Job.Trades σ p mine act.perform fun _ => mine := by
  cases act with
  | chat messages deadline =>
    refine .bind (trades_deadlineAfter deadline) fun deadline => ?_
    refine trades_answered (Client.trades_chat keeps anytime begins (own _ _) deadline) ?_
    exact fun _ => .pure rfl
  | stream name messages deadline =>
    refine .bind (trades_deadlineAfter deadline) fun deadline => ?_
    refine trades_answered (Client.trades_stream keeps anytime begins (own _ _) deadline) ?_
    rintro ⟨key, s⟩
    exact .bind (trades_assignStream name s) fun _ => .pure rfl
  | closeSession => exact .bind Client.trades_closeSession fun _ => .pure rfl
  | shutdown => exact .bind Client.trades_shutdown fun _ => .pure rfl
  | push replies => exact .bind (.aside fun _ => rfl) fun _ => .pure rfl
  | openStream name chunks deadline key startedAgo held =>
    have raw : σ.raw := allowed.resolve_right Bool.false_ne_true
    have opens (now : Instant) : Job.Trades σ p mine (do
        let source ← Source.script 200 [] chunks
        let s ← EventStream.create held source (now.plus deadline) (now.plus (-startedAgo))
        assignStream name s
        return Answer.opened key) fun _ => mine := by
      refine .bind (Source.trades_script 200 [] chunks) fun source => ?_
      refine .bind (fun w _ => ?_) fun s => .bind (trades_assignStream name s) fun _ => .pure rfl
      apply (EventStream.create_opens held source _ _).mono
      rintro s w' ⟨core_eq, holdings⟩
      rw [holdings]
      exact (Relation.ReflTransGen.single (.aside core_eq)).tail (.adopt raw source held)
    refine .get fun w => .ite (fun _ => ?_) fun _ => opens _
    refine .bind (trades_takePermit raw keeps anytime _) fun taken => ?_
    exact .ite (fun _ => .pure rfl) fun _ => opens _
  | next name times =>
    refine .bind (trades_pullStream keeps anytime name times) fun results => ?_
    exact .get fun _ => .pure rfl
  | close name => exact .bind (trades_assignStream name .finished) fun _ => .pure rfl
  | drop name =>
    exact .bind (trades_takeStream name) fun s => .bind s.trades_close fun _ => .pure rfl
  | move name dest =>
    have answers : Job.Trades σ p mine (do
        return Answer.moved (← findStream name).isFinished (← findStream dest).isFinished)
        fun _ => mine :=
      .get fun _ => .get fun _ => .pure rfl
    refine .ite (fun _ => ?_) fun _ => answers
    refine .bind (trades_putStream name .finished) fun s => ?_
    exact .bind (trades_assignStream dest s) fun _ => answers
  | sleep duration => exact .bind (Retry.trades_sleep keeps anytime duration) fun _ => .pure rfl
  | isShutdown => exact .get fun _ => .pure rfl
  | delay attempt => exact .take fun _ => rfl
  | acquire =>
    have raw : σ.raw := allowed.resolve_right Bool.false_ne_true
    exact trades_acquirePermit raw keeps anytime
  | tryAcquire wait =>
    have raw : σ.raw := allowed.resolve_right Bool.false_ne_true
    exact .get fun _ => .bind (trades_takePermit raw keeps anytime _) fun _ => .pure rfl
  | release =>
    have raw : σ.raw := allowed.resolve_right Bool.false_ne_true
    exact .bind (trades_releasePermit raw) fun _ => .pure rfl
  | permit name wait =>
    have raw : σ.raw := allowed.resolve_right Bool.false_ne_true
    refine .get fun _ => .bind (trades_takePermit raw keeps anytime _) fun taken => ?_
    refine .ite (fun _ => ?_) fun _ => .pure rfl
    exact .bind (trades_assignPermit raw name true) fun _ => .pure rfl
  | permitRelease name =>
    have raw : σ.raw := allowed.resolve_right Bool.false_ne_true
    exact .bind (trades_assignPermit raw name false) fun _ => .pure rfl
  | permitDrop name =>
    have raw : σ.raw := allowed.resolve_right Bool.false_ne_true
    refine .bind (trades_assignPermit raw name false) fun _ => ?_
    exact .bind (.aside fun _ => rfl) fun _ => .pure rfl
  | permitMove name dest =>
    have raw : σ.raw := allowed.resolve_right Bool.false_ne_true
    refine .get fun _ => .bind (.aside fun _ => rfl) fun _ => ?_
    exact .ite (fun _ => .bind (trades_assignPermit raw dest _) fun _ => .pure rfl)
      fun _ => .pure rfl
  | send request timeout =>
    have raw : σ.raw := allowed.resolve_right Bool.false_ne_true
    refine trades_answered (trades_withSession fun i w orderly => ?_) fun _ => .pure rfl
    exact Session.ensures_send keeps request orderly (fun t _ => anytime t) (.inl raw)
  | sendStreaming name request timeout =>
    have raw : σ.raw := allowed.resolve_right Bool.false_ne_true
    refine trades_answered (trades_withSession fun i w orderly => Session.ensures_sendStreaming
      keeps request orderly (fun t _ => anytime t) (.inl raw)) fun b => ?_
    exact .bind (trades_assignSource raw name (.wire b)) fun _ => .pure rfl
  | read name capacity deadline =>
    have raw : σ.raw := allowed.resolve_right Bool.false_ne_true
    refine .get fun _ => trades_readSource raw name fun s => ?_
    exact s.trades_read keeps (fun t _ => anytime t) capacity
  | readAll name deadline =>
    have raw : σ.raw := allowed.resolve_right Bool.false_ne_true
    refine .get fun _ => trades_readSource raw name fun s => ?_
    exact s.trades_readAll keeps fun t _ => anytime t
  | dropBody name =>
    have raw : σ.raw := allowed.resolve_right Bool.false_ne_true
    exact .bind (trades_takeSource raw name) fun s => .bind (trades_disposeOf s) fun _ => .pure rfl
  | destroySession =>
    have raw : σ.raw := allowed.resolve_right Bool.false_ne_true
    refine .bind Client.trades_closeSession fun _ => ?_
    exact .bind (.modify fun _ => .forsake (.inl raw)) fun _ => .pure rfl
  | advance duration =>
    exact .bind (.get fun _ => .waitUntil keeps (anytime _)) fun _ => .pure rfl
  | later wait act =>
    exact .bind (.modify fun w => .postpone _ allowed) fun _ => .pure rfl

end Act

namespace World

/-- What else happens during a wait: the clock moves on, an act comes due, or it was done. -/
inductive Elapses : World → World → Prop
  | advance (w : World) (t : Instant) : Elapses w (w.advanceTo t)
  | due {w : World} {e : Instant × Act} {agenda : List (Instant × Act)}
      (next : w.agenda = e :: agenda) : Elapses w { w with agenda }
  | done (w : World) (answer : Answer) : Elapses w (w.answered answer)

theorem Elapses.aimed {c : Config} {raw : Prop} {aims : Bytes → Prop} {w w' : World}
    (elapses : Elapses w w') (h : w.Aimed c raw aims) : w'.Aimed c raw aims := by
  cases elapses with
  | advance t => exact { h with }
  | due next =>
    exact { h with agenda := fun e member => h.agenda e (next ▸ List.mem_cons_of_mem _ member) }
  | done answer => exact { h with }

end World

/-- A run of acts. They are all such as those who have a client do, unless it is a raw one. Calls
are sent to such paths as they may be sent to. -/
def Setting.aimed (c : Config) (raw : Prop) (aims : Bytes → Prop) : Setting where
  config := c
  awaited _ := True
  elapses := World.Elapses
  raw := raw
  sends request := aims request.target
  aims := aims
  orderly := World.Elapses.aimed

/-- A run of acts in which calls may be sent to any path. -/
abbrev Setting.ofActs (c : Config) (raw : Prop) : Setting := .aimed c raw fun _ => True

section Runs
variable {c : Config} {raw : Prop} {aims : Bytes → Prop}

/-- In a quiet pause only the clock moves on. -/
theorem Pause.quiet_keeps_of (advances : ∀ w t, σ.elapses w (w.advanceTo t)) :
    Pause.quiet.Keeps σ := by
  intro t _ stop mine w _
  unfold Pause.quiet
  split
  · exact .refl
  · exact .single (.elapse (advances w t))

theorem Pause.quiet_keeps : Pause.quiet.Keeps (.aimed c raw aims) :=
  Pause.quiet_keeps_of .advance

theorem Client.aimed_sends (messages : List Message) (stream : Bool) :
    Client.Sends (.aimed c raw aims) messages stream := by
  intro p w key orderly
  apply (Client.makeRequest_target messages stream key).mono
  intro r _ target_eq request made
  have sent : aims request.target := (target_eq request made).symm ▸ orderly.aims
  exact sent

theorem World.happen_moves (keeps : p.Keeps (.aimed c raw aims)) (orderly : w.Aimed c raw aims)
    {act : Act} (allowed : raw ∨ act.ofClient = true) :
    Moves (.aimed c raw aims) mine w mine (w.happen act p) :=
  (Act.trades_perform keeps (fun _ => trivial) trivial Client.aimed_sends act allowed w
    orderly).tail (.elapse (.done _ _))

theorem World.nextDue?_moves {t : Instant} {act : Act} {w' : World}
    (orderly : w.Aimed c raw aims) (due : w.nextDue? t = some (act, w')) :
    Moves (.aimed c raw aims) mine w mine w' ∧ (raw ∨ act.ofClient = true) := by
  obtain ⟨first, agenda, next, rfl⟩ := World.nextDue?_eq due
  have taken : Moves (.aimed c raw aims) mine w mine { w with agenda } :=
    .single (.elapse (.due next))
  exact ⟨taken.tail (.elapse (.advance _ _)), orderly.agenda _ (next ▸ List.mem_cons_self ..)⟩

/-- Acts that happen during a wait change nothing for those who wait, however deep this goes. -/
theorem Pause.acts_keeps (n : Nat) : (Pause.acts n).Keeps (.aimed c raw aims) := by
  induction n with
  | zero => exact Pause.quiet_keeps
  | succ n ih =>
    intro t within stop mine w orderly
    simp only [Pause.acts]
    split
    · exact .refl
    · split
      · exact .single (.elapse (.advance w t))
      · rename_i act w' due
        obtain ⟨taken, allowed⟩ : Moves (.aimed c raw aims) mine w mine w' ∧ _ :=
          World.nextDue?_moves orderly due
        have orderly := taken.orderly orderly
        have happened : Moves (.aimed c raw aims) mine w' mine (w'.happen act (Pause.acts n)) :=
          World.happen_moves ih orderly allowed
        exact (taken.trans happened).trans (ih t within stop mine _ (happened.orderly orderly))

theorem World.step_moves (orderly : w.Aimed c raw aims) {act : Act}
    (allowed : raw ∨ act.ofClient = true) :
    Moves (.aimed c raw aims) mine w mine (w.step act).2 :=
  Act.trades_perform (Pause.acts_keeps w.pending) (fun _ => trivial) trivial Client.aimed_sends
    act allowed w orderly

end Runs

end Parley
