import Parley.Proofs.Job
import Parley.Proofs.Moves
import Parley.Source

/-!
What becomes of things on hand. A job trades what whoever runs it has on hand for something else,
in one move after another; all other things, and the bodies that are left to be read, stay with the
others. There is one rule for each way of building a job, and one trade for each thing that is done
with a session. A job waits until no later than its deadline.
-/
namespace Parley

variable {α β : Type} {σ : Setting} {p : Pause} {mine mine' : List Holding} {w : World}

namespace Job

/-- Whoever begins the job with `mine` on hand ends it with `post` of the answer on hand. -/
def Trades (σ : Setting) (p : Pause) (mine : List Holding) (j : Job α)
    (post : α → List Holding) : Prop :=
  ∀ w, σ.Orderly w → j.Ensures p w fun a w' => Moves σ mine w (post a) w'

namespace Trades

variable {post : α → List Holding} {post' : β → List Holding} {j : Job α}

theorem pure {a : α} (h : mine = post a) : Trades σ p mine (pure a) post := by
  subst h
  exact fun _ _ => .refl

theorem bind {k : α → Job β} (h : Trades σ p mine j post)
    (next : ∀ a, Trades σ p (post a) (k a) post') : Trades σ p mine (j >>= k) post' := by
  intro w orderly
  rw [ensures_bind]
  apply (h w orderly).mono
  intro a w' moves
  apply (next a w' (moves.orderly orderly)).mono
  exact fun b w'' moves' => moves.trans moves'

theorem get {k : World → Job β} (next : ∀ w₀, Trades σ p mine (k w₀) post') :
    Trades σ p mine (MonadState.get >>= k) post' :=
  fun w orderly => next w w orderly

/-- Something is done that the others do not see. -/
theorem aside {f : World → World} (h : ∀ w, (f w).core = w.core) :
    Trades σ p mine (modify f) fun _ => mine :=
  fun w _ => .single (.aside (h w))

theorem modify {f : World → World} (h : ∀ w, Move σ (mine, w) (mine', f w)) :
    Trades σ p mine (modify f) fun _ => mine' :=
  fun w _ => .single (h w)

/-- Something is taken from the world that nobody has on hand. -/
theorem take {f : World → α × World} (h : ∀ w, (f w).2.core = w.core) :
    Trades σ p mine (MonadState.modifyGet f) fun _ => mine :=
  fun w _ => .single (.aside (h w))

theorem ite {c : Prop} [Decidable c] {k : Job α} (yes : c → Trades σ p mine j post)
    (no : ¬ c → Trades σ p mine k post) : Trades σ p mine (if c then j else k) post := by
  split
  · exact yes ‹_›
  · exact no ‹_›

theorem forM {γ : Type} {job : γ → Job Unit} {items : List γ}
    (each : ∀ item ∈ items, Trades σ p mine (job item) fun _ => mine) :
    Trades σ p mine (items.forM job) fun _ => mine := by
  intro w orderly
  refine ensures_forM items ?_ .refl
  intro item member w' moves
  apply (each item member w' (moves.orderly orderly)).mono
  exact fun _ w'' moves' => moves.trans moves'

theorem waitUntil (keeps : p.Keeps σ) {t : Instant} (within : σ.awaited t) :
    Trades σ p mine (waitUntil t) fun _ => mine :=
  fun w => keeps t within _ mine w

theorem await (keeps : p.Keeps σ) {t : Instant} (within : σ.awaited t)
    (condition : World → Bool) : Trades σ p mine (await t condition) fun _ => mine := by
  intro w orderly
  rw [ensures_await]
  split
  · exact .refl
  · exact keeps t within condition mine w orderly

/-- A wait is begun only if it ends in time. -/
theorem waitWithin (keeps : p.Keeps σ) {limit : Instant} (within : σ.Until limit) {delay : Nanos}
    {late : Job α} (tooLate : Trades σ p mine late post) (inTime : Trades σ p mine j post) :
    Trades σ p mine (do
      if limit < (← MonadState.get).now + delay then late else
        Job.wait delay
        j) post := by
  intro w orderly
  rw [ensures_bind, ensures_get, ensures_ite]
  split
  · exact tooLate w orderly
  · have moves := keeps _ (within _ (Int.not_lt.mp ‹_›)) (fun _ => false) mine w orderly
    rw [ensures_bind, ensures_wait]
    apply (inTime _ (moves.orderly orderly)).mono
    exact fun a w' moves' => moves.trans moves'

theorem record {e : WireEvent} (other : e.closed? = none) :
    Trades σ p mine (record e) fun _ => mine :=
  modify fun _ => .record other

theorem notice (n : Notice) : Trades σ p mine (notice n) fun _ => mine :=
  aside fun _ => rfl

theorem mark {m : Mark} (fair : ∀ w, m.Fair w) : Trades σ p mine (mark m) fun _ => mine :=
  modify fun w => .mark (fair w)

end Trades

end Job

namespace Flow

/-- What is on hand in the end, which something may come to by failing. -/
def ending (post : α → List Holding) (left : List Holding) : Except Failure α → List Holding
  | .ok a => post a
  | .error _ => left

/-- The same for something that may fail; then `left` is on hand in the end. -/
def Trades (σ : Setting) (p : Pause) (mine : List Holding) (f : Flow α)
    (post : α → List Holding) (left : List Holding) : Prop :=
  Job.Trades σ p mine f.run (ending post left)

namespace Trades

variable {post : α → List Holding} {post' : β → List Holding} {left : List Holding} {f : Flow α}

theorem pure {a : α} (h : mine = post a) : Trades σ p mine (pure a) post left := by
  subst h
  exact fun _ _ => .refl

theorem throw (e : Failure) : Trades σ p left (throw e) post left := fun _ _ => .refl

theorem bind {k : α → Flow β} (h : Trades σ p mine f post left)
    (next : ∀ a, Trades σ p (post a) (k a) post' left) :
    Trades σ p mine (f >>= k) post' left := by
  intro w orderly
  rw [ensures_run, ensures_bind]
  apply Ensures.mono (h w orderly)
  intro r w' moves
  cases r with
  | ok a =>
    apply Ensures.mono (next a w' (moves.orderly orderly))
    exact fun b w'' moves' => moves.trans moves'
  | error e => exact moves

/-- What the answer is like may matter to what comes next. -/
theorem liftBind {j : Job α} {k : α → Flow β} {fact : α → Prop}
    (h : Job.Trades σ p mine j post) (known : ∀ w, j.Ensures p w fun a _ => fact a)
    (next : ∀ a, fact a → Trades σ p (post a) (k a) post' left) :
    Trades σ p mine (liftM j >>= k) post' left := by
  intro w orderly
  rw [ensures_run, ensures_bind, ensures_lift]
  apply ((h w orderly).and (known w)).mono
  rintro a w' ⟨moves, fact⟩
  apply Ensures.mono (next a fact w' (moves.orderly orderly))
  exact fun b w'' moves' => moves.trans moves'

theorem get {k : World → Flow β} (next : ∀ w₀, Trades σ p mine (k w₀) post' left) :
    Trades σ p mine (MonadState.get >>= k) post' left :=
  fun w orderly => next w w orderly

/-- What is known of the world in which something begins. -/
theorem beginAt {k : World → Flow β} (orderly : σ.Orderly w)
    (next : Trades σ p mine (k w) post' left) :
    (MonadState.get >>= k).Ensures p w fun r w' => Moves σ mine w (ending post' left r) w' :=
  next w orderly

/-- A wait is begun only if it ends in time. -/
theorem waitWithin (keeps : p.Keeps σ) {limit : Instant} (within : σ.Until limit) {delay : Nanos}
    {late : Flow α} (tooLate : Trades σ p mine late post left)
    (inTime : Trades σ p mine f post left) :
    Trades σ p mine (do
      if limit < (← MonadState.get).now + delay then late else
        Job.wait delay
        f) post left := by
  intro w orderly
  rw [ensures_run, ensures_bind, ensures_get]
  simp only [ensures_ite]
  split
  · exact tooLate w orderly
  · have moves := keeps _ (within _ (Int.not_lt.mp ‹_›)) (fun _ => false) mine w orderly
    rw [ensures_bind, ensures_lift, Job.ensures_wait]
    apply Ensures.mono (inTime _ (moves.orderly orderly))
    exact fun a w' moves' => moves.trans moves'

theorem lift {j : Job α} (h : Job.Trades σ p mine j post) :
    Trades σ p mine (liftM j) post left :=
  fun w orderly => (ensures_lift j).mpr (h w orderly)

theorem ofExcept {r : Except Failure α} (h : ∀ a, left = post a) :
    Trades σ p left (ofExcept r) post left := by
  cases r with
  | ok a => exact pure (h a)
  | error e => exact throw e

theorem ite {c : Prop} [Decidable c] {g : Flow α} (yes : c → Trades σ p mine f post left)
    (no : ¬ c → Trades σ p mine g post left) :
    Trades σ p mine (if c then f else g) post left := by
  split
  · exact yes ‹_›
  · exact no ‹_›

/-- What is left of a failure is cleared up. -/
theorem onFailure {last : Job Unit} {left' : List Holding} (h : Trades σ p mine f post left)
    (clear : Job.Trades σ p left last fun _ => left') :
    Trades σ p mine (f.onFailure last) post left' := by
  intro w orderly
  rw [ensures_run, ensures_onFailure]
  apply Ensures.mono (h w orderly)
  intro r w' moves
  cases r with
  | ok a => exact moves
  | error e =>
    apply (clear w' (moves.orderly orderly)).mono
    exact fun _ w'' moves' => moves.trans moves'

end Trades

end Flow

namespace Session

variable {i : Nat} {c : Connection} {deadline : Instant}

@[simp] theorem ensures_dropIdle (connections : List Connection) {post : Unit → World → Prop} :
    (dropIdle connections).Ensures p w post ↔ post () (w.closeAll connections) := by
  unfold dropIdle World.closeAll
  induction connections.reverse generalizing w with
  | nil => simp
  | cons c rest ih =>
    rw [List.forM_eq_forM, List.forM_cons, Job.ensures_bind, Job.ensures_record,
      ← List.forM_eq_forM, ih]
    simp [World.record]

theorem trades_current (i : Nat) : Job.Trades σ p mine (current i) fun _ => mine :=
  fun _ _ => .refl

theorem trades_left (deadline : Instant) : Job.Trades σ p mine (left deadline) fun _ => mine :=
  fun _ _ => .refl

theorem trades_operate (keeps : p.Keeps σ) (outcome : WireOutcome) {expiry : Instant}
    (within : σ.Until expiry) : Job.Trades σ p mine (operate outcome expiry) fun _ => mine := by
  refine .waitWithin keeps within ?_ (.pure rfl)
  exact .bind (.waitUntil keeps (within _ (Int.le_refl _))) fun _ => .pure rfl

theorem trades_discard :
    Job.Trades σ p (.connection i c :: mine) (discard i c) fun _ => mine :=
  fun _ _ => .single .discard

theorem trades_checkin (read : c.unread = []) :
    Job.Trades σ p (.connection i c :: mine) (checkin i c) fun _ => mine := by
  intro w _
  rw [ensures_checkin]
  split
  · exact .single (.takeBack read ‹_›)
  · exact .single .discard

/-- A session that was closed is closed, whether or not it was there. -/
theorem find_shut (w : World) (i : Nat) (idle : List Connection) :
    (find (w.deal i (.shut idle)) i).closed = true := by
  by_cases here : i < w.sessions.length
  · rw [find_deal here]
    rfl
  · have gone : (w.deal i (.shut idle)).sessions.length ≤ i := by
      simpa [World.deal] using Nat.le_of_not_lt here
    rw [find, List.getD_eq_getElem?_getD, List.getElem?_eq_none gone]
    rfl

/-- The session that calls are sent over is closed, and the register says so. -/
theorem ensures_close (current : w.transport = some (.session i)) :
    (close i).Ensures p (w.enrol (.closed (.session i))) fun _ w' =>
      Moves σ mine w mine w' ∧ w'.Idle := by
  have same : find (w.enrol (.closed (.session i))) i = find w i := rfl
  have shut : Moves σ mine w mine (((w.enrol (.closed (.session i))).deal i
      (.shut (find w i).idle)).closeAll (find w i).idle) :=
    .single (.shut current rfl)
  have idle (w' : World) (transport : w'.transport = w.transport)
      (closed : (find w' i).closed = true) : w'.Idle := by
    intro t some
    rw [transport, current] at some
    cases some
    exact closed
  have closed := find_shut (w.enrol (.closed (.session i))) i (find w i).idle
  simp only [close, Job.ensures_bind, ensures_current, ensures_deal, Job.ensures_ite,
    Job.ensures_notice, ensures_dropIdle, same]
  split
  · exact ⟨shut.tail (.aside rfl), idle _ rfl closed⟩
  · exact ⟨shut, idle _ rfl closed⟩

/-- What comes with the answer to a claim. -/
def Claim.holdings (i : Nat) : Claim → List Holding
  | .idle c => [.connection i c]
  | .slot => [.slot i]
  | .closed | .full => []

/-- After those that have expired are dropped, none of the idle connections has expired. -/
theorem ensures_dropExpired (open_ : (find w i).closed = false) :
    (dropExpired i).Ensures p w fun _ w' => Moves σ mine w mine w' ∧
      (find w' i).closed = false ∧
      ∀ c ∈ (find w' i).idle, (find w' i).expired w'.now c = false := by
  simp only [dropExpired, Job.ensures_bind, ensures_current, Job.ensures_get, Job.ensures_ite,
    Job.ensures_pure]
  generalize old_eq : (find w i).idle.filter ((find w i).expired w.now) = old
  split
  · simp only [ensures_deal, ensures_dropIdle]
    have found : find ((w.deal i (.expired old)).closeAll old) i =
        (find w i).after w.now (.expired old) := find_deal (lt_of_open open_) _
    refine ⟨.single (.expire open_ old_eq.symm), ?_, fun c member => ?_⟩
    · rw [found]
      exact open_
    · rw [found] at member ⊢
      have young : (find w i).expired w.now c = false := by
        simpa using (List.mem_filter.mp member).2
      exact young
  · rename_i none
    have none : old = [] := by simpa using none
    rw [none, List.filter_eq_nil_iff] at old_eq
    exact ⟨.refl, open_, fun c member => by simpa using old_eq c member⟩

theorem claim_eq_idle {s : Session} (claimed : s.claim = .idle c) : ∃ c₀ rest,
    s.idle = c₀ :: rest ∧ c = { c₀ with reused := true, persistent := false } := by
  unfold claim at claimed
  split at claimed
  · cases claimed
  · split at claimed
    · rename_i c₀ rest idle
      cases claimed
      exact ⟨c₀, rest, idle, rfl⟩
    · split at claimed <;> cases claimed

theorem claim_eq_slot {s : Session} (claimed : s.claim = .slot) :
    s.idle = [] ∧ s.opened < s.maxConnections := by
  unfold claim at claimed
  split at claimed
  · cases claimed
  · split at claimed
    · cases claimed
    · split at claimed
      · exact ⟨‹_›, ‹_›⟩
      · cases claimed

theorem claim_eq_full {s : Session} (claimed : s.claim = .full) :
    s.idle = [] ∧ s.maxConnections ≤ s.opened := by
  unfold claim at claimed
  split at claimed
  · cases claimed
  · split at claimed
    · cases claimed
    · split at claimed
      · cases claimed
      · exact ⟨‹_›, Nat.le_of_not_lt ‹_›⟩

theorem trades_request (entitled : σ.Entitled mine) :
    Job.Trades σ p mine (request i) fun claim => claim.holdings i ++ mine := by
  intro w _
  simp only [request, Job.ensures_bind, ensures_current, Job.ensures_ite, Job.ensures_pure]
  split
  · exact .refl
  · rename_i open_
    apply (ensures_dropExpired (by simpa using open_)).mono
    rintro _ w₁ ⟨moves, open_, young⟩
    cases claimed : (find w₁ i).claim with
    | closed => exact moves
    | full =>
      obtain ⟨idle, full⟩ := claim_eq_full claimed
      exact moves.tail (.crowd entitled open_ idle full)
    | idle c =>
      obtain ⟨c₀, rest, idle, rfl⟩ := claim_eq_idle claimed
      exact moves.tail (.lend entitled open_ idle (young c₀ (idle ▸ List.mem_cons_self ..)))
    | slot =>
      obtain ⟨idle, room⟩ := claim_eq_slot claimed
      exact moves.tail (.takeSlot entitled open_ idle room)

theorem trades_takeResolve : Job.Trades σ p mine takeResolve fun _ => mine := by
  refine .take fun w => ?_
  split <;> rfl

theorem trades_takeConnect : Job.Trades σ p mine takeConnect fun _ => mine := by
  refine .take fun w => ?_
  split <;> rfl

theorem trades_takeExchange : Job.Trades σ p mine takeExchange fun _ => mine := by
  refine .take fun w => ?_
  split <;> rfl

theorem trades_connectionFailed {post : α → List Holding} (reason : Reason) :
    Flow.Trades σ p mine (connectionFailed reason) post mine :=
  .throw _

theorem trades_fail {n : Nat} :
    Job.Trades σ p (.number n :: mine) (Job.record (.close n)) fun _ => mine :=
  .modify fun _ => .loseConnection

theorem trades_opened {n : Nat} (t : Instant) :
    Job.Trades σ p (.number n :: .slot i :: mine) (deal i (.opened n))
      fun _ => .connection i { number := n, lastUsed := t } :: mine :=
  .modify fun _ => .fillSlot t

theorem trades_answer (e : Exchange) :
    Job.Trades σ p (.connection i c :: mine) (deal i (.answered c.number e))
      fun _ => .connection i { c with unread := e.body, persistent := e.keepAlive } :: mine :=
  .modify fun _ => .answer e

theorem trades_receive {q : Piece} {pieces : List Piece} {data : Bytes} (rest : List Piece)
    (bytes_eq : (q :: pieces).flatMap (·.data) = data ++ rest.flatMap (·.data)) :
    Job.Trades σ p (.connection i { c with unread := q :: pieces } :: mine)
      (deal i (.received c.number data)) fun _ => .connection i { c with unread := rest } :: mine :=
  .modify fun _ => .receive (c := { c with unread := q :: pieces }) (by simp) bytes_eq

theorem trades_resolve (keeps : p.Keeps σ) {limit : Instant} (within : σ.Until limit) :
    Flow.Trades σ p (.slot i :: mine) (resolve i limit) (fun _ => .slot i :: mine)
      (.slot i :: mine) := by
  unfold resolve
  refine .bind (.lift (trades_current i)) fun s => .get fun _ => ?_
  refine .ite (fun _ => .pure rfl) fun _ => ?_
  refine .bind (.lift (.record rfl)) fun _ => .bind (.lift trades_takeResolve) fun outcome => ?_
  refine .waitWithin keeps within ?_ ?_
  · exact .bind (.lift (.waitUntil keeps (within _ (Int.le_refl _)))) fun _ =>
      .bind (.lift (.record rfl)) fun _ => trades_connectionFailed _
  · split
    · exact trades_connectionFailed _
    · exact .lift (.modify fun _ => .resolve)

/-- Whoever has a slot opens a connection in it. -/
theorem trades_connect (keeps : p.Keeps σ) (within : σ.Until deadline) :
    Flow.Trades σ p (.slot i :: mine) (connect i deadline) (fun c => .connection i c :: mine)
      (.slot i :: mine) := by
  unfold connect
  refine .bind (.lift (trades_current i)) fun s => .get fun begun => ?_
  have within : σ.Until (min deadline (begun.now.plusMillis s.connectTimeout)) :=
    fun t le => within t (Int.le_trans le (Int.min_le_left ..))
  refine .bind (trades_resolve keeps within) fun _ w orderly => ?_
  -- The number is taken from the world that it is written back to.
  rw [Flow.ensures_run, Flow.ensures_bind, Flow.ensures_get]
  simp only
  rw [Flow.ensures_bind, Flow.ensures_modify]
  have numbered : Moves σ (.slot i :: mine) w (.number (w.connections + 1) :: .slot i :: mine)
      { w with connections := w.connections + 1 } := .single .beginConnection
  refine Flow.Ensures.mono (Flow.Trades.bind (.lift (trades_left _)) (fun left => ?_) _
    (numbered.orderly orderly)) fun _ _ moves => numbered.trans moves
  refine .bind (.lift (.record rfl)) fun _ => .bind (.lift trades_takeConnect) fun outcome => ?_
  refine .bind (.lift (trades_operate keeps _ within)) fun error => ?_
  split
  · exact .bind (.lift trades_fail) fun _ => .throw _
  · refine .bind (.lift (trades_opened begun.now)) fun _ => ?_
    exact .bind (.lift (.notice _)) fun _ => .pure rfl

theorem trades_settle (keeps : p.Keeps σ) (within : σ.Until deadline) (claim : Claim) :
    Flow.Trades σ p (claim.holdings i ++ mine) (settle i deadline claim)
      (fun c => .connection i c :: mine) mine := by
  cases claim with
  | closed => exact trades_connectionFailed _
  | full => exact trades_connectionFailed _
  | idle c => exact .pure rfl
  | slot => exact .onFailure (trades_connect keeps within) (.modify fun _ => .freeSlot)

theorem trades_checkout (keeps : p.Keeps σ) (within : σ.Until deadline)
    (entitled : σ.Entitled mine) :
    Flow.Trades σ p mine (checkout i deadline) (fun c => .connection i c :: mine) mine := by
  unfold checkout
  refine .bind (.lift (trades_request entitled)) fun claim => ?_
  cases claim with
  | full =>
    refine .bind (.lift (.await keeps (within _ (Int.le_refl _)) _)) fun room => ?_
    refine .ite (fun _ => ?_) fun _ => ?_
    · exact .bind (.lift (trades_request entitled)) fun claim => trades_settle keeps within claim
    · exact trades_connectionFailed _
  | closed => exact trades_settle keeps within .closed
  | idle c => exact trades_settle keeps within (.idle c)
  | slot => exact trades_settle keeps within .slot

theorem trades_begin (keeps : p.Keeps σ) (request : WireRequest) (within : σ.Until deadline) :
    Job.Trades σ p (.connection i c :: mine) (begin i c request deadline) fun
      | .ok (_, c') => .connection i c' :: mine
      | .error _ => .connection i c :: mine := by
  unfold begin
  refine .bind (trades_left _) fun left => .bind (.record rfl) fun _ => ?_
  refine .bind (.mark fun _ => trivial) fun _ => .bind trades_takeExchange fun e => ?_
  refine .bind (trades_operate keeps _ within) fun error => ?_
  split
  · exact .bind (.mark fun _ => trivial) fun _ => .pure rfl
  · refine .bind (trades_left _) fun left => .bind (.record rfl) fun _ => ?_
    refine .bind (trades_operate keeps _ within) fun error => ?_
    split
    · exact .bind (.mark fun _ => trivial) fun _ => .pure rfl
    · exact .bind (trades_answer e) fun _ => .bind (.mark fun _ => trivial) fun _ => .pure rfl

theorem trades_answered (keeps : p.Keeps σ) (request : WireRequest) (within : σ.Until deadline)
    (entitled : σ.Entitled mine) :
    Flow.Trades σ p mine (answered i request deadline)
      (fun (_, c) => .connection i c :: mine) mine := by
  unfold answered
  refine .bind (trades_checkout keeps within entitled) fun c => ?_
  refine .bind (.lift (trades_begin keeps request within)) fun result => ?_
  cases result with
  | ok answer => exact .pure rfl
  | error e =>
    refine .bind (.lift trades_discard) fun _ => .ite (fun _ => ?_) fun _ => .throw _
    refine .bind (.lift (.notice _)) fun _ => ?_
    refine .bind (trades_checkout keeps within entitled) fun c => ?_
    refine .bind (.lift (trades_begin keeps request within)) fun result => ?_
    cases result with
    | ok answer => exact .pure rfl
    | error e => exact .bind (.lift trades_discard) fun _ => .throw _

/-- What is left of the pieces is what is left unread of the connection. -/
theorem trades_readPieces (keeps : p.Keeps σ) (within : σ.Until deadline) (body : Bytes)
    (pieces : List Piece) :
    Job.Trades σ p (.connection i { c with unread := pieces } :: mine)
      (readPieces i c.number deadline body pieces)
      fun (_, rest) => .connection i { c with unread := rest } :: mine := by
  induction pieces generalizing body with
  | nil => exact .pure rfl
  | cons q pieces ih =>
    refine .bind (trades_operate keeps _ within) fun error => ?_
    split
    · exact .pure rfl
    · exact .bind (trades_receive _ rfl) fun _ => ih (body ++ q.data)

theorem readPieces_complete (i number : Nat) (deadline : Instant) (body : Bytes)
    (pieces : List Piece) :
    (readPieces i number deadline body pieces).Ensures p w fun (result, rest) _ =>
      ∀ whole, result = .ok whole → rest = [] := by
  induction pieces generalizing body w with
  | nil => exact fun _ _ => rfl
  | cons q pieces ih =>
    rw [readPieces, Job.ensures_bind]
    apply Job.Ensures.of_all
    intro error _
    cases error with
    | some e =>
      intro whole failed
      cases failed
    | none => exact ih (body ++ q.data)

/-- An exchange waits no longer than its timeout allows. -/
theorem ensures_send (keeps : p.Keeps σ) (request : Request) {timeout : Millis}
    (orderly : σ.Orderly w) (within : σ.Until (w.now.plusMillis timeout))
    (entitled : σ.Entitled mine) :
    (send i request timeout).Ensures p w fun r w' =>
      Moves σ mine w (Flow.ending (fun _ => mine) mine r) w' := by
  refine Flow.Trades.beginAt orderly (.bind (.lift (trades_current i)) fun s => ?_)
  refine .bind (.ofExcept fun _ => rfl) fun request => ?_
  refine .bind (trades_answered keeps request within entitled) ?_
  rintro ⟨head, c⟩
  refine .bind (.lift (trades_left _)) fun left => .bind (.lift (.record rfl)) fun _ => ?_
  refine .liftBind (trades_readPieces keeps within [] c.unread)
    (fun w => readPieces_complete i c.number _ [] c.unread) ?_
  rintro ⟨result, rest⟩ complete
  cases result with
  | error e =>
    refine .bind (.lift (.mark fun _ => trivial)) fun _ => ?_
    exact .bind (.lift trades_discard) fun _ => .throw _
  | ok body => exact .bind (.lift (trades_checkin (complete body rfl))) fun _ => .pure rfl

theorem ensures_sendStreaming (keeps : p.Keeps σ) (request : Request) {timeout : Millis}
    (orderly : σ.Orderly w) (within : σ.Until (w.now.plusMillis timeout))
    (entitled : σ.Entitled mine) :
    (sendStreaming i request timeout).Ensures p w fun r w' =>
      Moves σ mine w (Flow.ending (·.holdings ++ mine) mine r) w' := by
  refine Flow.Trades.beginAt orderly (.bind (.lift (trades_current i)) fun s => ?_)
  refine .bind (.ofExcept fun _ => rfl) fun request => ?_
  refine .bind (trades_answered keeps request within entitled) ?_
  rintro ⟨head, c⟩
  exact .pure rfl

/-- What is left of the connection has what is left of the pieces unread. -/
theorem trades_readPiece (keeps : p.Keeps σ) (within : σ.Until deadline) (capacity : Nat)
    (pieces : List Piece) :
    Job.Trades σ p (.connection i { c with unread := pieces } :: mine)
      (readPiece i c capacity deadline pieces)
      fun (_, connection) => Holding.ofOption i connection ++ mine := by
  induction pieces with
  | nil => exact .bind (trades_checkin rfl) fun _ => .pure rfl
  | cons q pieces ih =>
    unfold readPiece
    refine .get fun _ => .ite (fun _ => .bind trades_discard fun _ => .pure rfl) fun _ => ?_
    refine .bind (trades_left _) fun left => .bind (.record rfl) fun _ => ?_
    refine .bind (trades_operate keeps _ within) fun error => ?_
    split
    · exact .bind trades_discard fun _ => .pure rfl
    · have bytes_eq : (q :: pieces).flatMap (·.data) =
          q.data.take capacity ++ (q.data.drop capacity ++ pieces.flatMap (·.data)) := by
        rw [← List.append_assoc, List.take_append_drop]
        rfl
      rcases left : q.data.drop capacity with _ | ⟨b, rest⟩
      · rw [left] at bytes_eq
        refine .bind (trades_receive _ bytes_eq) fun _ => ?_
        cases pieces with
        | nil => exact .bind (trades_checkin rfl) fun _ => .pure rfl
        | cons next pieces => exact .ite (fun _ => ih) fun _ => .pure rfl
      · rw [left] at bytes_eq
        exact .bind (trades_receive ({ data := b :: rest } :: pieces) bytes_eq) fun _ =>
          .pure rfl

end Session

section Bodies
variable {deadline : Instant}

theorem WireBody.trades_read (keeps : p.Keeps σ) (within : σ.Until deadline) (b : WireBody)
    (capacity : Nat) :
    Job.Trades σ p (b.holdings ++ mine) (b.read capacity deadline)
      fun (_, b') => b'.holdings ++ mine := by
  rcases b with ⟨session, connection, status, headers⟩
  cases connection with
  | none => exact .pure rfl
  | some c =>
    exact .bind (Session.trades_readPiece keeps within capacity c.unread) fun _ => .pure rfl

theorem WireBody.trades_dispose (b : WireBody) :
    Job.Trades σ p (b.holdings ++ mine) b.dispose fun _ => mine := by
  rcases b with ⟨session, connection, status, headers⟩
  cases connection with
  | none => exact .pure rfl
  | some c => exact Session.trades_discard

/-- Something comes at once, or after a delay that may be too long. -/
theorem ScriptedBody.trades_delayed (keeps : p.Keeps σ) (within : σ.Until deadline)
    {late j : Job α} {post : α → List Holding} {delay : Nanos}
    (tooLate : Job.Trades σ p mine late post) (atOnce : Job.Trades σ p mine j post) :
    Job.Trades σ p mine (do
      if 0 < delay then
        if deadline < (← get).now + delay then late else
          Job.wait delay
          j
      else j) post :=
  .ite (fun _ => .waitWithin keeps within tooLate atOnce) fun _ => atOnce

theorem ScriptedBody.trades_readChunk (keeps : p.Keeps σ) (within : σ.Until deadline)
    (capacity : Nat) (chunks : List Chunk) :
    Job.Trades σ p mine (readChunk capacity deadline chunks) fun _ => mine := by
  induction chunks with
  | nil => exact .pure rfl
  | cons c chunks ih =>
    apply trades_delayed keeps within
    · exact .bind (.waitUntil keeps (within _ (Int.le_refl _))) fun _ => .pure rfl
    · split
      · exact .pure rfl
      · exact ih
      · exact .pure rfl

theorem ScriptedBody.trades_read (keeps : p.Keeps σ) (within : σ.Until deadline) (b : ScriptedBody)
    (capacity : Nat) : Job.Trades σ p mine (b.read capacity deadline) fun _ => mine :=
  .bind (trades_readChunk keeps within capacity b.chunks) fun _ => .pure rfl

namespace Source

theorem trades_read (keeps : p.Keeps σ) (within : σ.Until deadline) (s : Source) (capacity : Nat) :
    Job.Trades σ p (s.holdings ++ mine) (s.read capacity deadline)
      fun (_, s') => s'.holdings ++ mine := by
  cases s with
  | scripted b => exact .bind (b.trades_read keeps within capacity) fun _ => .pure rfl
  | wire b => exact .bind (b.trades_read keeps within capacity) fun _ => .pure rfl

theorem trades_dispose (s : Source) :
    Job.Trades σ p (s.holdings ++ mine) s.dispose fun _ => mine := by
  cases s with
  | scripted b => exact .bind (.aside fun _ => rfl) fun _ => .mark fun _ => trivial
  | wire b => exact b.trades_dispose

theorem trades_script (status : Nat) (headers : Headers) (chunks : List Chunk) :
    Job.Trades σ p mine (script status headers chunks) (·.holdings ++ mine) :=
  fun _ _ => .single (.aside rfl)

theorem trades_readRest (keeps : p.Keeps σ) (within : σ.Until deadline) (reads : Nat)
    (body : Bytes) (s : Source) :
    Job.Trades σ p (s.holdings ++ mine) (readRest deadline reads body s)
      fun (_, s') => s'.holdings ++ mine := by
  induction reads generalizing body s with
  | zero => exact .pure rfl
  | succ reads ih =>
    refine .bind (s.trades_read keeps within readSize) ?_
    rintro ⟨f | _ | ⟨b, data⟩, s⟩
    · exact .pure rfl
    · exact .pure rfl
    · exact ih _ _

theorem trades_readAll (keeps : p.Keeps σ) (within : σ.Until deadline) (s : Source) :
    Job.Trades σ p (s.holdings ++ mine) (s.readAll deadline)
      fun (_, s') => s'.holdings ++ mine :=
  trades_readRest keeps within _ [] s

end Source

end Bodies

end Parley
