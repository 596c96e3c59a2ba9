import Parley.Proofs.Failures
import Parley.Proofs.Trades
import Parley.Proofs.Views

/-!
What one exchange writes. A connection that was idle may have been closed by the server meanwhile;
then, and only then, the request is written a second time, over another connection. So a server
that has begun to answer a request does not see it again, nor one that may still be working on it.

An exchange is looked at by what it enters into the log, the latest first; what others enter while
it waits is left out (`Pause.silenced`).

* `Session.Asked`: what is entered until the head of a response was read, or none can be;
* `Session.Asked.prudent`: the request is not written again except as above;
* `Session.exchanges_prudent`: the same of whole exchanges, and what they come to.
-/
namespace Parley

variable {α β : Type} {p : Pause} {w w' : World}

/-- The same happens meanwhile, but is not entered into the log. -/
def Pause.silenced (p : Pause) : Pause := fun t stop w => { p t stop w with log := w.log }

/-- The marks of the log, the latest first. -/
def World.marks (w : World) : List Mark := w.log.map (·.mark)

/-- A job that enters nothing of its own into the log. -/
def Job.Silent (j : Job α) : Prop :=
  ∀ (p : Pause) w, j.Ensures p.silenced w fun _ w' => w'.marks = w.marks

def Mark.isWrite : Mark → Bool
  | .wrote .. => true
  | _ => false

/-- The same of something that may fail. -/
abbrev Flow.Silent (f : Flow α) : Prop := Job.Silent f.run

/-- What the log says is not on the wire. -/
theorem World.unwired_marks : Unwired marks :=
  ⟨fun _ _ _ => rfl, fun _ _ => rfl, fun _ _ => rfl, fun _ _ => rfl, fun _ _ => rfl⟩

theorem Strand.Preserves.silent {s : Strand α} {seen : List Mark}
    (h : s.Preserves World.marks seen) (p : Pause) : (s.run p.silenced).2.marks = seen := by
  induction s generalizing seen with
  | ends a w => exact h
  | waits t stop w resume ih =>
    have silenced : (p.silenced t stop w).marks = w.marks := rfl
    exact (ih _ (h.2 (p.silenced t stop w))).trans (silenced.trans h.1)

theorem Job.Preserves.silent {j : Job α} (h : j.Preserves World.marks) : j.Silent :=
  fun p w => (h w).silent p

theorem Flow.Preserves.silent {f : Flow α} (h : f.Preserves World.marks) : f.Silent :=
  Job.Preserves.silent h

namespace Session

open World (unwired_marks)

variable {i : Nat} {c : Connection} {deadline : Instant}

/-- What the journal says of a connection that was just handed out: it counts as reused if it was
idle, and does not if it was opened for this. -/
def Origin (i : Nat) (c : Connection) (w : World) : Prop :=
  ∃ past, w.journal = ⟨i, if c.reused then .lent c else .opened c.number, w.now⟩ :: past

theorem request_origin :
    (request i).Ensures p w fun claim w' => ∀ c, claim = .idle c → Origin i c w' := by
  simp only [request, Job.ensures_bind, ensures_current, Job.ensures_ite, Job.ensures_pure]
  split
  · rintro _ ⟨⟩
  · apply Job.Ensures.of_all
    intro _ w₁
    cases claimed : (find w₁ i).claim with
    | idle c =>
      obtain ⟨c₀, rest, idle, rfl⟩ := claim_eq_idle claimed
      rintro _ ⟨⟩
      exact ⟨w₁.journal, rfl⟩
    | closed | slot | full => rintro _ ⟨⟩

/-- A connection that was opened is a new one. -/
theorem connect_opens :
    (connect i deadline).Ensures p w fun r w' => ∀ c, r = .ok c →
      c.reused = false ∧ ∃ past, w'.journal = ⟨i, .opened c.number, w'.now⟩ :: past := by
  simp only [connect, Flow.ensures_bind, Flow.ensures_lift, Flow.ensures_get, Flow.ensures_modify,
    ensures_current, ensures_left, Job.ensures_record]
  apply Flow.Ensures.of_all
  intro r w₁
  cases r with
  | error f => rintro _ ⟨⟩
  | ok _ =>
    apply Job.Ensures.of_all
    intro outcome w₂
    apply Job.Ensures.of_all
    intro failed w₃
    cases failed with
    | some e => rintro _ ⟨⟩
    | none =>
      rintro _ ⟨⟩
      exact ⟨rfl, w₃.journal, rfl⟩

theorem checkout_origin :
    (checkout i deadline).Ensures p w fun r w' => ∀ c, r = .ok c → Origin i c w' := by
  have settled {claim : Claim} {w : World} (idle : ∀ c, claim = .idle c → Origin i c w) :
      (settle i deadline claim).Ensures p w fun r w' => ∀ c, r = .ok c → Origin i c w' := by
    cases claim with
    | closed | full => rintro _ ⟨⟩
    | idle c =>
      rintro _ ⟨⟩
      exact idle c rfl
    | slot =>
      rw [settle, Flow.ensures_onFailure]
      apply connect_opens.mono
      intro r w' opens
      cases r with
      | ok c =>
        rintro _ ⟨⟩
        obtain ⟨unused, journal⟩ := opens c rfl
        rw [Origin, unused]
        exact journal
      | error f => rintro _ ⟨⟩
  rw [checkout, Flow.ensures_bind, Flow.ensures_lift]
  apply request_origin.mono
  intro claim w₁ idle
  cases claim with
  | full =>
    simp only [Flow.ensures_bind, Flow.ensures_lift]
    apply Job.Ensures.of_all
    intro room w₂
    cases room with
    | false => rintro _ ⟨⟩
    | true =>
      simp only [if_true, Flow.ensures_bind, Flow.ensures_lift]
      exact request_origin.mono fun claim w₃ => settled
  | closed | idle | slot => exact settled idle

/-- Everything that a connection can fail with if the server has closed it meanwhile. -/
def staleErrors : List WireError :=
  [.endOfStream, .eof, .connectionReset, .connectionAborted, .brokenPipe]

theorem isStale_iff (e : WireError) : e.isStale = true ↔ e ∈ staleErrors := by
  cases e with
  | other name => simp [WireError.isStale, staleErrors]
  | _ => decide

/-- What was entered before a request is written: nothing, or that a reused connection turned out to
be closed. -/
def Before (request : WireRequest) (older : List Mark) : Prop :=
  older = [] ∨ ∃ c e, older = [.broke e, .wrote c request] ∧ c.reused = true ∧ e ∈ staleErrors

/-- What was entered while a request is answered, and the exchange of which the head of the response
was read. -/
inductive Asked (request : WireRequest) : Option Exchange → List Mark → Prop
  | unwritten : Asked request none []
  | broke (c : Connection) (e : WireError) {older : List Mark} (before : Before request older) :
      Asked request none (.broke e :: .wrote c request :: older)
  | headed (c : Connection) (x : Exchange) {older : List Mark} (before : Before request older) :
      Asked request (some x) (.headed x :: .wrote c request :: older)

/-- The request is written before anything else happens, and then the head of a response is read or
is not. -/
theorem begin_marks (request : WireRequest) :
    (begin i c request deadline).Ensures p.silenced w fun r w' =>
      match r with
      | .error e => w'.marks = .broke e :: .wrote c request :: w.marks
      | .ok (head, c') => ∃ x, w'.marks = .headed x :: .wrote c request :: w.marks ∧
          head = { status := x.status, headers := .collect x.fields } ∧ c'.unread = x.body := by
  rw [begin]
  simp only [Job.ensures_bind, ensures_left, Job.ensures_record, Job.ensures_mark]
  apply ((takeExchange_preserves unwired_marks).silent p _).mono
  intro x w₁ same₁
  apply ((operate_preserves x.write deadline).silent p w₁).mono
  intro failed w₂ same₂
  have written : w₂.marks = .wrote c request :: w.marks := same₂.trans same₁
  cases failed with
  | some e => exact congrArg (List.cons (Mark.broke e)) written
  | none =>
    simp only [Job.ensures_bind, ensures_left, Job.ensures_record]
    apply ((operate_preserves x.head deadline).silent p _).mono
    intro failed w₃ same₃
    have read : w₃.marks = .wrote c request :: w.marks := same₃.trans written
    cases failed with
    | some e => exact congrArg (List.cons (Mark.broke e)) read
    | none =>
      have headed : (w₃.mark (.headed x)).marks = .headed x :: .wrote c request :: w.marks :=
        congrArg (List.cons (Mark.headed x)) read
      exact ⟨x, headed, rfl, rfl⟩

/-- An answer is the head of the response that was read, and a connection over which the body is yet
to come. -/
def Answers (request : WireRequest) (answer : Head × Connection) (own : List Mark) : Prop :=
  ∃ x, Asked request (some x) own ∧
    answer.1 = { status := x.status, headers := .collect x.fields } ∧ answer.2.unread = x.body

/-- A request that may be written is answered, or it is known what broke off. -/
theorem begin_asked {request : WireRequest} {older rest : List Mark} (before : Before request older)
    (marks : w.marks = older ++ rest) :
    (begin i c request deadline).Ensures p.silenced w fun r w' =>
      match r with
      | .error e => w'.marks = (.broke e :: .wrote c request :: older) ++ rest
      | .ok answer => ∃ own, w'.marks = own ++ rest ∧ Answers request answer own := by
  apply (begin_marks request).mono
  intro r w' written
  rw [marks] at written
  cases r with
  | error e => exact written
  | ok answer =>
    obtain ⟨x, marks, head, unread⟩ := written
    exact ⟨_, marks, x, .headed c x before, head, unread⟩

theorem answered_asked (request : WireRequest) :
    (answered i request deadline).Ensures p.silenced w fun r w' => ∃ own,
      w'.marks = own ++ w.marks ∧
        match r with
        | .error _ => Asked request none own
        | .ok answer => Answers request answer own := by
  rw [answered]
  simp only [Flow.ensures_bind, Flow.ensures_lift]
  apply Flow.Ensures.mono ((checkout_preserves unwired_marks i deadline).silent p w)
  intro r w₁ same₁
  cases r with
  | error f => exact ⟨[], same₁, .unwritten⟩
  | ok c =>
    apply (begin_asked (.inl rfl) same₁).mono
    intro r w₂ written
    cases r with
    | ok answer => exact written
    | error e =>
      simp only [Flow.ensures_bind, Flow.ensures_lift, Flow.ensures_ite]
      apply ((discard_preserves unwired_marks i c).silent p w₂).mono
      intro _ w₃ same₃
      have once : w₃.marks = [.broke e, .wrote c request] ++ w.marks := same₃.trans written
      split
      · -- A second time, over whatever connection there is now.
        rename_i stale
        obtain ⟨reused, stale⟩ : c.reused = true ∧ e.isStale = true := by simpa using stale
        have before : Before request [.broke e, .wrote c request] :=
          .inr ⟨c, e, rfl, reused, (isStale_iff e).mp stale⟩
        simp only [Job.ensures_notice]
        apply Flow.Ensures.mono ((checkout_preserves unwired_marks i deadline).silent p (w₃.tell _))
        intro r w₄ same₄
        cases r with
        | error f => exact ⟨_, same₄.trans once, .broke c e (.inl rfl)⟩
        | ok c' =>
          apply (begin_asked before (same₄.trans once)).mono
          intro r w₅ written
          cases r with
          | ok answer => exact written
          | error e' =>
            simp only [Flow.ensures_bind, Flow.ensures_lift, Flow.ensures_throw]
            apply ((discard_preserves unwired_marks i c').silent p w₅).mono
            intro _ w₆ same₆
            exact ⟨_, same₆.trans written, .broke c' e' before⟩
      · exact ⟨_, once, .broke c e (.inl rfl)⟩

/-- What is known of an exchange by what it has entered, the latest first: the request is written
twice at most, and a second time only right after it was written to a reused connection that turned
out to be closed. -/
structure Prudent (request : WireRequest) (own : List Mark) : Prop where
  twice : own.countP Mark.isWrite ≤ 2
  writes {c : Connection} {r : WireRequest} {older : List Mark}
    (written : Mark.wrote c r :: older <:+ own) : r = request ∧ Before request older

theorem Before.prudent {request : WireRequest} {older : List Mark} (before : Before request older) :
    older.countP Mark.isWrite ≤ 1 ∧ ∀ c r older', Mark.wrote c r :: older' <:+ older →
      r = request ∧ Before request older' := by
  obtain rfl | ⟨c, e, rfl, -, -⟩ := before
  · simp
  · constructor
    · exact Nat.le_refl 1
    · intro c' r older' written
      simp only [List.suffix_cons_iff, List.suffix_nil, List.cons.injEq, reduceCtorEq, false_and,
        false_or, or_false, Mark.wrote.injEq] at written
      obtain ⟨⟨-, same⟩, none⟩ := written
      exact ⟨same, .inl none⟩

theorem Asked.prudent {request : WireRequest} {x : Option Exchange} {own : List Mark}
    (asked : Asked request x own) : Prudent request own := by
  have passed {m : Mark} (other : m.isWrite = false) (c : Connection) {older : List Mark}
      (before : Before request older) : Prudent request (m :: .wrote c request :: older) := by
    obtain ⟨once, writes⟩ := before.prudent
    constructor
    case twice =>
      rw [List.countP_cons_of_neg (by simp [other]), List.countP_cons_of_pos rfl]
      exact Nat.succ_le_succ once
    case writes =>
      intro c' r older' written
      rcases List.suffix_cons_iff.mp written with same | written
      · cases same
        cases other
      · rcases List.suffix_cons_iff.mp written with same | written
        · cases same
          exact ⟨rfl, before⟩
        · exact writes c' r older' written
  cases asked with
  | unwritten =>
    constructor
    case twice => exact Nat.zero_le 2
    case writes => simp
  | broke c e before => exact passed rfl c before
  | headed c x before => exact passed rfl c before

/-- A response that breaks off does not make its request be written again. -/
theorem Prudent.cut {request : WireRequest} {own : List Mark} (prudent : Prudent request own)
    (e : WireError) : Prudent request (.cut e :: own) := by
  constructor
  case twice =>
    rw [List.countP_cons_of_neg (by simp [Mark.isWrite])]
    exact prudent.twice
  case writes =>
    intro c r older written
    rcases List.suffix_cons_iff.mp written with same | written
    · cases same
    · exact prudent.writes written

theorem readPieces_whole (i number : Nat) (deadline : Instant) (body : Bytes)
    (pieces : List Piece) :
    (readPieces i number deadline body pieces).Ensures p.silenced w fun (result, _) w' =>
      w'.marks = w.marks ∧
        ∀ whole, result = .ok whole → whole = body ++ pieces.flatMap (·.data) := by
  induction pieces generalizing body w with
  | nil =>
    constructor
    · rfl
    · rintro _ ⟨⟩
      simp
  | cons q pieces ih =>
    rw [readPieces, Job.ensures_bind]
    apply ((operate_preserves q.outcome deadline).silent p w).mono
    intro failed w₁ same
    cases failed with
    | some e =>
      constructor
      · exact same
      · rintro _ ⟨⟩
    | none =>
      simp only [Job.ensures_bind, ensures_deal]
      apply (ih (body ++ q.data)).mono
      rintro ⟨result, rest⟩ w₂ ⟨same', whole⟩
      refine ⟨same'.trans same, fun whole' read => ?_⟩
      rw [whole whole' read, List.flatMap_cons, List.append_assoc]

/-- The exchange of which the head of the response was read at last, if nothing happened since. -/
def headed? : List Mark → Option Exchange
  | .headed x :: _ => some x
  | _ => none

/-- What an exchange comes to. It enters what is prudent. It returns what the response is, whatever
its status, if the head of the response was read and it did not break off since; and in every other
case it fails as exchanges do. -/
def Comes {β : Type} (request : WireRequest) (view : α → β) (answer : Exchange → β) (w : World)
    (r : Except Failure α) (w' : World) : Prop :=
  ∃ own, w'.marks = own ++ w.marks ∧ Prudent request own ∧
    r.toOption.map view = (headed? own).map answer ∧ ∀ f, r = .error f → IsWire f

/-- The response to a request, if it is read as a whole. -/
def responseOf (x : Exchange) : Response where
  status := x.status
  headers := .collect x.fields
  body := x.body.flatMap (·.data)

/-- What a response is whose body is left to be read: its head, and the pieces that are to come. -/
def streamOf (x : Exchange) : Nat × Headers × Option (List Piece) :=
  (x.status, .collect x.fields, some x.body)

def streamView (b : WireBody) : Nat × Headers × Option (List Piece) :=
  (b.status, b.headers, b.connection.map (·.unread))

variable {request : Request} {wire : WireRequest}

theorem Comes.failed {β : Type} {view : α → β} {answer : Exchange → β} {own : List Mark}
    {f : Failure} (marks : w'.marks = own ++ w.marks) (prudent : Prudent wire own)
    (none : headed? own = none) (failed : IsWire f) : Comes wire view answer w (.error f) w' := by
  refine ⟨own, marks, prudent, ?_, ?_⟩
  · rw [none]
    rfl
  · rintro _ ⟨⟩
    exact failed

theorem Comes.returned {β : Type} {view : α → β} {answer : Exchange → β} {own : List Mark}
    {a : α} {x : Exchange} (marks : w'.marks = own ++ w.marks) (asked : Asked wire (some x) own)
    (viewed : view a = answer x) : Comes wire view answer w (.ok a) w' := by
  refine ⟨own, marks, asked.prudent, ?_, ?_⟩
  · cases asked with
    | headed c x before => exact congrArg some viewed
  · rintro _ ⟨⟩

theorem Asked.none_headed {own : List Mark} (asked : Asked wire none own) :
    headed? own = none := by
  cases asked with
  | unwritten => rfl
  | broke c e before => rfl

theorem send_comes (timeout : Millis)
    (writes : WireRequest.ofRequest (find w i).hostHeader request = .ok wire) :
    (send i request timeout).Ensures p.silenced w (Comes wire id responseOf w) := by
  rw [send]
  simp only [Flow.ensures_bind, Flow.ensures_get, Flow.ensures_lift, ensures_current, writes,
    Flow.ensures_ofExcept]
  apply ((answered_asked wire).and (answered_failsBy wire _ _ _)).mono
  rintro r w₁ ⟨⟨own, marks, asked⟩, wired⟩
  cases r with
  | error f => exact .failed marks asked.prudent asked.none_headed (wired f rfl)
  | ok answer =>
    obtain ⟨head, c⟩ := answer
    obtain ⟨x, asked, rfl, unread⟩ := asked
    simp only [ensures_left, Job.ensures_record]
    apply (readPieces_whole i c.number _ [] c.unread).mono
    rintro ⟨result, rest⟩ w₂ ⟨same, whole⟩
    have read : w₂.marks = own ++ w.marks := same.trans marks
    cases result with
    | error e =>
      simp only [Flow.ensures_bind, Flow.ensures_lift, Job.ensures_mark, Flow.ensures_throw]
      apply ((discard_preserves unwired_marks i _).silent p (w₂.mark (.cut e))).mono
      intro _ w₃ same
      have cut : w₃.marks = (.cut e :: own) ++ w.marks :=
        same.trans (congrArg (List.cons (Mark.cut e)) read)
      exact .failed cut (asked.prudent.cut e) rfl ⟨_, rfl⟩
    | ok body =>
      simp only [Flow.ensures_bind, Flow.ensures_lift, Flow.ensures_pure]
      apply ((checkin_preserves unwired_marks i _).silent p w₂).mono
      intro _ w₃ same
      have all : body = x.body.flatMap (·.data) := by
        rw [whole body rfl, unread, List.nil_append]
      exact .returned (same.trans read) asked (by rw [all, id, responseOf])

theorem sendStreaming_comes (timeout : Millis)
    (writes : WireRequest.ofRequest (find w i).hostHeader request = .ok wire) :
    (sendStreaming i request timeout).Ensures p.silenced w (Comes wire streamView streamOf w) := by
  rw [sendStreaming]
  simp only [Flow.ensures_bind, Flow.ensures_get, Flow.ensures_lift, ensures_current, writes,
    Flow.ensures_ofExcept]
  apply ((answered_asked wire).and (answered_failsBy wire _ _ _)).mono
  rintro r w₁ ⟨⟨own, marks, asked⟩, wired⟩
  cases r with
  | error f => exact .failed marks asked.prudent asked.none_headed (wired f rfl)
  | ok answer =>
    obtain ⟨head, c⟩ := answer
    obtain ⟨x, asked, rfl, unread⟩ := asked
    simp only [Flow.ensures_pure]
    exact .returned marks asked (by rw [streamView, streamOf, ← unread, Option.map_some])

theorem supported_ofRequest {request : Request}
    (supported : request.method ∈ WireRequest.knownMethods) (host : Bytes) :
    ∃ wire, WireRequest.ofRequest host request = .ok wire := by
  unfold WireRequest.ofRequest
  rw [if_pos supported]
  exact ⟨_, rfl⟩

/-- Whatever the session and its connections are like, whatever the wire does and whatever happens
meanwhile: a request that can be written is written twice at most, and a second time only right
after it was written to a connection that had been idle and broke off, before the head of a response
was read, with an error that says that it was closed. Every response is returned, and everything
else fails as exchanges do. -/
theorem exchanges_prudent (i : Nat) {request : Request}
    (supported : request.method ∈ WireRequest.knownMethods) (timeout : Millis) (p : Pause)
    (w : World) :
    ∃ wire, WireRequest.ofRequest (find w i).hostHeader request = .ok wire ∧
      (send i request timeout).Ensures p.silenced w (Comes wire id responseOf w) ∧
      (sendStreaming i request timeout).Ensures p.silenced w (Comes wire streamView streamOf w) ∧
      ∀ (w' : World) (deadline : Instant), (checkout i deadline).Ensures p.silenced w'
        fun r w'' => ∀ c, r = .ok c → Origin i c w'' := by
  obtain ⟨wire, writes⟩ := supported_ofRequest supported (find w i).hostHeader
  refine ⟨wire, writes, send_comes timeout writes, sendStreaming_comes timeout writes, ?_⟩
  exact fun w' deadline => checkout_origin

/-- An idle connection turns out to be closed; over a new one the request is answered with an
error. -/
theorem exchanges_prudent_stale :
    let c : Config := { clientTag := [], baseUrl := ascii "http://h" }
    let idle : Connection := { number := 1, lastUsed := 0 }
    let request : Request := { method := ascii "GET", target := [], headers := [], body := [] }
    let script : Script := { exchanges := [{ head := { error := some .eof } }, { status := 500 }] }
    ∃ s w wire, Session.ofConfig c = .ok s ∧
      w = { config := c, client := .ofConfig c 1, chance := .ofSeed 1, script
            transport := some (.session 0)
            sessions := [{ s with idle := [idle], opened := 1 }] } ∧
      request.method ∈ WireRequest.knownMethods ∧
      (send 0 request 5).Ensures Pause.quiet.silenced w (fun r w' =>
        Comes wire id responseOf w r w' ∧ w'.marks.countP Mark.isWrite = 2 ∧
          r.toOption.map (·.status) = some 500) := by
  intro c idle request script
  let s : Session := (Session.ofConfig c).toOption.getD absent
  have made : Session.ofConfig c = .ok s := by rfl
  let w : World := {
    config := c, client := .ofConfig c 1, chance := .ofSeed 1, script
    transport := some (.session 0)
    sessions := [{ s with idle := [idle], opened := 1 }] }
  have supported : request.method ∈ WireRequest.knownMethods := by decide
  obtain ⟨wire, -, sent, -, -⟩ := exchanges_prudent 0 supported 5 .quiet w
  have outcome : (send 0 request 5).Ensures Pause.quiet.silenced w fun r w' =>
      w'.marks.countP Mark.isWrite = 2 ∧ r.toOption.map (·.status) = some 500 := by
    exact ⟨by decide +kernel, by decide +kernel⟩
  exact ⟨s, w, wire, made, rfl, supported, sent.and outcome⟩

end Session

end Parley
