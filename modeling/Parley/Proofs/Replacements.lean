import Parley.Proofs.Exchanges
import Parley.Proofs.Pool

/-!
What takes the place of a connection that went stale. An exchange whose connection turns out to be
closed by the server makes a second pass, and that one asks the session for a connection like the
first: it is given another idle one as long as there is any that has not expired. A new connection
is opened only when none is left.

* `Session.pass`: one pass of an exchange;
* `Session.ensures_answered`: an exchange is one pass, or two;
* `Session.Supplies`: what a session gives to somebody who needs a connection;
* `Session.stale_passes_on`: an exchange from the world in which its first connection went stale.
-/
namespace Parley

open Ledger

variable {p : Pause} {w w' : World}

namespace Session

variable {i : Nat} {c : Connection} {deadline : Instant} {wire : WireRequest}

/-- The idle connections that have not expired. -/
def spare (s : Session) (now : Instant) : List Connection := s.idle.filter (!s.expired now ·)

/-- One pass of an exchange: the request is written over some connection, which is given up if no
head of a response is read over it. -/
def pass (i : Nat) (request : WireRequest) (deadline : Instant) :
    Flow (Connection × Except WireError (Head × Connection)) := do
  let c ← checkout i deadline
  let result ← begin i c request deadline
  if let .error _ := result then discard i c
  return (c, result)

/-- A pass that no other one follows. -/
def lastPass (i : Nat) (request : WireRequest) (deadline : Instant) : Flow (Head × Connection) := do
  match ← pass i request deadline with
  | (_, .ok answer) => return answer
  | (_, .error e) => throw (e.failure (request.method ++ byte ' ' :: request.target))

/-- Whether a pass was made over a connection that had been idle and turned out to be closed. -/
def wentStale : Except Failure (Connection × Except WireError (Head × Connection)) → Bool
  | .ok (c, .error e) => c.reused && e.isStale
  | _ => false

theorem ensures_pass
    {post : Except Failure (Connection × Except WireError (Head × Connection)) → World → Prop} :
    (pass i wire deadline).Ensures p w post ↔
      (checkout i deadline).Ensures p w fun r w₁ =>
        match r with
        | .error f => post (.error f) w₁
        | .ok c => (begin i c wire deadline).Ensures p w₁ fun result w₂ =>
          match result with
          | .ok answer => post (.ok (c, .ok answer)) w₂
          | .error e => (discard i c).Ensures p w₂ fun _ w₃ => post (.ok (c, .error e)) w₃ := by
  rw [pass, Flow.ensures_bind]
  apply Flow.Ensures.congr
  intro r w₁
  cases r with
  | error f => rfl
  | ok c =>
    simp only [Flow.ensures_bind, Flow.ensures_lift]
    apply Job.Ensures.congr
    intro result w₂
    cases result <;> rfl

/-- An exchange is one pass, and another one if the connection of the first went stale. -/
theorem ensures_answered {post : Except Failure (Head × Connection) → World → Prop} :
    (answered i wire deadline).Ensures p w post ↔
      (pass i wire deadline).Ensures p w fun r w₁ =>
        match r with
        | .error f => post (.error f) w₁
        | .ok (_, .ok answer) => post (.ok answer) w₁
        | .ok (c, .error e) =>
          if c.reused && e.isStale then
            (lastPass i wire deadline).Ensures p (w₁.tell (.wentStale e.name)) post
          else post (.error (e.failure (wire.method ++ byte ' ' :: wire.target))) w₁ := by
  have last {w : World} : (lastPass i wire deadline).Ensures p w post ↔
      (checkout i deadline >>= fun c => do
        match ← begin i c wire deadline with
        | .ok answer => return answer
        | .error e =>
          discard i c
          throw (e.failure (wire.method ++ byte ' ' :: wire.target))).Ensures p w post := by
    rw [lastPass, Flow.ensures_bind, ensures_pass, Flow.ensures_bind]
    apply Flow.Ensures.congr
    intro r w₁
    cases r with
    | error f => rfl
    | ok c =>
      simp only [Flow.ensures_bind, Flow.ensures_lift]
      apply Job.Ensures.congr
      intro result w₂
      cases result <;> rfl
  simp only [last]
  rw [answered, Flow.ensures_bind, ensures_pass]
  apply Flow.Ensures.congr
  intro r w₁
  cases r with
  | error f => rfl
  | ok c =>
    simp only [Flow.ensures_bind, Flow.ensures_lift]
    apply Job.Ensures.congr
    intro result w₂
    cases result with
    | ok answer => rfl
    | error e =>
      simp only [Flow.ensures_bind, Flow.ensures_lift, Flow.ensures_ite]
      rfl

section Supply

/-- Dropping the idle connections that have expired leaves the others, and no fewer free slots. -/
theorem dropExpired_leaves (open_ : (find w i).closed = false) :
    (dropExpired i).Ensures p w fun _ w' => w'.now = w.now ∧ (find w' i).closed = false ∧
      (find w' i).idle = spare (find w i) w.now ∧ (find w' i).opened ≤ (find w i).opened ∧
      (find w' i).maxConnections = (find w i).maxConnections := by
  simp only [dropExpired, Job.ensures_bind, ensures_current, Job.ensures_get, Job.ensures_ite,
    Job.ensures_pure]
  generalize old_eq : (find w i).idle.filter ((find w i).expired w.now) = old
  split
  · simp only [ensures_deal, ensures_dropIdle]
    have found : find ((w.deal i (.expired old)).closeAll old) i =
        (find w i).after w.now (.expired old) := find_deal (lt_of_open open_) _
    rw [found]
    exact ⟨rfl, open_, rfl, Nat.sub_le _ _, rfl⟩
  · rename_i none
    have none : old = [] := by simpa using none
    rw [none, List.filter_eq_nil_iff] at old_eq
    have all : (find w i).idle = spare (find w i) w.now := by
      rw [spare, List.filter_eq_self.mpr]
      simpa using old_eq
    exact ⟨trivial, open_, all, Nat.le_refl _, trivial⟩

/-- What a session answers that is not closed: an idle connection that has not expired, as long as
there is one, and otherwise a slot, if one is free. -/
theorem request_grants (open_ : (find w i).closed = false) :
    (request i).Ensures p w fun claim w' => w'.now = w.now ∧
      match spare (find w i) w.now with
      | c :: _ => claim = .idle { c with reused := true, persistent := false }
      | [] => (find w i).opened < (find w i).maxConnections → claim = .slot := by
  simp only [request, Job.ensures_bind, ensures_current, Job.ensures_ite,
    Job.ensures_pure, open_, Bool.false_eq_true, if_false]
  apply (dropExpired_leaves open_).mono
  rintro _ w₁ ⟨now_eq, open₁, idle_eq, opened_le, max_eq⟩
  cases left : spare (find w i) w.now with
  | cons c rest =>
    have claimed : (find w₁ i).claim = .idle { c with reused := true, persistent := false } := by
      rw [claim, open₁, idle_eq, left]
      rfl
    rw [claimed]
    exact ⟨now_eq, rfl⟩
  | nil =>
    have fits (room : (find w i).opened < (find w i).maxConnections) :
        (find w₁ i).claim = .slot := by
      rw [claim, open₁, idle_eq, left]
      exact if_pos (max_eq ▸ Nat.lt_of_le_of_lt opened_le room)
    cases claimed : (find w₁ i).claim with
    | slot => exact ⟨now_eq, fun _ => rfl⟩
    | closed | full =>
      exact ⟨now_eq, fun room => claimed.symm.trans (fits room)⟩
    | idle c => exact ⟨now_eq, fun room => claimed.symm.trans (fits room)⟩

/-- What a session supplies to somebody who needs a connection. -/
structure Supplies (i : Nat) (deadline : Instant) (p : Pause) (w : World) : Prop where
  /-- Nothing, once it is closed. -/
  closed : (find w i).closed = true →
    (checkout i deadline).Ensures p w fun r w' =>
      r = .error (.client { kind := .connectionFailed, reason := .sessionClosed }) ∧ w' = w
  /-- An idle connection at once, as long as there is one that has not expired. -/
  idle : ∀ c rest, (find w i).closed = false → spare (find w i) w.now = c :: rest →
    (checkout i deadline).Ensures p w fun r w' =>
      r = .ok { c with reused := true, persistent := false } ∧ w'.now = w.now
  /-- A new connection otherwise, if there is room for one. -/
  new : (find w i).closed = false → spare (find w i) w.now = [] →
    (find w i).opened < (find w i).maxConnections →
      (checkout i deadline).Ensures p w fun r w' => ∀ c, r = .ok c →
        c.reused = false ∧ ∃ past, w'.journal = ⟨i, .opened c.number, w'.now⟩ :: past

theorem supplies (i : Nat) (deadline : Instant) (p : Pause) (w : World) :
    Supplies i deadline p w := by
  constructor
  case closed =>
    intro closed
    have refused : (request i).Ensures p w fun claim w' => claim = .closed ∧ w' = w := by
      simp [request, closed]
    rw [checkout, Flow.ensures_bind, Flow.ensures_lift]
    apply refused.mono
    rintro claim w' ⟨rfl, rfl⟩
    exact ⟨rfl, rfl⟩
  case idle =>
    intro c rest open_ some
    rw [checkout, Flow.ensures_bind, Flow.ensures_lift]
    apply (request_grants open_).mono
    rw [some]
    rintro claim w' ⟨now_eq, rfl⟩
    exact ⟨rfl, now_eq⟩
  case new =>
    intro open_ none room
    rw [checkout, Flow.ensures_bind, Flow.ensures_lift]
    apply (request_grants open_).mono
    rw [none]
    rintro claim w' ⟨-, granted⟩
    obtain rfl := granted room
    simp only [settle, Flow.ensures_onFailure]
    apply connect_opens.mono
    intro r w'' opens
    cases r with
    | ok c => exact opens
    | error f => rintro _ ⟨⟩

end Supply

section Room
variable {σ : Setting} {mine : List Holding} {fresh : Session}

/-- The slot of a connection that is given up is free. -/
theorem discard_leaves_room (holds : Holds fresh (.connection i c :: mine) w) :
    (discard i c).Ensures p w fun _ w' =>
      (find w' i).opened < (find w' i).maxConnections := by
  have kept : Kept fresh (.connection i c :: (mine ++ w.lodged)) w := holds
  have balanced := kept.balanced i
  have taken := List.length_pos_of_mem ((kept.tallied i).mem_held (List.mem_cons_self ..))
  have here := kept.connection_lt
  rw [ensures_discard]
  have found : find (((w.record (.shutdown c.number)).record (.close c.number)).deal i
      (.discarded c.number)) i = (find w i).releaseSlot := find_deal here _
  rw [found, releaseSlot, kept.find_eq here, replay_maxConnections]
  have opened_eq := balanced.opened_eq
  have opened_le := balanced.opened_le
  simp only
  omega

/-- A pass without an answer leaves room for another connection, whatever happened meanwhile. -/
theorem pass_leaves_room (holds : Holds fresh mine w) (orderly : σ.Orderly w) (keeps : p.Keeps σ)
    (within : σ.Until deadline) (entitled : σ.Entitled mine)
    (elapse : ∀ hand w w', σ.elapses w w' → Holds fresh hand w → Holds fresh hand w') :
    (pass i wire deadline).Ensures p w fun r w' => ∀ c e, r = .ok (c, .error e) →
      (find w' i).opened < (find w' i).maxConnections := by
  have keepsHolds {hand hand' : List Holding} {w w' : World} (moves : Moves σ hand w hand' w')
      (h : Holds fresh hand w) : Holds fresh hand' w' :=
    moves.keeps (fun _ _ move => Holds.move move elapse) h
  rw [ensures_pass]
  apply Flow.Ensures.mono (trades_checkout keeps within entitled w orderly)
  intro r w₁ moves
  cases r with
  | error f => rintro c e ⟨⟩
  | ok c =>
    have moves : Moves σ mine w (.connection i c :: mine) w₁ := moves
    apply (trades_begin keeps wire within w₁ (moves.orderly orderly)).mono
    intro result w₂ moves'
    cases result with
    | ok answer => rintro c e ⟨⟩
    | error e =>
      apply (discard_leaves_room (keepsHolds (moves.trans moves') holds)).mono
      rintro _ w₃ room c e ⟨⟩
      exact room

end Room

/-- What an exchange does after a pass over a connection that went stale: it goes on with a last
pass, and whatever is done with its answer is done with the answer of that one. The connection is
what the session supplies, after the one that went stale was given up. -/
structure PassesOn (i : Nat) (wire : WireRequest) (deadline : Instant) (p : Pause) (w : World)
    (e : WireError) (w₁ : World) : Prop where
  goesOn : ∀ {β : Type} (rest : Head × Connection → Flow β)
      (post : Except Failure β → World → Prop),
    (answered i wire deadline >>= rest).Ensures p w post ↔
      (lastPass i wire deadline >>= rest).Ensures p (w₁.tell (.wentStale e.name)) post
  supplies : Supplies i deadline p (w₁.tell (.wentStale e.name))
  /-- In a world that agrees with what is on hand, it is a new one exactly if no idle one is
  left. -/
  new_iff : ∀ {fresh : Session} {hand : List Holding}, Holds fresh hand w →
    w.Orderly w.config True → p.Keeps (.ofActs w.config True) →
      (checkout i deadline).Ensures p (w₁.tell (.wentStale e.name)) fun r _ =>
        ∀ c, r = .ok c → (c.reused = false ↔ spare (find w₁ i) w₁.now = [])

theorem pass_passesOn :
    (pass i wire deadline).Ensures p w fun r w₁ => ∀ c e, r = .ok (c, .error e) →
      c.reused = true → e ∈ staleErrors → PassesOn i wire deadline p w e w₁ := by
  rcases run : ((pass i wire deadline).run.run p).run w with ⟨r, w₁⟩
  have passed {post : Except Failure (Connection × Except WireError (Head × Connection)) →
      World → Prop} : (pass i wire deadline).Ensures p w post ↔ post r w₁ := by
    rw [Flow.Ensures, Job.Ensures, run]
  rw [passed]
  rintro c e rfl reused stale
  have again : (c.reused && e.isStale) = true := by rw [reused, (isStale_iff e).mpr stale]; rfl
  have supplied := supplies i deadline p (w₁.tell (.wentStale e.name))
  constructor
  case goesOn =>
    intro β rest post
    rw [Flow.ensures_bind, ensures_answered, passed, Flow.ensures_bind]
    simp only [again, if_true]
  case supplies => exact supplied
  case new_iff =>
    intro fresh hand holds orderly keeps
    have room : (find w₁ i).opened < (find w₁ i).maxConnections :=
      passed.mp (pass_leaves_room holds orderly keeps (fun _ _ => trivial) (.inl trivial)
        fun _ _ _ => World.Elapses.holds) c e rfl
    cases closed : (find w₁ i).closed with
    | true =>
      apply (supplied.closed closed).mono
      rintro r w' ⟨rfl, -⟩ c ⟨⟩
    | false =>
      cases left : spare (find w₁ i) w₁.now with
      | nil =>
        apply (supplied.new closed left room).mono
        intro r w' opened c given
        simp [opened c given]
      | cons c₀ others =>
        apply (supplied.idle c₀ others closed left).mono
        rintro r w' ⟨rfl, -⟩ c ⟨⟩
        simp

/-- Something gets a request answered, and then does something with the answer. -/
def Relays {α : Type} (i : Nat) (wire : WireRequest) (deadline : Instant) (p : Pause) (w : World)
    (f : Flow α) : Prop :=
  ∃ rest : Head × Connection → Flow α, ∀ post, f.Ensures p w post ↔
    (answered i wire deadline >>= rest).Ensures p w post

section Relays
variable {request : Request} {timeout : Millis}
  (writes : WireRequest.ofRequest (find w i).hostHeader request = .ok wire)
include writes

theorem send_relays :
    Relays i wire (w.now.plusMillis timeout) p w (send i request timeout) := by
  refine ⟨?rest, fun post => ?same⟩
  case same =>
    rw [send, Flow.ensures_bind, Flow.ensures_get]
    simp only
    rw [Flow.ensures_bind, Flow.ensures_lift, ensures_current]
    simp only
    rw [Flow.ensures_bind, writes, Flow.ensures_ofExcept]

theorem sendStreaming_relays :
    Relays i wire (w.now.plusMillis timeout) p w (sendStreaming i request timeout) := by
  refine ⟨?rest, fun post => ?same⟩
  case same =>
    rw [sendStreaming, Flow.ensures_bind, Flow.ensures_get]
    simp only
    rw [Flow.ensures_bind, Flow.ensures_lift, ensures_current]
    simp only
    rw [Flow.ensures_bind, writes, Flow.ensures_ofExcept]

end Relays

/-- Whatever the session and its connections are like, whatever the wire does and whatever happens
meanwhile: an exchange whose connection had been idle and went stale before the head of a response
was read makes a second pass, the last. It is not made over a new connection as long as the session
has an idle one that has not expired. -/
theorem stale_passes_on (i : Nat) {request : Request}
    (supported : request.method ∈ WireRequest.knownMethods) (timeout : Millis) (p : Pause)
    (w : World) :
    ∃ wire, WireRequest.ofRequest (find w i).hostHeader request = .ok wire ∧
      Relays i wire (w.now.plusMillis timeout) p w (send i request timeout) ∧
      Relays i wire (w.now.plusMillis timeout) p w (sendStreaming i request timeout) ∧
      (pass i wire (w.now.plusMillis timeout)).Ensures p w fun r w₁ => ∀ c e,
        r = .ok (c, .error e) → c.reused = true → e ∈ staleErrors →
          PassesOn i wire (w.now.plusMillis timeout) p w e w₁ := by
  obtain ⟨wire, writes⟩ := supported_ofRequest supported (find w i).hostHeader
  exact ⟨wire, writes, send_relays writes, sendStreaming_relays writes, pass_passesOn⟩

/-- Of two idle connections the one that came back last went stale. The request is written to the
other one, and no connection is opened. -/
theorem stale_passes_on_idle :
    let c : Config := { clientTag := [], baseUrl := ascii "http://h", maxConcurrent := 2 }
    let get : Request := { method := ascii "GET", target := [] }
    let script : Script := { exchanges := [.plain, .plain, { head := { error := some .eof } }] }
    let acts : List Act := [
      .sendStreaming [1] get 9, .sendStreaming [2] get 9, .readAll [1] 9, .readAll [2] 9]
    let written : Mark → Option (Nat × Bool) := fun
      | .wrote c _ => some (c.number, c.reused)
      | _ => none
    ∃ w₀ wire, World.ofSession c 1 script = .ok w₀ ∧
      get.method ∈ WireRequest.knownMethods ∧
      (pass 0 wire 5000000).Ensures .quiet (w₀.steps acts) (fun r w₁ =>
        ∃ c e, r = .ok (c, .error e) ∧ c.reused = true ∧ e ∈ staleErrors ∧
          PassesOn 0 wire 5000000 .quiet (w₀.steps acts) e w₁ ∧
          (checkout 0 5000000).Ensures .quiet (w₁.tell (.wentStale e.name)) fun r _ =>
            ∀ c, r = .ok c → c.reused = true) ∧
      (send 0 get 5).Ensures .quiet (w₀.steps acts) fun r w' =>
        r.toOption.map (·.status) = some 200 ∧ w'.connections = 2 ∧
          w'.marks.filterMap written = [(1, true), (2, true), (2, false), (1, false)] := by
  intro c get script acts written
  let fresh : Session := (Session.ofConfig c).toOption.getD absent
  have made : Session.ofConfig c = .ok fresh := by rfl
  let w₀ : World := {
    config := c, client := .ofConfig c 1, chance := .ofSeed 1, script
    transport := some (.session 0), sessions := [fresh] }
  have start : World.ofSession c 1 script = .ok w₀ := by rfl
  have begun : World.Begun c w₀ := ⟨1, script, .inl start⟩
  have holds : Holds fresh [] (w₀.steps acts) := World.steps_holds (begun.holds made) acts
  have supported : get.method ∈ WireRequest.knownMethods := by decide
  have now : (w₀.steps acts).now = 0 := by decide +kernel
  let wire : WireRequest := {
    method := ascii "GET", target := [byte '/'], body := []
    headers := [(ascii "host", ascii "h"), (ascii "user-agent", WireRequest.userAgent)] }
  have host : (find (w₀.steps acts) 0).hostHeader = ascii "h" := by decide +kernel
  have writes : WireRequest.ofRequest (ascii "h") get = .ok wire := by rfl
  obtain ⟨wire', writes', -, -, passes⟩ := stale_passes_on 0 supported 5 .quiet (w₀.steps acts)
  obtain rfl : wire = wire' := by
    rw [host, writes] at writes'
    exact Except.ok.inj writes'
  have limit : (w₀.steps acts).now.plusMillis 5 = 5000000 := by
    rw [now]
    decide
  rw [limit] at passes
  have outcome : (pass 0 wire 5000000).Ensures .quiet (w₀.steps acts) fun r w₁ =>
      wentStale r = true ∧ (spare (find w₁ 0) w₁.now).length = 1 := by
    exact ⟨by decide +kernel, by decide +kernel⟩
  refine ⟨w₀, wire, start, supported, ?_, ?_⟩
  · apply (passes.and outcome).mono
    rintro (f | ⟨c, e | answer⟩) w₁ ⟨goesOn, stale, left⟩
    · cases stale
    · obtain ⟨reused, stale⟩ : c.reused = true ∧ e.isStale = true := by
        simpa [wentStale] using stale
      have passesOn := goesOn c e rfl reused ((isStale_iff e).mp stale)
      refine ⟨c, e, rfl, reused, (isStale_iff e).mp stale, passesOn, ?_⟩
      apply (passesOn.new_iff holds ⟨rfl, fun _ _ => .inl trivial, trivial⟩ Pause.quiet_keeps).mono
      intro r w₂ new_iff c given
      have some : spare (find w₁ 0) w₁.now ≠ [] := List.ne_nil_of_length_pos (left ▸ Nat.one_pos)
      exact (Bool.not_eq_false _).mp fun unused => some ((new_iff c given).mp unused)
    · cases stale
  · exact ⟨by decide +kernel, by decide +kernel, by decide +kernel⟩

end Session

end Parley
