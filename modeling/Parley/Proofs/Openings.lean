import Parley.Proofs.Deadlines
import Parley.Proofs.Pool

/-!
How connections are opened. The address of the backend is resolved before, unless that was done not
long ago, and both together have to fit into the connect timeout and the time of the exchange.

An opening is looked at by what it does itself, to its session and on the wire. Whatever happens
during its waits is left out.

* `Ledger.Cached`: whether an address that was resolved is still used;
* `Session.Does`: some things are done, with waits between them that have a limit;
* `Session.settle_goes`: what is done to open a connection;
* `World.steps_open`: what every opening of every run comes to.
-/
namespace Parley

variable {p : Pause} {w v : World} {i : Nat}

namespace Ledger

variable {fresh : Session} {past : List Deal} {d : Deal}

/-- When the address was resolved last. -/
def lastResolved : List Deal → Option Instant
  | [] => none
  | d :: past =>
    match d.dealing with
    | .resolved => some d.time
    | _ => lastResolved past

/-- Whether the address that was resolved last is still used, as it is for so many seconds. The
instant until which it is goes around in 64 bits. -/
def Cached (ttl : Int) (past : List Deal) (now : Instant) : Prop :=
  ∃ t, lastResolved past = some t ∧ now < t.plus (wrap64 (ttl * 1000000000))

theorem replay_resolvedUntil (unknown : fresh.resolvedUntil = none) :
    (replay fresh past).resolvedUntil =
      (lastResolved past).map (·.plus (wrap64 (fresh.dnsCacheTtl * 1000000000))) := by
  induction past with
  | nil => exact unknown
  | cons d past ih =>
    rw [replay, lastResolved]
    cases d.dealing with
    | resolved => simp [Session.after]
    | _ => exact ih

theorem isResolved_replay (unknown : fresh.resolvedUntil = none) (now : Instant) :
    (replay fresh past).isResolved now = true ↔ Cached fresh.dnsCacheTtl past now := by
  rw [Session.isResolved, replay_resolvedUntil unknown, Cached]
  cases lastResolved past <;> simp

theorem lastResolved_mem {t : Instant} (last : lastResolved past = some t) :
    ∃ e ∈ past, e.time = t := by
  induction past with
  | nil => cases last
  | cons d past ih =>
    rw [lastResolved] at last
    split at last
    · exact ⟨d, List.mem_cons_self, Option.some.inj last⟩
    · obtain ⟨e, member, time⟩ := ih last
      exact ⟨e, List.mem_cons_of_mem _ member, time⟩

/-- Of all the times that the address was resolved the last one is the latest. -/
theorem Lawful.le_lastResolved (lawful : Lawful fresh past) {e : Deal} (member : e ∈ past)
    (resolved : e.dealing = .resolved) : ∃ t, lastResolved past = some t ∧ e.time ≤ t := by
  induction lawful with
  | nil => exact absurd member List.not_mem_nil
  | @cons d past _ _ _ order ih =>
    rw [lastResolved]
    rcases List.mem_cons.mp member with rfl | member
    · rw [resolved]
      exact ⟨e.time, rfl, Int.le_refl _⟩
    · cases dealing : d.dealing with
      | resolved => exact ⟨d.time, rfl, order e member⟩
      | _ => exact ih member

/-- An address that was resolved less than the given time ago is still used, as long as the
reckoning stays within 64 bits. -/
theorem Lawful.cached (lawful : Lawful fresh past) {now : Instant} (le : ∀ e ∈ past, e.time ≤ now)
    {ttl : Int} {e : Deal} (member : e ∈ past) (resolved : e.dealing = .resolved)
    (recent : now - e.time < ttl * 1000000000)
    (fits : now + ttl * 1000000000 < 0x8000000000000000) : Cached ttl past now := by
  obtain ⟨t, last, later⟩ := lawful.le_lastResolved member resolved
  obtain ⟨e', member', rfl⟩ := lastResolved_mem last
  have start := lawful.time_nonneg member'
  have before := le e' member'
  refine ⟨e'.time, last, ?_⟩
  unfold Instant at *
  have span : wrap64 (ttl * 1000000000) = ttl * 1000000000 :=
    wrap64_of_fits ⟨by omega, by omega⟩
  rw [Instant.plus, span, wrap64_of_fits ⟨by omega, by omega⟩]
  omega

end Ledger

/-- Something that is done by somebody who opens a connection. -/
inductive Deed where
  /-- The session does something. -/
  | dealt (dealing : Dealing)
  /-- Something happens on the wire. -/
  | happened (event : WireEvent)

namespace Deed

def dealing? : Deed → Option Dealing
  | .dealt dealing => some dealing
  | .happened _ => none

/-- Whether the resolver is asked. -/
def asks : Deed → Bool
  | .happened (.resolve _) => true
  | _ => false

end Deed

namespace Session

/-- From one world to another some things are done, the latest first. There may be waits between
them, none of which goes beyond a limit; whatever else happens does so during a wait. -/
inductive Does (p : Pause) (i : Nat) (limit : Instant) (w : World) : List Deed → World → Prop where
  | start : Does p i limit w [] w
  | deal {own : List Deed} {v : World} (does : Does p i limit w own v) (dealing : Dealing) :
      Does p i limit w (.dealt dealing :: own) (v.deal i dealing)
  | record {own : List Deed} {v : World} (does : Does p i limit w own v) (event : WireEvent) :
      Does p i limit w (.happened event :: own) (v.record event)
  | wait {own : List Deed} {v : World} {t : Instant} (does : Does p i limit w own v)
      (within : t ≤ limit) : Does p i limit w own (p t (fun _ => false) v)
  | aside {own : List Deed} {v v' : World} (does : Does p i limit w own v)
      (now_eq : v'.now = v.now) (sessions_eq : v'.sessions = v.sessions)
      (journal_eq : v'.journal = v.journal) (history_eq : v'.history = v.history) :
      Does p i limit w own v'

namespace Does

variable {limit : Instant} {own : List Deed}

/-- If every wait ends in time, so does the whole. -/
theorem now_le (does : Does p i limit w own v) (punctual : p.Punctual) :
    v.now ≤ max w.now limit := by
  induction does with
  | start => exact Int.le_max_left ..
  | deal _ dealing ih => exact ih
  | record _ event ih => exact ih
  | @wait own v t _ within ih =>
    have ends := (punctual t (fun _ => false) v).within
    unfold Instant at *
    omega
  | aside _ now_eq _ _ _ ih =>
    rw [now_eq]
    exact ih

/-- If nothing else happens to the session, it is what it was, after all that is done. -/
theorem find_eq (does : Does p i limit w own v) (here : i < w.sessions.length)
    (alone : ∀ t v, (p t (fun _ => false) v).sessions = v.sessions) :
    ∃ deals : List Deal, deals.map (·.dealing) = own.filterMap Deed.dealing? ∧
      find v i = Ledger.replay (find w i) deals ∧ v.sessions.length = w.sessions.length := by
  induction does with
  | start => exact ⟨[], rfl, rfl, rfl⟩
  | @deal own v _ dealing ih =>
    obtain ⟨deals, done, found, length⟩ := ih
    refine ⟨⟨i, dealing, v.now⟩ :: deals, ?_, ?_, ?_⟩
    · rw [List.map_cons, done]
      rfl
    · rw [find_deal (length ▸ here), found]
      rfl
    · simp [World.deal, length]
  | record _ event ih => exact ih
  | @wait own v t _ within ih =>
    rw [find, alone]
    exact ih
  | aside _ _ sessions_eq _ _ ih =>
    rw [find, sessions_eq]
    exact ih

theorem operate (does : Does p i limit w own v) (outcome : WireOutcome) :
    (operate outcome limit).Ensures p v fun _ v' => Does p i limit w own v' := by
  rw [ensures_operate]
  split
  · exact does.wait (Int.le_refl _)
  · next soon => exact does.wait (Int.not_lt.mp soon)

end Does

/-- What the resolver will answer. -/
def nextAnswer (w : World) : WireOutcome := w.script.resolves.headD {}

/-- Whether the resolver is asked and gives the address in time. -/
def learns (i : Nat) (limit : Instant) (w : World) : Bool :=
  !(find w i).isResolved w.now && decide (w.now + (nextAnswer w).delay ≤ limit) &&
    (nextAnswer w).error.isNone

/-- What is done, apart from what was done last: the resolver is asked, once, if the address is not
known, and the address is known from then on if an answer comes. -/
structure Resolves (i : Nat) (limit : Instant) (w : World) (own : List Deed)
    (last : List Dealing) : Prop where
  asks_eq : own.countP Deed.asks = if (find w i).isResolved w.now then 0 else 1
  dealings_eq : own.filterMap Deed.dealing? =
    last ++ if learns i limit w then [.resolved] else []

theorem Resolves.record {limit : Instant} {own : List Deed} {last : List Dealing}
    (h : Resolves i limit w own last) {event : WireEvent}
    (other : (Deed.happened event).asks = false) :
    Resolves i limit w (.happened event :: own) last where
  asks_eq := by rw [List.countP_cons_of_neg (by simp [other]), h.asks_eq]
  dealings_eq := h.dealings_eq

theorem Resolves.deal {limit : Instant} {own : List Deed} {last : List Dealing}
    (h : Resolves i limit w own last) (dealing : Dealing) :
    Resolves i limit w (.dealt dealing :: own) (dealing :: last) where
  asks_eq := by rw [List.countP_cons_of_neg (by simp [Deed.asks]), h.asks_eq]
  dealings_eq := congrArg (List.cons dealing) h.dealings_eq

theorem Does.takeResolve {limit : Instant} {own : List Deed} (does : Does p i limit w own v) :
    takeResolve.Ensures p v fun answer v' =>
      answer = nextAnswer v ∧ v'.now = v.now ∧ Does p i limit w own v' := by
  rw [Session.takeResolve, Job.ensures_modifyGet, nextAnswer]
  split
  · next o rest resolves =>
    rw [resolves]
    exact ⟨rfl, rfl, does.aside rfl rfl rfl rfl⟩
  · next resolves =>
    rw [resolves]
    exact ⟨rfl, rfl, does⟩

theorem Does.takeConnect {limit : Instant} {own : List Deed} (does : Does p i limit w own v) :
    takeConnect.Ensures p v fun _ v' => Does p i limit w own v' := by
  rw [Session.takeConnect, Job.ensures_modifyGet]
  split
  · exact does.aside rfl rfl rfl rfl
  · exact does

/-- The address is known at once, or the resolver is asked for it. -/
theorem resolve_goes (limit : Instant) :
    (resolve i limit).Ensures p w fun _ v =>
      ∃ own, Does p i limit w own v ∧ Resolves i limit w own [] := by
  simp only [resolve, Flow.ensures_bind, Flow.ensures_lift, Flow.ensures_get, ensures_current,
    Flow.ensures_ite, Flow.ensures_pure, Job.ensures_record]
  split
  · next known => exact ⟨[], .start, by simp [known], by simp [learns, known]⟩
  · next unknown =>
    let ask : WireEvent := .resolve ((find w i).host ++ byte ':' :: (find w i).port)
    have asked : Does p i limit w [.happened ask] (w.record ask) := Does.start.record ask
    apply asked.takeResolve.mono
    rintro answer v ⟨answer_eq, now_eq, does⟩
    have now_eq : v.now = w.now := now_eq
    have answer_eq : answer = nextAnswer w := answer_eq
    subst answer_eq
    rw [now_eq]
    split
    · next late =>
      refine ⟨_, (does.wait (Int.le_refl _)).record .cancelResolve, ?_, ?_⟩
      · simp [List.countP_cons, Deed.asks, ask, unknown]
      · simp [Deed.dealing?, learns, Int.not_le.mpr late]
    · next soon =>
      rw [Job.ensures_wait, now_eq]
      have arrived := does.wait (Int.not_lt.mp soon)
      cases error : (nextAnswer w).error with
      | some e =>
        refine ⟨_, arrived, ?_, ?_⟩
        · simp [List.countP_cons, Deed.asks, ask, unknown]
        · simp [Deed.dealing?, learns, error]
      | none =>
        refine ⟨_, arrived.deal .resolved, ?_, ?_⟩
        · simp [List.countP_cons, Deed.asks, ask, unknown]
        · simp [Deed.dealing?, learns, error, unknown, Int.not_lt.mp soon]

/-- The end of what is done before both resolving and connecting have to be over. -/
def openingLimit (i : Nat) (deadline : Instant) (w : World) : Instant :=
  min deadline (w.now.plusMillis (find w i).connectTimeout)

/-- What is done last where a connection comes to be, and where none does. -/
def brings : Except Failure Connection → List Dealing
  | .ok c => [.opened c.number]
  | .error _ => []

theorem connect_goes (deadline : Instant) :
    (connect i deadline).Ensures p w fun r v =>
      ∃ own, Does p i (openingLimit i deadline w) w own v ∧
        Resolves i (openingLimit i deadline w) w own (brings r) := by
  simp only [connect, Flow.ensures_bind, Flow.ensures_lift, Flow.ensures_get, Flow.ensures_modify,
    ensures_current, ensures_left, Job.ensures_record]
  apply (resolve_goes (openingLimit i deadline w)).mono
  rintro (f | _) v ⟨own, does, resolves⟩
  · exact ⟨own, does, resolves⟩
  · let limit := openingLimit i deadline w
    let event : WireEvent := .connect (v.connections + 1) (Instant.since limit v.now)
    let numbered : World := { v with connections := v.connections + 1 }
    have counted : Does p i limit w own numbered := does.aside rfl rfl rfl rfl
    have resolves : Resolves i limit w (.happened event :: own) [] := resolves.record rfl
    apply (counted.record event).takeConnect.mono
    intro outcome v₁ does
    apply (does.operate outcome).mono
    intro failed v₂ does
    cases failed with
    | some e => exact ⟨_, does.record _, resolves.record rfl⟩
    | none => exact ⟨_, (does.deal _).aside rfl rfl rfl rfl, resolves.deal _⟩

/-- What becomes of a slot in the end. -/
def fate : Except Failure Connection → Dealing
  | .ok c => .opened c.number
  | .error _ => .abandoned

theorem settle_goes (deadline : Instant) :
    (settle i deadline .slot).Ensures p w fun r v =>
      ∃ own, Does p i (openingLimit i deadline w) w own v ∧
        Resolves i (openingLimit i deadline w) w own [fate r] := by
  rw [settle, Flow.ensures_onFailure]
  apply (connect_goes deadline).mono
  rintro (f | c) v ⟨own, does, resolves⟩
  · exact ⟨_, does.deal .abandoned, resolves.deal .abandoned⟩
  · exact ⟨own, does, resolves⟩

/-- Whoever is given a slot has just entered it into the journal. -/
theorem request_opening :
    (request i).Ensures p w fun claim v => claim = .slot →
      ∃ past, v.journal = ⟨i, .opening, v.now⟩ :: past := by
  simp only [request, Job.ensures_bind, ensures_current, Job.ensures_ite, Job.ensures_pure]
  split
  · rintro ⟨⟩
  · apply Job.Ensures.of_all
    intro _ v
    cases claimed : (find v i).claim with
    | slot => exact fun _ => ⟨v.journal, rfl⟩
    | closed | idle | full => rintro ⟨⟩

end Session

open Ledger Session

variable {c : Config} {fresh : Session} {past : List Deal} {d : Deal}

/-- What an opening comes to that begins after a past: it does some things of its own, with no wait
beyond its limit. -/
structure Session.Opens (c : Config) (fresh : Session) (past : List Deal) (i : Nat)
    (deadline : Instant) (p : Pause) (w : World) (own : List Deed) (r : Except Failure Connection)
    (w' : World) : Prop where
  does : Does p i (min deadline (w.now.plusMillis c.connectTimeout)) w own w'
  /-- The resolver is asked once, unless the address is still used that was resolved last. -/
  asks_none : Cached c.dnsCacheTtl past w.now → own.countP Deed.asks = 0
  asks_once : ¬ Cached c.dnsCacheTtl past w.now → own.countP Deed.asks = 1
  /-- It is not asked after it gave an answer less than the given time ago, as long as the reckoning
  stays within 64 bits. -/
  asks_none_of_recent : ∀ e ∈ past, e.dealing = .resolved →
    w.now - e.time < c.dnsCacheTtl * 1000000000 →
      w.now + c.dnsCacheTtl * 1000000000 < 0x8000000000000000 → own.countP Deed.asks = 0
  /-- If every wait ends in time, the opening does. -/
  in_time : p.Punctual →
    w'.now ≤ max w.now (min deadline (w.now.plusMillis c.connectTimeout)) ∧
      (-0x8000000000000000 ≤ c.connectTimeout * 1000000 →
        w'.now ≤ max w.now (min deadline (w.now + c.connectTimeout * 1000000)))
  /-- The slot goes to a connection, or is given back. The address is known from then on exactly if
  the resolver was asked and gave it in time. -/
  dealings_eq : own.filterMap Deed.dealing? = fate r ::
    if learns i (min deadline (w.now.plusMillis c.connectTimeout)) w then [.resolved] else []
  refused : ∀ f, r = .error f → IsWire f
  /-- If nothing else happens to sessions meanwhile, a failed opening leaves the slots and the
  connections of its session as they were before. -/
  restored : (∀ t v, (p t (fun _ => false) v).sessions = v.sessions) → ∀ f, r = .error f →
    (find w' i).opened = (replay fresh past).opened ∧
      (find w' i).created = (replay fresh past).created ∧
      (learns i (min deadline (w.now.plusMillis c.connectTimeout)) w = false →
        (find w' i).resolvedUntil = (replay fresh past).resolvedUntil)

/-- A slot that was taken and given back is free again. -/
theorem Session.replay_abandoned {s : Session} (t : Instant) {deals : List Deal} {learnt : Bool}
    (done : deals.map (·.dealing) = .abandoned :: if learnt then [.resolved] else []) :
    (replay (s.after t .opening) deals).opened = s.opened ∧
      (replay (s.after t .opening) deals).created = s.created ∧
      (learnt = false → (replay (s.after t .opening) deals).resolvedUntil = s.resolvedUntil) := by
  obtain ⟨last, before, rfl, ended, done⟩ := List.map_eq_cons_iff.mp done
  cases learnt with
  | false =>
    obtain rfl : before = [] := List.map_eq_nil_iff.mp done
    simp [replay, ended, after, releaseSlot]
  | true =>
    obtain ⟨e, none, rfl, resolved, rest⟩ := List.map_eq_cons_iff.mp done
    obtain rfl : none = [] := List.map_eq_nil_iff.mp rest
    simp [replay, ended, resolved, after, releaseSlot]

/-- What every opening comes to, in every run of a session. Whoever is given a slot has just entered
it into the journal; so the session is as it was after that entry, and the clock shows its time. -/
theorem World.steps_open {w₀ : World} (begun : World.Begun c w₀)
    (made : Session.ofConfig c = .ok fresh) (acts : List Act) (i : Nat) :
    (∀ p v, (request i).Ensures p v fun claim v' => claim = .slot →
      ∃ past, v'.journal = ⟨i, .opening, v'.now⟩ :: past) ∧
    ∀ d past, d :: past <:+ tale i (w₀.steps acts).journal → d.dealing = .opening →
      ∀ w : World, w.now = d.time → i < w.sessions.length →
        find w i = replay fresh (d :: past) → ∀ deadline p,
          (settle i deadline .slot).Ensures p w fun r w' =>
            ∃ own, Opens c fresh past i deadline p w own r w' := by
  refine ⟨fun p v => request_opening, ?_⟩
  intro d past before opening w now_eq here found deadline p
  obtain ⟨url, made_eq⟩ := ofConfig_eq_ok made
  have ttl : fresh.dnsCacheTtl = c.dnsCacheTtl := congrArg (·.dnsCacheTtl) made_eq
  have timeout : fresh.connectTimeout = c.connectTimeout := congrArg (·.connectTimeout) made_eq
  have unknown : fresh.resolvedUntil = none := congrArg (·.resolvedUntil) made_eq
  obtain ⟨later, whole⟩ := before
  have lawful := ((steps_holds (begun.holds made) acts).tallied i).lawful
  have lawful : Lawful fresh (d :: past) := (whole ▸ lawful).of_suffix
  rcases lawful with _ | ⟨lawful, -, start, order⟩
  have limit : openingLimit i deadline w = min deadline (w.now.plusMillis c.connectTimeout) := by
    rw [openingLimit, found, replay_connectTimeout, timeout]
  have known : (find w i).isResolved w.now = true ↔ Cached c.dnsCacheTtl past w.now := by
    rw [found, isResolved_replay unknown, ttl, Cached, lastResolved, opening]
    rfl
  have fails : Flow.FailsBy IsOther (settle i deadline .slot) := settle_failsBy deadline (by simp)
  apply ((settle_goes deadline).and (fails p w)).mono
  rintro r w' ⟨⟨own, does, resolves⟩, refused⟩
  rw [limit] at does resolves
  have asks_none : Cached c.dnsCacheTtl past w.now → own.countP Deed.asks = 0 := by
    intro cached
    rw [resolves.asks_eq, if_pos (known.mpr cached)]
  refine ⟨own, ?_⟩
  constructor
  case does => exact does
  case asks_none => exact asks_none
  case asks_once =>
    intro other
    rw [resolves.asks_eq, if_neg fun cached => other (known.mp cached)]
  case asks_none_of_recent =>
    intro e member resolved recent fits
    refine asks_none (lawful.cached ?_ member resolved recent fits)
    rw [now_eq]
    exact order
  case in_time =>
    intro punctual
    have ends := does.now_le punctual
    refine ⟨ends, fun large => ?_⟩
    have sooner := plusMillis_le (now_eq ▸ start) large
    unfold Instant at *
    omega
  case dealings_eq => exact resolves.dealings_eq
  case refused => exact fun f failed => (refused f failed).1
  case restored =>
    rintro alone f rfl
    obtain ⟨deals, done, changed, -⟩ := does.find_eq here alone
    rw [resolves.dealings_eq] at done
    rw [changed, found, replay, opening]
    exact replay_abandoned d.time done

/-- Whether a slot is taken. -/
def Dealing.isOpening : Dealing → Bool
  | .opening => true
  | _ => false

/-- The second of two connections is not reached in time; its address is known from the first. -/
theorem World.steps_open_known :
    let c : Config := { clientTag := [], baseUrl := ascii "http://h", maxConcurrent := 2 }
    let get : Request := { method := ascii "GET", target := [] }
    let late : Script := { connects := [{ delay := 6000000 }] }
    let acts : List Act := [.sendStreaming [1] get 9, .sendStreaming [2] get 9]
    ∃ fresh w₀ d past w, Session.ofConfig c = .ok fresh ∧ World.ofSession c 1 {} = .ok w₀ ∧
      d :: past <:+ tale 0 (w₀.steps acts).journal ∧ d.dealing = .opening ∧
      w = { w₀ with script := late, sessions := [replay fresh (d :: past)] } ∧ w.now = d.time ∧
      (settle 0 5000000 .slot).Ensures .quiet w fun r w' =>
        (∃ f, r = .error f) ∧ w'.now = 5000000 ∧
          ∃ own, Opens c fresh past 0 5000000 .quiet w own r w' ∧ own.countP Deed.asks = 0 := by
  intro c get late acts
  let fresh : Session := (Session.ofConfig c).toOption.getD absent
  have made : Session.ofConfig c = .ok fresh := by rfl
  let w₀ : World := {
    config := c, client := .ofConfig c 1, chance := .ofSeed 1
    transport := some (.session 0), sessions := [fresh] }
  have start : World.ofSession c 1 {} = .ok w₀ := by rfl
  have begun : World.Begun c w₀ := ⟨1, {}, .inl start⟩
  -- All that happens before the second connection comes to be.
  let second := (tale 0 (w₀.steps acts).journal).drop 2
  let w : World := { w₀ with script := late, sessions := [replay fresh second] }
  have last : second.head?.any (fun d => d.dealing.isOpening && d.time = 0) = true := by
    decide +kernel
  have known : lastResolved second.tail = some 0 := by decide +kernel
  have goes : (settle 0 5000000 .slot).Ensures .quiet w fun r w' =>
      r.toOption.isNone ∧ w'.now = 5000000 := by decide +kernel
  obtain ⟨d, past, second_eq, opening, time⟩ :
      ∃ d past, second = d :: past ∧ d.dealing.isOpening = true ∧ d.time = 0 := by
    cases split : second with
    | nil =>
      rw [split] at last
      cases last
    | cons d past =>
      rw [split] at last
      exact ⟨d, past, rfl, by simpa using last⟩
  have opening : d.dealing = .opening := by
    cases dealing : d.dealing with
    | opening => rfl
    | _ =>
      rw [dealing] at opening
      cases opening
  have before : d :: past <:+ tale 0 (w₀.steps acts).journal := second_eq ▸ List.drop_suffix ..
  have found : find w 0 = replay fresh (d :: past) := by
    simp only [find, w, List.getD_cons_zero, second_eq]
  have cached : Cached c.dnsCacheTtl past w.now := by
    rw [second_eq] at known
    exact ⟨0, known, by decide⟩
  have w_eq : w = { w₀ with script := late, sessions := [replay fresh (d :: past)] } := by
    simp only [w, second_eq]
  refine ⟨fresh, w₀, d, past, w, made, start, before, opening, w_eq, time.symm, ?_⟩
  have opens := (steps_open begun made acts 0).2 d past before opening w time.symm Nat.one_pos
    found 5000000 .quiet
  apply (goes.and opens).mono
  rintro (f | c') w' ⟨⟨none, now⟩, own, opens⟩
  · exact ⟨⟨f, rfl⟩, now, own, opens, opens.asks_none cached⟩
  · cases none

end Parley
