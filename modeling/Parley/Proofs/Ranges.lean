import Parley.Proofs.Ceilings
import Parley.Proofs.Growth
import Parley.Proofs.Openings
import Parley.Proofs.Shutdown

/-!
How far the durations of a configuration may go. They are given in milliseconds or seconds, and what
is reckoned with them are nanoseconds in 64 bits. A configuration is valid without an upper bound on
them, so the reckoning is right only as long as they are not too long; how long they may be depends
on the unit and on what they are counted from.

* `Span`: the durations that instants are reckoned with, and what should come out;
* `Span.right`: exactly when it does, and for which lengths it does at every reading of the clock;
* `Retry.waitOut_sleeps`: a wait before another attempt ends before the deadline of its call;
* `World.steps_reckon`: where whoever has a client or a session reckons so.
-/
namespace Parley

/-- A duration of a configuration that the clock is set against. -/
inductive Span where
  /-- How long a call may take that names no deadline. -/
  | call
  /-- How long it may take to open a connection. -/
  | opening
  /-- How long the address of the backend is used. -/
  | address
  /-- How long a connection is kept that nobody uses. -/
  | idle

namespace Span

def length (c : Config) : Span → Int
  | .call => c.timeout
  | .opening => c.connectTimeout
  | .address => c.dnsCacheTtl
  | .idle => c.keepAlive

/-- The nanoseconds of its unit. -/
def unit : Span → Int
  | .address => 1000000000
  | _ => 1000000

/-- What it is counted from. That of an idle connection is compared with its age. -/
def start (now : Instant) : Span → Instant
  | .idle => 0
  | _ => now

/-- What it should come to. -/
def due (c : Config) (now : Instant) (span : Span) : Int :=
  span.start now + span.length c * span.unit

/-- What it comes to. -/
def reckoned (c : Config) (now : Instant) : Span → Int
  | .call => now.plusMillis c.timeout
  | .opening => now.plusMillis c.connectTimeout
  | .address => now.plus (wrap64 (c.dnsCacheTtl * 1000000000))
  | .idle => Millis.nanos c.keepAlive

/-- The latest reading of the clock that is looked at, half of what it can show. -/
def latest : Instant := 0x4000000000000000

/-- The least length that never leaves 64 bits. -/
def least : Span → Int
  | .address => -9223372036
  | _ => -9223372036854

/-- The greatest length that never leaves 64 bits, some 146 years, and twice as many where the clock
is not added. -/
def most : Span → Int
  | .address => 4611686018
  | .idle => 9223372036854
  | _ => 4611686018427

variable {c : Config}

theorem reckoned_eq (now : Instant) (span : Span) :
    span.reckoned c now = wrap64 (span.due c now) := by
  cases span with
  | idle =>
    rw [due, start, Int.zero_add]
    rfl
  | _ => exact Int.add_bmod_bmod

theorem fits_iff (span : Span) :
    (∀ now : Instant, 0 ≤ now → now ≤ latest → Fits (span.due c now)) ↔
      span.least ≤ span.length c ∧ span.length c ≤ span.most := by
  constructor
  · intro fits
    have early := fits 0 (Int.le_refl _) (by decide)
    have late := fits latest (by decide) (Int.le_refl _)
    cases span <;> simp only [Fits, due, start, unit, least, most, latest] at * <;> omega
  · rintro ⟨low, high⟩ now begun within
    unfold Instant at *
    cases span <;> simp only [Fits, due, start, unit, least, most, latest] at * <;> omega

/-- When the reckoning with a span is right. -/
structure Right (c : Config) (span : Span) : Prop where
  /-- What it comes to is what it should, wrapped around in 64 bits. -/
  wraps : ∀ now, span.reckoned c now = wrap64 (span.due c now)
  exact_iff : ∀ now, span.reckoned c now = span.due c now ↔ Fits (span.due c now)
  /-- It is right at all readings of the clock exactly if the length is within bounds. -/
  safe_iff : (∀ now : Instant, 0 ≤ now → now ≤ latest → span.reckoned c now = span.due c now) ↔
    span.least ≤ span.length c ∧ span.length c ≤ span.most
  /-- Then it is not in the past. -/
  ahead : 0 < span.length c → span.length c ≤ span.most →
    ∀ now : Instant, 0 ≤ now → now ≤ latest → span.start now < span.reckoned c now

theorem right (c : Config) (span : Span) : span.Right c := by
  have exact_iff (now : Instant) :
      span.reckoned c now = span.due c now ↔ Fits (span.due c now) := by
    rw [reckoned_eq, wrap64_eq_self_iff]
  have safe_iff : (∀ now : Instant, 0 ≤ now → now ≤ latest →
      span.reckoned c now = span.due c now) ↔
        span.least ≤ span.length c ∧ span.length c ≤ span.most := by
    rw [← fits_iff]
    simp only [exact_iff]
  constructor
  case wraps => exact fun now => reckoned_eq now span
  case exact_iff => exact exact_iff
  case safe_iff => exact safe_iff
  case ahead =>
    intro positive bounded now begun within
    have low : span.least ≤ span.length c := by
      have negative : span.least < 0 := by cases span <;> decide
      exact (negative.trans positive).le
    rw [safe_iff.mpr ⟨low, bounded⟩ now begun within, due]
    unfold Instant at *
    cases span <;> simp only [start, unit] <;> omega

end Span

namespace Call

variable {call : Call} {now : Instant} {wait : Millis}

/-- A wait before another attempt of a call ends when it should, and before the deadline; the one
negative wait that there may be is none at all. -/
structure Wakes (call : Call) (now : Instant) (wait : Millis) (wakes : Instant) : Prop where
  exact : 0 ≤ wait → wakes = now + wait * 1000000
  early : 0 ≤ wait → wakes < call.deadline
  prompt : wait < 0 → wakes = now

/-- A wait that is less than what is left of the budget of a call ends before the deadline of the
call. So nothing goes beyond 64 bits, except where a wait has done so before. -/
theorem Timed.wakes (timed : call.Timed now) (fits : now < 0x8000000000000000)
    (deadline_fits : call.deadline < 0x8000000000000000) (sensible : Retry.Sensible wait)
    (short : wait < call.budget - call.elapsed now) :
    call.Wakes now wait (now.plusMillis wait) := by
  have start_nonneg := timed.start_nonneg
  have start_le := timed.start_le
  rcases sensible with nonneg | rfl
  · have reaches := timed.reach_lt fits (by unfold Millis at *; omega)
    have ends : now + wait * 1000000 < call.deadline := by
      unfold reach at reaches
      unfold Instant Millis at *
      omega
    have same : now.plusMillis wait = now + wait * 1000000 := by
      unfold Instant Millis at *
      rw [Instant.plusMillis, Instant.plus, nanos_of_fits ⟨by omega, by omega⟩]
      exact wrap64_of_fits ⟨by omega, by omega⟩
    exact ⟨fun _ => same, fun _ => same ▸ ends, fun negative => absurd nonneg negative.not_ge⟩
  · -- Counted in nanoseconds, what has gone beyond 64 bits is nothing.
    have none : Millis.nanos Double.leastInt64 = 0 := by decide
    have same : now.plusMillis Double.leastInt64 = now := by
      unfold Instant at *
      rw [Instant.plusMillis, Instant.plus, none, Int.add_zero]
      exact wrap64_of_fits ⟨by omega, fits⟩
    have negative : ¬ 0 ≤ Double.leastInt64 := by decide
    exact ⟨(absurd · negative), (absurd · negative), fun _ => same⟩

end Call

namespace Retry

variable {p : Pause} {w : World} {call : Call}

/-- What comes of a call that is to wait before another attempt: either the wait does not fit into
its budget, and it ends at once, or it falls asleep, unless the client is shut down, and wakes up as
it should. -/
def Sleeps (p : Pause) (call : Call) (number : Nat) (e : ClientError) (wait : Millis) (w : World)
    (r : Except Failure Unit) (w' : World) : Prop :=
  (call.budget - call.elapsed w.now ≤ wait ∧ (∃ f, r = .error f) ∧ w' = w) ∨
    ∃ wakes, call.Wakes w.now wait wakes ∧
      w' = if w.client.shutdown then fallsAsleep call number e wait w
        else p wakes (·.client.shutdown) (fallsAsleep call number e wait w)

theorem waitOut_sleeps (timed : call.Timed w.now) (fits : w.now < 0x8000000000000000)
    (deadline_fits : call.deadline < 0x8000000000000000) (number : Nat) (e : ClientError)
    {wait : Millis} (sensible : Sensible wait) :
    (waitOut call number e wait).Ensures p w (Sleeps p call number e wait w) := by
  simp only [waitOut, conclude, Call.error, Call.fail, Flow.ensures_bind, Flow.ensures_get,
    Flow.ensures_ite, Flow.ensures_lift, Flow.ensures_throw, Job.ensures_bind, Job.ensures_get,
    Job.ensures_pure, Job.ensures_notice]
  split
  · next long => exact .inl ⟨long, ⟨_, rfl⟩, rfl⟩
  · next fitting =>
    have wakes := timed.wakes fits deadline_fits sensible (Int.not_le.mp fitting)
    have sleeps : (sleep wait).Ensures p (fallsAsleep call number e wait w) fun _ w' =>
        w' = wakesUp p wait (fallsAsleep call number e wait w) := by
      unfold wakesUp
      simp only [sleep, Job.ensures_bind, Job.ensures_get, Job.ensures_await, Job.ensures_pure]
      split <;> rfl
    apply sleeps.mono
    rintro awake w' rfl
    split
    · exact .inr ⟨_, wakes, rfl⟩
    · exact .inr ⟨_, wakes, rfl⟩

end Retry

/-- A session that has the durations of a configuration, and idle connections that were used in the
past. -/
structure Session.Suits (c : Config) (now : Instant) (s : Session) : Prop where
  connectTimeout_eq : s.connectTimeout = c.connectTimeout
  dnsCacheTtl_eq : s.dnsCacheTtl = c.dnsCacheTtl
  keepAlive_eq : s.keepAlive = c.keepAlive
  rested : ∀ conn ∈ s.idle, 0 ≤ conn.lastUsed ∧ conn.lastUsed ≤ now

/-- A world whose client and whose sessions have the durations of a configuration. -/
structure World.Suits (c : Config) (w : World) : Prop where
  now_nonneg : 0 ≤ w.now
  config_eq : w.config = c
  base_eq : w.client.backoff.base = c.retryBaseDelay
  cap_eq : w.client.backoff.cap = c.maxRetryDelay
  sessions : ∀ s ∈ w.sessions, s.Suits c w.now

section Suits

variable {c : Config} {w w' : World}

theorem Session.Suits.mono {s : Session} {now later : Instant} (h : s.Suits c now)
    (le : now ≤ later) : s.Suits c later :=
  { h with rested := fun conn member => (h.rested conn member).imp_right (Int.le_trans · le) }

theorem Session.suits_ofConfig {s : Session} (made : Session.ofConfig c = .ok s) (now : Instant) :
    s.Suits c now := by
  obtain ⟨url, rfl⟩ := Ledger.ofConfig_eq_ok made
  exact ⟨rfl, rfl, rfl, List.forall_mem_nil _⟩

/-- Whatever a session does, its durations stay, and what it keeps was used in the past. -/
theorem Session.Suits.after {s : Session} {now : Instant} (h : s.Suits c now) (nonneg : 0 ≤ now)
    (dealing : Dealing) : (s.after now dealing).Suits c now := by
  cases dealing with
  | expired old =>
    exact { h with rested := fun conn member => h.rested conn (List.mem_filter.mp member).1 }
  | lent conn =>
    exact { h with rested := fun conn member => h.rested conn (List.mem_of_mem_tail member) }
  | returned conn =>
    exact { h with rested := List.forall_mem_cons.mpr ⟨⟨nonneg, Int.le_refl _⟩, h.rested⟩ }
  | shut idle => exact { h with rested := List.forall_mem_nil _ }
  | _ => exact { h with }

namespace World.Suits

theorem deal (h : w.Suits c) (i : Nat) (dealing : Dealing) : (w.deal i dealing).Suits c := by
  refine { h with sessions := ?_ }
  intro s member
  obtain ⟨j, found⟩ := List.mem_iff_getElem?.mp member
  rw [World.deal, List.getElem?_modify] at found
  obtain ⟨s₀, found₀, rfl⟩ := Option.map_eq_some_iff.mp found
  have suits := h.sessions s₀ (List.mem_of_getElem? found₀)
  split
  · exact suits.after h.now_nonneg dealing
  · exact suits

theorem of_core (h : w.Suits c) (core_eq : w'.core = w.core) : w'.Suits c := by
  have suits : w.core.Suits c := { h with }
  rw [← core_eq] at suits
  exact { suits with }

theorem elapses (h : w.Suits c) (elapses : Elapses w w') : w'.Suits c := by
  cases elapses with
  | advance t =>
    have later : w.now ≤ max w.now t := Int.le_max_left ..
    exact { h with
      now_nonneg := Int.le_trans h.now_nonneg later
      sessions := fun s member => (h.sessions s member).mono later }
  | due next => exact { h with }
  | done answer => exact { h with }

theorem move {raw : Prop} {a b : List Holding × World} (move : Move (.ofActs c raw) a b)
    (h : a.2.Suits c) : b.2.Suits c := by
  cases move with
  | elapse elapses => exact h.elapses elapses
  | aside core_eq => exact h.of_core core_eq
  | crowd | lend | takeSlot | freeSlot | fillSlot | answer | receive | takeBack | resolve =>
    exact h.deal _ _
  | discard | expire | shut => exact { h.deal _ _ with }
  | renew idle running made =>
    refine { h with sessions := ?_ }
    refine List.forall_mem_append.mpr ⟨h.sessions, List.forall_mem_singleton.mpr ?_⟩
    exact Session.suits_ofConfig (h.config_eq ▸ made) _
  | closeStream permit succeeded => cases permit <;> exact { h with }
  | _ => exact { h with }

end World.Suits

/-- A world in which nothing was done. -/
theorem World.Begun.suits (begun : Begun c w) : w.Suits c := by
  obtain ⟨chance, script, begun | begun⟩ := begun
  · obtain ⟨s, made, rfl⟩ := ofSession_eq begun
    have suits : s.Suits c 0 := Session.suits_ofConfig made 0
    exact ⟨Int.le_refl _, rfl, rfl, rfl, List.forall_mem_singleton.mpr suits⟩
  · obtain ⟨url, -, rfl⟩ := ofClient_eq begun
    exact ⟨Int.le_refl _, rfl, rfl, rfl, List.forall_mem_nil _⟩

end Suits

section Reckons

open Session

variable {c : Config} {url : Url} {w w₀ : World} {hand : List Holding} {i : Nat}

theorem Session.find_mem (here : i < w.sessions.length) : find w i ∈ w.sessions := by
  rw [find, List.getD_eq_getElem?_getD, List.getElem?_eq_getElem here, Option.getD_some]
  exact List.getElem_mem here

/-- What is reckoned with the durations of a configuration in a world, by whoever has something on
hand. -/
structure World.Reckons (c : Config) (hand : List Holding) (w : World) : Prop where
  /-- A call that names no deadline is given one. -/
  deadline_eq : Client.defaultDeadline w = Span.call.reckoned c w.now
  /-- No wait of somebody who opens a connection goes beyond a limit. -/
  opening : ∀ (p : Pause) (i : Nat) (deadline : Instant), i < w.sessions.length →
    (connect i deadline).Ensures p w fun _ w' =>
      ∃ own, Does p i (min deadline (Span.opening.reckoned c w.now)) w own w'
  /-- An address that was resolved is used for a while. -/
  resolvedUntil_eq : ∀ i < w.sessions.length,
    (find (w.deal i .resolved) i).resolvedUntil = some (Span.address.reckoned c w.now)
  /-- So is an idle connection, whose age is what the clock says. -/
  expired_iff : w.now < 0x8000000000000000 → ∀ i < w.sessions.length, ∀ conn ∈ (find w i).idle,
    ((find w i).expired w.now conn = true ↔ Span.idle.reckoned c w.now ≤ w.now - conn.lastUsed)
  /-- A call waits before another attempt. -/
  sleeps : w.now < 0x8000000000000000 → ∀ call ∈ Holding.running hand,
    call.deadline < 0x8000000000000000 → ∀ p number e wait, Retry.Sensible wait →
      (Retry.waitOut call number e wait).Ensures p w (Retry.Sleeps p call number e wait w)
  /-- A delay that backs off is a wait. It is not negative in the first so many attempts if the cap
  is small enough. -/
  delay_sensible : ∀ n, Retry.Sensible (w.client.backoff.delayFor n).1
  delay_nonneg : c.maxRetryDelay ≤ 2 ^ 53 → ∀ n ≤ 971, 0 ≤ (w.client.backoff.delayFor n).1

theorem World.Suits.reckons (h : w.Suits c) (timely : Timely hand w) (valid : c.Valid url) :
    w.Reckons c hand := by
  have base : 0 ≤ w.client.backoff.base := h.base_eq ▸ valid.retryBaseDelay
  have ordered : w.client.backoff.base ≤ w.client.backoff.cap := by
    rw [h.base_eq, h.cap_eq]
    exact valid.delays
  have suits {i : Nat} (here : i < w.sessions.length) : (find w i).Suits c w.now :=
    h.sessions _ (find_mem here)
  constructor
  case deadline_eq =>
    rw [Client.defaultDeadline, h.config_eq]
    rfl
  case opening =>
    intro p i deadline here
    apply (connect_goes deadline).mono
    rintro r w' ⟨own, does, -⟩
    rw [openingLimit, (suits here).connectTimeout_eq] at does
    exact ⟨own, does⟩
  case resolvedUntil_eq =>
    intro i here
    rw [find_deal here, Session.after, (suits here).dnsCacheTtl_eq]
    rfl
  case expired_iff =>
    intro fits i here conn member
    obtain ⟨nonneg, before⟩ := (suits here).rested conn member
    have age : Instant.since w.now conn.lastUsed = w.now - conn.lastUsed := by
      unfold Instant at *
      exact wrap64_of_fits ⟨by omega, by omega⟩
    rw [expired, (suits here).keepAlive_eq, age, decide_eq_true_iff]
    rfl
  case sleeps =>
    intro fits call member deadline_fits p number e wait sensible
    exact Retry.waitOut_sleeps (timely.running call member) fits deadline_fits number e sensible
  case delay_sensible => exact fun n => w.client.backoff.delayFor_cases n base (base.trans ordered)
  case delay_nonneg =>
    intro small n few
    exact Backoff.delayFor_nonneg base ordered (h.cap_eq ▸ small) few

/-- In every world of every run that has begun with a valid configuration, in the middle of an act
as well as after it, instants are reckoned from the spans of the configuration. That is right at all
readings of the clock up to `Span.latest` for spans of a length within bounds, and only for those;
and it is right for the waits before another attempt, unless they have gone beyond 64 bits
themselves. -/
theorem World.steps_reckon (begun : World.Begun c w₀) (valid : c.validate = .ok url) :
    (∀ span : Span, span.Right c) ∧ 0 < Span.call.length c ∧ 0 < Span.opening.length c ∧
    (∀ acts, Moves (.ofActs c True) [] w₀ [] (w₀.steps acts)) ∧
    ∀ hand w, Moves (.ofActs c True) [] w₀ hand w → w.Reckons c hand := by
  have valid := Config.validate_eq_ok.mp valid
  refine ⟨Span.right c, valid.timeout, valid.connectTimeout, steps_raw begun.suits.config_eq, ?_⟩
  intro hand w moves
  have suits : w.Suits c :=
    moves.keeps (P := fun _ w => w.Suits c) (fun _ _ move suits => suits.move move) begun.suits
  have timely : Timely hand w := moves.keeps (fun _ _ move => move.logs.timely) (begun.timely [])
  exact suits.reckons timely valid

/-- The longest connect timeout that can be given comes to a millisecond less than nothing, so the
call fails, though it has half a minute. The time of another call runs, which waits for 3
milliseconds of its 5. -/
theorem World.steps_reckon_longest :
    let c : Config := {
      clientTag := [], baseUrl := ascii "http://h", connectTimeout := 0x7FFFFFFFFFFFFFFF }
    let hi : List Message := [{ role := [], content := [104, 105] }]
    let call : Call := { key := [], start := 0, deadline := 5000000, budget := 5 }
    let e : ClientError := { kind := .server5xx, reason := statusReason 503 [] }
    ∃ url w₀ w, c.validate = .ok url ∧ Begun c w₀ ∧
      (w₀.steps [.chat hi none]).Reckons c [] ∧ (w₀.steps [.chat hi none]).sessions.length = 1 ∧
      (w₀.steps [.chat hi none]).client.usage.failedCalls = 1 ∧
      Span.call.reckoned c 0 = 30000000000 ∧ Span.opening.reckoned c 0 = -1000000 ∧
      Moves (.ofActs c True) [] w₀ [.call (.trying call 0)] w ∧
      (Retry.waitOut call 1 e 3).Ensures .quiet w fun r w' =>
        Retry.Sleeps .quiet call 1 e 3 w r w' ∧ w'.now = 3000000 := by
  intro c hi call e
  let url : Url := {
    scheme := ascii "http", host := ascii "h", port := ascii "80", target := ascii "/" }
  let w₀ : World := {
    config := c, target := chatPath, client := .ofConfig c 1, chance := .ofSeed 1
    script := { overWire := true } }
  let w₁ : World := (w₀.mapUsage Usage.addCall).note .begun
  let w : World := (w₁.mapSemaphore Semaphore.take).note .admitted
  have valid : c.validate = .ok url := by rfl
  have begun : Begun c w₀ := ⟨1, { overWire := true }, .inr (by rfl)⟩
  obtain ⟨-, -, -, runs, reckons⟩ := steps_reckon begun valid
  have moves : Moves (.ofActs c True) [] w₀ [.call (.trying call 0)] w := by
    have begins : Moves (.ofActs c True) [] w₀ [.call .waiting] w₁ := .single (.beginCall trivial)
    have enters : Move (.ofActs c True) ([.call .waiting], w₁) ([.call .admitted], w) :=
      .letIn (by rfl)
    exact (begins.tail enters).tail (.setOut rfl (by rfl))
  have fails : (w₀.steps [.chat hi none]).sessions.length = 1 ∧
      (w₀.steps [.chat hi none]).client.usage.failedCalls = 1 := by decide +kernel
  have woken : (Retry.waitOut call 1 e 3).Ensures .quiet w fun _ w' => w'.now = 3000000 := by
    decide +kernel
  have sleeps : (Retry.waitOut call 1 e 3).Ensures .quiet w (Retry.Sleeps .quiet call 1 e 3 w) :=
    (reckons _ w moves).sleeps (by decide) call (List.mem_singleton_self _) (by decide) .quiet 1 e 3
      (.inl (by decide))
  exact ⟨url, w₀, w, valid, begun, reckons _ _ (runs _), fails.1, fails.2, by decide, by decide,
    moves, sleeps.and woken⟩

end Reckons

end Parley
