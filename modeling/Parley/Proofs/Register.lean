import Parley.Proofs.Cover
import Parley.Proofs.Timeouts

/-!
Transports over time. A client makes a transport only when the one that it has is closed, and none
once it is shut down; an attempt looks for the transport when it begins, so it never gets one that
was closed in the meantime.

* `Enrolled.move`: the register agrees with the transport that there is, and is lawful;
* `Retry.run_hands`: a call that may begin an attempt hands its request over, unless no transport
  can be made.
-/
namespace Parley

namespace Registration

/-- The transports that a register leaves open, the latest first. -/
def opened : List Registration → List Transport
  | [] => []
  | .made t :: past => t :: opened past
  | .closed t :: past => (opened past).erase t
  | .handed .. :: past | .ended :: past => opened past

/-- When something may be entered. -/
def Fits (past : List Registration) : Registration → Prop
  | .made _ => opened past = [] ∧ .ended ∉ past
  | .closed _ => True
  | .handed t _ => t ∈ opened past
  | .ended => opened past = []

/-- A register in which everything was entered when it might be. -/
def Lawful : List Registration → Prop
  | [] => True
  | e :: past => e.Fits past ∧ Lawful past

variable {register past : List Registration}

theorem Lawful.of_suffix (lawful : Lawful register) (before : past <:+ register) : Lawful past := by
  induction register with
  | nil => exact List.suffix_nil.mp before ▸ lawful
  | cons e register ih =>
    rcases List.suffix_cons_iff.mp before with rfl | before
    · exact lawful
    · exact ih lawful.2 before

/-- No two transports are open at once. -/
theorem Lawful.opened_le (lawful : Lawful register) : (opened register).length ≤ 1 := by
  induction register with
  | nil => exact Nat.zero_le 1
  | cons e register ih =>
    have le := ih lawful.2
    cases e with
    | made t => simp [opened, lawful.1.1]
    | closed t => exact (List.length_erase_le ..).trans le
    | handed t request => exact le
    | ended => exact le

/-- After the end nothing is open. -/
theorem Lawful.opened_ended (lawful : Lawful register) (ended : .ended ∈ register) :
    opened register = [] := by
  induction register with
  | nil => cases ended
  | cons e register ih =>
    cases e with
    | made t => exact absurd (List.mem_of_ne_of_mem (by rintro ⟨⟩) ended) lawful.1.2
    | closed t =>
      rw [opened, ih lawful.2 (List.mem_of_ne_of_mem (by rintro ⟨⟩) ended), List.erase_nil]
    | handed t request => exact ih lawful.2 (List.mem_of_ne_of_mem (by rintro ⟨⟩) ended)
    | ended => exact lawful.1

end Registration

open Registration (opened Fits Lawful)

namespace Session

variable {w : World}

/-- Only when it is shut does a session close. -/
theorem find_deal_closed {dealing : Dealing} (other : ∀ idle, dealing ≠ .shut idle) (i j : Nat) :
    (find (w.deal i dealing) j).closed = (find w j).closed := by
  have after (s : Session) : (s.after w.now dealing).closed = s.closed := by
    cases dealing with
    | shut idle => exact absurd rfl (other idle)
    | _ => rfl
  by_cases same : i = j
  · subst same
    rcases Nat.lt_or_ge i w.sessions.length with here | beyond
    · rw [find_deal here, after]
    · simp [find, World.deal, beyond]
  · simp [find, World.deal, same]

end Session

namespace World

/-- The transport that there is, unless it is closed. -/
def openTransport? (w : World) : Option Transport := w.transport.filter (!Client.isClosed w ·)

/-- Whether a transport is open. -/
def Opens (w : World) : Transport → Prop
  | .scripted number closed => closed = false ∧ w.transport = some (.scripted number closed)
  | .session i => (Session.find w i).closed = false

/-- What a client has to do with its register. -/
structure Enrolled (w : World) : Prop where
  lawful : Lawful w.register
  opened_eq : opened w.register = w.openTransport?.toList
  sole : ∀ i, (Session.find w i).closed = false → w.transport = some (.session i)
  shut : w.client.shutdown = true → w.openTransport? = none
  ended : .ended ∈ w.register → w.client.shutdown = true

variable {w w' : World}

theorem Idle.openTransport? (idle : w.Idle) : w.openTransport? = none := by
  rw [World.openTransport?, Option.filter_eq_none_iff]
  intro t some
  simp [idle t some]

theorem openTransport?_eq {t : Transport} (current : w.transport = some t)
    (open_ : Client.isClosed w t = false) : w.openTransport? = some t := by
  rw [openTransport?, current, Option.filter_some, open_]
  rfl

/-- An open transport is as it was when it was made. -/
theorem base_eq {t : Transport} (open_ : Client.isClosed w t = false) : t.base = t := by
  cases t with
  | scripted number closed =>
    cases open_
    rfl
  | session i => rfl

namespace Enrolled

theorem idle_iff (h : w.Enrolled) : opened w.register = [] ↔ w.openTransport? = none := by
  rw [h.opened_eq, Option.toList_eq_nil_iff]

theorem of_same (h : w.Enrolled) (register_eq : w'.register = w.register)
    (shutdown_eq : w'.client.shutdown = w.client.shutdown)
    (transport_eq : w'.transport = w.transport)
    (closed_eq : ∀ i, (Session.find w' i).closed = (Session.find w i).closed) : w'.Enrolled := by
  have open_eq : w'.openTransport? = w.openTransport? := by
    have closed : Client.isClosed w' = Client.isClosed w := by
      funext t
      cases t with
      | scripted number closed => rfl
      | session i => exact closed_eq i
    rw [openTransport?, openTransport?, transport_eq, closed]
  constructor
  case lawful => exact register_eq ▸ h.lawful
  case opened_eq => rw [register_eq, open_eq, h.opened_eq]
  case sole => exact fun i open_ => transport_eq.trans (h.sole i ((closed_eq i).symm.trans open_))
  case shut => exact fun shut => open_eq.trans (h.shut (shutdown_eq.symm.trans shut))
  case ended => exact fun ended => shutdown_eq.trans (h.ended (register_eq ▸ ended))

theorem not_open (h : w.Enrolled) (idle : w.Idle) (i : Nat) :
    (Session.find w i).closed ≠ false := by
  intro open_
  have closed := idle (.session i) (h.sole i open_)
  exact Bool.false_ne_true (open_.symm.trans closed)

theorem deal (h : w.Enrolled) {i : Nat} {dealing : Dealing}
    (other : ∀ idle, dealing ≠ .shut idle) : (w.deal i dealing).Enrolled :=
  h.of_same rfl rfl rfl (Session.find_deal_closed other i)

/-- A transport is made, and the client has it from then on. -/
theorem made (h : w.Enrolled) (idle : w.Idle) (running : w.client.shutdown = false) {t : Transport}
    (register_eq : w'.register = .made t :: w.register)
    (shutdown_eq : w'.client.shutdown = w.client.shutdown) (open_eq : w'.openTransport? = some t)
    (sole : ∀ i, (Session.find w' i).closed = false → w'.transport = some (.session i)) :
    w'.Enrolled := by
  have none := h.idle_iff.mpr idle.openTransport?
  have unended : .ended ∉ w.register := fun ended =>
    Bool.false_ne_true (running.symm.trans (h.ended ended))
  constructor
  case lawful => exact register_eq ▸ ⟨⟨none, unended⟩, h.lawful⟩
  case opened_eq =>
    rw [register_eq, opened, none, open_eq]
    rfl
  case sole => exact sole
  case shut =>
    intro shut
    exact absurd (running.symm.trans (shutdown_eq.symm.trans shut)) Bool.false_ne_true
  case ended =>
    rw [register_eq]
    exact fun ended => absurd (List.mem_of_ne_of_mem (by rintro ⟨⟩) ended) unended

/-- The transport that there is is closed. -/
theorem closed (h : w.Enrolled) {t : Transport} (within : ∀ t', w.openTransport? = some t' → t' = t)
    (register_eq : w'.register = .closed t :: w.register)
    (shutdown_eq : w'.client.shutdown = w.client.shutdown) (open_eq : w'.openTransport? = none)
    (sole : ∀ i, (Session.find w' i).closed = false → w'.transport = some (.session i)) :
    w'.Enrolled := by
  constructor
  case lawful => exact register_eq ▸ ⟨trivial, h.lawful⟩
  case opened_eq =>
    rw [register_eq, opened, h.opened_eq, open_eq]
    cases current : w.openTransport? with
    | none => rfl
    | some t' => simp [within t' current]
  case sole => exact sole
  case shut => exact fun _ => open_eq
  case ended =>
    rw [register_eq, shutdown_eq]
    exact fun ended => h.ended (List.mem_of_ne_of_mem (by rintro ⟨⟩) ended)

/-- Something is entered that changes nothing. -/
theorem enrol (h : w.Enrolled) {e : Registration} (fits : e.Fits w.register)
    (opened_eq : opened (e :: w.register) = opened w.register)
    (ended : e = .ended → w.client.shutdown = true) : (w.enrol e).Enrolled where
  lawful := ⟨fits, h.lawful⟩
  opened_eq := opened_eq.trans h.opened_eq
  sole := h.sole
  shut := h.shut
  ended entered := (List.mem_cons.mp entered).elim (fun same => ended same.symm) h.ended

/-- Every move of those who have a client keeps the register. -/
theorem move {σ : Setting} {a b : List Holding × World} (move : Move σ a b) (tame : ¬ σ.raw)
    (elapses : ∀ w w', σ.elapses w w' → w.Enrolled → w'.Enrolled) (h : a.2.Enrolled) :
    b.2.Enrolled := by
  cases move with
  | elapse passes => exact elapses _ _ passes h
  | @aside hand w w' core_eq =>
    have sessions : w'.sessions = w.sessions := congrArg (·.sessions) core_eq
    exact h.of_same (congrArg (·.register) core_eq) (congrArg (·.client.shutdown) core_eq)
      (congrArg (·.transport) core_eq) fun i => by rw [Session.find, Session.find, sessions]
  | shutDown idle =>
    exact { h with shut := fun _ => idle.openTransport?, ended := fun _ => rfl }
  | windUp shut idle =>
    exact h.enrol (h.idle_iff.mpr idle.openTransport?) rfl fun _ => shut
  | crowd | lend | takeSlot | freeSlot | answer | receive | takeBack | resolve | fillSlot =>
    exact h.deal (by rintro _ ⟨⟩)
  | @discard hand w i c =>
    have lost : World.Enrolled ((w.record (.shutdown c.number)).record (.close c.number)) :=
      h.of_same rfl rfl rfl fun _ => rfl
    exact lost.deal (by rintro _ ⟨⟩)
  | @expire hand w i old open_ old_eq =>
    have dealt : (w.deal i (.expired old)).Enrolled := h.deal (by rintro _ ⟨⟩)
    exact dealt.of_same rfl rfl rfl fun _ => rfl
  | @shut hand w i idle current idle_eq =>
    have shut : (Session.find (w.deal i (.shut idle)) i).closed = true := by
      rcases Nat.lt_or_ge i w.sessions.length with here | beyond
      · rw [Session.find_deal here]
        rfl
      · simp [Session.find, World.deal, beyond, Session.absent]
    refine h.closed (t := .session i) ?_ rfl rfl ?_ ?_
    · intro t' found
      rw [openTransport?, current] at found
      exact (Option.some.inj (Option.filter_eq_some_iff.mp found).1).symm
    · rw [openTransport?, Option.filter_eq_none_iff]
      intro t some
      cases current.symm.trans some
      have closed : Client.isClosed (((w.enrol (.closed (.session i))).deal i
        (.shut idle)).closeAll idle) (.session i) = true := shut
      simp [closed]
    · exact fun j open_ => h.sole j (Session.find_deal_open _ open_)
  | @renew hand w s idle running made =>
    have last : (w.sessions ++ [s]).getD w.sessions.length Session.absent = s := by simp
    refine h.made idle running (t := .session w.sessions.length) rfl rfl
      (openTransport?_eq rfl ?_) ?_
    · exact (congrArg (·.closed) last).trans (Ledger.ofConfig_fresh made).closed
    · intro j open_
      rcases Session.find_append open_ with before | rfl
      · exact absurd before (h.not_open idle j)
      · rfl
  | forsake idle =>
    obtain raw | idle := idle
    · exact absurd raw tame
    · exact { h with
        opened_eq := h.idle_iff.mpr idle.openTransport?
        sole := fun i open_ => absurd open_ (h.not_open idle i)
        shut := fun _ => rfl }
  | furnish idle running unwired number =>
    refine h.made idle running (t := .scripted number false) rfl rfl
      (openTransport?_eq rfl rfl) ?_
    exact fun i open_ => absurd open_ (h.not_open idle i)
  | @retire hand w number closed current =>
    refine h.closed (t := .scripted number false) ?_ rfl rfl rfl ?_
    · intro t' found
      rw [openTransport?, current] at found
      obtain ⟨same, open_⟩ := Option.filter_eq_some_iff.mp found
      cases same
      cases closed with
      | true => cases open_
      | false => rfl
    · intro i open_
      cases current.symm.trans (h.sole i open_)
  | @handOver hand w t request running current open_ sends =>
    have found := openTransport?_eq current open_
    rw [base_eq open_]
    refine h.enrol (?_ : t ∈ opened w.register) rfl (by rintro ⟨⟩)
    rw [h.opened_eq, found]
    exact List.mem_singleton_self t
  | closeStream permit succeeded => cases permit <;> exact h.of_same rfl rfl rfl fun _ => rfl
  | putSource raw | takeSource raw | adopt raw | semaphore raw => exact absurd raw tame
  | _ => exact h.of_same rfl rfl rfl fun _ => rfl

end Enrolled

theorem Elapses.enrolled (elapses : Elapses w w') (h : w.Enrolled) : w'.Enrolled := by
  cases elapses <;> exact h.of_same rfl rfl rfl fun _ => rfl

theorem ofClient_enrolled {c : Config} {chance : UInt64} {script : Script}
    (begun : ofClient c chance script = .ok w) : w.Enrolled := by
  obtain ⟨url, -, rfl⟩ := ofClient_eq begun
  constructor
  case lawful => exact trivial
  case opened_eq => rfl
  case sole =>
    intro i open_
    exact absurd (Session.lt_of_open open_) (Nat.not_lt_zero i)
  case shut => exact fun _ => rfl
  case ended => exact fun ended => absurd ended List.not_mem_nil

end World

/-! ### A later call -/

/-- A world under a configuration, whose register goes on from a certain past. -/
structure World.Recalls (c : Config) (past : List Registration) (w : World) : Prop where
  config_eq : w.config = c
  before : past <:+ w.register

section Recalls

variable {α β : Type} {c : Config} {p : Pause} {w : World} {past : List Registration}

theorem Move.register_suffix {raw : Prop} {a b : List Holding × World}
    (move : Move (.ofActs c raw) a b) : a.2.register <:+ b.2.register := by
  cases move with
  | elapse elapses => cases elapses <;> exact List.suffix_refl _
  | aside core_eq => exact congrArg (·.register) core_eq ▸ List.suffix_refl _
  | windUp | shut | renew | furnish | retire | handOver => exact List.suffix_cons _ _
  | closeStream permit succeeded => cases permit <;> exact List.suffix_refl _
  | _ => exact List.suffix_refl _

/-- A job that forgets nothing. -/
def Flow.Remembers (c : Config) (p : Pause) (f : Flow α) : Prop :=
  ∀ past w, w.Recalls c past → f.Ensures p w fun _ => World.Recalls c past

theorem Flow.Trades.remembers {f : Flow α} {mine left : List Holding} {post : α → List Holding}
    (h : Flow.Trades (.ofActs c True) p mine f post left) : f.Remembers c p := by
  intro past w recalls
  have orderly : w.Orderly c True := World.orderly_raw recalls.config_eq
  apply (h w orderly).mono
  intro r w' moves
  have moves : Moves (.ofActs c True) mine w _ w' := moves
  constructor
  case config_eq => exact (moves.orderly orderly).config_eq
  case before =>
    exact moves.keeps (P := fun _ w' => past <:+ w'.register)
      (fun _ _ move before => before.trans move.register_suffix) recalls.before

theorem Flow.Remembers.of_trades {f : Flow α}
    (h : Flow.Trades (.ofActs c True) p [] f (fun _ => []) []) : f.Remembers c p :=
  h.remembers

theorem Flow.Remembers.bind {f : Flow α} {k : α → Flow β} (h : f.Remembers c p)
    (next : ∀ a, (k a).Remembers c p) : (f >>= k).Remembers c p := by
  intro past w recalls
  rw [Flow.ensures_bind]
  apply (h past w recalls).mono
  rintro (f | a) w' recalls
  · exact recalls
  · exact next a past w' recalls

end Recalls

namespace Registration

/-- The request of an attempt is handed to the open transport, and if there is none, to one that is
made for it. -/
def handing (t : Transport) (request : Request) (register : List Registration) :
    List Registration :=
  .handed t request :: if opened register = [] then .made t :: register else register

end Registration

/-- A world in which an attempt was handed over, right after a certain register. -/
def World.Hands (c : Config) (register : List Registration) (w : World) : Prop :=
  ∃ t request, w.Recalls c (Registration.handing t request register)

section Hands

variable {α β : Type} {c : Config} {p : Pause} {w : World} {register : List Registration}

theorem World.Hands.of_same {w' : World} (h : w.Hands c register) (config_eq : w'.config = w.config)
    (register_eq : w'.register = w.register) : w'.Hands c register := by
  obtain ⟨t, request, recalls⟩ := h
  exact ⟨t, request, config_eq.trans recalls.config_eq, register_eq ▸ recalls.before⟩

theorem Flow.Ensures.hands {f : Flow α} {k : α → Flow β}
    (h : f.Ensures p w fun _ => World.Hands c register) (next : ∀ a, (k a).Remembers c p) :
    (f >>= k).Ensures p w fun _ => World.Hands c register := by
  rw [Flow.ensures_bind]
  apply h.mono
  rintro (f | a) w' ⟨t, request, recalls⟩
  · exact ⟨t, request, recalls⟩
  · exact (next a _ w' recalls).mono fun _ _ recalls => ⟨t, request, recalls⟩

/-- A transport can be made. -/
structure World.Makes (w : World) : Prop where
  making : ∀ m ∈ w.script.making.head?, m = .transport
  session : w.script.overWire = true → ∃ s, Session.ofConfig w.config = .ok s

/-- A client that is not shut down, and gets a transport when it needs one. -/
structure World.Supplied (c : Config) (register : List Registration) (w : World) : Prop where
  config_eq : w.config = c
  register_eq : w.register = register
  running : w.client.shutdown = false
  enrolled : w.Enrolled
  makes : w.Makes

theorem World.Supplied.of_same {w' : World} (h : w.Supplied c register)
    (config_eq : w'.config = w.config) (register_eq : w'.register = w.register)
    (shutdown_eq : w'.client.shutdown = w.client.shutdown)
    (transport_eq : w'.transport = w.transport) (sessions_eq : w'.sessions = w.sessions)
    (script_eq : w'.script = w.script) : w'.Supplied c register where
  config_eq := config_eq.trans h.config_eq
  register_eq := register_eq.trans h.register_eq
  running := shutdown_eq.trans h.running
  enrolled := h.enrolled.of_same register_eq shutdown_eq transport_eq fun i => by
    rw [Session.find, Session.find, sessions_eq]
  makes := ⟨script_eq ▸ h.makes.making, script_eq ▸ config_eq ▸ h.makes.session⟩

namespace Client

theorem makeTransport_makes (makes : w.Makes) : makeTransport.Ensures p w fun r w' =>
    ∃ t, r = .ok t ∧ t.base = t ∧ w'.config = w.config ∧ w'.register = .made t :: w.register := by
  have taken : takeMaking.Ensures p w fun m w' =>
      m = .transport ∧ w' = { w with script := w'.script } ∧
        w'.script.overWire = w.script.overWire := by
    rw [takeMaking, Job.ensures_modifyGet]
    cases making : w.script.making with
    | nil => exact ⟨rfl, rfl, rfl⟩
    | cons m rest => exact ⟨makes.making m (by simp [making]), rfl, rfl⟩
  rw [makeTransport, Flow.ensures_bind, Flow.ensures_lift]
  apply taken.mono
  rintro _ w₁ ⟨rfl, same, overWire⟩
  rw [same]
  simp only [Flow.ensures_bind, Flow.ensures_modify, Flow.ensures_get, Flow.ensures_ite]
  split
  · rename_i wired
    obtain ⟨session, made⟩ := makes.session (overWire.symm.trans wired)
    simp only [made, Flow.ensures_bind, Flow.ensures_modify, Flow.ensures_lift, Job.ensures_enrol]
    exact ⟨_, rfl, rfl, rfl, rfl⟩
  · exact ⟨_, rfl, rfl, rfl, rfl⟩

/-- An attempt is handed over if a transport can be made. -/
theorem handOver_hands (supplied : w.Supplied c register) (request : Request) :
    (handOver request).Ensures p w fun _ => World.Hands c register := by
  obtain ⟨rfl, rfl, -, enrolled, makes⟩ := supplied
  have found : transport.Ensures p w fun r w' => ∃ t, r = .ok t ∧ t.base = t ∧
      w'.config = w.config ∧
        w'.register = if opened w.register = [] then .made t :: w.register else w.register := by
    have makesOne (none : w.openTransport? = none) :
        makeTransport.Ensures p w fun r w' => ∃ t, r = .ok t ∧ t.base = t ∧
          w'.config = w.config ∧
            w'.register = if opened w.register = [] then .made t :: w.register
              else w.register := by
      simp only [if_pos (enrolled.idle_iff.mpr none)]
      exact makeTransport_makes makes
    simp only [transport, Flow.ensures_bind, Flow.ensures_get]
    split
    · rename_i t current
      rw [Flow.ensures_ite]
      split
      · rename_i closed
        exact makesOne (by simp [World.openTransport?, current, closed])
      · rename_i open_
        have open_ : isClosed w t = false := by simpa using open_
        have some : opened w.register ≠ [] := by
          simp [enrolled.opened_eq, World.openTransport?_eq current open_]
        exact ⟨t, rfl, World.base_eq open_, rfl, (if_neg some).symm⟩
    · rename_i none
      exact makesOne (by simp [World.openTransport?, none])
  rw [handOver, Flow.ensures_bind]
  apply found.mono
  rintro r w' ⟨t, rfl, base, config_eq, register_eq⟩
  simp only [Flow.ensures_bind, Flow.ensures_lift, Job.ensures_enrol, Flow.ensures_pure, base]
  refine ⟨t, request, config_eq, ?_⟩
  rw [World.enrol, register_eq]
  exact List.suffix_refl _

end Client

namespace Retry

variable {call : Call} {kind : Answering α} {things : α → List Holding}

/-- Whatever an attempt comes to, it was handed over. -/
theorem attemptOnce_hands (clears : kind.Clears (.ofActs c True) p things) {attempt : Flow α}
    (handed : attempt.Ensures p w fun _ => World.Hands c register) :
    (attemptOnce call kind attempt).Ensures p w fun _ => World.Hands c register := by
  have judges (answer : α) : Flow.Trades (.ofActs c True) p (things answer ++ [])
      (judge call kind answer) (·.holdings things ++ []) [] :=
    trades_judge clears (fun _ _ => trivial) answer
  have judged : (do judge call kind (← attempt) : Flow (Attempt α)).Ensures p w fun _ =>
      World.Hands c register := handed.hands fun answer => (judges answer).remembers
  refine Flow.Ensures.hands ((Flow.ensures_attempt _).mpr judged) fun result => .of_trades ?_
  rcases result with f | result
  · cases f with
    | client e => exact .ite (fun _ => .pure rfl) fun _ => .get fun _ => .throw _
    | _ => exact call.trades_fail _ _
  · exact .pure rfl

theorem attemptThen_hands (clears : kind.Clears (.ofActs c True) p things)
    {attempt : Millis → Flow α} (supplied : w.Supplied c register)
    (inTime : call.elapsed w.now < call.budget) (number : Nat)
    (handed : ∀ timeout w', w'.Supplied c register →
      (attempt timeout).Ensures p w' fun _ => World.Hands c register)
    {next : ClientError → Millis → Flow (α × Nat)}
    (goes : ∀ e wait, (next e wait).Remembers c p) :
    (attemptThen call kind attempt number next).Ensures p w fun _ => World.Hands c register := by
  have allows : (allow call number).Ensures p w fun r w' =>
      ∃ timeout, r = .ok timeout ∧ w'.Supplied c register := by
    simp only [allow, Flow.ensures_bind, Flow.ensures_get, Flow.ensures_ite, supplied.running,
      Bool.false_eq_true, if_false, if_neg (Int.not_le.mpr inTime), Flow.ensures_lift]
    exact ⟨_, rfl, supplied.of_same rfl rfl rfl rfl rfl rfl⟩
  rw [attemptThen, Flow.ensures_bind]
  apply allows.mono
  rintro _ w' ⟨timeout, rfl, supplied⟩
  refine Flow.Ensures.hands (attemptOnce_hands clears (handed timeout w' supplied)) fun result => ?_
  cases result with
  | accepted answer => exact fun _ _ recalls => recalls
  | refused e =>
    have waits : Flow.Remembers c p (liftM (waitAfter number e)) :=
      .of_trades (.lift (trades_waitAfter number e))
    refine waits.bind fun wait => ?_
    cases wait with
    | none =>
      exact .of_trades (.bind (.lift (.notice _)) fun _ => .throw _)
    | some wait => exact goes e wait

/-- The first attempt is handed over. -/
theorem run_hands (keeps : p.Keeps (.ofActs c True))
    (clears : kind.Clears (.ofActs c True) p things) {attempt : Millis → Flow α}
    (tried : ∀ mine, (Setting.ofActs c True).Entitled mine → ∀ t,
      Flow.RunningTrades (.ofActs c True) p mine (attempt t) (things · ++ mine) mine)
    (supplied : w.Supplied c register) (inTime : call.elapsed w.now < call.budget)
    (some : 1 ≤ c.retryAttempts)
    (handed : ∀ timeout w', w'.Supplied c register →
      (attempt timeout).Ensures p w' fun _ => World.Hands c register) :
    (run call kind attempt).Ensures p w fun _ => World.Hands c register := by
  have anytime (t : Instant) : (Setting.ofActs c True).awaited t := trivial
  obtain ⟨left, total⟩ : ∃ left, c.retryAttempts.toNat = left + 1 :=
    ⟨c.retryAttempts.toNat - 1, by omega⟩
  simp only [run, Flow.ensures_bind, Flow.ensures_get, supplied.config_eq, total]
  cases left with
  | zero =>
    refine attemptThen_hands clears supplied inTime 1 handed fun e wait => ?_
    exact .of_trades (.bind (.lift (trades_conclude _ _ _)) fun _ => .throw _)
  | succ left =>
    refine attemptThen_hands clears supplied inTime 1 handed fun e wait => ?_
    have waits : Flow.Remembers c p (waitOut call 1 e wait) :=
      .of_trades (trades_waitOut keeps anytime 1 e wait)
    refine waits.bind fun _ => ?_
    have goesOn : Flow.Trades (.ofActs c True) p [.call (.trying call 1)]
        (attempts call kind attempt left 2)
        (fun r => things r.1 ++ [.call .leaving]) [.call .leaving] :=
      trades_attempts keeps anytime clears tried left ((Nat.add_comm ..).trans total.symm)
    exact goesOn.remembers

end Retry

namespace Client

section Calls

variable {messages : List Message} {deadline : Instant} (keeps : p.Keeps (.ofActs c True))
include keeps

theorem sendUnary_hands (request : Request) (timeout : Millis) (supplied : w.Supplied c register) :
    (sendUnary request timeout).Ensures p w fun _ => World.Hands c register :=
  (handOver_hands supplied request).hands fun t =>
    .of_trades (trades_sendOver keeps (fun _ => trivial) (.inl trivial) trivial timeout t)

theorem sendStreaming_hands (request : Request) (timeout : Millis)
    (supplied : w.Supplied c register) :
    (sendStreaming request timeout).Ensures p w fun _ => World.Hands c register :=
  (handOver_hands supplied request).hands fun t => by
    have streams : Flow.Trades (.ofActs c True) p [] (streamOver request timeout t)
        (·.holdings ++ []) [] :=
      trades_streamOver keeps (fun _ => trivial) (.inl trivial) trivial timeout t
    exact streams.remembers

omit keeps in
/-- A call whose time is not up, and whose texts are well-formed, comes to its attempts. -/
theorem begun_hands (texts : c.areTexts messages = true)
    (time : 0 < remainingUntil deadline w.now) (supplied : w.Supplied c register) {stream : Bool}
    {rest : Call → Request → Flow α}
    (goes : ∀ (call : Call) request w', w'.Supplied c register →
      call.elapsed w'.now < call.budget →
        (rest call request).Ensures p w' fun _ => World.Hands c register) :
    (do
      let call ← beginCall deadline
      rest call (← makeRequest messages stream call.key) : Flow α).Ensures p w fun _ =>
        World.Hands c register := by
  apply begun_ensures
  · intro chance unwritten
    rw [supplied.config_eq] at unwritten
    exact absurd (unwritten.symm.trans texts) Bool.false_ne_true
  · intro call request chance start_eq budget_eq _
    have inTime : call.elapsed w.now < call.budget := by
      rw [budget_eq, Call.elapsed, Instant.since, start_eq, Int.sub_self]
      exact time
    exact goes call request _ (supplied.of_same rfl rfl rfl rfl rfl rfl) inTime

theorem chatAdmitted_hands (texts : c.areTexts messages = true) (some : 1 ≤ c.retryAttempts)
    (time : 0 < remainingUntil deadline w.now) (supplied : w.Supplied c register) :
    (chatAdmitted messages deadline).Ensures p w fun _ => World.Hands c register := by
  refine Flow.Ensures.hands ?_ ?_
  · apply begun_hands texts time supplied
    intro call request w' supplied inTime
    refine Flow.Ensures.hands ?_ fun _ _ _ recalls => recalls
    exact Retry.run_hands keeps Answering.unary_clears
      (fun mine entitled t => trades_sendUnary keeps (fun _ => trivial) entitled trivial t)
      supplied inTime some fun timeout _ => sendUnary_hands keeps request timeout
  · rintro ⟨call, response, attempts⟩
    exact .of_trades (trades_decode call response attempts)

theorem streamAdmitted_hands (texts : c.areTexts messages = true) (some : 1 ≤ c.retryAttempts)
    (time : 0 < remainingUntil deadline w.now) (supplied : w.Supplied c register) :
    (streamAdmitted messages deadline).Ensures p w fun _ => World.Hands c register := by
  apply begun_hands texts time supplied
  intro call request w' supplied inTime
  refine Flow.Ensures.hands ?_ ?_
  · exact Retry.run_hands keeps (Answering.streaming_clears keeps)
      (fun mine entitled t => trades_sendStreaming keeps (fun _ => trivial) entitled trivial t)
      supplied inTime some fun timeout _ => sendStreaming_hands keeps request timeout
  · rintro ⟨source, attempts⟩ past w'' recalls
    exact ⟨recalls.config_eq, recalls.before⟩

omit keeps in
/-- What a call does besides does not matter. -/
theorem counted_hands (atOnce : AtOnce w deadline) (supplied : w.Supplied c register)
    {rest : Flow α}
    (goes : ∀ w', w'.Supplied c register → w'.now = w.now →
      rest.Ensures p w' fun _ => World.Hands c register) :
    (counted do
      obtainPermit deadline
      Job.note .admitted
      rest).Ensures p w fun _ => World.Hands c register := by
  have begun : AtOnce ((w.mapUsage Usage.addCall).note .begun) deadline :=
    ⟨atOnce.running, atOnce.room, atOnce.within⟩
  simp only [ensures_counted, Flow.ensures_bind, Flow.ensures_lift, Job.ensures_note]
  apply (obtainPermit_at_once deadline).mono
  intro r w₁ obtained
  obtain ⟨rfl, rfl⟩ := obtained begun
  have admitted : World.Supplied c register
      ((((w.mapUsage Usage.addCall).note .begun).mapSemaphore Semaphore.take).note .admitted) :=
    supplied.of_same rfl rfl rfl rfl rfl rfl
  apply (goes _ admitted rfl).mono
  intro r w₂ hands
  cases r with
  | ok a => exact hands
  | error f => exact hands.of_same rfl rfl

end Calls

end Client

end Hands

namespace World

variable {c : Config} {w : World}

/-- What a register tells of the transports of a client. -/
structure Registered (w : World) : Prop where
  /-- Every attempt is handed to a transport that is open at that moment. -/
  handed : ∀ t request past, .handed t request :: past <:+ w.register → t ∈ opened past
  /-- At most one transport is open at a time. -/
  sole : ∀ past, past <:+ w.register → (opened past).length ≤ 1
  /-- No transport is made any more once the client was shut down. -/
  unmade : ∀ t past, .made t :: past <:+ w.register → .ended ∉ past
  /-- All transports are closed by then. -/
  ended : ∀ past, past <:+ w.register → .ended ∈ past → opened past = []
  /-- What was made and not closed since is open. -/
  opens : ∀ t, t ∈ opened w.register ↔ w.Opens t
  shut : w.client.shutdown = true → ∀ t, ¬ w.Opens t

theorem Enrolled.registered (h : w.Enrolled) : w.Registered := by
  have opens (t : Transport) : t ∈ opened w.register ↔ w.Opens t := by
    rw [h.opened_eq, Option.mem_toList, openTransport?, Option.filter_eq_some_iff]
    cases t with
    | scripted number closed => cases closed <;> simp [Opens, Client.isClosed]
    | session i =>
      constructor
      · exact fun found => by simpa [Client.isClosed, Opens] using found.2
      · exact fun open_ => ⟨h.sole i open_, by simpa [Client.isClosed, Opens] using open_⟩
  constructor
  case handed => exact fun t request past before => (h.lawful.of_suffix before).1
  case sole => exact fun past before => (h.lawful.of_suffix before).opened_le
  case unmade => exact fun t past before => (h.lawful.of_suffix before).1.2
  case ended => exact fun past before => (h.lawful.of_suffix before).opened_ended
  case opens => exact opens
  case shut =>
    intro shut t open_
    have found := (opens t).mpr open_
    rw [h.idle_iff.mpr (h.shut shut)] at found
    cases found

/-- A call with these messages, until this deadline, comes to an attempt, and a transport can be
made for it. -/
structure Ready (w : World) (messages : List Message) (deadline : Instant) : Prop where
  running : w.client.shutdown = false
  permits : w.streams.values.countP (!·.isFinished) < w.config.maxConcurrent
  makes : w.Makes
  some_messages : messages ≠ []
  texts : w.config.areTexts messages = true
  time : 0 < remainingUntil deadline w.now

/-- Permits are out for unfinished streams only. -/
theorem hasRoom_of_reconciled (reconciled : Reconciled c [] w)
    (some : w.streams.values.countP (!·.isFinished) < c.maxConcurrent) :
    w.client.semaphore.hasRoom = true := by
  have none : Diary.underway w.diary = [] := List.forall₂_nil_left_iff.mp reconciled.reckoned.agree
  have inUse := reconciled.reckoned.counted.inUse
  rw [reconciled.reckoned.unfinished_eq, List.nil_append, streams_lodged, none] at inUse
  rw [Semaphore.hasRoom, inUse, reconciled.reckoned.capacity_eq]
  simpa using some

/-- The last thing that is entered when a client is shut down is that it has ended. -/
theorem happen_shutdown_register (p : Pause) (w : World) :
    ∃ past, (w.happen .shutdown p).register = .ended :: past := by
  have ended : (Act.perform .shutdown).Ensures p w fun _ w' =>
      ∃ past, w'.register = .ended :: past := by
    simp only [Act.perform, Client.shutdown, Job.ensures_bind, Job.ensures_modify, Job.ensures_mark,
      Job.ensures_enrol, Job.ensures_pure]
    exact .of_all fun _ _ => ⟨_, rfl⟩
  exact ended

/-- Whatever those do who have a client, and whatever becomes of the transports that are asked for:
every attempt is handed to an open transport, no two transports are open at once, and none is made
or open after the client was shut down. Until then every later call gets a transport as soon as one
can be made. -/
theorem steps_registered {chance : UInt64} {script : Script}
    (begun : ofClient c chance script = .ok w) (acts : List Act)
    (allowed : ∀ act ∈ acts, act.ofClient) :
    (w.steps acts).Registered ∧
      (∀ (p : Pause) (w' : World), ∃ past, (w'.happen .shutdown p).register = .ended :: past) ∧
      ∀ messages deadline, (w.steps acts).Ready messages deadline → ∀ n : Nat,
        (Client.chat messages deadline).Ensures (.acts n) (w.steps acts)
          (fun _ => Hands c (w.steps acts).register) ∧
        (Client.stream messages deadline).Ensures (.acts n) (w.steps acts)
          (fun _ => Hands c (w.steps acts).register) := by
  obtain ⟨orderly, reconciled⟩ := ofClient_reconciled begun
  obtain ⟨url, valid, -⟩ := ofClient_eq begun
  have moves : Moves (.ofActs c False) [] w [] (w.steps acts) :=
    steps_moves orderly fun act member => .inr (allowed act member)
  have enrolled : (w.steps acts).Enrolled := moves.keeps (P := fun _ w => w.Enrolled)
    (fun _ _ move => Enrolled.move move id fun _ _ => Elapses.enrolled) (ofClient_enrolled begun)
  have reconciled := steps_reconciled begun allowed
  have config_eq : (w.steps acts).config = c := (moves.orderly orderly).config_eq
  refine ⟨enrolled.registered, happen_shutdown_register, ?_⟩
  rintro messages deadline ⟨running, permits, makes, some_messages, texts, time⟩ n
  rw [config_eq] at permits texts
  have filled : messages.isEmpty = false := List.isEmpty_eq_false_iff.mpr some_messages
  have early : (w.steps acts).now ≤ deadline := by
    by_contra late
    rw [remainingUntil, if_pos (Int.le_of_not_le late)] at time
    exact Int.lt_irrefl 0 time
  have atOnce : Client.AtOnce (w.steps acts) deadline :=
    ⟨running, hasRoom_of_reconciled reconciled permits, early⟩
  have supplied : (w.steps acts).Supplied c (w.steps acts).register :=
    ⟨config_eq, rfl, running, enrolled, makes⟩
  have keeps : (Pause.acts n).Keeps (.ofActs c True) := Pause.acts_keeps n
  have some := (Config.validate_ok valid).1
  constructor
  · rw [Client.chat, filled]
    apply Client.counted_hands atOnce supplied
    intro w' supplied now
    refine Flow.Ensures.hands ?_ fun completion past w'' recalls => ?_
    · rw [Flow.ensures_andAlways, Client.ensures_succeeding]
      apply (Client.chatAdmitted_hands keeps texts some (now ▸ time) supplied).mono
      rintro (f | completion) w'' hands
      · exact hands.of_same rfl rfl
      · exact hands.of_same rfl rfl
    · exact ⟨recalls.config_eq, recalls.before⟩
  · rw [Client.stream, filled]
    apply Client.counted_hands atOnce supplied
    intro w' supplied now
    refine Flow.Ensures.hands ?_ ?_
    · rw [Flow.ensures_onFailure]
      apply (Client.streamAdmitted_hands keeps texts some (now ▸ time) supplied).mono
      rintro (f | result) w'' hands
      · exact hands.of_same rfl rfl
      · exact hands
    · rintro ⟨call, source⟩ past w'' recalls
      exact ⟨recalls.config_eq, recalls.before⟩

/-- No transport can be made for the first call; while the second one waits to try again, its
transport is closed, and it gets another one. A third call is ready. -/
theorem steps_registered_renewed :
    let c : Config := { clientTag := [], maxConcurrent := 1 }
    let soon : Headers := [(ascii "retry-after", ascii "1")]
    let script : Script := {
      replies := [{ status := 429, headers := soon }, { body := ascii "1" }]
      making := [.failure []] }
    let hi : List Message := [{ role := [], content := [104, 105] }]
    let acts : List Act := [.chat hi none, .later 5 .closeSession, .chat hi none, .closeSession]
    ∃ w, ofClient c 1 script = .ok w ∧ (∀ act ∈ acts, act.ofClient) ∧
      (w.steps acts).made = 2 ∧ (w.steps acts).register.length = 6 ∧
      (w.steps acts).Registered ∧ (w.steps acts).Ready hi 9000000000 ∧
      (Client.chat hi 9000000000).Ensures (.acts 0) (w.steps acts)
        (fun _ => Hands c (w.steps acts).register) := by
  intro c soon script hi acts
  let w : World := {
    config := c, target := chatPath, client := .ofConfig c 1, chance := .ofSeed 1, script }
  have begun : ofClient c 1 script = .ok w := by rfl
  have allowed : ∀ act ∈ acts, act.ofClient := by decide
  have made : (w.steps acts).made = 2 := by decide +kernel
  have length : (w.steps acts).register.length = 6 := by decide +kernel
  have ready : (w.steps acts).Ready hi 9000000000 := by
    have making : (w.steps acts).script.making.length = 0 := by decide +kernel
    have overWire : (w.steps acts).script.overWire = false := by decide +kernel
    constructor
    case running => decide +kernel
    case permits => decide +kernel
    case makes =>
      refine ⟨fun m member => ?_, fun wired => ?_⟩
      · rw [List.eq_nil_of_length_eq_zero making] at member
        cases member
      · exact absurd (overWire.symm.trans wired) Bool.false_ne_true
    case some_messages => exact List.cons_ne_nil _ _
    case texts => decide +kernel
    case time => decide +kernel
  obtain ⟨registered, -, later⟩ := steps_registered begun acts allowed
  exact ⟨w, begun, allowed, made, length, registered, ready, (later hi _ ready 0).1⟩

end World

end Parley
