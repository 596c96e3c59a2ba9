import Mathlib.Algebra.BigOperators.Group.Finset.Piecewise
import Mathlib.Algebra.Order.BigOperators.Group.Finset
import Parley.Proofs.Failures
import Parley.Proofs.Reckoning

/-!
Connections and permits. A call asks for a connection only while it has a permit, and gives the
permit back after the connection; a stream has both. So every connection that is not idle has a
permit that covers it, and because only one session at a time is open, and the others have no idle
connections, all sessions of a client together never have more connections than there are permits.
Nobody waits for a connection then.
-/
namespace Parley

open Ledger

/-- Whether a call has a permit. -/
def Stage.isAdmitted : Stage → Bool
  | .waiting => false
  | _ => true

namespace Holding

/-- Whether something takes a slot of a session. -/
def isLine : Holding → Bool
  | .connection .. | .slot _ => true
  | _ => false

/-- Whether something is a call that was let in, or a stream. -/
def isAdmitted : Holding → Bool
  | .call stage => stage.isAdmitted
  | .stream _ => true
  | _ => false

def lines (all : List Holding) : Nat := all.countP isLine

def admissions (all : List Holding) : Nat := all.countP isAdmitted

/-- Whatever takes a slot is covered by a call or a stream further down. -/
def Covered : List Holding → Prop
  | [] => True
  | h :: rest => lines (h :: rest) ≤ admissions (h :: rest) ∧ Covered rest

section Covers
variable {a b : Holding} {front hand all : List Holding}

@[simp] theorem lines_cons (h : Holding) : lines (h :: all) = lines all + h.isLine.toNat := by
  rw [lines, List.countP_cons]
  cases h.isLine <;> rfl

@[simp] theorem admissions_cons (h : Holding) :
    admissions (h :: all) = admissions all + h.isAdmitted.toNat := by
  rw [admissions, List.countP_cons]
  cases h.isAdmitted <;> rfl

@[simp] theorem lines_append : lines (hand ++ all) = lines hand + lines all := List.countP_append

@[simp] theorem admissions_append : admissions (hand ++ all) = admissions hand + admissions all :=
  List.countP_append

theorem admissions_eq (all : List Holding) :
    admissions all = streams all + (stages all).countP Stage.isAdmitted := by
  induction all with
  | nil => rfl
  | cons h all ih =>
    rw [admissions_cons, ih]
    cases h with
    | call stage =>
      rw [streams_call, stages_call, List.countP_cons, Nat.add_assoc, isAdmitted]
      cases stage.isAdmitted <;> rfl
    | stream permit =>
      rw [streams_stream, stages_stream, isAdmitted]
      exact Nat.add_right_comm ..
    | _ => rfl

theorem Covered.le (h : Covered all) : lines all ≤ admissions all := by
  cases all with
  | nil => exact Nat.le_refl 0
  | cons a all => exact h.1

theorem Covered.of_append (h : Covered (front ++ hand)) : Covered hand := by
  induction front with
  | nil => exact h
  | cons a front ih => exact ih h.2

/-- It matters only whether something takes a slot, and whether it was let in. -/
theorem Covered.replace (h : Covered (front ++ a :: hand)) (line : a.isLine = b.isLine)
    (admitted : a.isAdmitted = b.isAdmitted) : Covered (front ++ b :: hand) := by
  induction front with
  | nil => exact ⟨by simpa [line, admitted] using h.1, h.2⟩
  | cons first front ih => exact ⟨by simpa [line, admitted] using h.1, ih h.2⟩

/-- A connection is as good as any other thing that takes a slot. -/
theorem Covered.connection {i : Nat} {c : Connection} (h : Covered (a :: hand))
    (line : a.isLine = true) (admitted : a.isAdmitted = false) :
    Covered (.connection i c :: hand) := by
  have whole : Covered ([] ++ a :: hand) := h
  exact whole.replace line admitted

theorem Covered.push (bare : a.isLine = false) (h : Covered hand) : Covered (a :: hand) := by
  have le := h.le
  constructor
  · simp only [lines_cons, admissions_cons, bare, Bool.toNat_false]
    omega
  · exact h

/-- Whoever was let in may take a slot. -/
theorem Covered.take (line : b.isLine = true) (admitted : a.isAdmitted = true)
    (bare : a.isLine = false) (h : Covered (a :: hand)) : Covered (b :: a :: hand) := by
  have le := h.2.le
  constructor
  · simp only [lines_cons, admissions_cons, line, admitted, bare, Bool.toNat_true, Bool.toNat_false]
    omega
  · exact h

theorem Covered.source (s : Source) (admitted : a.isAdmitted = true) (bare : a.isLine = false)
    (h : Covered (a :: hand)) : Covered (s.holdings ++ a :: hand) := by
  rcases s with b | ⟨session, _ | c, status, headers⟩
  · exact h
  · exact h
  · exact h.take rfl admitted bare

theorem Covered.stream (s : EventStream) (h : Covered hand) : Covered (s.holdings ++ hand) := by
  cases s with
  | finished => exact h
  | unfinished s =>
    have opened : Covered (.stream s.permit :: hand) := h.push rfl
    rw [EventStream.holdings, List.append_assoc]
    exact opened.source s.source rfl rfl

theorem covered_streams (all : List EventStream) : Covered (all.flatMap EventStream.holdings) := by
  induction all with
  | nil => exact trivial
  | cons s all ih => exact ih.stream s

end Covers

end Holding

/-- No session was ever found full, and at no time did all sessions together have more connections
than one of them may have. -/
structure Sparing (c : Config) (fresh : Session) (journal : List Deal) : Prop where
  uncrowded : ∀ d ∈ journal, d.dealing ≠ .crowded
  opened_le : ∀ past, past <:+ journal → ∀ n,
    ∑ i ∈ Finset.range n, (replay fresh (tale i past)).opened ≤ c.maxConcurrent

/-- One of several numbers is one greater. -/
theorem sum_le_succ {f g : Nat → Nat} {j : Nat} (step : ∀ i, f i = g i + if j = i then 1 else 0)
    (n : Nat) : ∑ i ∈ Finset.range n, f i ≤ ∑ i ∈ Finset.range n, g i + 1 := by
  simp only [step, Finset.sum_add_distrib, Finset.sum_ite_eq]
  split <;> omega

namespace Sparing

variable {c : Config} {fresh : Session} {journal : List Deal} {d : Deal}

theorem cons (h : Sparing c fresh journal) (other : d.dealing ≠ .crowded)
    (room : ∀ n, ∑ i ∈ Finset.range n, (replay fresh (tale i (d :: journal))).opened ≤
      c.maxConcurrent) : Sparing c fresh (d :: journal) := by
  constructor
  case uncrowded => exact List.forall_mem_cons.mpr ⟨other, h.uncrowded⟩
  case opened_le =>
    intro past before
    rcases List.suffix_cons_iff.mp before with rfl | before
    · exact room
    · exact h.opened_le past before

/-- What is done besides opening takes no slots. -/
theorem pass (h : Sparing c fresh journal) (other : d.dealing ≠ .crowded)
    (frees : d.dealing ≠ .opening) : Sparing c fresh (d :: journal) := by
  apply h.cons other
  intro n
  apply le_trans (Finset.sum_le_sum _) (h.opened_le journal (List.suffix_refl _) n)
  intro i _
  by_cases same : d.session = i
  · rw [tale_cons_self same, replay]
    cases dealing : d.dealing with
    | opening => exact absurd dealing frees
    | expired | shut | abandoned | discarded => exact Nat.sub_le ..
    | _ => exact Nat.le_refl _
  · rw [tale_cons_of_ne same]

/-- A slot is taken. -/
theorem opening (h : Sparing c fresh journal) (opens : d.dealing = .opening)
    (room : ∀ n, ∑ i ∈ Finset.range n, (replay fresh (tale i journal)).opened < c.maxConcurrent) :
    Sparing c fresh (d :: journal) := by
  have other : d.dealing ≠ .crowded := by
    rw [opens]
    exact nofun
  apply h.cons other
  intro n
  have opened (i : Nat) : (replay fresh (tale i (d :: journal))).opened =
      (replay fresh (tale i journal)).opened + if d.session = i then 1 else 0 := by
    by_cases same : d.session = i
    · rw [tale_cons_self same, replay, opens, if_pos same]
      rfl
    · rw [tale_cons_of_ne same, if_neg same, Nat.add_zero]
  exact le_trans (sum_le_succ opened n) (room n)

end Sparing

namespace Holding

/-- Every connection and every slot belongs to one session. -/
theorem sum_sessions_le (all : List Holding) (n : Nat) :
    ∑ i ∈ Finset.range n, ((connections i all).length + slots i all) ≤ lines all := by
  induction all with
  | nil => simp [connections, slots]
  | cons h all ih =>
    cases h with
    | connection j c =>
      have split (i : Nat) : (connections i (.connection j c :: all)).length +
          slots i (.connection j c :: all) =
            ((connections i all).length + slots i all) + if j = i then 1 else 0 := by
        by_cases same : j = i
        · subst same
          rw [connections_self, slots_connection, List.length_cons, if_pos rfl, Nat.add_right_comm]
        · rw [connections_of_ne same, slots_connection, if_neg same, Nat.add_zero]
      rw [lines_cons]
      exact le_trans (sum_le_succ split n) (Nat.succ_le_succ ih)
    | slot j =>
      have split (i : Nat) : (connections i (.slot j :: all)).length + slots i (.slot j :: all) =
          ((connections i all).length + slots i all) + if j = i then 1 else 0 := by
        by_cases same : j = i
        · subst same
          rw [connections_slot, slots_self, if_pos rfl, Nat.add_assoc]
        · rw [connections_slot, slots_of_ne same, if_neg same, Nat.add_zero]
      rw [lines_cons]
      exact le_trans (sum_le_succ split n) (Nat.succ_le_succ ih)
    | _ => exact ih

end Holding

/-- What sessions and permits have to do with each other, in a world where bodies and permits are
only those of calls. -/
structure Spared (c : Config) (fresh : Session) (hand : List Holding) (w : World) : Prop where
  covered : Holding.Covered hand
  sources_eq : w.sources = []
  current : ∀ i, (Session.find w i).closed = false → w.transport = some (.session i)
  sparing : Sparing c fresh w.journal

namespace Session
variable {w : World} {i j : Nat}

theorem after_closed (s : Session) (now : Instant) (dealing : Dealing)
    (open_ : (s.after now dealing).closed = false) : s.closed = false := by
  cases dealing with
  | shut => cases open_
  | _ => exact open_

/-- A session that is open once another one was made was open before, or is that one. -/
theorem find_append {s : Session}
    (open_ : (find { w with sessions := w.sessions ++ [s] } j).closed = false) :
    (find w j).closed = false ∨ j = w.sessions.length := by
  rcases Nat.lt_trichotomy j w.sessions.length with before | same | beyond
  · left
    simpa [find, List.getElem?_append_left before] using open_
  · exact .inr same
  · have within := lt_of_open open_
    rw [List.length_append, List.length_singleton] at within
    omega

/-- No session that was closed is open again. -/
theorem find_deal_open (dealing : Dealing)
    (open_ : (find (w.deal i dealing) j).closed = false) : (find w j).closed = false := by
  by_cases same : i = j
  · subst same
    rw [find_deal (by simpa [World.deal] using lt_of_open open_)] at open_
    exact after_closed _ _ _ open_
  · have found : find (w.deal i dealing) j = find w j := by
      simp [find, World.deal, same]
    rwa [found] at open_

end Session

theorem Stage.admitted_eq {most : Nat} {stages : List Stage} {calls : List Underway}
    (agree : List.Forall₂ (Agrees most) stages calls) :
    calls.countP (·.admitted) = stages.countP isAdmitted := by
  induction agree with
  | nil => rfl
  | @cons stage call _ _ first _ ih =>
    rw [List.countP_cons, List.countP_cons, ih]
    cases stage with
    | waiting => simp [isAdmitted, first.1]
    | admitted => simp [isAdmitted, first.1]
    | trying own k => simp [isAdmitted, first.1]
    | leaving => simp [isAdmitted, first.1]

/-- Every permit that is out belongs to a call that was let in, or to a stream. -/
theorem Reconciled.admissions_eq {c : Config} {hand : List Holding} {w : World}
    (h : Reconciled c hand w) :
    Holding.admissions (hand ++ w.lodged) = w.client.semaphore.inUse := by
  have inUse := h.reckoned.counted.inUse
  have unfinished_eq := h.reckoned.unfinished_eq
  have admitted := Stage.admitted_eq h.reckoned.agree
  rw [Holding.admissions_eq, Holding.stages_append, World.stages_lodged, List.append_nil]
  omega

namespace Spared

open Holding

variable {c : Config} {fresh : Session} {hand hand' : List Holding} {w w' : World} {i : Nat}

theorem of_core (h : Spared c fresh hand w) (core_eq : w'.core = w.core) :
    Spared c fresh hand w' :=
  have spared : Spared c fresh hand w.core := { h with }
  have spared : Spared c fresh hand w'.core := core_eq ▸ spared
  { spared with }

/-- A session does something for which it takes no slot. -/
theorem deal (h : Spared c fresh hand w) (covered : Covered hand') {dealing : Dealing}
    (other : dealing ≠ .crowded) (frees : dealing ≠ .opening) :
    Spared c fresh hand' (w.deal i dealing) where
  covered := covered
  sources_eq := h.sources_eq
  current j open_ := h.current j (Session.find_deal_open dealing open_)
  sparing := h.sparing.pass other frees

/-- No session has idle connections if the current one has none. -/
theorem idle_eq (spared : Spared c fresh hand w) (holds : Holds fresh hand w)
    (open_ : (Session.find w i).closed = false) (idle : (Session.find w i).idle = []) (j : Nat) :
    (replay fresh (tale j w.journal)).idle = [] := by
  rcases Nat.lt_or_ge j w.sessions.length with here | beyond
  · rw [← holds.find_eq here]
    cases closed : (Session.find w j).closed with
    | true =>
      rw [holds.find_eq here] at closed ⊢
      exact (holds.balanced j).idle_of_closed closed
    | false =>
      have same := (spared.current i open_).symm.trans (spared.current j closed)
      cases same
      exact idle
  · rw [holds.unmade j beyond]
    exact holds.new.idle

/-- All sessions together have less connections than there are permits, when somebody has a permit
and finds no idle connection in the current one. -/
theorem sum_opened_lt {own : Call} {k : Nat} {rest : List Holding}
    (spared : Spared c fresh (.call (.trying own k) :: rest) w)
    (holds : Holds fresh (.call (.trying own k) :: rest) w)
    (reconciled : Reconciled c (.call (.trying own k) :: rest) w)
    (open_ : (Session.find w i).closed = false) (idle : (Session.find w i).idle = []) (n : Nat) :
    ∑ j ∈ Finset.range n, (replay fresh (tale j w.journal)).opened < c.maxConcurrent := by
  have opened (j : Nat) : (replay fresh (tale j w.journal)).opened =
      (connections j (rest ++ w.lodged)).length + slots j (rest ++ w.lodged) := by
    have tallied := holds.tallied j
    have slots_eq :
        slots j (.call (.trying own k) :: (rest ++ w.lodged)) = slots j (rest ++ w.lodged) := by
      simp [slots, isSlot]
    rw [(holds.balanced j).opened_eq, spared.idle_eq holds open_ idle j,
      tallied.held_perm.length_eq, tallied.openings_eq, List.length_nil, Nat.zero_add,
      List.cons_append, slots_eq]
    rfl
  have lodged : lines w.lodged ≤ admissions w.lodged := by
    have covered := (covered_streams w.streams.values).le
    rwa [World.lodged, spared.sources_eq]
  have all : admissions (.call (.trying own k) :: rest ++ w.lodged) ≤ c.maxConcurrent := by
    rw [reconciled.admissions_eq]
    exact reconciled.reckoned.counted.inUse_le
  have sum := sum_sessions_le (rest ++ w.lodged) n
  have rest := spared.covered.2.le
  simp only [List.cons_append, admissions_cons, admissions_append, isAdmitted, Stage.isAdmitted,
    Bool.toNat_true] at all
  simp only [opened]
  rw [lines_append] at sum
  omega

/-- Nobody who has a permit finds a session full. -/
theorem opened_lt {own : Call} {k : Nat} {rest : List Holding}
    (max_eq : fresh.maxConnections = c.maxConcurrent)
    (spared : Spared c fresh (.call (.trying own k) :: rest) w)
    (holds : Holds fresh (.call (.trying own k) :: rest) w)
    (reconciled : Reconciled c (.call (.trying own k) :: rest) w)
    (open_ : (Session.find w i).closed = false) (idle : (Session.find w i).idle = []) :
    (Session.find w i).opened < (Session.find w i).maxConnections := by
  have lt := spared.sum_opened_lt holds reconciled open_ idle (i + 1)
  have le : (replay fresh (tale i w.journal)).opened ≤
      ∑ j ∈ Finset.range (i + 1), (replay fresh (tale j w.journal)).opened :=
    Finset.single_le_sum (f := fun j => (replay fresh (tale j w.journal)).opened)
      (fun _ _ => Nat.zero_le _) (Finset.self_mem_range_succ i)
  rw [holds.find_eq (Session.lt_of_open open_), replay_maxConnections, max_eq]
  exact lt_of_le_of_lt le lt

theorem not_open (h : Spared c fresh hand w) (idle : w.Idle)
    (open_ : (Session.find w i).closed = false) : False := by
  have closed := idle (.session i) (h.current i open_)
  exact Bool.false_ne_true (open_.symm.trans closed)

/-- Every move of those who have a client keeps connections covered by permits. -/
theorem move {σ : Setting} {a b : List Holding × World} (move : Move σ a b) (tame : ¬ σ.raw)
    (max_eq : fresh.maxConnections = c.maxConcurrent)
    (elapses : ∀ hand w w', σ.elapses w w' → Spared c fresh hand w → Spared c fresh hand w')
    (holds : Holds fresh a.1 a.2) (reconciled : Reconciled c a.1 a.2)
    (h : Spared c fresh a.1 a.2) : Spared c fresh b.1 b.2 := by
  have covered := h.covered
  cases move with
  | elapse passes => exact elapses _ _ _ passes h
  | aside core_eq => exact h.of_core core_eq
  | postpone | record | mark | shutDown | windUp | handOver | send | turnAway => exact { h with }
  | crowd entitled open_ idle full =>
    obtain raw | ⟨own, k, rest, rfl⟩ := entitled
    · exact absurd raw tame
    · exact absurd full (Nat.not_le.mpr (h.opened_lt max_eq holds reconciled open_ idle))
  | lend entitled open_ idle young =>
    obtain raw | ⟨own, k, rest, rfl⟩ := entitled
    · exact absurd raw tame
    · exact h.deal (covered.take rfl rfl rfl) nofun nofun
  | takeSlot entitled open_ idle room =>
    obtain raw | ⟨own, k, rest, rfl⟩ := entitled
    · exact absurd raw tame
    · constructor
      case covered => exact covered.take rfl rfl rfl
      case sources_eq => exact h.sources_eq
      case current => exact fun j open_ => h.current j (Session.find_deal_open _ open_)
      case sparing =>
        exact h.sparing.opening rfl (h.sum_opened_lt holds reconciled open_ idle)
  | freeSlot => exact h.deal covered.2 nofun nofun
  | beginConnection => exact { h with covered := covered.push rfl }
  | loseConnection => exact { h with covered := covered.2 }
  | fillSlot t => exact h.deal (covered.2.connection rfl rfl) nofun nofun
  | answer e => exact h.deal (covered.connection rfl rfl) nofun nofun
  | receive some bytes_eq => exact h.deal (covered.connection rfl rfl) nofun nofun
  | takeBack read keeps => exact h.deal covered.2 nofun nofun
  | @discard hand w i conn =>
    have lost : Spared c fresh _ ((w.record (.shutdown conn.number)).record (.close conn.number)) :=
      { h with }
    exact lost.deal covered.2 nofun nofun
  | @expire hand w i old open_ old_eq =>
    have dealt : Spared c fresh hand (w.deal i (.expired old)) := h.deal covered nofun nofun
    exact { dealt with }
  | @shut hand w i idle current idle_eq =>
    have dealt : Spared c fresh hand (w.deal i (.shut idle)) := h.deal covered nofun nofun
    exact { dealt with }
  | resolve => exact h.deal covered nofun nofun
  | renew idle running made =>
    exact { h with
      current := fun j open_ => by
        rcases Session.find_append open_ with before | rfl
        · exact (h.not_open idle before).elim
        · rfl }
  | forsake idle =>
    obtain raw | idle := idle
    · exact absurd raw tame
    · exact { h with current := fun _ open_ => (h.not_open idle open_).elim }
  | furnish idle running unwired number =>
    exact { h with current := fun _ open_ => (h.not_open idle open_).elim }
  | retire current =>
    exact { h with
      current := fun j open_ => by
        cases current.symm.trans (h.current j open_) }
  | beginCall => exact { h with covered := covered.push rfl }
  | letIn room => exact { h with covered := covered.2.push rfl }
  | setOut => exact { h with covered := covered.2.push rfl }
  | attempt more => exact { h with covered := covered.2.push rfl }
  | desist front => exact { h with covered := covered.replace rfl rfl }
  | refuse | fail | succeed => exact { h with covered := covered.2 }
  | openStream s => exact { h with covered := covered.replace rfl rfl }
  | closeStream permit succeeded => cases permit <;> exact { h with covered := covered.2 }
  | putStream name s => exact { h with covered := covered.of_append.stream _ }
  | takeStream name => exact { h with covered := covered.stream _ }
  | putSource raw | takeSource raw | adopt raw | semaphore raw => exact absurd raw tame

end Spared

namespace World

variable {c : Config} {fresh : Session} {w : World}

theorem Elapses.spared {w' : World} {hand : List Holding} (elapses : Elapses w w')
    (h : Spared c fresh hand w) : Spared c fresh hand w' := by
  cases elapses with
  | advance t => exact { h with }
  | due next => exact { h with }
  | done answer => exact { h with }

/-- No session has connections where nothing was done. -/
theorem ofClient_spared (new : Fresh fresh) {chance : UInt64} {script : Script}
    (begun : ofClient c chance script = .ok w) : Spared c fresh [] w := by
  obtain ⟨url, -, rfl⟩ := ofClient_eq begun
  constructor
  case covered => exact trivial
  case sources_eq => rfl
  case current =>
    intro i open_
    exact absurd (Session.lt_of_open open_) (Nat.not_lt_zero i)
  case sparing =>
    constructor
    case uncrowded => exact fun d member => absurd member List.not_mem_nil
    case opened_le =>
      intro past before n
      rw [List.suffix_nil.mp before]
      simp [replay, new.opened]

/-- Whatever those do who have a client, nobody ever finds a session full, and at every moment all
the sessions that it has made, the closed ones included, have at most as many connections together,
idle, held or being opened, as there are permits. Only somebody who finds a session full may fail
for want of a connection. -/
theorem steps_sparing {chance : UInt64} {script : Script} (begun : ofClient c chance script = .ok w)
    (made : Session.ofConfig c = .ok fresh) (acts : List Act)
    (allowed : ∀ act ∈ acts, act.ofClient) :
    Sparing c fresh (w.steps acts).journal ∧
      (∀ past, past <:+ (w.steps acts).journal → ∀ i, Balanced fresh (tale i past)) ∧
      (∀ (i : Nat) s, (w.steps acts).sessions[i]? = some s →
        s = replay fresh (tale i (w.steps acts).journal)) ∧
      ∀ p w' i deadline, (Session.checkout i deadline).Ensures p w' fun r _ =>
        r = .error Session.exhausted → (Session.request i).Ensures p w' fun _ w'' =>
          ∃ past, w''.journal = ⟨i, .crowded, w''.now⟩ :: past := by
  have holds := Begun.holds ⟨chance, script, .inr begun⟩ made
  obtain ⟨orderly, reconciled⟩ := ofClient_reconciled begun
  have spared := ofClient_spared (ofConfig_fresh made) begun
  have moves : Moves (.ofActs c False) [] w [] (w.steps acts) :=
    steps_moves orderly fun act member => .inr (allowed act member)
  have step (a b : List Holding × World) (move : Move (.ofActs c False) a b)
      (before : Holds fresh a.1 a.2 ∧ Reconciled c a.1 a.2 ∧ Spared c fresh a.1 a.2) :
      Holds fresh b.1 b.2 ∧ Reconciled c b.1 b.2 ∧ Spared c fresh b.1 b.2 := by
    obtain ⟨holds, reconciled, spared⟩ := before
    exact ⟨holds.move move fun _ _ _ => Elapses.holds,
      reconciled.move move id rfl fun _ _ _ => Elapses.reconciled,
      spared.move move id (Session.ofConfig_eq made).1 (fun _ _ _ => Elapses.spared) holds
        reconciled⟩
  obtain ⟨holds, -, spared⟩ := moves.keeps
    (P := fun hand w => Holds fresh hand w ∧ Reconciled c hand w ∧ Spared c fresh hand w)
    step ⟨holds, reconciled, spared⟩
  constructor
  · exact spared.sparing
  constructor
  · intro past before i
    obtain ⟨later, whole⟩ := before.filter (·.session = i)
    have lawful := (holds.tallied i).lawful
    rw [tale, ← whole] at lawful
    exact lawful.of_suffix.balanced holds.new
  constructor
  · exact holds.replayed
  · exact fun p w' i deadline => Session.checkout_exhausted deadline

/-- A stream reads on over a session that was closed, while a call is made over the next one. -/
theorem steps_sparing_renewed :
    let c : Config := { clientTag := [], maxConcurrent := 2 }
    let script : Script := { overWire := true }
    let hi : List Message := [{ role := [], content := [104, 105] }]
    let acts : List Act := [
      .stream [1] hi none, .closeSession, .chat hi none, .stream [2] hi none, .next [1] 1,
      .drop [2]]
    ∃ w fresh, ofClient c 1 script = .ok w ∧ Session.ofConfig c = .ok fresh ∧
      (∀ act ∈ acts, act.ofClient) ∧ (w.steps acts).sessions.length = 2 ∧
      (w.steps acts).journal.length = 16 ∧ Sparing c fresh (w.steps acts).journal := by
  intro c script hi acts
  let fresh : Session := {
    host := ascii "localhost", port := ascii "3000", hostHeader := ascii "localhost:3000"
    maxConnections := 2, keepAlive := 60000, connectTimeout := 5000, dnsCacheTtl := 300 }
  let w : World := {
    config := c, target := chatPath, client := .ofConfig c 1, chance := .ofSeed 1, script }
  have begun : ofClient c 1 script = .ok w := by rfl
  have made : Session.ofConfig c = .ok fresh := by rfl
  have allowed : ∀ act ∈ acts, act.ofClient := by decide
  have sessions : (w.steps acts).sessions.length = 2 := by decide +kernel
  have length : (w.steps acts).journal.length = 16 := by decide +kernel
  have sparing : Sparing c fresh (w.steps acts).journal := (steps_sparing begun made acts allowed).1
  exact ⟨w, fresh, begun, made, allowed, sessions, length, sparing⟩

end World

end Parley
