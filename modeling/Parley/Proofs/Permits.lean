import Parley.Proofs.Pool

/-!
Permits that are held under names. A permit can be moved from one name to another, onto one that is
held or onto itself, and ends when it is given back, dropped or replaced; a semaphore only counts.

* `Semaphore.Passed`: a semaphore becomes what it is one permit at a time, and none comes back that
  is not out;
* `Seated`: the count agrees with the permits that are held;
* `Act.seated_perform`: every act on permits keeps that, and so do those that happen meanwhile;
* `World.steps_attended`: the same of whole runs.
-/
namespace Parley

/-- Whether an act is one on permits that have names, or puts such an act off. -/
def Act.ofPermits : Act → Bool
  | .permit .. | .permitRelease _ | .permitDrop _ | .permitMove .. | .advance _ => true
  | .later _ act => act.ofPermits
  | _ => false

namespace Semaphore

/-- The states of a semaphore, the latest first, from the one in which no permit was ever out. A
permit is taken while there is room, and one that is out comes back. -/
inductive Passed (capacity : Nat) : List Semaphore → Prop
  | new : Passed capacity [{ capacity }]
  | take {s : Semaphore} {past : List Semaphore} (before : Passed capacity (s :: past))
      (room : s.inUse < s.capacity) : Passed capacity (s.take :: s :: past)
  | release {s : Semaphore} {past : List Semaphore} (before : Passed capacity (s :: past))
      (out : 0 < s.inUse) : Passed capacity (s.release :: s :: past)

namespace Passed

variable {capacity : Nat} {s : Semaphore} {past : List Semaphore}

theorem within (h : Passed capacity past) :
    ∀ s ∈ past, s.capacity = capacity ∧ s.inUse ≤ capacity := by
  induction h with
  | new => exact List.forall_mem_singleton.mpr ⟨rfl, Nat.zero_le _⟩
  | take before room ih =>
    obtain ⟨same, -⟩ := ih _ (List.mem_cons_self ..)
    exact List.forall_mem_cons.mpr ⟨⟨same, same ▸ room⟩, ih⟩
  | release before out ih =>
    obtain ⟨same, le⟩ := ih _ (List.mem_cons_self ..)
    exact List.forall_mem_cons.mpr ⟨⟨same, Nat.le_trans (Nat.sub_le ..) le⟩, ih⟩

theorem le_peak (h : Passed capacity (s :: past)) : ∀ t ∈ s :: past, t.inUse ≤ s.peak := by
  generalize states : s :: past = all at h
  induction h generalizing s past with
  | new =>
    cases states
    exact List.forall_mem_singleton.mpr (Nat.le_refl 0)
  | take before room ih =>
    cases states
    refine List.forall_mem_cons.mpr ⟨Nat.le_max_right .., fun t member => ?_⟩
    exact Nat.le_trans (ih rfl t member) (Nat.le_max_left ..)
  | @release s₀ past₀ before out ih =>
    cases states
    have le : ∀ t ∈ s₀ :: past₀, t.inUse ≤ s₀.peak := ih rfl
    refine List.forall_mem_cons.mpr ⟨?_, le⟩
    exact Nat.le_trans (Nat.sub_le ..) (le s₀ (List.mem_cons_self ..))

/-- As many permits as the peak tells were out at some moment. -/
theorem exists_peak (h : Passed capacity (s :: past)) : ∃ t ∈ s :: past, t.inUse = s.peak := by
  generalize states : s :: past = all at h
  induction h generalizing s past with
  | new =>
    cases states
    exact ⟨_, List.mem_cons_self .., rfl⟩
  | @take s₀ past₀ before room ih =>
    cases states
    rcases Nat.le_total s₀.peak (s₀.inUse + 1) with more | less
    · exact ⟨_, List.mem_cons_self .., (Nat.max_eq_right more).symm⟩
    · obtain ⟨t, member, peak⟩ := ih rfl
      exact ⟨t, List.mem_cons_of_mem _ member, peak.trans (Nat.max_eq_left less).symm⟩
  | release before out ih =>
    cases states
    obtain ⟨t, member, peak⟩ := ih rfl
    exact ⟨t, List.mem_cons_of_mem _ member, peak⟩

end Passed

end Semaphore

namespace World

/-- All states that the semaphore was ever in, the latest first. -/
def occupancy (w : World) : List Semaphore := w.client.semaphore :: w.turnstile

/-- How many of the permits that have names are held. -/
def held (w : World) : Nat := w.permits.values.count true

/-- Whether a permit is held under a name. -/
def holds (w : World) (name : Bytes) : Bool := (w.permits.get? name).getD false

variable (w : World) (name : Bytes)

theorem held_erase :
    { w with permits := w.permits.erase name }.held + (w.holds name).toNat = w.held := by
  have split := (w.permits.values_perm name).count_eq true
  rw [held, held, split, List.count_append, Nat.add_comm, holds]
  cases w.permits.get? name with
  | none => rfl
  | some held => cases held <;> rfl

theorem held_insert (held : Bool) :
    { w with permits := w.permits.insert name held }.held + (w.holds name).toNat =
      w.held + held.toNat := by
  have join := (w.permits.values_insert_perm name held).count_eq true
  have erased := w.held_erase name
  simp only [World.held] at join erased ⊢
  rw [join, List.count_cons, ← erased]
  cases held with
  | false => simp
  | true => simp [Nat.add_right_comm]

/-- The semaphore and the permits that are held. At every moment of its past no more permits were
out than there are, each that came back was out, and the peak is the most that ever were. -/
structure Attended (capacity : Nat) (w : World) : Prop where
  inUse_eq : w.client.semaphore.inUse = w.held
  passed : Semaphore.Passed capacity w.occupancy
  inUse_le : ∀ s ∈ w.occupancy, s.capacity = capacity ∧ s.inUse ≤ capacity
  le_peak : ∀ s ∈ w.occupancy, s.inUse ≤ w.client.semaphore.peak
  exists_peak : ∃ s ∈ w.occupancy, s.inUse = w.client.semaphore.peak

end World

/-- The semaphore agrees with the permits that are held, those on hand included, and only acts on
permits are put off. -/
structure Seated (capacity hand : Nat) (w : World) : Prop where
  passed : Semaphore.Passed capacity w.occupancy
  inUse_eq : w.client.semaphore.inUse = hand + w.held
  agenda : ∀ e ∈ w.agenda, e.2.ofPermits = true

namespace Seated

variable {capacity hand : Nat} {w : World}

theorem take (h : Seated capacity hand w) (room : w.client.semaphore.hasRoom = true) :
    Seated capacity (hand + 1) (w.mapSemaphore Semaphore.take) where
  passed := h.passed.take (of_decide_eq_true room)
  inUse_eq := (congrArg (· + 1) h.inUse_eq).trans (Nat.add_right_comm ..)
  agenda := h.agenda

theorem release (h : Seated capacity (hand + 1) w) :
    Seated capacity hand (w.mapSemaphore Semaphore.release) where
  passed := by
    have out : 0 < w.client.semaphore.inUse := by
      rw [h.inUse_eq]
      omega
    exact h.passed.release out
  inUse_eq := by
    have same := h.inUse_eq
    simp only [World.mapSemaphore, Semaphore.release, World.held] at same ⊢
    omega
  agenda := h.agenda

/-- A permit, or none, is put down under a name, and what was held under it is taken up. -/
theorem put {hand' : Nat} {held : Bool} (h : Seated capacity hand w) (name : Bytes)
    (balance : hand + (w.holds name).toNat = hand' + held.toNat) :
    Seated capacity hand' { w with permits := w.permits.insert name held } where
  passed := h.passed
  inUse_eq := by
    have same := h.inUse_eq
    have inserted := w.held_insert name held
    simp only at same inserted ⊢
    omega
  agenda := h.agenda

theorem attended (h : Seated capacity 0 w) : w.Attended capacity where
  inUse_eq := h.inUse_eq.trans (Nat.zero_add _)
  passed := h.passed
  inUse_le := h.passed.within
  le_peak := h.passed.le_peak
  exists_peak := h.passed.exists_peak

end Seated

variable {capacity hand : Nat} {p : Pause} {w : World}

namespace Act

theorem seated_assign {held : Bool} (h : Seated capacity (hand + held.toNat) w) (name : Bytes) :
    (assignPermit name held).Ensures p w fun _ w' =>
      Seated capacity hand w' ∧ w'.permits = w.permits.insert name held := by
  have put : Seated capacity (hand + (w.holds name).toNat)
      { w with permits := w.permits.insert name held } := h.put name (Nat.add_right_comm ..)
  have old : (w.permits.get? name).getD false = w.holds name := rfl
  simp only [assignPermit, Client.releasePermit, Job.ensures_bind, Job.ensures_get,
    Job.ensures_ite, Job.ensures_modify, old]
  cases holds : w.holds name with
  | false =>
    rw [holds] at put
    exact ⟨put, trivial⟩
  | true =>
    rw [holds] at put
    exact ⟨put.release, rfl⟩

/-- Who gets no permit has only waited for one, until a moment when none is free. -/
theorem permit_refused (name : Bytes) (wait : Nanos) :
    (perform (.permit name wait)).Ensures p w fun answer w' => answer = .yes false →
      w'.client.semaphore.hasRoom = false ∧
        w' = p (w.now.plus wait) (·.client.semaphore.hasRoom) w := by
  have refused : (Client.takePermit (w.now.plus wait)).Ensures p w fun taken w' =>
      taken = false → w'.client.semaphore.hasRoom = false ∧
        w' = p (w.now.plus wait) (·.client.semaphore.hasRoom) w := by
    simp only [Client.takePermit, Job.ensures_bind, Job.ensures_await, Job.ensures_ite,
      Job.ensures_modify, Job.ensures_pure]
    split
    · rintro ⟨⟩
    · split
      · rintro ⟨⟩
      · next full => exact fun _ => ⟨eq_false_of_ne_true full, trivial⟩
  simp only [perform, Job.ensures_bind, Job.ensures_get, Job.ensures_ite, Job.ensures_pure]
  apply refused.mono
  intro taken w' refused
  cases taken with
  | false => exact fun _ => refused rfl
  | true =>
    rw [if_pos rfl]
    refine .of_all fun _ _ => ?_
    rintro ⟨⟩

variable (seats : ∀ t stop hand w, Seated capacity hand w → Seated capacity hand (p t stop w))
include seats

theorem seated_takePermit (h : Seated capacity hand w) (t : Instant) :
    (Client.takePermit t).Ensures p w fun taken w' => Seated capacity (hand + taken.toNat) w' := by
  simp only [Client.takePermit, Job.ensures_bind, Job.ensures_await, Job.ensures_ite,
    Job.ensures_modify, Job.ensures_pure]
  have waited := seats t (·.client.semaphore.hasRoom) hand w h
  split
  · next room => exact h.take room
  · split
    · next room => exact waited.take room
    · exact waited

theorem seated_perform {act : Act} (kind : act.ofPermits = true) (h : Seated capacity hand w) :
    act.perform.Ensures p w fun _ => Seated capacity hand := by
  cases act with
  | permit name wait =>
    simp only [perform, Job.ensures_bind, Job.ensures_get, Job.ensures_ite, Job.ensures_pure]
    apply (seated_takePermit seats h _).mono
    intro taken w' h'
    cases taken with
    | false => exact h'
    | true => exact (seated_assign h' name).mono fun _ _ => And.left
  | permitRelease name =>
    simp only [perform, Job.ensures_bind, Job.ensures_pure]
    exact (seated_assign h name).mono fun _ _ => And.left
  | permitDrop name =>
    simp only [perform, Job.ensures_bind, Job.ensures_modify, Job.ensures_pure]
    apply (seated_assign h name).mono
    rintro _ w' ⟨h', permits⟩
    have empty : w'.holds name = false := by
      rw [World.holds, permits, Table.get?_insert, if_pos rfl, Option.getD_some]
    have erased := w'.held_erase name
    rw [empty, Bool.toNat_false, Nat.add_zero] at erased
    exact ⟨h'.passed, h'.inUse_eq.trans (congrArg (hand + ·) erased.symm), h'.agenda⟩
  | permitMove name dest =>
    simp only [perform, Job.ensures_bind, Job.ensures_get, Job.ensures_modify, Job.ensures_ite,
      Job.ensures_pure]
    by_cases same : name = dest
    · simp only [same, ne_eq, not_true_eq_false, if_false, decide_true, Bool.and_true]
      exact h.put dest rfl
    · simp only [same, ne_eq, not_false_eq_true, if_true, decide_false, Bool.and_false]
      have taken : Seated capacity (hand + (w.holds name).toNat)
          { w with permits := w.permits.insert name false } := h.put name rfl
      exact (seated_assign taken dest).mono fun _ _ => And.left
  | advance duration =>
    exact seats _ _ _ _ h
  | later wait act =>
    refine ⟨h.passed, h.inUse_eq, fun e member => ?_⟩
    rcases World.mem_postpone member with member | rfl
    · exact h.agenda e member
    · exact kind
  | _ => cases kind

end Act

namespace World

variable {c : Config} {chance : UInt64}

theorem lasting_seated (capacity : Nat) :
    Lasting (fun act => act.ofPermits = true) (Seated capacity) where
  agenda h := h.agenda
  taken {_ w first agenda} next h := by
    have listed : ∀ e ∈ first :: agenda, e.2.ofPermits = true := next ▸ h.agenda
    exact ⟨h.passed, h.inUse_eq, (List.forall_mem_cons.mp listed).2⟩
  advance _ h := ⟨h.passed, h.inUse_eq, h.agenda⟩
  answered _ h := ⟨h.passed, h.inUse_eq, h.agenda⟩
  perform seats kind _ _ h := Act.seated_perform seats kind h

theorem ofState_seated (made : ofState c chance = .ok w) : Seated c.maxConcurrent 0 w := by
  unfold ofState at made
  cases created : Semaphore.create c.maxConcurrent with
  | error f =>
    rw [created] at made
    cases made
  | ok semaphore =>
    rw [created] at made
    cases made
    exact ⟨.new, rfl, List.forall_mem_nil _⟩

/-- In a run of acts on permits that have names, others that were put off included, the semaphore
counts the permits that are held; it does so at every moment, also in between, while something
waits. Who gets no permit in time leaves everything as the wait has left it, and so the semaphore
as it was unless something else happens meanwhile. -/
theorem steps_attended (made : ofState c chance = .ok w) {acts : List Act}
    (kind : ∀ act ∈ acts, act.ofPermits = true) :
    (w.steps acts).Attended c.maxConcurrent ∧
      (∀ n t stop hand w', Seated c.maxConcurrent hand w' →
        Seated c.maxConcurrent hand (Pause.acts n t stop w')) ∧
      (∀ (p : Pause) (w' : World) (name : Bytes) (wait : Nanos),
        (Act.perform (.permit name wait)).Ensures p w' fun answer w'' => answer = .yes false →
          w''.client.semaphore.hasRoom = false ∧
            w'' = p (w'.now.plus wait) (·.client.semaphore.hasRoom) w') ∧
      ∀ (w' : World) (name : Bytes) (wait : Nanos), w'.agenda = [] →
        (w'.step (.permit name wait)).1 = .yes false →
          (w'.step (.permit name wait)).2.client = w'.client := by
  have lasting := lasting_seated c.maxConcurrent
  refine ⟨(lasting.steps kind (ofState_seated made)).attended, lasting.acts,
    fun p w' name wait => Act.permit_refused name wait, fun w' name wait none refused => ?_⟩
  have waited : (w'.step (.permit name wait)).2 = Pause.acts w'.pending (w'.now.plus wait)
      (·.client.semaphore.hasRoom) w' := (Act.permit_refused name wait refused).2
  have quiet : w'.pending = 0 := by rw [pending, none, List.foldr_nil]
  rw [waited, quiet, Pause.acts, Pause.quiet]
  split
  · rfl
  · rfl

/-- Of two permits one is taken in vain for a third name; it comes back while that one waits again,
and the new one is moved onto the other, and then onto itself. -/
theorem steps_attended_moved :
    let c : Config := { clientTag := [], maxConcurrent := 2 }
    let acts : List Act := [
      .permit [1] 0, .permit [2] 0, .permit [3] 3, .later 5 (.permitRelease [1]), .permit [3] 9,
      .permitMove [3] [2], .permitMove [2] [2]]
    ∃ w, ofState c 1 = .ok w ∧ (∀ act ∈ acts, act.ofPermits = true) ∧
      (w.steps acts).Attended 2 ∧ (w.steps acts).now = 8 ∧
      (w.steps acts).permits = [([1], false), ([2], true), ([3], false)] ∧
      (w.steps acts).occupancy.map (·.inUse) = [1, 2, 1, 2, 1, 0] := by
  intro c acts
  let w : World := { config := c, client := .ofConfig c 1, chance := .ofSeed 1 }
  have made : ofState c 1 = .ok w := by rfl
  have kind : ∀ act ∈ acts, act.ofPermits = true := by simp [acts, Act.ofPermits]
  have now : (w.steps acts).now = 8 := by decide +kernel
  have permits : (w.steps acts).permits = [([1], false), ([2], true), ([3], false)] := by
    decide +kernel
  have inUse : (w.steps acts).occupancy.map (·.inUse) = [1, 2, 1, 2, 1, 0] := by decide +kernel
  exact ⟨w, made, kind, (steps_attended made kind).1, now, permits, inUse⟩

end World

end Parley
