import Parley.Client

/-!
What a job leads to. A job is given a pause and a world; `Ensures` says that the answer and the
world it ends in satisfy a condition, and has one rule for each way of building a job. A theorem
about a program takes it apart by these rules and speaks of the worlds in between.
-/
namespace Parley

variable {α β : Type} {p : Pause} {w : World}

@[simp] theorem World.mark_now (m : Mark) : (w.mark m).now = w.now := rfl

@[simp] theorem World.mark_client (m : Mark) : (w.mark m).client = w.client := rfl

theorem Strand.bind_ends (s : Strand α) : s.bind .ends = s := by
  induction s with
  | ends a w => rfl
  | waits t stop w resume ih => exact congrArg (waits t stop w) (funext ih)

theorem Strand.bind_assoc {γ : Type} (next : α → World → Strand β) (last : β → World → Strand γ)
    (s : Strand α) : (s.bind next).bind last = s.bind fun a w => (next a w).bind last := by
  induction s with
  | ends a w => rfl
  | waits t stop w resume ih => exact congrArg (waits t stop w) (funext ih)

instance : LawfulMonad Job :=
  .mk' Job (fun j => funext fun w => (j w).bind_ends) (fun _ _ => rfl)
    fun j _ _ => funext fun w => Strand.bind_assoc _ _ (j w)

/-- Whatever happens during the waits of a first part happens before what comes next. -/
theorem Strand.run_bind (next : α → World → Strand β) (s : Strand α) :
    (s.bind next).run p = (next (s.run p).1 (s.run p).2).run p := by
  induction s with
  | ends a w => rfl
  | waits t stop w resume ih => exact ih (p t stop w)

namespace Job

/-- Begun in a world, under a pause, the job ends with an answer and a world that satisfy `post`. -/
def Ensures (j : Job α) (p : Pause) (w : World) (post : α → World → Prop) : Prop :=
  post ((j.run p).run w).1 ((j.run p).run w).2

instance {j : Job α} {post : α → World → Prop} [∀ a w', Decidable (post a w')] :
    Decidable (j.Ensures p w post) :=
  inferInstanceAs (Decidable (post _ _))

theorem Ensures.mono {j : Job α} {post post' : α → World → Prop} (h : j.Ensures p w post)
    (weaken : ∀ a w', post a w' → post' a w') : j.Ensures p w post' :=
  weaken _ _ h

/-- A condition that holds of every answer and every world. -/
theorem Ensures.of_all {j : Job α} {post : α → World → Prop} (h : ∀ a w', post a w') :
    j.Ensures p w post :=
  h _ _

theorem Ensures.congr {j : Job α} {post post' : α → World → Prop}
    (same : ∀ a w', post a w' ↔ post' a w') : j.Ensures p w post ↔ j.Ensures p w post' :=
  same _ _

theorem Ensures.and {j : Job α} {post post' : α → World → Prop} (h : j.Ensures p w post)
    (h' : j.Ensures p w post') : j.Ensures p w fun a w' => post a w' ∧ post' a w' :=
  ⟨h, h'⟩

section Rules
variable {post : α → World → Prop}

@[simp] theorem ensures_pure (a : α) : (pure a : Job α).Ensures p w post ↔ post a w := Iff.rfl

@[simp] theorem ensures_bind (j : Job α) (k : α → Job β) {post : β → World → Prop} :
    (j >>= k).Ensures p w post ↔ j.Ensures p w fun a w' => (k a).Ensures p w' post := by
  have same : ((j >>= k).run p).run w =
      ((k ((j.run p).run w).1).run p).run ((j.run p).run w).2 := Strand.run_bind k (j w)
  rw [Ensures, same]
  rfl

theorem Ensures.bind {j : Job α} {k : α → Job β} {post : β → World → Prop}
    (h : j.Ensures p w fun a w' => (k a).Ensures p w' post) : (j >>= k).Ensures p w post :=
  (ensures_bind j k).mpr h

/-- Whatever the first job leads to. -/
theorem Ensures.after {j : Job α} {k : α → Job β} {post : β → World → Prop}
    (next : ∀ a w', (k a).Ensures p w' post) : (j >>= k).Ensures p w post :=
  .bind (.of_all next)

@[simp] theorem ensures_map (j : Job α) (f : α → β) {post : β → World → Prop} :
    (f <$> j).Ensures p w post ↔ j.Ensures p w fun a w' => post (f a) w' :=
  ensures_bind j (Pure.pure ∘ f)

@[simp] theorem ensures_get {post : World → World → Prop} :
    (get : Job World).Ensures p w post ↔ post w w := Iff.rfl

@[simp] theorem ensures_modify (f : World → World) {post : Unit → World → Prop} :
    (modify f : Job Unit).Ensures p w post ↔ post () (f w) := Iff.rfl

@[simp] theorem ensures_modifyGet (f : World → α × World) :
    (modifyGet f : Job α).Ensures p w post ↔ post (f w).1 (f w).2 := Iff.rfl

@[simp] theorem ensures_ite (c : Prop) [Decidable c] (j k : Job α) :
    (if c then j else k).Ensures p w post ↔
      if c then j.Ensures p w post else k.Ensures p w post := by
  split <;> rfl

@[simp] theorem ensures_pause (t : Instant) (stop : World → Bool) {post : Unit → World → Prop} :
    (pause t stop).Ensures p w post ↔ post () (p t stop w) := Iff.rfl

@[simp] theorem ensures_waitUntil (t : Instant) {post : Unit → World → Prop} :
    (waitUntil t).Ensures p w post ↔ post () (p t (fun _ => false) w) := Iff.rfl

@[simp] theorem ensures_wait (d : Nanos) {post : Unit → World → Prop} :
    (wait d).Ensures p w post ↔ post () (p (w.now + d) (fun _ => false) w) := Iff.rfl

@[simp] theorem ensures_await (t : Instant) (condition : World → Bool)
    {post : Bool → World → Prop} :
    (await t condition).Ensures p w post ↔
      if condition w then post true w
      else post (condition (p t condition w)) (p t condition w) := by
  simp only [await, ensures_bind, ensures_get, ensures_ite, ensures_pure, ensures_pause]

@[simp] theorem ensures_record (event : WireEvent) {post : Unit → World → Prop} :
    (record event).Ensures p w post ↔ post () (w.record event) := Iff.rfl

@[simp] theorem ensures_notice (n : Notice) {post : Unit → World → Prop} :
    (notice n).Ensures p w post ↔ post () (w.tell n) := Iff.rfl

@[simp] theorem ensures_count (f : Usage → Usage) {post : Unit → World → Prop} :
    (count f).Ensures p w post ↔ post () (w.mapUsage f) := Iff.rfl

@[simp] theorem ensures_note (turn : Turn) {post : Unit → World → Prop} :
    (note turn).Ensures p w post ↔ post () (w.note turn) := Iff.rfl

@[simp] theorem ensures_mark (m : Mark) {post : Unit → World → Prop} :
    (mark m).Ensures p w post ↔ post () (w.mark m) := Iff.rfl

@[simp] theorem ensures_enrol (e : Registration) {post : Unit → World → Prop} :
    (enrol e).Ensures p w post ↔ post () (w.enrol e) := Iff.rfl

end Rules

/-- A condition that every round keeps, whatever world it begins in, holds after the last one. -/
theorem ensures_forM {γ : Type} {invariant : World → Prop} {job : γ → Job Unit} (items : List γ)
    (kept : ∀ item ∈ items, ∀ w, invariant w → (job item).Ensures p w fun _ => invariant)
    (h : invariant w) : (items.forM job).Ensures p w fun _ => invariant := by
  induction items generalizing w with
  | nil => exact h
  | cons item items ih =>
    rw [List.forM_eq_forM, List.forM_cons, ensures_bind]
    apply (kept item (List.mem_cons_self ..) w h).mono
    intro _ w' h'
    exact ih (fun item member => kept item (List.mem_cons_of_mem _ member)) h'

end Job

namespace Flow

/-- The same for something that may fail: the condition is on how it ends. -/
def Ensures (f : Flow α) (p : Pause) (w : World) (post : Except Failure α → World → Prop) : Prop :=
  Job.Ensures f.run p w post

instance {f : Flow α} {post : Except Failure α → World → Prop}
    [∀ r w', Decidable (post r w')] : Decidable (f.Ensures p w post) :=
  inferInstanceAs (Decidable (Job.Ensures f.run p w post))

/-- How something failed can be decided, whatever it leads to otherwise. -/
instance {r : Except Failure α} {f : Failure} : Decidable (r = .error f) :=
  match r with
  | .ok _ => .isFalse fun same => by cases same
  | .error f' => decidable_of_iff (f' = f) ⟨congrArg _, Except.error.inj⟩

theorem Ensures.mono {f : Flow α} {post post' : Except Failure α → World → Prop}
    (h : f.Ensures p w post) (weaken : ∀ r w', post r w' → post' r w') : f.Ensures p w post' :=
  weaken _ _ h

theorem Ensures.of_all {f : Flow α} {post : Except Failure α → World → Prop}
    (h : ∀ r w', post r w') : f.Ensures p w post :=
  h _ _

theorem Ensures.congr {f : Flow α} {post post' : Except Failure α → World → Prop}
    (same : ∀ r w', post r w' ↔ post' r w') : f.Ensures p w post ↔ f.Ensures p w post' :=
  same _ _

theorem Ensures.and {f : Flow α} {post post' : Except Failure α → World → Prop}
    (h : f.Ensures p w post) (h' : f.Ensures p w post') :
    f.Ensures p w fun r w' => post r w' ∧ post' r w' :=
  ⟨h, h'⟩

section Rules
variable {post : Except Failure α → World → Prop}

@[simp] theorem ensures_pure (a : α) : (pure a : Flow α).Ensures p w post ↔ post (.ok a) w :=
  Iff.rfl

@[simp] theorem ensures_throw (e : Failure) :
    (throw e : Flow α).Ensures p w post ↔ post (.error e) w := Iff.rfl

theorem ensures_bind (f : Flow α) (k : α → Flow β) {post : Except Failure β → World → Prop} :
    (f >>= k).Ensures p w post ↔ f.Ensures p w fun r w' =>
      match r with
      | .ok a => (k a).Ensures p w' post
      | .error e => post (.error e) w' := by
  refine (Job.ensures_bind f.run (ExceptT.bindCont k)).trans (Job.Ensures.congr fun r w' => ?_)
  cases r <;> rfl

@[simp] theorem ensures_lift (j : Job α) :
    (liftM j : Flow α).Ensures p w post ↔ j.Ensures p w fun a w' => post (.ok a) w' :=
  Job.ensures_map j Except.ok

@[simp] theorem ensures_get {post : Except Failure World → World → Prop} :
    (get : Flow World).Ensures p w post ↔ post (.ok w) w := Iff.rfl

@[simp] theorem ensures_modify (f : World → World) {post : Except Failure Unit → World → Prop} :
    (modify f : Flow Unit).Ensures p w post ↔ post (.ok ()) (f w) := Iff.rfl

@[simp] theorem ensures_ite (c : Prop) [Decidable c] (f g : Flow α) :
    (if c then f else g).Ensures p w post ↔
      if c then f.Ensures p w post else g.Ensures p w post := by
  split <;> rfl

@[simp] theorem ensures_run (f : Flow α) :
    Job.Ensures f.run p w post ↔ f.Ensures p w post := Iff.rfl

@[simp] theorem ensures_attempt (f : Flow α)
    {post : Except Failure (Except Failure α) → World → Prop} :
    f.attempt.Ensures p w post ↔ f.Ensures p w fun r w' => post (.ok r) w' :=
  Job.ensures_map f.run Except.ok

@[simp] theorem ensures_ofExcept (r : Except Failure α) :
    (ofExcept r).Ensures p w post ↔ post r w := by
  cases r <;> rfl

theorem ensures_onFailure (f : Flow α) (last : Job Unit) :
    (f.onFailure last).Ensures p w post ↔ f.Ensures p w fun r w' =>
      match r with
      | .ok a => post (.ok a) w'
      | .error e => last.Ensures p w' fun _ w' => post (.error e) w' := by
  simp only [onFailure, ensures_bind, ensures_attempt]
  constructor
  · intro h
    apply h.mono
    rintro (e | a) w' h' <;> simpa [ensures_bind] using h'
  · intro h
    apply h.mono
    rintro (e | a) w' h' <;> simpa [ensures_bind] using h'

theorem ensures_andAlways (f : Flow α) (last : Job Unit) :
    (f.andAlways last).Ensures p w post ↔
      f.Ensures p w fun r w' => last.Ensures p w' fun _ w' => post r w' := by
  simp only [andAlways, ensures_bind, ensures_attempt, ensures_lift, ensures_ofExcept]

end Rules

end Flow

namespace Session

section Rules
variable {post : Unit → World → Prop}

@[simp] theorem ensures_current (i : Nat) {post : Session → World → Prop} :
    (current i).Ensures p w post ↔ post (find w i) w := Iff.rfl

@[simp] theorem ensures_deal (i : Nat) (dealing : Dealing) :
    (deal i dealing).Ensures p w post ↔ post () (w.deal i dealing) := Iff.rfl

@[simp] theorem ensures_discard (i : Nat) (c : Connection) :
    (discard i c).Ensures p w post ↔
      post () (((w.record (.shutdown c.number)).record (.close c.number)).deal i
        (.discarded c.number)) := Iff.rfl

@[simp] theorem ensures_checkin (i : Nat) (c : Connection) :
    (checkin i c).Ensures p w post ↔
      if (find w i).keeps c then post () (w.deal i (.returned c))
      else (discard i c).Ensures p w post := by
  simp only [checkin, Job.ensures_bind, ensures_current, Job.ensures_ite, ensures_deal]

@[simp] theorem ensures_left (deadline : Instant) {post : Nanos → World → Prop} :
    (left deadline).Ensures p w post ↔ post (Instant.since deadline w.now) w := Iff.rfl

/-- An operation that would go beyond its expiry is given up there, at once if that is past. -/
@[simp] theorem ensures_operate (outcome : WireOutcome) (expiry : Instant)
    {post : Option WireError → World → Prop} :
    (operate outcome expiry).Ensures p w post ↔
      if expiry < w.now + outcome.delay then
        post (some .timeout) (p expiry (fun _ => false) w)
      else post outcome.error (p (w.now + outcome.delay) (fun _ => false) w) := by
  simp only [operate, Job.ensures_bind, Job.ensures_get, Job.ensures_ite, Job.ensures_waitUntil,
    Job.ensures_pure, Job.ensures_wait]

end Rules

end Session

namespace Client

/-- A call is counted when it begins, and once more if it fails. -/
theorem ensures_counted (flow : Flow α) {post : Except Failure α → World → Prop} :
    (counted flow).Ensures p w post ↔
      flow.Ensures p ((w.mapUsage Usage.addCall).note .begun) fun r w' =>
        match r with
        | .ok a => post (.ok a) w'
        | .error f => post (.error f) ((w'.mapUsage Usage.addFailure).note .failed) := by
  simp only [counted, Flow.ensures_bind, Flow.ensures_lift, Job.ensures_count, Job.ensures_note,
    Flow.ensures_onFailure, Job.ensures_bind]

/-- What succeeds has been counted. -/
theorem ensures_succeeding (flow : Flow α) {post : Except Failure α → World → Prop} :
    (succeeding flow).Ensures p w post ↔ flow.Ensures p w fun r w' =>
      match r with
      | .ok a => post (.ok a) (w'.mapUsage Usage.addSuccess)
      | .error f => post (.error f) w' := by
  simp only [succeeding, Flow.ensures_bind, Flow.ensures_lift, Job.ensures_count,
    Flow.ensures_pure]

end Client

end Parley
