import Parley.Proofs.Delivery
import Parley.Proofs.Failures

/-!
What a read comes to, whatever the body is like. A read gives the next bytes of the body, or fails;
it never passes over a part that fails.

* `Part.Cut`, `Part.Takes`, `Source.read_takes`: what a read takes off the parts of a body;
* `Source.read_mild`: where all failures of a body are such as calls have, its reads have no others;
* `Job.Lingers`, `Source.read_lingers`: a read counts nothing, and is over by its deadline;
* `Source.read_reads`: all of it together.
-/
namespace Parley

variable {α β : Type} {p : Pause} {w w' : World}

namespace Part

/-- Without `data` some parts are `rest`. Parts that fail are left. -/
structure Cut (parts : List Part) (data : Bytes) (rest : List Part) : Prop where
  bytes_eq : bytes parts = data ++ bytes rest
  sound_of : Sound rest → Sound parts

theorem Cut.refl (parts : List Part) : Cut parts [] parts := ⟨rfl, id⟩

theorem Cut.trans {parts rest rest' : List Part} {data data' : Bytes} (h : Cut parts data rest)
    (h' : Cut rest data' rest') : Cut parts (data ++ data') rest' where
  bytes_eq := by rw [h.bytes_eq, h'.bytes_eq, List.append_assoc]
  sound_of sound := h.sound_of (h'.sound_of sound)

/-- A read takes `data` off some parts. That the data is empty means that no part fails. -/
structure Takes (parts : List Part) (data : Bytes) (rest : List Part) : Prop
    extends Cut parts data rest where
  sound_end : data = [] → Sound parts

namespace Takes

variable {q : Part} {parts rest : List Part} {data after : Bytes}

theorem none : Takes [] [] [] := ⟨.refl [], fun _ => by simp [Sound]⟩

/-- A read that takes a part, or the beginning of it. -/
theorem some (fine : q.fails = false) (part : q.data = data ++ after) (taken : data ≠ [])
    (left : bytes rest = after ++ bytes parts) (sound : Sound rest → Sound parts) :
    Takes (q :: parts) data rest where
  bytes_eq := by rw [bytes_cons, part, left, List.append_assoc]
  sound_of h := (sound_cons q parts).mpr ⟨fine, sound h⟩
  sound_end h := absurd h taken

/-- An empty part is passed over. -/
theorem skip (fine : q.fails = false) (part : q.data = []) (h : Takes parts data rest) :
    Takes (q :: parts) data rest where
  bytes_eq := by rw [bytes_cons, part, List.nil_append, h.bytes_eq]
  sound_of sound := (sound_cons q parts).mpr ⟨fine, h.sound_of sound⟩
  sound_end empty := (sound_cons q parts).mpr ⟨fine, h.sound_end empty⟩

/-- A read that takes all of the last part, which may be empty. -/
theorem last (fine : q.fails = false) : Takes [q] q.data [] where
  bytes_eq := by simp
  sound_of h := (sound_cons q []).mpr ⟨fine, h⟩
  sound_end _ := (sound_cons q []).mpr ⟨fine, by simp [Sound]⟩

end Takes

end Part

open Parley.Part

/-- The answer and the world are what the job leads to. -/
theorem Job.ensures_run (j : Job α) :
    j.Ensures p w fun a w' => (j.run p).run w = (a, w') :=
  rfl

/-- Something comes at once, or after a delay that may be too long. -/
theorem Job.ensures_delayed {late j : Job α} {deadline : Instant} {delay : Nanos}
    {post : α → World → Prop} (tooLate : ∀ w, late.Ensures p w post)
    (comes : ∀ w, j.Ensures p w post) :
    Job.Ensures (do
      if 0 < delay then
        if deadline < (← get).now + delay then late else
          Job.wait delay
          j
      else j) p w post := by
  simp only [ensures_ite, ensures_bind, ensures_get]
  split
  · split
    · exact tooLate w
    · exact comes _
  · exact comes w

namespace ScriptedBody

theorem readChunk_takes {capacity : Nat} (room : 0 < capacity) (deadline : Instant)
    (chunks : List Chunk) :
    (readChunk capacity deadline chunks).Ensures p w fun r _ => ∀ data, r.1 = .ok data →
      Takes (chunks.map Chunk.part) data (r.2.map Chunk.part) := by
  induction chunks generalizing w with
  | nil =>
    rintro _ ⟨⟩
    exact .none
  | cons c chunks ih =>
    obtain ⟨data, delay, failure⟩ := c
    refine Job.ensures_delayed (fun w => ?_) fun w => ?_
    · rintro _ ⟨⟩
    · cases failure with
      | some f => rintro _ ⟨⟩
      | none =>
        cases data with
        | nil => exact ih.mono fun r _ takes data' read => (takes data' read).skip rfl rfl
        | cons b data =>
          rintro _ ⟨⟩
          refine .some rfl (List.take_append_drop capacity _).symm ?_ rfl ?_
          · simpa using Nat.pos_iff_ne_zero.mp room
          · exact fun sound => ((sound_cons _ _).mp sound).2

/-- Where all failures of a body are such as calls have, it fails with nothing else. -/
theorem readChunk_mild (capacity : Nat) (deadline : Instant) (chunks : List Chunk)
    (mild : ∀ c ∈ chunks, ∀ f, c.failure = some f → f.IsClient) :
    (readChunk capacity deadline chunks).Ensures p w fun r _ =>
      (∀ c ∈ r.2, ∀ f, c.failure = some f → f.IsClient) ∧ ∀ f, r.1 = .error f → f.IsClient := by
  induction chunks generalizing w with
  | nil =>
    refine ⟨mild, ?_⟩
    rintro _ ⟨⟩
  | cons c chunks ih =>
    obtain ⟨first, others⟩ := List.forall_mem_cons.mp mild
    refine Job.ensures_delayed (fun w => ⟨mild, ?_⟩) fun w => ?_
    · rintro _ ⟨⟩
      exact ⟨_, rfl⟩
    · obtain ⟨data, delay, failure⟩ := c
      cases failure with
      | some f =>
        refine ⟨List.forall_mem_cons.mpr ⟨first, others⟩, ?_⟩
        rintro _ ⟨⟩
        exact first f rfl
      | none =>
        cases data with
        | nil => exact ih others
        | cons b data =>
          refine ⟨List.forall_mem_cons.mpr ⟨first, others⟩, ?_⟩
          rintro _ ⟨⟩

end ScriptedBody

namespace Session

theorem readPiece_takes {capacity : Nat} (room : 0 < capacity) (i : Nat) (c : Connection)
    (deadline : Instant) (pieces : List Piece) :
    (readPiece i c capacity deadline pieces).Ensures p w fun r _ => ∀ data, r.1 = .ok data →
      Takes (pieces.map Piece.part) data (unread r.2) := by
  induction pieces generalizing w with
  | nil =>
    apply Job.Ensures.after
    rintro _ w₁ _ ⟨⟩
    exact .none
  | cons q pieces ih =>
    obtain ⟨data, delay, error⟩ := q
    rw [readPiece, Job.ensures_bind, Job.ensures_get, Job.ensures_ite]
    split
    · rintro _ ⟨⟩
    simp only [Job.ensures_bind, Job.ensures_record, ensures_left, ensures_operate]
    split
    · rintro _ ⟨⟩
    cases error with
    | some e => rintro _ ⟨⟩
    | none =>
      simp only [Job.ensures_bind, ensures_deal]
      have whole := List.take_append_drop capacity data
      cases left : data.drop capacity with
      | cons b rest =>
        rw [left] at whole
        rintro _ ⟨⟩
        refine .some rfl whole.symm ?_ ?_ ?_
        · intro none
          rw [List.take_eq_nil_iff] at none
          obtain none | rfl := none
          · omega
          · simp at left
        · rfl
        · exact fun sound => ((sound_cons _ _).mp sound).2
      | nil =>
        -- the bytes that came are all of the piece; without any, the read goes on
        rw [left, List.append_nil] at whole
        rw [whole]
        cases pieces with
        | nil =>
          apply Job.Ensures.after
          rintro _ w₁ _ ⟨⟩
          exact .last rfl
        | cons next pieces =>
          rw [Job.ensures_ite]
          split
          · next empty =>
            rw [List.isEmpty_iff] at empty
            exact ih.mono fun r _ takes data' read => (takes data' read).skip rfl empty
          · next taken =>
            rw [List.isEmpty_iff] at taken
            rintro _ ⟨⟩
            exact .some rfl (List.append_nil _).symm taken rfl id

/-- Over the wire reads fail as calls do. -/
theorem readPiece_mild (i : Nat) (c : Connection) (capacity : Nat) (deadline : Instant)
    (pieces : List Piece) :
    (readPiece i c capacity deadline pieces).Ensures p w fun r _ =>
      ∀ f, r.1 = .error f → f.IsClient := by
  induction pieces generalizing w with
  | nil =>
    apply Job.Ensures.after
    rintro _ w₁ _ ⟨⟩
  | cons q pieces ih =>
    rw [readPiece, Job.ensures_bind, Job.ensures_get, Job.ensures_ite]
    split
    · rintro _ ⟨⟩
      exact ⟨_, rfl⟩
    refine .after fun left w₁ => .after fun _ w₂ => .after fun failed w₃ => ?_
    cases failed with
    | some e =>
      rintro _ ⟨⟩
      unfold readFailure
      split
      · exact ⟨_, rfl⟩
      · exact ⟨_, rfl⟩
    | none =>
      apply Job.Ensures.after
      intro _ w₄
      split
      · rintro _ ⟨⟩
      · apply Job.Ensures.after
        rintro _ w₅ _ ⟨⟩
      · rw [Job.ensures_ite]
        split
        · exact ih
        · rintro _ ⟨⟩

end Session

namespace Source

/-- The failures of a body are such as calls have; over the wire there are no others. -/
def Mild : Source → Prop
  | .scripted b => ∀ c ∈ b.chunks, ∀ f, c.failure = some f → f.IsClient
  | .wire _ => True

theorem Sound.mild {s : Source} (sound : s.Sound) : s.Mild := by
  rcases s with b | b
  · intro c member f failure
    have fine : c.failure.isSome = false := sound c.part (List.mem_map_of_mem member)
    rw [failure] at fine
    cases fine
  · trivial

/-- Every read that does not fail takes something off the body, and passes over no failure. -/
theorem read_takes (s : Source) {capacity : Nat} (room : 0 < capacity) (deadline : Instant) :
    (s.read capacity deadline).Ensures p w fun r _ => ∀ data, r.1 = .ok data →
      Takes s.parts data r.2.parts := by
  rcases s with b | ⟨session, _ | c, status, headers⟩
  · rw [ensures_read_scripted]
    exact ScriptedBody.readChunk_takes room deadline b.chunks
  · rintro _ ⟨⟩
    exact .none
  · rw [ensures_read_wire rfl]
    exact Session.readPiece_takes room session c deadline c.unread

theorem read_mild {s : Source} (mild : s.Mild) (capacity : Nat) (deadline : Instant) :
    (s.read capacity deadline).Ensures p w fun r _ =>
      r.2.Mild ∧ ∀ f, r.1 = .error f → f.IsClient := by
  rcases s with b | ⟨session, _ | c, status, headers⟩
  · rw [ensures_read_scripted]
    exact ScriptedBody.readChunk_mild capacity deadline b.chunks mild
  · refine ⟨trivial, ?_⟩
    rintro _ ⟨⟩
  · rw [ensures_read_wire rfl]
    apply (Session.readPiece_mild session c capacity deadline c.unread).mono
    exact fun _ _ mild => ⟨trivial, mild⟩

/-- A read changes nothing about which body it is. -/
theorem read_number (s : Source) (capacity : Nat) (deadline : Instant) :
    (s.read capacity deadline).Ensures p w fun r _ => r.2.number? = s.number? := by
  rcases s with b | ⟨session, _ | c, status, headers⟩
  · rw [ensures_read_scripted]
    exact .of_all fun _ _ => rfl
  · exact rfl
  · rw [ensures_read_wire rfl]
    exact .of_all fun _ _ => rfl

end Source

/-- From one world to the other nothing was counted, and the clock did not go beyond an instant. -/
structure World.Lingers (limit : Instant) (w w' : World) : Prop where
  now_le : w'.now ≤ max w.now limit
  usage_eq : w'.client.usage = w.client.usage

theorem World.Lingers.trans {limit : Instant} {w₁ : World} (h : w.Lingers limit w₁)
    (h' : w₁.Lingers limit w') : w.Lingers limit w' where
  now_le := by
    have := h.now_le
    have := h'.now_le
    lia
  usage_eq := h'.usage_eq.trans h.usage_eq

theorem World.Lingers.refl (w : World) (limit : Instant) : w.Lingers limit w :=
  ⟨Int.le_max_left .., rfl⟩

/-- Something was entered into the log first. -/
theorem World.Lingers.of_mark {limit : Instant} {m : Mark} (h : (w.mark m).Lingers limit w') :
    w.Lingers limit w' :=
  ⟨h.now_le, h.usage_eq⟩

/-- A wait up to the instant, or no further than the clock was. -/
theorem World.Lingers.wait (calm : p.Calm) {limit t : Instant} (le : t ≤ max w.now limit) :
    w.Lingers limit (p t (fun _ => false) w) where
  now_le := by
    have := calm.now_le t (fun _ => false) w
    lia
  usage_eq := calm.usage_eq ..

/-- Whenever it begins, the job counts nothing, and is over by an instant or else at once. -/
def Job.Lingers (p : Pause) (limit : Instant) (j : Job α) : Prop :=
  ∀ w, j.Ensures p w fun _ => w.Lingers limit

namespace Job.Lingers

variable {limit : Instant} {j : Job α}

theorem ret (a : α) : Job.Lingers p limit (pure a) := fun w => .refl w limit

theorem bind {k : α → Job β} (h : j.Lingers p limit) (next : ∀ a, (k a).Lingers p limit) :
    (j >>= k).Lingers p limit := by
  intro w
  rw [ensures_bind]
  apply (h w).mono
  intro a w₁ first
  apply (next a w₁).mono
  intro _ w₂ second
  exact first.trans second

theorem ite {c : Prop} [Decidable c] {k : Job α} (yes : j.Lingers p limit)
    (no : k.Lingers p limit) : Job.Lingers p limit (if c then j else k) := by
  split
  · exact yes
  · exact no

theorem aside {f : World → World} (now_eq : ∀ w, (f w).now = w.now)
    (usage_eq : ∀ w, (f w).client.usage = w.client.usage) : Job.Lingers p limit (modify f) :=
  fun w => ⟨Int.le_trans (Int.le_of_eq (now_eq w)) (Int.le_max_left ..), usage_eq w⟩

end Job.Lingers

/-- Something comes at once, or after a delay that may be too long. -/
theorem Job.lingers_delayed (calm : p.Calm) {late j : Job α} {deadline : Instant} {delay : Nanos}
    (tooLate : late.Lingers p deadline) (comes : j.Lingers p deadline) :
    Job.Lingers p deadline (do
      if 0 < delay then
        if deadline < (← get).now + delay then late else
          Job.wait delay
          j
      else j) := by
  refine .ite (fun w => ?_) comes
  rw [ensures_bind, ensures_get, ensures_ite]
  split
  · exact tooLate w
  · next soon =>
    rw [ensures_bind, ensures_wait]
    apply (comes _).mono
    intro _ w' lingers
    refine (World.Lingers.wait calm ?_).trans lingers
    lia

theorem ScriptedBody.readChunk_lingers (calm : p.Calm) (capacity : Nat) (deadline : Instant)
    (chunks : List Chunk) : (readChunk capacity deadline chunks).Lingers p deadline := by
  induction chunks with
  | nil => exact .ret _
  | cons c chunks ih =>
    apply Job.lingers_delayed calm
    case tooLate =>
      exact .bind (fun w => World.Lingers.wait calm (Int.le_max_right ..)) fun _ => .ret _
    case comes =>
      split
      · exact .ret _
      · exact ih
      · exact .ret _

namespace Session

theorem operate_lingers (calm : p.Calm) (outcome : WireOutcome) (expiry : Instant) :
    (operate outcome expiry).Lingers p expiry := by
  intro w
  rw [ensures_operate]
  split
  · exact .wait calm (Int.le_max_right ..)
  · next soon =>
    apply World.Lingers.wait calm
    lia

theorem deal_lingers (i : Nat) (dealing : Dealing) {limit : Instant} :
    (deal i dealing).Lingers p limit := .aside (fun _ => rfl) fun _ => rfl

theorem record_lingers (event : WireEvent) {limit : Instant} :
    (Job.record event).Lingers p limit := .aside (fun _ => rfl) fun _ => rfl

theorem left_lingers (deadline : Instant) {limit : Instant} : (left deadline).Lingers p limit :=
  fun w => .refl w limit

theorem discard_lingers (i : Nat) (c : Connection) {limit : Instant} :
    (discard i c).Lingers p limit :=
  .bind (record_lingers _) fun _ => .bind (record_lingers _) fun _ => deal_lingers i _

theorem checkin_lingers (i : Nat) (c : Connection) {limit : Instant} :
    (checkin i c).Lingers p limit := by
  intro w
  rw [checkin, Job.ensures_bind, ensures_current, Job.ensures_ite]
  split
  · exact deal_lingers i _ w
  · exact discard_lingers i c w

theorem readPiece_lingers (calm : p.Calm) (i : Nat) (c : Connection) (capacity : Nat)
    (deadline : Instant) (pieces : List Piece) :
    (readPiece i c capacity deadline pieces).Lingers p deadline := by
  induction pieces with
  | nil => exact .bind (checkin_lingers i _) fun _ => .ret _
  | cons q pieces ih =>
    intro w
    rw [readPiece, Job.ensures_bind, Job.ensures_get, Job.ensures_ite]
    split
    · exact Job.Lingers.bind (discard_lingers i _) (fun _ => .ret _) w
    refine Job.Lingers.bind (left_lingers deadline) (fun left => ?_) w
    refine .bind (record_lingers _) fun _ => .bind (operate_lingers calm q.outcome deadline) ?_
    rintro (_ | e)
    · refine .bind (deal_lingers i _) fun _ => ?_
      split
      · exact .ret _
      · exact .bind (checkin_lingers i _) fun _ => .ret _
      · exact .ite ih (.ret _)
    · exact .bind (discard_lingers i _) fun _ => .ret _

end Session

/-- Whatever a read comes to, it counts nothing and is over by its deadline. -/
theorem Source.read_lingers (calm : p.Calm) (s : Source) (capacity : Nat) (deadline : Instant) :
    (s.read capacity deadline).Lingers p deadline := by
  rcases s with b | ⟨session, _ | c, status, headers⟩
  · exact .bind (.bind (ScriptedBody.readChunk_lingers calm _ _ _) fun _ => .ret _) fun _ => .ret _
  · exact .bind (.ret _) fun _ => .ret _
  · exact .bind (.bind (Session.readPiece_lingers calm _ _ _ _ _) fun _ => .ret _) fun _ => .ret _

/-- What a read comes to, whatever the body is like. -/
structure Source.Reads (p : Pause) (s : Source) (deadline : Instant) (w : World)
    (r : Except Failure Bytes × Source) (w' : World) : Prop where
  takes : ∀ data, r.1 = .ok data → Takes s.parts data r.2.parts
  number_eq : r.2.number? = s.number?
  mild_of : s.Mild → r.2.Mild
  client_of : s.Mild → ∀ f, r.1 = .error f → f.IsClient
  lingers : p.Calm → w.Lingers deadline w'

theorem Source.read_reads (s : Source) {capacity : Nat} (room : 0 < capacity)
    (deadline : Instant) : (s.read capacity deadline).Ensures p w (s.Reads p deadline w) where
  takes := s.read_takes room deadline
  number_eq := s.read_number capacity deadline
  mild_of mild := (read_mild mild capacity deadline).1
  client_of mild := (read_mild mild capacity deadline).2
  lingers calm := s.read_lingers calm capacity deadline w

end Parley
