import Parley.Proofs.Job
import Parley.Source

/-!
Bodies that arrive whole. A sound body fails nowhere; if it also arrives before a deadline, reads
until that deadline give its bytes in order, whatever pieces they come in, and the first empty read
is the end.
-/
namespace Parley

variable {p : Pause} {w : World}

/-- During a wait no call is counted, and the clock does not go beyond the end of the wait. -/
structure Pause.Calm (p : Pause) : Prop where
  now_le : ∀ t stop w, (p t stop w).now ≤ max w.now t
  usage_eq : ∀ t stop w, (p t stop w).client.usage = w.client.usage

theorem Pause.quiet_calm : Pause.quiet.Calm where
  now_le t stop w := by
    unfold Pause.quiet
    split
    · exact Int.le_max_left ..
    · exact Int.le_refl _
  usage_eq t stop w := by
    unfold Pause.quiet
    split <;> rfl

section Steps
variable (w : World)

@[simp] theorem World.record_now (e : WireEvent) : (w.record e).now = w.now := rfl

@[simp] theorem World.record_client (e : WireEvent) : (w.record e).client = w.client := rfl

@[simp] theorem World.deal_now (i : Nat) (d : Dealing) : (w.deal i d).now = w.now := rfl

@[simp] theorem World.deal_client (i : Nat) (d : Dealing) : (w.deal i d).client = w.client := rfl

end Steps

/-- A part of a body that has yet to be read. -/
structure Part where
  data : Bytes
  delay : Nanos
  fails : Bool

def Chunk.part (c : Chunk) : Part := ⟨c.data, c.delay, c.failure.isSome⟩

def Piece.part (q : Piece) : Part := ⟨q.data, q.outcome.delay, q.outcome.error.isSome⟩

namespace Part

def bytes (parts : List Part) : Bytes := parts.flatMap (·.data)

/-- How long the parts take to arrive, one after the other. -/
def time : List Part → Nanos
  | [] => 0
  | q :: parts => max 0 q.delay + time parts

def Sound (parts : List Part) : Prop := ∀ q ∈ parts, q.fails = false

@[simp] theorem bytes_nil : bytes [] = [] := rfl

@[simp] theorem bytes_cons (q : Part) (parts : List Part) :
    bytes (q :: parts) = q.data ++ bytes parts := rfl

@[simp] theorem time_nil : time [] = 0 := rfl

@[simp] theorem time_cons (q : Part) (parts : List Part) :
    time (q :: parts) = max 0 q.delay + time parts := rfl

theorem time_nonneg (parts : List Part) : 0 ≤ time parts := by
  induction parts with
  | nil => exact Int.le_refl 0
  | cons q parts ih =>
    rw [time_cons]
    lia

@[simp] theorem sound_cons (q : Part) (parts : List Part) :
    Sound (q :: parts) ↔ q.fails = false ∧ Sound parts := List.forall_mem_cons

/-- What is too late for the first part is too late for all of them. -/
theorem lt_time_cons {q : Part} {parts : List Part} {t deadline : Instant}
    (late : deadline < t + max 0 q.delay) : deadline < t + time (q :: parts) := by
  have positive := time_nonneg parts
  rw [time_cons]
  lia

/-- A read takes `data` off some parts, which leaves `rest`. That the data is empty means that
nothing is left. -/
structure Gives (parts : List Part) (data : Bytes) (rest : List Part) : Prop where
  bytes_eq : bytes parts = data ++ bytes rest
  ended : data = [] → bytes rest = []

namespace Gives

theorem none : Gives [] [] [] := ⟨rfl, fun _ => rfl⟩

/-- A read that takes a part, or the beginning of it. -/
theorem some {q : Part} {parts rest : List Part} {data after : Bytes}
    (part : q.data = data ++ after) (taken : data ≠ []) (left : bytes rest = after ++ bytes parts) :
    Gives (q :: parts) data rest :=
  ⟨by rw [bytes_cons, part, left, List.append_assoc], fun h => absurd h taken⟩

/-- An empty part is passed over. -/
theorem skip {q : Part} {parts rest : List Part} {data : Bytes} (part : q.data = [])
    (h : Gives parts data rest) : Gives (q :: parts) data rest :=
  ⟨by rw [bytes_cons, part, List.nil_append, h.bytes_eq], h.ended⟩

end Gives

/-- What a read of sound parts comes to: it gives some of them, in no more than the time they take;
or else not all of them would have arrived by its deadline. -/
structure Reading (parts : List Part) (w : World) (deadline : Instant)
    (result : Except Failure Bytes) (rest : List Part) (w' : World) : Prop where
  sound : Sound rest
  usage_eq : w'.client.usage = w.client.usage
  given : ∀ data, result = .ok data →
    Gives parts data rest ∧ w'.now + time rest ≤ w.now + time parts
  late : ∀ f, result = .error f → (∃ e, f = .client e) ∧ deadline < w.now + time parts

namespace Reading

variable {parts rest : List Part} {w w' : World} {deadline : Instant} {data : Bytes}

theorem gives (h : Gives parts data rest) (sound : Sound rest)
    (usage_eq : w'.client.usage = w.client.usage)
    (now_le : w'.now + time rest ≤ w.now + time parts) :
    Reading parts w deadline (.ok data) rest w' where
  sound := sound
  usage_eq := usage_eq
  given := by
    rintro _ ⟨⟩
    exact ⟨h, now_le⟩
  late := by
    intro f error
    cases error

theorem fails (e : ClientError) (sound : Sound rest) (usage_eq : w'.client.usage = w.client.usage)
    (late : deadline < w.now + time parts) :
    Reading parts w deadline (.error (.client e)) rest w' where
  sound := sound
  usage_eq := usage_eq
  given := by
    intro data ok
    cases ok
  late := by
    rintro _ ⟨⟩
    exact ⟨⟨e, rfl⟩, late⟩

/-- A read that passes over an empty part goes on with the others. -/
theorem skip {q : Part} {result : Except Failure Bytes} {w₁ : World} (part : q.data = [])
    (usage_eq : w₁.client.usage = w.client.usage) (now_le : w₁.now ≤ w.now + max 0 q.delay)
    (h : Reading parts w₁ deadline result rest w') :
    Reading (q :: parts) w deadline result rest w' where
  sound := h.sound
  usage_eq := h.usage_eq.trans usage_eq
  given data ok := by
    obtain ⟨gives, time_le⟩ := h.given data ok
    refine ⟨gives.skip part, ?_⟩
    rw [time_cons]
    lia
  late f error := by
    obtain ⟨client, late⟩ := h.late f error
    refine ⟨client, ?_⟩
    rw [time_cons]
    lia

/-- A read that takes as much of a part as there is room for. -/
theorem take {q : Part} (capacity : Nat) (taken : q.data.take capacity ≠ [])
    (left : bytes rest = q.data.drop capacity ++ bytes parts) (time_eq : time rest = time parts)
    (sound : Sound rest) (usage_eq : w'.client.usage = w.client.usage)
    (now_le : w'.now ≤ w.now + max 0 q.delay) :
    Reading (q :: parts) w deadline (.ok (q.data.take capacity)) rest w' := by
  refine .gives (.some (List.take_append_drop capacity _).symm taken left) sound usage_eq ?_
  rw [time_eq, time_cons]
  lia

/-- A read that takes all of the last part, which may be empty. -/
theorem last {q : Part} (capacity : Nat) (whole : q.data.drop capacity = [])
    (usage_eq : w'.client.usage = w.client.usage) (now_le : w'.now ≤ w.now + max 0 q.delay) :
    Reading [q] w deadline (.ok (q.data.take capacity)) [] w' := by
  have sound : Sound [] := by simp [Sound]
  by_cases empty : q.data = []
  · rw [empty, List.take_nil]
    exact .skip empty usage_eq now_le (.gives .none sound rfl (Int.le_refl _))
  · have taken : q.data.take capacity = q.data := by
      have cut := List.take_append_drop capacity q.data
      rwa [whole, List.append_nil] at cut
    apply take capacity
    case taken => rwa [taken]
    case left => rw [whole, List.nil_append]
    case time_eq => rfl
    case sound => exact sound
    case usage_eq => exact usage_eq
    case now_le => exact now_le

end Reading

end Part

namespace Source

/-- The parts of a body that have yet to be read. -/
def parts : Source → List Part
  | .scripted b => b.chunks.map Chunk.part
  | .wire b =>
    match b.connection with
    | some c => c.unread.map Piece.part
    | none => []

def content (s : Source) : Bytes := Part.bytes s.parts

/-- How long the rest of a body takes to arrive. -/
def timeLeft (s : Source) : Nanos := Part.time s.parts

/-- Nothing that has yet to arrive fails. -/
def Sound (s : Source) : Prop := Part.Sound s.parts

theorem remaining_eq (s : Source) : s.remaining = s.content.length := by
  rcases s with ⟨number, status, headers, chunks⟩ | ⟨session, _ | c, status, headers⟩
  · induction chunks with
    | nil => rfl
    | cons c chunks ih => simpa [remaining, content, parts, Chunk.part] using ih
  · rfl
  · obtain ⟨number, lastUsed, reused, unread, persistent⟩ := c
    induction unread with
    | nil => rfl
    | cons q pieces ih => simpa [remaining, content, parts, Piece.part] using ih

end Source

open Parley.Part

/-- A wait to its end takes the time it is given, and none if that is negative. -/
theorem Pause.Calm.wait_le (calm : p.Calm) (d : Nanos) :
    (p (w.now + d) (fun _ => false) w).now ≤ w.now + max 0 d := by
  have := calm.now_le (w.now + d) (fun _ => false) w
  lia

theorem ScriptedBody.readChunk_reading (calm : p.Calm) {capacity : Nat} (room : 0 < capacity)
    (deadline : Instant) (chunks : List Chunk) (sound : Sound (chunks.map Chunk.part)) :
    (readChunk capacity deadline chunks).Ensures p w fun r w' =>
      Reading (chunks.map Chunk.part) w deadline r.1 (r.2.map Chunk.part) w' := by
  induction chunks generalizing w with
  | nil =>
    rw [readChunk]
    exact .gives .none sound rfl (Int.le_refl _)
  | cons c chunks ih =>
    obtain ⟨fine, others⟩ := (sound_cons _ _).mp sound
    obtain ⟨data, delay, failure⟩ := c
    obtain rfl : failure = none := by simpa [Chunk.part] using fine
    have atOnce : w.now ≤ w.now + max 0 delay := by lia
    have late (h : deadline < w.now + delay) :
        deadline < w.now + time (Chunk.part ⟨data, delay, none⟩ :: chunks.map Chunk.part) := by
      apply lt_time_cons
      simp only [Chunk.part]
      lia
    rw [readChunk]
    simp only [Job.ensures_bind, Job.ensures_ite, Job.ensures_get, Job.ensures_waitUntil,
      Job.ensures_pure, Job.ensures_wait]
    cases data with
    | nil =>
      have arrived {w₁ : World} (usage_eq : w₁.client.usage = w.client.usage)
          (now_le : w₁.now ≤ w.now + max 0 delay) :
          (readChunk capacity deadline chunks).Ensures p w₁ fun r w' =>
            Reading (Chunk.part ⟨[], delay, none⟩ :: chunks.map Chunk.part) w deadline r.1
              (r.2.map Chunk.part) w' :=
        (ih others).mono fun r w' h => h.skip rfl usage_eq now_le
      split
      · split
        · next h => exact .fails _ sound (calm.usage_eq ..) (late h)
        · exact arrived (calm.usage_eq ..) (calm.wait_le delay)
      · exact arrived rfl atOnce
    | cons b data =>
      have arrived {w₁ : World} (usage_eq : w₁.client.usage = w.client.usage)
          (now_le : w₁.now ≤ w.now + max 0 delay) :
          Reading (Chunk.part ⟨b :: data, delay, none⟩ :: chunks.map Chunk.part) w deadline
            (.ok ((b :: data).take capacity))
            (Chunk.part ⟨(b :: data).drop capacity, 0, none⟩ :: chunks.map Chunk.part) w₁ := by
        refine .take capacity ?_ rfl ?_ ?_ usage_eq now_le
        · simpa [Chunk.part] using Nat.pos_iff_ne_zero.mp room
        · simp [Chunk.part]
        · simpa [Chunk.part] using others
      split
      · split
        · next h => exact .fails _ sound (calm.usage_eq ..) (late h)
        · exact arrived (calm.usage_eq ..) (calm.wait_le delay)
      · exact arrived rfl atOnce

namespace Session

/-- The parts of a body that have yet to come over a connection. -/
def unread : Option Connection → List Part
  | some c => c.unread.map Piece.part
  | none => []

theorem readPiece_reading (calm : p.Calm) {capacity : Nat} (room : 0 < capacity) (i : Nat)
    (c : Connection) (deadline : Instant) (pieces : List Piece)
    (sound : Sound (pieces.map Piece.part)) :
    (readPiece i c capacity deadline pieces).Ensures p w fun r w' =>
      Reading (pieces.map Piece.part) w deadline r.1 (unread r.2) w' := by
  induction pieces generalizing w with
  | nil =>
    rw [readPiece]
    simp only [Job.ensures_bind, ensures_checkin, Job.ensures_pure, ensures_discard]
    split
    · exact .gives .none sound rfl (Int.le_refl _)
    · exact .gives .none sound rfl (Int.le_refl _)
  | cons q pieces ih =>
    obtain ⟨fine, others⟩ := (sound_cons _ _).mp sound
    obtain ⟨data, delay, error⟩ := q
    obtain rfl : error = none := by simpa [Piece.part] using fine
    have nothing : Sound (unread none) := by simp [unread, Sound]
    rw [readPiece]
    simp only [Job.ensures_bind, Job.ensures_ite, Job.ensures_get, ensures_discard,
      Job.ensures_pure, Job.ensures_record, ensures_left, ensures_operate, ensures_deal]
    split
    · next late =>
      refine .fails _ nothing rfl (lt_time_cons ?_)
      lia
    split
    · next late =>
      refine .fails _ nothing (calm.usage_eq ..) (lt_time_cons ?_)
      rw [World.record_now] at late
      simp only [Piece.part]
      lia
    generalize came : World.deal _ i (.received ..) = w₁
    have usage_eq : w₁.client.usage = w.client.usage := by
      rw [← came]
      exact calm.usage_eq ..
    have now_le : w₁.now ≤ w.now + max 0 delay := by
      rw [← came]
      exact calm.wait_le delay
    cases rest : data.drop capacity with
    | cons b rest =>
      have taken : data.take capacity ≠ [] := by
        intro empty
        rw [List.take_eq_nil_iff] at empty
        obtain none | rfl := empty
        · omega
        · simp at rest
      simp only [Job.ensures_pure]
      refine .take capacity taken ?_ ?_ ?_ usage_eq now_le
      · simp [unread, Piece.part, rest]
      · simp [unread, Piece.part]
      · simpa [unread, Piece.part] using others
    | nil =>
      -- the bytes that came are all of the piece; without any, the read goes on
      cases pieces with
      | nil =>
        simp only [Job.ensures_bind, ensures_checkin, ensures_discard, Job.ensures_pure]
        split <;> exact .last capacity rest usage_eq now_le
      | cons next pieces =>
        simp only [Job.ensures_ite, Job.ensures_pure]
        split
        · next empty =>
          have whole := List.take_append_drop capacity data
          rw [List.isEmpty_iff] at empty
          rw [rest, empty] at whole
          exact (ih others).mono fun r w' h => h.skip whole.symm usage_eq now_le
        · next taken =>
          rw [List.isEmpty_iff] at taken
          refine .take capacity taken ?_ ?_ ?_ usage_eq now_le
          · simp [unread, Piece.part, rest]
          · simp [unread]
          · exact others

end Session

namespace Source

section Rules
variable {capacity : Nat} {deadline : Instant} {post : Except Failure Bytes × Source → World → Prop}

theorem ensures_read_scripted (b : ScriptedBody) :
    ((scripted b).read capacity deadline).Ensures p w post ↔
      (ScriptedBody.readChunk capacity deadline b.chunks).Ensures p w fun r w' =>
        post (r.1, .scripted { b with chunks := r.2 }) w' := by
  simp only [read, ScriptedBody.read, Job.ensures_bind, Job.ensures_pure]

theorem ensures_read_wire {b : WireBody} {c : Connection} (held : b.connection = some c) :
    ((wire b).read capacity deadline).Ensures p w post ↔
      (Session.readPiece b.session c capacity deadline c.unread).Ensures p w fun r w' =>
        post (r.1, .wire { b with connection := r.2 }) w' := by
  simp only [read, WireBody.read, held, Job.ensures_bind, Job.ensures_pure]

end Rules

/-- What a read of a body comes to, as `Part.Reading`. -/
theorem read_reading (calm : p.Calm) {s : Source} (sound : s.Sound) {capacity : Nat}
    (room : 0 < capacity) (deadline : Instant) :
    (s.read capacity deadline).Ensures p w fun r w' =>
      Reading s.parts w deadline r.1 r.2.parts w' := by
  cases s with
  | scripted b =>
    rw [ensures_read_scripted]
    exact ScriptedBody.readChunk_reading calm room deadline b.chunks sound
  | wire b =>
    obtain ⟨session, _ | c, status, headers⟩ := b
    · exact .gives .none sound rfl (Int.le_refl _)
    · rw [ensures_read_wire rfl]
      exact Session.readPiece_reading calm room session c deadline c.unread sound

/-- A read is the same after something was entered into the log. -/
theorem read_marked (calm : p.Calm) {s : Source} (sound : s.Sound) {capacity : Nat}
    (room : 0 < capacity) (deadline : Instant) {m : Mark} :
    (s.read capacity deadline).Ensures p (w.mark m) fun r w' =>
      Reading s.parts w deadline r.1 r.2.parts w' :=
  (read_reading calm sound room deadline).mono fun _ _ reading => { reading with }

end Source

end Parley
