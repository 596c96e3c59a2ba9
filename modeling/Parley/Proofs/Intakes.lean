import Parley.Proofs.Seeks
import Parley.Proofs.Takings

/-!
The buffer of a stream at the moments when it reads. Whatever was received before, a read finds in
the buffer the line that is not finished yet and nothing else, so the buffer never grows with the
stream, but only with its longest line.

* `lastLine_append`: what follows the last newline;
* `Intake`, `pullNoting`: requests that note each read, and that they are requests otherwise;
* `Buffer.overwrite`, `Intake.after_eq`: the buffer before, during and after a read;
* `pullNoting_clear`: one request, by induction on its reads;
* `next_takes_in`: any number of requests.
-/
namespace Parley

namespace EventLines

variable {line text front back : Bytes}

theorem lastLine_eq_self (unbroken : newline ∉ line) : lastLine line = line := by
  rw [lastLine, List.splitOn_eq_singleton unbroken]
  rfl

theorem lastLine_line (unbroken : newline ∉ line) (rest : Bytes) :
    lastLine (line ++ newline :: rest) = lastLine rest := by
  have more : rest.splitOn newline ≠ [] := List.splitOn_ne_nil _ _
  rw [lastLine, List.splitOn_append_cons_self_of_not_mem unbroken,
    List.getLast?_cons_of_ne_nil more, lastLine]

theorem lastLine_newline (front back : Bytes) :
    lastLine (front ++ newline :: back) = lastLine back := by
  induction length_eq : front.length using Nat.strongRecOn generalizing front with
  | _ n ih =>
    by_cases broken : newline ∈ front
    · obtain ⟨line, rest, rfl, unbroken⟩ := List.eq_append_cons_of_mem broken
      have shorter : rest.length < n := by
        rw [← length_eq, List.length_append, List.length_cons]
        omega
      rw [List.append_assoc, List.cons_append, lastLine_line unbroken]
      exact ih rest.length shorter rest rfl
    · exact lastLine_line broken back

/-- What is there of a line that begins after whole lines. -/
theorem lastLine_append (ends : EndsLine front) (unbroken : newline ∉ back) :
    lastLine (front ++ back) = back := by
  obtain rfl | last := ends
  · exact lastLine_eq_self unbroken
  · obtain ⟨front, rfl⟩ := List.getLast?_eq_some_iff.mp last
    rw [List.append_assoc, List.singleton_append, lastLine_newline, lastLine_eq_self unbroken]

end EventLines

namespace Buffer

/-- Writes over the bytes from a place on. -/
def overwrite (b : Buffer) (start : Nat) (data : Bytes) : Buffer :=
  { b with bytes := b.bytes.take start ++ data ++ b.bytes.drop (start + data.length) }

theorem bytes_resize (b : Buffer) (room : Nat) :
    (b.resize (b.size + room)).bytes = b.bytes ++ List.replicate room 0 := by
  rw [resize, size, List.take_of_length_le (Nat.le_add_right ..), Nat.add_sub_cancel_left]

theorem grow_of_le {b : Buffer} {n : Nat} (enough : n ≤ b.capacity) : b.grow n = b := if_pos enough

theorem le_capacity_grow (b : Buffer) (n : Nat) : n ≤ (b.grow n).capacity := by
  unfold grow
  split
  · assumption
  · simp only
    omega

/-- Bytes that are read into a buffer which is made larger for them first, and is then cut down to
those that came, are appended to it. -/
theorem resize_overwrite (b : Buffer) {room : Nat} {data : Bytes} (fits : data.length ≤ room) :
    ((b.resize (b.size + room)).overwrite b.size data).resize (b.size + data.length) =
      { b.grow (b.size + room) with bytes := b.bytes ++ data } := by
  have written : ((b.resize (b.size + room)).overwrite b.size data).bytes =
      b.bytes ++ data ++ List.replicate (room - data.length) 0 := by
    rw [overwrite, bytes_resize, size, List.take_left, List.drop_length_add_append,
      List.drop_replicate]
  have capacity_le : b.size + data.length ≤
      ((b.resize (b.size + room)).overwrite b.size data).capacity :=
    Nat.le_trans (Nat.add_le_add_left fits _) (le_capacity_grow b _)
  have size_eq : b.size + data.length = (b.bytes ++ data).length := List.length_append.symm
  have kept : ((b.resize (b.size + room)).overwrite b.size data).bytes.take
      (b.size + data.length) = b.bytes ++ data := by
    rw [written, size_eq, List.take_left]
  have length_eq := congrArg List.length written
  rw [List.length_append, ← size_eq] at length_eq
  have none : b.size + data.length - ((b.resize (b.size + room)).overwrite b.size data).size = 0 :=
    Nat.sub_eq_zero_of_le (Nat.le_trans (Nat.le_add_right ..) (Nat.le_of_eq length_eq.symm))
  rw [resize, grow_of_le capacity_le, kept, none, List.replicate_zero, List.append_nil]
  rfl

end Buffer

namespace LineBuffer

/-- A buffer that is the end of what was received, of which whole lines have been looked at. -/
def Level (b : LineBuffer) (text : Bytes) : Prop :=
  ∃ taken, Feed.Placed { buffer := b, appended := text, taken }

namespace Level

open EventLines

variable {b : LineBuffer} {text : Bytes}

theorem empty : Level {} [] := ⟨[], .empty⟩

theorem compact (level : b.Level text) : b.compact.Level text := by
  obtain ⟨taken, placed⟩ := level
  have compacted := placed.compact
  simp only [Feed.step, LineBuffer.step, Act.data, List.append_nil] at compacted
  exact ⟨taken, compacted⟩

theorem append (level : b.Level text) (data : Bytes) : (b.append data).Level (text ++ data) := by
  obtain ⟨taken, placed⟩ := level
  have appended := placed.append data
  simp only [Feed.step, LineBuffer.step, Act.data, List.append_nil] at appended
  exact ⟨taken, appended⟩

/-- A search goes on by whole lines, and one that finds nothing leaves no line that is whole. -/
theorem look {α : Type} (level : b.Level text) (accept : Bytes → Option α) :
    Level { b with consumed := (b.next accept).consumed } text ∧
      ((b.next accept).payload = none → newline ∉ b.bytes.drop (b.next accept).consumed) := by
  obtain ⟨taken, placed⟩ := level
  obtain ⟨passed, hit, seen, rest, d, ends, found, left⟩ := b.next_divides_lines accept
  rw [found, left]
  exact ⟨⟨_, placed.look d ends left⟩, fun missed => d.exhausted (d.none_of_bind missed)⟩

/-- Where nothing has been looked at and no line is whole, there is only the last line. -/
theorem bytes_eq (level : b.Level text) (none : b.consumed = 0) (unbroken : newline ∉ b.bytes) :
    b.bytes = lastLine text := by
  obtain ⟨taken, placed⟩ := level
  obtain ⟨dropped, text_eq, ends⟩ := placed.place
  simp only at text_eq ends
  rw [none, List.take_zero, List.append_nil] at ends
  rw [text_eq, lastLine_append ends unbroken]

end Level

end LineBuffer

section Reads
variable {p : Pause} {w : World}

theorem ScriptedBody.readChunk_length_le (capacity : Nat) (deadline : Instant)
    (chunks : List Chunk) :
    (readChunk capacity deadline chunks).Ensures p w fun r _ => ∀ data, r.1 = .ok data →
      data.length ≤ capacity := by
  induction chunks generalizing w with
  | nil =>
    rintro _ ⟨⟩
    exact Nat.zero_le _
  | cons c chunks ih =>
    obtain ⟨data, delay, failure⟩ := c
    refine Job.ensures_delayed (fun w => ?_) fun w => ?_
    · rintro _ ⟨⟩
    · cases failure with
      | some f => rintro _ ⟨⟩
      | none =>
        cases data with
        | nil => exact ih
        | cons b data =>
          rintro _ ⟨⟩
          exact List.length_take_le ..

theorem Session.readPiece_length_le (i : Nat) (c : Connection) (capacity : Nat)
    (deadline : Instant) (pieces : List Piece) :
    (readPiece i c capacity deadline pieces).Ensures p w fun r _ => ∀ data, r.1 = .ok data →
      data.length ≤ capacity := by
  induction pieces generalizing w with
  | nil =>
    apply Job.Ensures.after
    rintro _ w₁ _ ⟨⟩
    exact Nat.zero_le _
  | cons q pieces ih =>
    rw [readPiece, Job.ensures_bind, Job.ensures_get, Job.ensures_ite]
    split
    · rintro _ ⟨⟩
    refine .after fun left w₁ => .after fun _ w₂ => .after fun failed w₃ => ?_
    cases failed with
    | some e => rintro _ ⟨⟩
    | none =>
      apply Job.Ensures.after
      intro _ w₄
      split
      · rintro _ ⟨⟩
        exact List.length_take_le ..
      · apply Job.Ensures.after
        rintro _ w₅ _ ⟨⟩
        exact List.length_take_le ..
      · rw [Job.ensures_ite]
        split
        · exact ih
        · rintro _ ⟨⟩
          exact List.length_take_le ..

/-- A read brings no more than there is room for. -/
theorem Source.read_length_le (s : Source) (capacity : Nat) (deadline : Instant) :
    (s.read capacity deadline).Ensures p w fun r _ => ∀ data, r.1 = .ok data →
      data.length ≤ capacity := by
  rcases s with b | ⟨session, _ | c, status, headers⟩
  · rw [ensures_read_scripted]
    exact ScriptedBody.readChunk_length_le capacity deadline b.chunks
  · rintro _ ⟨⟩
    exact Nat.zero_le _
  · rw [ensures_read_wire rfl]
    exact Session.readPiece_length_le session c capacity deadline c.unread

end Reads

namespace EventStream

open EventLines LineBuffer Parley.Part

variable {p : Pause} {w : World} {s s' : OpenStream} {text : Bytes}

/-- A read of the body: the stream when the read begins, and the bytes that it brings. -/
structure Intake where
  stream : OpenStream
  data : Bytes := []

/-- What some reads brought. -/
def received (intakes : List Intake) : Bytes := intakes.flatMap (·.data)

/-- The next event, in at most `reads` reads, each of which is noted. -/
def pullNoting : Nat → OpenStream → Job (List Intake × Pulled × EventStream)
  | 0, s => return ([], ← exhaust s)
  | reads + 1, s => do
    let found := (lines s).next signal?
    let s := { s with consumed := found.consumed }
    refuse found.refused
    match found.payload with
    | some .done => return ([], ← complete s)
    | some (.event value) => return ([], ← deliver value (.unfinished s))
    | none =>
      let s := compact s
      if s.deadline < (← get).now then return ([], ← fail s late)
      else
        Job.mark (.asked s.deadline)
        let (result, source) ← s.source.read Source.readSize s.deadline
        let rest := { makeRoom s with source }
        match result with
        | .error f => return ([{ stream := s }], ← fail rest f)
        | .ok [] => return ([{ stream := s }], ← exhaust rest)
        | .ok data =>
          let (intakes, answer) ← pullNoting reads (receive rest data)
          return ({ stream := s, data } :: intakes, answer)

def nextNoting : EventStream → Job (List Intake × Pulled × EventStream)
  | .finished => return ([], .ended, .finished)
  | .unfinished s => pullNoting (s.source.remaining + 1) s

/-- But for the notes nothing is different. -/
theorem ensures_pullNoting (reads : Nat) (s : OpenStream)
    {post : Pulled × EventStream → World → Prop} :
    (pullNoting reads s).Ensures p w (fun r w' => post r.2 w') ↔
      (pull reads s).Ensures p w post := by
  induction reads generalizing s w with
  | zero => exact Job.ensures_bind _ _
  | succ reads ih =>
    simp only [pull, pullNoting, Job.ensures_bind]
    apply Job.Ensures.congr
    intro _ w₁
    generalize ({ s with consumed := _ } : OpenStream) = s₁
    rcases (LineBuffer.next signal? (lines s)).payload with _ | _ | value
    · simp only [Job.ensures_bind, Job.ensures_get, Job.ensures_ite, Job.ensures_mark]
      split
      · exact Iff.rfl
      · apply Job.Ensures.congr
        rintro ⟨f | _ | ⟨b, data⟩, source⟩ w₂
        · exact Job.ensures_bind _ _
        · exact Job.ensures_bind _ _
        · simp only [Job.ensures_bind]
          exact ih _
    · exact Job.ensures_bind _ _
    · exact Job.ensures_bind _ _

theorem nextNoting_next (stream : EventStream) :
    (nextNoting stream).Ensures p w fun r w' =>
      (next stream).Ensures p w fun answer w'' => answer = r.2 ∧ w'' = w' := by
  cases stream with
  | finished => exact ⟨rfl, rfl⟩
  | unfinished s =>
    generalize run : ((nextNoting (.unfinished s)).run p).run w = result
    have noted : (nextNoting (.unfinished s)).Ensures p w fun r w' =>
        r.2 = result.1.2 ∧ w' = result.2 := by
      rw [Job.Ensures, run]
      exact ⟨rfl, rfl⟩
    have answered : (next (.unfinished s)).Ensures p w fun answer w'' =>
        answer = result.1.2 ∧ w'' = result.2 := (ensures_pullNoting _ s).mp noted
    rw [Job.Ensures, run]
    exact answered

namespace Intake

variable (a : Intake)

/-- The buffer before a read. -/
def before : Buffer := a.stream.lease.buffer

/-- The buffer while something is read into it. -/
def during : Buffer := a.before.resize (a.before.size + Source.readSize)

/-- The buffer after a read: what was read stands in it, and there is no room left. -/
def after : Buffer :=
  (a.during.overwrite a.before.size a.data).resize (a.before.size + a.data.length)

/-- What is known of the buffer at a read when something has been received. -/
structure Clear (received : Bytes) : Prop where
  /-- It holds what was received after the last newline. -/
  bytes_eq : a.before.bytes = lastLine received
  unbroken : newline ∉ a.before.bytes
  consumed_eq : a.stream.consumed = 0
  size_eq : a.before.size = (lastLine received).length
  /-- It has grown by the room for one read. -/
  during_size : a.during.size = (lastLine received).length + 4096
  data_le : a.data.length ≤ 4096
  after_bytes : a.after.bytes = lastLine received ++ a.data
  /-- The stream goes on with what it is then. -/
  goes_on : (receive (makeRoom a.stream) a.data).lease.buffer = a.after

variable {a}

theorem clear_of_level (level : (lines a.stream).Level text) (consumed : a.stream.consumed = 0)
    (unbroken : newline ∉ (lines a.stream).bytes) (fits : a.data.length ≤ Source.readSize) :
    a.Clear text := by
  have bytes_eq : a.before.bytes = lastLine text := level.bytes_eq consumed unbroken
  have after_eq : a.after = { a.before.grow (a.before.size + Source.readSize) with
      bytes := a.before.bytes ++ a.data } := a.before.resize_overwrite fits
  have grown : (makeRoom a.stream).lease.buffer.bytes = a.before.bytes :=
    congrArg LineBuffer.bytes (lines_makeRoom a.stream)
  constructor
  case bytes_eq => exact bytes_eq
  case unbroken => exact unbroken
  case consumed_eq => exact consumed
  case size_eq => exact congrArg List.length bytes_eq
  case during_size =>
    rw [during, Buffer.size, Buffer.bytes_resize, List.length_append, bytes_eq,
      List.length_replicate]
    rfl
  case data_le => exact fits
  case after_bytes => rw [after_eq, bytes_eq]
  case goes_on =>
    rw [after_eq, ← grown]
    rfl

end Intake

/-- Before each of some reads the buffer holds the unfinished line of what was received by then. -/
def Clears (text : Bytes) (intakes : List Intake) : Prop :=
  ∀ earlier a later, intakes = earlier ++ a :: later → a.Clear (text ++ received earlier)

theorem Clears.nil (text : Bytes) : Clears text [] := by
  rintro earlier a later none
  simp at none

theorem Clears.cons {a : Intake} {intakes : List Intake} (clear : a.Clear text)
    (clears : Clears (text ++ a.data) intakes) : Clears text (a :: intakes) := by
  rintro earlier a' later cut
  cases earlier with
  | nil =>
    cases cut
    rwa [received, List.flatMap_nil, List.append_nil]
  | cons first earlier =>
    cases cut
    have clear := clears earlier a' later rfl
    rwa [List.append_assoc] at clear

/-- What a request comes to that notes its reads. -/
structure Noted (text : Bytes) (s : OpenStream) (r : List Intake × Pulled × EventStream) :
    Prop where
  clears : Clears text r.1
  cut : ∃ rest, Cut s.source.parts (received r.1) rest
  goes_on : ∀ s', r.2.2 = .unfinished s' → (lines s').Level (text ++ received r.1) ∧
    Cut s.source.parts (received r.1) s'.source.parts

namespace Noted

variable {answer : Pulled × EventStream}

/-- A request that ends the stream without another read. -/
theorem finished (text : Bytes) (s : OpenStream) (done : answer.2 = .finished) :
    Noted text s ([], answer) where
  clears := .nil text
  cut := ⟨_, .refl _⟩
  goes_on := by
    rw [done]
    rintro s' ⟨⟩

/-- A request that ends the stream with a read that brings nothing. -/
theorem finishedBy {a : Intake} (clear : a.Clear text) (none : a.data = []) (s : OpenStream)
    (done : answer.2 = .finished) : Noted text s ([a], answer) where
  clears := .cons clear (.nil _)
  cut := by
    refine ⟨s.source.parts, ?_⟩
    rw [received, List.flatMap_singleton, none]
    exact .refl _
  goes_on := by
    rw [done]
    rintro s' ⟨⟩

/-- A request that is answered without another read, after which the stream goes on. -/
theorem answered (s' : OpenStream) (level : (lines s').Level text) (same : s'.source = s.source)
    (goes : answer.2 = .unfinished s') : Noted text s ([], answer) where
  clears := .nil text
  cut := ⟨_, .refl _⟩
  goes_on := by
    rw [goes]
    rintro _ ⟨⟩
    rw [received, List.flatMap_nil, List.append_nil, same]
    exact ⟨level, .refl _⟩

/-- A request that reads something first. -/
theorem cons {a : Intake} {intakes : List Intake} (clear : a.Clear text)
    (cut : Cut s.source.parts a.data s'.source.parts)
    (noted : Noted (text ++ a.data) s' (intakes, answer)) :
    Noted text s (a :: intakes, answer) where
  clears := .cons clear noted.clears
  cut := by
    obtain ⟨rest, later⟩ := noted.cut
    exact ⟨rest, cut.trans later⟩
  goes_on := by
    intro s'' goes
    obtain ⟨level, later⟩ := noted.goes_on s'' goes
    rw [List.append_assoc] at level
    exact ⟨level, cut.trans later⟩

end Noted

theorem lines_reading (s : OpenStream) (source : Source) :
    lines { makeRoom s with source } = lines s := lines_makeRoom s

/-- Each read of a request begins with the unfinished line. -/
theorem pullNoting_noted (reads : Nat) (s : OpenStream) (level : (lines s).Level text) :
    (pullNoting reads s).Ensures p w fun r _ => Noted text s r := by
  induction reads generalizing s text w with
  | zero =>
    rw [pullNoting, Job.ensures_bind]
    exact (exhaust_finished s).mono fun _ _ done => .finished text s done.1
  | succ reads ih =>
    obtain ⟨looked, unbroken⟩ := level.look signal?
    rw [pullNoting]
    refine .after fun _ w₁ => ?_
    generalize (lines s).next signal? = found at looked unbroken ⊢
    rcases found with ⟨_ | _ | value, refused, consumed⟩
    · simp only [Job.ensures_bind, Job.ensures_get, Job.ensures_ite, Job.ensures_mark]
      have level : (lines (compact { s with consumed })).Level text := looked.compact
      have line (data : Bytes) (fits : data.length ≤ Source.readSize) :
          Intake.Clear { stream := compact { s with consumed }, data } text :=
        Intake.clear_of_level level rfl (unbroken rfl) fits
      split
      · exact (fail_finished _ _).mono fun _ _ done => .finished text s done
      apply ((Source.read_length_le s.source _ _).and
        (s.source.read_takes (by decide) _)).mono
      rintro ⟨f | _ | ⟨b, data⟩, source⟩ w₂ ⟨fits, takes⟩
      · simp only [Job.ensures_bind]
        apply (fail_finished _ f).mono
        intro answer w₃ done
        exact .finishedBy (line [] (Nat.zero_le _)) rfl s done
      · simp only [Job.ensures_bind]
        apply (exhaust_finished _).mono
        intro answer w₃ done
        exact .finishedBy (line [] (Nat.zero_le _)) rfl s done.1
      · simp only [Job.ensures_bind]
        have clear := line (b :: data) (fits _ rfl)
        have more : (lines (receive { makeRoom (compact { s with consumed }) with source }
            (b :: data))).Level (text ++ b :: data) := by
          rw [lines_receive, lines_reading]
          exact level.append (b :: data)
        apply (ih _ more).mono
        intro r w₃ noted
        exact .cons clear (takes _ rfl).toCut noted
    · simp only [Job.ensures_bind]
      exact (complete_finished _).mono fun _ _ done => .finished text s done
    · exact .answered { s with consumed } looked rfl rfl

/-- Requests that were answered with events, each with a pause and in a world of its own, and what
they have received. -/
inductive Fed (s : OpenStream) : Bytes → OpenStream → Prop where
  | opened : Fed s [] s
  | event {text s₁ p w intakes value s₂ w'} (earlier : Fed s text s₁)
      (asked : ((nextNoting (.unfinished s₁)).run p).run w =
        ((intakes, .event value, .unfinished s₂), w')) :
      Fed s (text ++ received intakes) s₂

theorem Fed.noted {s₁ : OpenStream} (fresh : (lines s).Level []) (fed : Fed s text s₁) :
    (lines s₁).Level text ∧ Cut s.source.parts text s₁.source.parts := by
  induction fed with
  | opened => exact ⟨fresh, .refl _⟩
  | @event text s₁ p w intakes value s₂ w' earlier asked ih =>
    obtain ⟨level, cut⟩ := ih
    have noted : (nextNoting (.unfinished s₁)).Ensures p w fun r _ => Noted text s₁ r :=
      pullNoting_noted _ s₁ level
    rw [Job.Ensures, asked] at noted
    obtain ⟨level, later⟩ := noted.goes_on s₂ rfl
    exact ⟨level, cut.trans later⟩

theorem create_level (permit : Bool) (source : Source) (deadline startedAt : Instant) :
    (create permit source deadline startedAt).Ensures p w fun stream _ =>
      ∃ s, stream = .unfinished s ∧ (lines s).Level [] ∧ s.source = source := by
  have empty : lines {
      permit, lease := (Lease.take w.client.buffers).1, source, deadline, startedAt } = {} := by
    rw [lines, take_bytes]
  exact ⟨_, rfl, empty ▸ .empty, rfl⟩

/-- Whatever was received by then, a stream that is about to read has in its buffer what came after
the last newline, and nothing else. The read takes room for 4096 bytes more, and leaves as much as
it brings. -/
theorem next_takes_in (p : Pause) (w : World) (permit : Bool) (source : Source)
    (deadline startedAt : Instant) :
    (create permit source deadline startedAt).Ensures p w fun stream _ =>
      ∃ s, stream = .unfinished s ∧ ∀ text s₁, Fed s text s₁ → ∀ (p₁ : Pause) (w₁ : World),
        (nextNoting (.unfinished s₁)).Ensures p₁ w₁ fun r w' =>
          (next (.unfinished s₁)).Ensures p₁ w₁ (fun answer w'' => answer = r.2 ∧ w'' = w') ∧
          text ++ received r.1 <+: source.content ∧ Clears text r.1 := by
  apply (create_level permit source deadline startedAt).mono
  rintro _ _ ⟨s, rfl, fresh, rfl⟩
  refine ⟨s, rfl, ?_⟩
  intro text s₁ fed p₁ w₁
  obtain ⟨level, cut⟩ := fed.noted fresh
  have noted : (nextNoting (.unfinished s₁)).Ensures p₁ w₁ fun r _ => Noted text s₁ r :=
    pullNoting_noted _ s₁ level
  apply ((nextNoting_next (.unfinished s₁)).and noted).mono
  rintro r w' ⟨same, noted⟩
  obtain ⟨rest, later⟩ := noted.cut
  have begins : text ++ received r.1 <+: s.source.content :=
    ⟨Part.bytes rest, (cut.trans later).bytes_eq.symm⟩
  exact ⟨same, begins, noted.clears⟩

/-- The first read brings an event and the beginning of a line, the second one the rest of it. -/
theorem next_takes_in_cut :
    let config : Config := { clientTag := [] }
    let w : World := { config, client := .ofConfig config 1, chance := .ofSeed 1 }
    let chunks : List Chunk := [{ data := ascii "data: 1\r\nda" }, { data := ascii "ta: 2\n" }]
    let source : Source := .scripted { number := 1, status := 200, headers := [], chunks }
    (create false source 10000000 0).Ensures .quiet w fun stream _ =>
      ∃ s text s₁, stream = .unfinished s ∧ Fed s text s₁ ∧ text = ascii "data: 1\r\nda" ∧
        (nextNoting (.unfinished s₁)).Ensures .quiet w fun r _ =>
          r.1.map (fun a => (a.before.bytes, a.data)) = [(ascii "da", ascii "ta: 2\n")] ∧
            Clears text r.1 := by
  intro config w chunks source
  obtain ⟨s, stream_eq, requests⟩ := next_takes_in .quiet w false source 10000000 0
  obtain rfl := EventStream.unfinished.inj stream_eq
  let s : OpenStream := {
    permit := false, lease := (Lease.take w.client.buffers).1, source, deadline := 10000000
    startedAt := 0 }
  let s₁ : OpenStream := { s with
    lease := { s.lease with buffer := {
      bytes := ascii "data: 1\r\nda", capacity := 8192, number := some 1 } }
    source := .scripted { number := 1, status := 200, headers := [], chunks := [
      { data := [] }, { data := ascii "ta: 2\n" }] }
    consumed := 9 }
  let first : Intake := { stream := s, data := ascii "data: 1\r\nda" }
  have answer : (nextNoting (.unfinished s)).Ensures .quiet w fun r _ =>
      r = ([first], .event (.int 1), .unfinished s₁) := by
    unfold first s₁ s source chunks w config
    exact rfl
  have fed : Fed s ([] ++ received [first]) s₁ := by
    rcases asked : ((nextNoting (.unfinished s)).run .quiet).run w with ⟨r, w₁⟩
    rw [Job.Ensures, asked] at answer
    obtain rfl : r = _ := answer
    exact .event .opened asked
  have clears := (requests _ _ fed .quiet w).2.2
  have taken : (nextNoting (.unfinished s₁)).Ensures .quiet w fun r _ =>
      r.1.map (fun a => (a.before.bytes, a.data)) = [(ascii "da", ascii "ta: 2\n")] := by
    decide +kernel
  exact ⟨s, _, s₁, rfl, fed, by decide, taken.and clears⟩

end EventStream

end Parley
