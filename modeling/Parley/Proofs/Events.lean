import Parley.Proofs.Endings
import Parley.Proofs.Payloads

/-!
What a stream of events makes of a body that arrives whole and in time: the events are those of the
body read at once, however it is cut into pieces.

* `events`, `malformed`: the reference, computed from the whole body;
* `Settles`: what one request makes of a stream, in terms of what the stream has yet to give;
* `pull_settles`: the step, by induction on the reads that a request may take;
* `Run.settles`: what all requests up to the end come to.
-/
namespace Parley.EventStream

open EventLines Parley.Part

variable {p : Pause} {w : World}

/-- The payloads of a body before the one that ends it. -/
def beforeDone (body : Bytes) : List Bytes := (payloads body).takeWhile (· ≠ doneMark)

def events (body : Bytes) : List Json := (beforeDone body).filterMap Json.parse?

def malformed (body : Bytes) : List Bytes :=
  (beforeDone body).filter fun q => (Json.parse? q).isNone

section Signals
variable {q : Bytes} {value : Json}

theorem signal?_eq_none : signal? q = none ↔ q ≠ doneMark ∧ Json.parse? q = none := by
  unfold signal?
  split <;> simp [*]

theorem signal?_eq_done : signal? q = some .done ↔ q = doneMark := by
  unfold signal?
  split <;> simp [*]

theorem signal?_eq_event :
    signal? q = some (.event value) ↔ q ≠ doneMark ∧ Json.parse? q = some value := by
  unfold signal?
  split <;> simp [*]

end Signals

section Divided
variable {text seen rest tail q : Bytes} {passed : List Bytes}

theorem beforeDone_of_divides {hit : Option Bytes}
    (d : Divides signal? text passed hit seen rest) :
    beforeDone (text ++ tail) =
      passed ++ (hit.toList ++ payloads (rest ++ tail)).takeWhile (· ≠ doneMark) := by
  rw [beforeDone, d.payloads_eq, List.append_assoc, List.takeWhile_append_of_pos]
  intro q member
  simpa using (signal?_eq_none.mp (d.useless q member)).1

/-- Payloads that are no signals are no events. -/
theorem filterMap_useless {passed : List Bytes} (useless : ∀ q ∈ passed, signal? q = none) :
    passed.filterMap Json.parse? = [] := by
  rw [List.filterMap_eq_nil_iff]
  exact fun q member => (signal?_eq_none.mp (useless q member)).2

theorem Divides.filter_passed {hit : Option Bytes}
    (d : Divides signal? text passed hit seen rest) :
    (passed.filter fun q => (Json.parse? q).isNone) = passed := by
  rw [List.filter_eq_self]
  intro q member
  simp [(signal?_eq_none.mp (d.useless q member)).2]

/-- Where nothing was found, everything is still to come that was not passed over. -/
theorem events_of_none (tail : Bytes) (d : Divides signal? text passed none seen rest) :
    events (text ++ tail) = events (rest ++ tail) ∧
      malformed (text ++ tail) = passed ++ malformed (rest ++ tail) := by
  have before : beforeDone (text ++ tail) = passed ++ beforeDone (rest ++ tail) :=
    beforeDone_of_divides d
  simp [events, malformed, before, filterMap_useless d.useless, Divides.filter_passed d]

theorem events_of_done (tail : Bytes) (d : Divides signal? text passed (some q) seen rest)
    (done : signal? q = some .done) :
    events (text ++ tail) = [] ∧ malformed (text ++ tail) = passed := by
  have before : beforeDone (text ++ tail) = passed := by
    rw [beforeDone_of_divides d, signal?_eq_done.mp done]
    simp
  simp [events, malformed, before, filterMap_useless d.useless, Divides.filter_passed d]

theorem events_of_event {value : Json} (tail : Bytes)
    (d : Divides signal? text passed (some q) seen rest) (event : signal? q = some (.event value)) :
    events (text ++ tail) = value :: events (rest ++ tail) ∧
      malformed (text ++ tail) = passed ++ malformed (rest ++ tail) := by
  obtain ⟨other, parsed⟩ := signal?_eq_event.mp event
  have before : beforeDone (text ++ tail) = passed ++ q :: beforeDone (rest ++ tail) := by
    rw [beforeDone_of_divides d, Option.toList_some, List.singleton_append,
      List.takeWhile_cons_of_pos (by simpa using other), beforeDone]
  simp [events, malformed, before, parsed, filterMap_useless d.useless, Divides.filter_passed d]

/-- What follows the last newline is at most one payload. -/
theorem events_of_last (last : newline ∉ text) :
    events text =
      match (payload? text).bind signal? with
      | some (.event value) => [value]
      | _ => [] := by
  rw [events, beforeDone, payloads_last last]
  cases payload? text with
  | none => rfl
  | some q =>
    simp only [Option.toList_some, Option.bind_some]
    rcases signal : signal? q with _ | _ | value
    · obtain ⟨other, unparsed⟩ := signal?_eq_none.mp signal
      simp [other, unparsed]
    · simp [signal?_eq_done.mp signal]
    · obtain ⟨other, parsed⟩ := signal?_eq_event.mp signal
      simp [other, parsed]

theorem malformed_of_last (last : newline ∉ text) :
    malformed text = (payload? text).toList.filter fun q => (signal? q).isNone := by
  rw [malformed, beforeDone, payloads_last last]
  cases payload? text with
  | none => rfl
  | some q =>
    rcases signal : signal? q with _ | _ | value
    · obtain ⟨other, unparsed⟩ := signal?_eq_none.mp signal
      simp [other, unparsed, signal]
    · obtain rfl := signal?_eq_done.mp signal
      simp [signal]
    · obtain ⟨other, parsed⟩ := signal?_eq_event.mp signal
      simp [other, parsed, signal]

end Divided

/-- What has been received of a body and not been looked at, and what is still to come. -/
def rest (s : OpenStream) : Bytes := (lines s).unread ++ s.source.content

theorem unread_reading (s : OpenStream) (source : Source) :
    (lines { makeRoom (compact s) with source }).unread = (lines s).unread := by
  rw [← LineBuffer.unread_compact (lines s), ← lines_compact, ← lines_makeRoom (compact s)]
  rfl

theorem rest_reading (s : OpenStream) (source : Source) :
    rest { makeRoom (compact s) with source } = (lines s).unread ++ source.content := by
  rw [rest, unread_reading]

theorem unread_receive (s : OpenStream) (source : Source) (data : Bytes) :
    (lines (receive { makeRoom (compact s) with source } data)).unread =
      (lines s).unread ++ data := by
  have lines_eq : lines { makeRoom (compact s) with source } = (lines s).compact :=
    lines_makeRoom (compact s)
  rw [lines_receive, lines_eq, LineBuffer.unread_compact_append]

theorem rest_receive (s : OpenStream) (source : Source) (data : Bytes) :
    rest (receive { makeRoom (compact s) with source } data) =
      (lines s).unread ++ (data ++ source.content) := by
  rw [rest, unread_receive, List.append_assoc]
  rfl

/-- The events that a stream has yet to give. -/
def eventsLeft : EventStream → List Json
  | .finished => []
  | .unfinished s => events (rest s)

def countSuccess (u : Usage) : Usage := { u with successfulCalls := u.successfulCalls + 1 }

def countEvents (n : Nat) (u : Usage) : Usage :=
  { u with eventsDelivered := u.eventsDelivered + n }

def countMalformed (n : Nat) (u : Usage) : Usage :=
  { u with malformedFrames := u.malformedFrames + n }

/-- What is counted of a body that is read to its end. -/
def countBody (body : Bytes) (u : Usage) : Usage :=
  countSuccess (countEvents (events body).length (countMalformed (malformed body).length u))

/-- What will have been counted once a stream has ended. -/
def settled (stream : EventStream) (u : Usage) : Usage :=
  match stream with
  | .finished => u
  | .unfinished s => countBody (rest s) u

section Parts
variable {s : OpenStream}

theorem refuse_ensures (payloads : List Bytes) :
    (refuse payloads).Ensures p w fun _ w' => w'.now = w.now ∧
      w'.client.usage = countMalformed payloads.length w.client.usage := by
  simp only [refuse, Job.ensures_bind, Job.ensures_count]
  exact Job.ensures_forM payloads (fun q _ w h => h) ⟨rfl, rfl⟩

theorem finish_ensures (s : OpenStream) :
    (finish s true).Ensures p w fun _ w' => w'.client.usage = countSuccess w.client.usage :=
  (finish_letsGo s true).mono fun _ _ letsGo => letsGo.usage_eq

theorem deliver_ensures (value : Json) (stream : EventStream) :
    (deliver value stream).Ensures p w fun r w' => r = (.event value, stream) ∧ w'.now = w.now ∧
      w'.client.usage = countEvents 1 w.client.usage :=
  ⟨rfl, rfl, rfl⟩

end Parts

/-- The rest of the body is sound, and there is time for it to arrive. -/
def Ready : EventStream → World → Prop
  | .finished, _ => True
  | .unfinished s, w => s.source.Sound ∧ w.now + s.source.timeLeft ≤ s.deadline

/-- What one request makes of a stream: an event is the next one, and the end comes after the last
one. What will have been counted in the end does not change. -/
structure Settles (stream : EventStream) (w : World) (r : Pulled × EventStream) (w' : World) :
    Prop where
  answer :
    match r.1 with
    | .event value => eventsLeft stream = value :: eventsLeft r.2
    | .ended => eventsLeft stream = [] ∧ r.2 = .finished
    | .failed _ => False
  usage_eq : settled r.2 w'.client.usage = settled stream w.client.usage
  ready : Ready r.2 w'

section Settling
variable {s : OpenStream} {w₁ w₂ w' : World} {r : Pulled × EventStream}

/-- Something that changes what is known about a body, and not the body. -/
theorem Settles.after {stream stream₁ : EventStream} (h : Settles stream₁ w₁ r w')
    (events_eq : eventsLeft stream = eventsLeft stream₁)
    (usage_eq : settled stream₁ w₁.client.usage = settled stream w.client.usage) :
    Settles stream w r w' where
  answer := by
    rw [events_eq]
    exact h.answer
  usage_eq := h.usage_eq.trans usage_eq
  ready := h.ready

theorem Settles.of_rest {s₁ : OpenStream} (h : Settles (.unfinished s₁) w₁ r w')
    (rest_eq : rest s₁ = rest s) (usage_eq : w₁.client.usage = w.client.usage) :
    Settles (.unfinished s) w r w' := by
  apply h.after
  · simp only [eventsLeft, rest_eq]
  · simp only [settled, rest_eq, usage_eq]

/-- The end of a body whose last newline has been found. -/
theorem exhaust_settles {s : OpenStream} (content : s.source.content = [])
    (last : newline ∉ (lines s).unread) :
    (exhaust s).Ensures p w (Settles (.unfinished s) w) := by
  obtain ⟨payload, refused⟩ := (lines s).flush_last signal? last
  have body : rest s = (lines s).unread := by rw [rest, content, List.append_nil]
  have events_eq := events_of_last last
  have malformed_eq := malformed_of_last last
  rw [← body] at events_eq malformed_eq
  simp only [exhaust, Job.ensures_bind, payload, refused, ← body, ← malformed_eq]
  apply (refuse_ensures _).mono
  rintro _ w₁ ⟨-, refuse_eq⟩
  -- without an event the stream only ends
  have ends (none : events (rest s) = []) :
      Job.Ensures (do finish s true; return (.ended, .finished)) p w₁
        (Settles (.unfinished s) w) := by
    simp only [Job.ensures_bind, Job.ensures_pure]
    apply (finish_ensures s).mono
    intro _ w₂ finish_eq
    refine ⟨⟨none, rfl⟩, ?_, trivial⟩
    simp [settled, countBody, countEvents, none, finish_eq, refuse_eq]
  rcases signal : (payload? (rest s)).bind signal? with _ | _ | value
  · exact ends (by rw [events_eq, signal])
  · exact ends (by rw [events_eq, signal])
  · rw [signal] at events_eq
    simp only [Job.ensures_bind, Job.ensures_pure]
    apply (deliver_ensures value .finished).mono
    rintro r w₂ ⟨answer, -, deliver_eq⟩
    apply (finish_ensures s).mono
    intro _ w₃ finish_eq
    subst answer
    refine ⟨events_eq, ?_, trivial⟩
    simp [settled, countBody, events_eq, finish_eq, deliver_eq, refuse_eq]

section Reads
variable {source : Source} {data : Bytes}

/-- What a read brings in was a part of the body before. -/
theorem rest_received (reading : Reading s.source.parts w s.deadline (.ok data) source.parts w') :
    rest (receive { makeRoom (compact s) with source } data) = rest s := by
  obtain ⟨gives, -⟩ := reading.given data rfl
  have content_eq : s.source.content = data ++ source.content := gives.bytes_eq
  rw [rest_receive, ← content_eq, rest]

/-- After the last read the stream has only a line without a newline left. -/
theorem exhaust_settles_read
    (reading : Reading s.source.parts w s.deadline (.ok []) source.parts w')
    (last : newline ∉ (lines s).unread) :
    (exhaust { makeRoom (compact s) with source }).Ensures p w' (Settles (.unfinished s) w) := by
  obtain ⟨gives, -⟩ := reading.given [] rfl
  have content_eq : s.source.content = source.content := gives.bytes_eq
  have rest_eq : rest { makeRoom (compact s) with source } = rest s := by
    rw [rest_reading, ← content_eq, rest]
  have noNewline : newline ∉ (lines { makeRoom (compact s) with source }).unread := by
    rw [unread_reading]
    exact last
  have ended : source.content = [] := gives.ended rfl
  have ends := exhaust_settles (p := p) (w := w') ended noNewline
  exact ends.mono fun r w'' settles => settles.of_rest rest_eq reading.usage_eq

end Reads

section Found
variable {s₁ : OpenStream} {seen left q : Bytes} {passed : List Bytes}

/-- Payloads that are passed over were no events, and are counted. -/
theorem Settles.after_passed (h : Settles (.unfinished s₁) w₁ r w')
    (d : Divides signal? (lines s).unread passed none seen left)
    (rest_eq : rest s₁ = left ++ s.source.content)
    (refused : w₁.client.usage = countMalformed passed.length w.client.usage) :
    Settles (.unfinished s) w r w' := by
  obtain ⟨events_eq, malformed_eq⟩ := events_of_none s.source.content d
  rw [← rest_eq] at events_eq malformed_eq
  apply h.after
  · exact events_eq
  · simp [settled, countBody, rest, events_eq, malformed_eq, refused, countMalformed, Nat.add_assoc]

/-- The mark of the end stands for the end, whatever else the body has. -/
theorem complete_settles (calm : p.Calm) (sound : s₁.source.Sound)
    (d : Divides signal? (lines s).unread passed (some q) seen left)
    (done : signal? q = some .done)
    (refused : w₁.client.usage = countMalformed passed.length w.client.usage) :
    (complete s₁).Ensures p w₁ (Settles (.unfinished s) w) := by
  obtain ⟨none, malformed_eq⟩ := events_of_done s.source.content d done
  apply (complete_completes sound.mild).mono
  rintro r w' ⟨rfl, completes⟩
  refine ⟨⟨none, rfl⟩, ?_, trivial⟩
  simp [settled, countBody, countEvents, countSuccess, Usage.addSuccess, rest, none, malformed_eq,
    completes.usage_eq calm, refused]

theorem deliver_settles {value : Json} (ready : Ready (.unfinished s₁) w₁)
    (d : Divides signal? (lines s).unread passed (some q) seen left)
    (event : signal? q = some (.event value))
    (rest_eq : rest s₁ = left ++ s.source.content)
    (refused : w₁.client.usage = countMalformed passed.length w.client.usage) :
    (deliver value (.unfinished s₁)).Ensures p w₁ (Settles (.unfinished s) w) := by
  obtain ⟨events_eq, malformed_eq⟩ := events_of_event s.source.content d event
  rw [← rest_eq] at events_eq malformed_eq
  apply (deliver_ensures value _).mono
  rintro r w' ⟨rfl, now_eq, delivered⟩
  refine ⟨events_eq, ?_, ?_⟩
  · simp [settled, countBody, countEvents, rest, events_eq, malformed_eq, delivered, refused,
      countMalformed, Nat.add_assoc, Nat.add_comm]
  · simpa [Ready, now_eq] using ready

end Found

theorem pull_settles (calm : p.Calm) (reads : Nat) {s : OpenStream}
    (ready : Ready (.unfinished s) w) (enough : s.source.remaining < reads) :
    (pull reads s).Ensures p w (Settles (.unfinished s) w) := by
  induction reads generalizing s w with
  | zero => omega
  | succ reads ih =>
    obtain ⟨passed, hit, seen, left, d, found, looked⟩ := (lines s).next_divides signal?
    rw [pull]
    simp only [found, Job.ensures_bind]
    apply (refuse_ensures passed).mono
    rintro _ w₁ ⟨now_eq, refused⟩
    generalize searched : ({ s with consumed := _ } : OpenStream) = s₁
    have source_eq : s₁.source = s.source := by rw [← searched]
    have unread_eq : (lines s₁).unread = left := by rw [← searched, ← looked]; rfl
    have rest_eq : rest s₁ = left ++ s.source.content := by rw [rest, unread_eq, source_eq]
    have ready₁ : Ready (.unfinished s₁) w₁ := by
      rw [← searched, Ready, now_eq]
      exact ready
    obtain ⟨sound, inTime⟩ := ready₁
    cases hit with
    | none =>
      refine Job.Ensures.mono ?_ fun r w' (settles : Settles (.unfinished s₁) w₁ r w') =>
        settles.after_passed d rest_eq refused
      simp only [Option.bind_none, Job.ensures_bind, Job.ensures_get, Job.ensures_ite,
        Job.ensures_mark]
      have positive : 0 ≤ s₁.source.timeLeft := time_nonneg s₁.source.parts
      split
      · next late =>
        have : s₁.deadline < w₁.now := late
        lia
      apply (Source.read_marked calm sound (by decide) s₁.deadline).mono
      rintro ⟨f | _ | ⟨b, data⟩, source⟩ w₂ reading
      · have : s₁.deadline < w₁.now + s₁.source.timeLeft := (reading.late f rfl).2
        lia
      · have last : newline ∉ (lines s₁).unread := by
          rw [unread_eq]
          exact d.exhausted rfl
        exact exhaust_settles_read reading last
      · obtain ⟨gives, time_le⟩ := reading.given (b :: data) rfl
        have content_eq : s.source.content = b :: data ++ source.content := by
          rw [← source_eq]
          exact gives.bytes_eq
        have fewer : source.remaining < reads := by
          rw [Source.remaining_eq, content_eq] at enough
          rw [Source.remaining_eq]
          simp at enough
          omega
        have ready₂ :
            Ready (.unfinished (receive { makeRoom (compact s₁) with source } (b :: data))) w₂ :=
          ⟨reading.sound, Int.le_trans time_le inTime⟩
        exact (ih ready₂ fewer).mono fun r w' settles =>
          settles.of_rest (rest_received reading) reading.usage_eq
    | some q =>
      simp only [Option.bind_some]
      rcases signal : signal? q with _ | _ | value
      · exact absurd signal (d.useful q rfl)
      · exact complete_settles calm sound d signal refused
      · exact deliver_settles ⟨sound, inTime⟩ d signal rest_eq refused

end Settling

theorem next_settles (calm : p.Calm) {stream : EventStream} (ready : Ready stream w) :
    (next stream).Ensures p w (Settles stream w) := by
  cases stream with
  | finished => exact ⟨⟨rfl, rfl⟩, rfl, trivial⟩
  | unfinished s => exact pull_settles calm _ ready (Nat.lt_succ_self _)

/-- A buffer on loan is empty at first. -/
theorem take_bytes (pool : BufferPool) : (Lease.take pool).1.buffer.bytes = [] := by
  simp only [Lease.take, BufferPool.acquire]
  split <;> rfl

/-- A new stream has its whole body before it. -/
theorem create_ensures (permit : Bool) {source : Source} {deadline startedAt : Instant}
    (sound : source.Sound) (inTime : w.now + source.timeLeft ≤ deadline) :
    (create permit source deadline startedAt).Ensures p w fun stream w' =>
      Ready stream w' ∧ eventsLeft stream = events source.content ∧
        settled stream w'.client.usage = countBody source.content
          { w.client.usage with streamsOpened := w.client.usage.streamsOpened + 1 } := by
  have rest_eq :
      rest { permit, lease := (Lease.take w.client.buffers).1, source, deadline, startedAt } =
        source.content := by
    simp [rest, lines, LineBuffer.unread, take_bytes]
  simp only [create, Job.ensures_bind, Job.ensures_modifyGet, Job.ensures_count, Job.ensures_pure]
  refine ⟨⟨sound, inTime⟩, ?_, ?_⟩
  · rw [eventsLeft, rest_eq]
  · rw [settled, rest_eq]
    rfl

/-- Requests to a stream, one after another, up to the first that is not answered with an event.
Whatever happens between two of them counts nothing, and leaves the rest of the body its time. -/
inductive Run (p : Pause) : EventStream → World → List Pulled → EventStream → World → Prop where
  | stops {stream w answer stream' w'}
      (asked : ((next stream).run p).run w = ((answer, stream'), w'))
      (last : ∀ value, answer ≠ .event value) : Run p stream w [answer] stream' w'
  | goesOn {stream w value stream₁ w₁ w₂ answers stream' w'}
      (asked : ((next stream).run p).run w = ((.event value, stream₁), w₁))
      (uncounted : w₂.client.usage = w₁.client.usage) (ready : Ready stream₁ w₂)
      (others : Run p stream₁ w₂ answers stream' w') :
      Run p stream w (.event value :: answers) stream' w'

theorem Run.settles (calm : p.Calm) {stream stream' : EventStream} {w w' : World}
    {answers : List Pulled} (run : Run p stream w answers stream' w') (ready : Ready stream w) :
    answers = (eventsLeft stream).map .event ++ [.ended] ∧ stream' = .finished ∧
      w'.client.usage = settled stream w.client.usage := by
  induction run with
  | @stops stream w answer stream' w' asked last =>
    have h : Settles stream w (answer, stream') w' := by
      have := next_settles calm ready
      rwa [Job.Ensures, asked] at this
    obtain ⟨answered, usage_eq, -⟩ := h
    rcases answer with value | _ | f
    · exact absurd rfl (last value)
    · obtain ⟨none, rfl⟩ := answered
      exact ⟨by rw [none]; rfl, rfl, usage_eq⟩
    · exact answered.elim
  | @goesOn stream w value stream₁ w₁ w₂ answers stream' w' asked uncounted later others ih =>
    have h : Settles stream w (.event value, stream₁) w₁ := by
      have := next_settles calm ready
      rwa [Job.Ensures, asked] at this
    obtain ⟨answered, usage_eq, -⟩ := h
    obtain ⟨answers_eq, finished, settles⟩ := ih later
    refine ⟨?_, finished, ?_⟩
    · rw [answers_eq, answered]
      rfl
    · rw [settles, uncounted, usage_eq]

/-- The requests come to an end. -/
theorem Run.exists (calm : p.Calm) {stream : EventStream} {w : World} (ready : Ready stream w) :
    ∃ answers stream' w', Run p stream w answers stream' w' := by
  induction left : eventsLeft stream generalizing stream w with
  | nil =>
    rcases asked : ((next stream).run p).run w with ⟨⟨value | _ | f, stream'⟩, w'⟩
    all_goals
      have h := next_settles calm ready
      rw [Job.Ensures, asked] at h
    · have given : [] = value :: _ := left.symm.trans h.answer
      cases given
    · exact ⟨_, _, _, .stops asked (by simp)⟩
    · exact h.answer.elim
  | cons value values ih =>
    rcases asked : ((next stream).run p).run w with ⟨⟨value' | _ | f, stream'⟩, w'⟩
    all_goals
      have h := next_settles calm ready
      rw [Job.Ensures, asked] at h
    · obtain ⟨rfl, rest⟩ := List.cons.inj (left.symm.trans h.answer)
      obtain ⟨answers, stream'', w'', run⟩ := ih h.ready rest.symm
      exact ⟨_, _, _, .goesOn asked rfl h.ready run⟩
    · exact ⟨_, _, _, .stops asked (by simp)⟩
    · exact h.answer.elim

/-- Whatever pieces a body comes in, requests come to the events of the whole body and then to the
end, if nothing of it fails or comes after the deadline. -/
theorem run_reads_body (calm : p.Calm) (permit : Bool) {source : Source}
    {deadline startedAt : Instant} (sound : source.Sound)
    (inTime : w.now + source.timeLeft ≤ deadline) :
    (create permit source deadline startedAt).Ensures p w fun stream w₀ =>
      Ready stream w₀ ∧ ∀ w₁, w₁.client.usage = w₀.client.usage → Ready stream w₁ →
        (∃ answers stream' w', Run p stream w₁ answers stream' w') ∧
          ∀ answers stream' w', Run p stream w₁ answers stream' w' →
            let before := (payloads source.content).takeWhile (· ≠ doneMark)
            answers = (before.filterMap Json.parse?).map .event ++ [.ended] ∧
              stream' = .finished ∧
              w'.client.usage =
                { w.client.usage with
                  streamsOpened := w.client.usage.streamsOpened + 1
                  eventsDelivered :=
                    w.client.usage.eventsDelivered + (before.filterMap Json.parse?).length
                  malformedFrames :=
                    w.client.usage.malformedFrames + before.countP fun q => (Json.parse? q).isNone
                  successfulCalls := w.client.usage.successfulCalls + 1 } := by
  apply (create_ensures permit sound inTime).mono
  rintro stream w₀ ⟨ready, left, settles⟩
  refine ⟨ready, ?_⟩
  intro w₁ uncounted ready₁
  refine ⟨Run.exists calm ready₁, ?_⟩
  intro answers stream' w' run
  obtain ⟨answers_eq, finished, usage_eq⟩ := run.settles calm ready₁
  rw [left] at answers_eq
  rw [uncounted, settles] at usage_eq
  refine ⟨answers_eq, finished, usage_eq.trans ?_⟩
  rw [List.countP_eq_length_filter]
  rfl

/-- The data mark, a line break and the last payload may each come in two pieces. -/
theorem run_reads_cut_body :
    let config : Config := { clientTag := [] }
    let w : World := { config, client := .ofConfig config 1, chance := .ofSeed 1 }
    let chunks : List Chunk := [
      { data := ascii "dat" }, { data := ascii "a: 1\r", delay := 2 }, {},
      { data := ascii "\ndata: [DO" }, { data := ascii "NE]" }]
    let source : Source := .scripted { number := 1, status := 200, headers := [], chunks }
    (create false source 2 0).Ensures .quiet w fun stream w₀ =>
      ∃ stream' w', Run .quiet stream w₀ [.event (.int 1), .ended] stream' w' ∧
        w'.client.usage = { streamsOpened := 1, eventsDelivered := 1, successfulCalls := 1 } := by
  intro config w chunks source
  have sound : source.Sound := by
    simp [Source.Sound, Source.parts, Part.Sound, source, chunks, Chunk.part]
  have before : (payloads source.content).takeWhile (· ≠ doneMark) = [ascii "1"] := by decide
  have parsed : Json.parse? (ascii "1") = some (.int 1) := by rfl
  apply (run_reads_body Pause.quiet_calm false sound (by decide)).mono
  rintro stream w₀ ⟨ready, requests⟩
  obtain ⟨⟨answers, stream', w', run⟩, all⟩ := requests w₀ rfl ready
  have ended := all answers stream' w' run
  simp only [before, List.filterMap_cons_some parsed] at ended
  obtain ⟨rfl, -, usage_eq⟩ := ended
  refine ⟨stream', w', run, ?_⟩
  simpa [parsed, w, ClientState.ofConfig] using usage_eq

end Parley.EventStream
