import Parley.Proofs.Events
import Parley.Proofs.Reads

/-!
A request to a stream in two steps: it seeks the next signal, reading on as long as there is none,
and then it answers with what it has found.

* `seek`, `ensures_pull`: the two steps, and that a request takes them;
* `Seeks`, `seek_seeks`: what a search comes to, whatever the body is like: it divides what was
  there and what it received, and passes over nothing that is a signal;
* `Delivers`, `Delivers.delivered`: requests that are answered with events, one after another, and
  what has become of the stream after them.
-/
namespace Parley

@[simp] theorem Buffer.grow_number (b : Buffer) (n : Nat) : (b.grow n).number = b.number := by
  unfold grow
  split <;> rfl

namespace EventStream

open EventLines Parley.Part

variable {p : Pause} {w w₁ w' : World} {s s' : OpenStream}

/-- What a search for the next signal comes upon. -/
inductive Sought where
  /-- The payload after which no event follows. -/
  | met
  | event (value : Json)
  /-- The deadline, or a failure of the body. -/
  | broke (f : Failure)
  /-- The end of the body. -/
  | ended

def Sought.signal? : Sought → Option Signal
  | .met => some .done
  | .event value => some (.event value)
  | .broke _ | .ended => none

/-- What a search comes to: what it received meanwhile, and what it leaves of the stream. -/
structure Finding where
  received : Bytes := []
  sought : Sought
  stream : OpenStream

/-- The failure of a stream whose deadline has passed. -/
def late : Failure := .client { kind := .streamTimeout, reason := .streamDeadline }

/-- Seeks the next signal, in at most `reads` reads. -/
def seek : Nat → OpenStream → Job Finding
  | 0, s => return { sought := .ended, stream := s }
  | reads + 1, s => do
    let found := (lines s).next signal?
    let s := { s with consumed := found.consumed }
    refuse found.refused
    match found.payload with
    | some .done => return { sought := .met, stream := s }
    | some (.event value) => return { sought := .event value, stream := s }
    | none =>
      let s := compact s
      if s.deadline < (← get).now then return { sought := .broke late, stream := s }
      else
        let s := makeRoom s
        Job.mark (.asked s.deadline)
        let (result, source) ← s.source.read Source.readSize s.deadline
        let s := { s with source }
        match result with
        | .error f => return { sought := .broke f, stream := s }
        | .ok [] => return { sought := .ended, stream := s }
        | .ok data =>
          let found ← seek reads (receive s data)
          return { found with received := data ++ found.received }

/-- Answers with what was found. -/
def Finding.settle (found : Finding) : Job (Pulled × EventStream) :=
  match found.sought with
  | .met => complete found.stream
  | .event value => deliver value (.unfinished found.stream)
  | .broke f => fail found.stream f
  | .ended => exhaust found.stream

/-- A request seeks a signal, and answers with what it has found. -/
theorem ensures_pull (reads : Nat) (s : OpenStream) {post : Pulled × EventStream → World → Prop} :
    (pull reads s).Ensures p w post ↔
      (seek reads s).Ensures p w fun found w' => found.settle.Ensures p w' post := by
  induction reads generalizing s w with
  | zero => exact Iff.rfl
  | succ reads ih =>
    simp only [pull, seek, Job.ensures_bind]
    apply Job.Ensures.congr
    intro _ w₁
    generalize ({ s with consumed := _ } : OpenStream) = s₁
    rcases (LineBuffer.next signal? (lines s)).payload with _ | _ | value
    · simp only [Job.ensures_bind, Job.ensures_get, Job.ensures_ite, Job.ensures_mark]
      split
      · exact Iff.rfl
      · apply Job.Ensures.congr
        rintro ⟨f | _ | ⟨b, data⟩, source⟩ w₂
        · exact Iff.rfl
        · exact Iff.rfl
        · simp only [Job.ensures_bind]
          exact ih _
    · exact Iff.rfl
    · exact Iff.rfl

/-- A stream that is the same but for what it has read. -/
structure Continues (s s' : OpenStream) : Prop where
  permit_eq : s'.permit = s.permit
  active_eq : s'.lease.active = s.lease.active
  buffer_eq : s'.lease.buffer.number = s.lease.buffer.number
  body_eq : s'.source.number? = s.source.number?
  deadline_eq : s'.deadline = s.deadline
  startedAt_eq : s'.startedAt = s.startedAt

namespace Continues

theorem refl (s : OpenStream) : Continues s s := ⟨rfl, rfl, rfl, rfl, rfl, rfl⟩

theorem trans {s'' : OpenStream} (h : Continues s s') (h' : Continues s' s'') :
    Continues s s'' where
  permit_eq := h'.permit_eq.trans h.permit_eq
  active_eq := h'.active_eq.trans h.active_eq
  buffer_eq := h'.buffer_eq.trans h.buffer_eq
  body_eq := h'.body_eq.trans h.body_eq
  deadline_eq := h'.deadline_eq.trans h.deadline_eq
  startedAt_eq := h'.startedAt_eq.trans h.startedAt_eq

theorem compact (s : OpenStream) : Continues s (compact s) := ⟨rfl, rfl, rfl, rfl, rfl, rfl⟩

theorem receive (s : OpenStream) (data : Bytes) : Continues s (receive s data) :=
  ⟨rfl, rfl, rfl, rfl, rfl, rfl⟩

/-- A read, after which the stream has room for what it brings. -/
theorem reading (s : OpenStream) {source : Source} (same : source.number? = s.source.number?) :
    Continues s { makeRoom (EventStream.compact s) with source } where
  permit_eq := rfl
  active_eq := rfl
  buffer_eq := Buffer.grow_number ..
  body_eq := same
  deadline_eq := rfl
  startedAt_eq := rfl

end Continues

/-- Why a search broke off: the deadline had passed, or a read of the body failed. -/
def BrokeBy (p : Pause) (deadline : Instant) (f : Failure) (left : Source) (w' : World) : Prop :=
  (deadline < w'.now ∧ f = late) ∨
    ∃ (body : Source) (w : World),
      ((body.read Source.readSize deadline).run p).run w = ((.error f, left), w')

/-- What a search comes to. It divides what was there and what it received, and stops at the signal
that it has found; a body that broke off may be gone. -/
structure Seeks (p : Pause) (s : OpenStream) (w : World) (found : Finding) (w' : World) :
    Prop where
  continues : Continues s found.stream
  cut : ∃ rest, Cut s.source.parts found.received rest ∧
    ((∀ f, found.sought ≠ .broke f) → rest = found.stream.source.parts)
  mild_of : s.source.Mild → found.stream.source.Mild
  divides : ∃ passed hit seen,
    Divides signal? ((lines s).unread ++ found.received) passed hit seen
        (lines found.stream).unread ∧
      hit.bind signal? = found.sought.signal? ∧
        (p.Calm → w'.client.usage = countMalformed passed.length w.client.usage)
  broke : ∀ f, found.sought = .broke f → BrokeBy p s.deadline f found.stream.source w'
  ended : found.sought = .ended → s.source.Sound ∧ w.now ≤ s.deadline

/-- A round of a search begins with what was there. -/
structure Looks (s : OpenStream) (w : World) (passed : List Bytes) (hit : Option Bytes)
    (s₁ : OpenStream) (w₁ : World) : Prop where
  continues : Continues s s₁
  source_eq : s₁.source = s.source
  divides : ∃ seen, Divides signal? (lines s).unread passed hit seen (lines s₁).unread
  now_eq : w₁.now = w.now
  usage_eq : w₁.client.usage = countMalformed passed.length w.client.usage

theorem refuse_looks (s : OpenStream) :
    let found := (lines s).next signal?
    (refuse found.refused).Ensures p w fun _ w₁ => ∃ passed hit,
      Looks s w passed hit { s with consumed := found.consumed } w₁ ∧
        found.payload = hit.bind signal? := by
  obtain ⟨passed, hit, seen, left, d, found, looked⟩ := (lines s).next_divides signal?
  rw [found]
  apply (refuse_ensures passed).mono
  rintro _ w₁ ⟨now_eq, usage_eq⟩
  refine ⟨passed, hit, ⟨?_, rfl, ⟨seen, ?_⟩, now_eq, usage_eq⟩, rfl⟩
  · exact ⟨rfl, rfl, rfl, rfl, rfl, rfl⟩
  · rw [← looked] at d
    exact d

namespace Looks

variable {passed : List Bytes} {hit : Option Bytes} {s₁ s₂ : OpenStream} {w₁ w₂ : World}
variable {source : Source} {data : Bytes}

/-- A round that ends the search, without a read or with one that gives nothing. -/
theorem stop {sought : Sought} (looks : Looks s w passed hit s₁ w₁) (continues : Continues s₁ s₂)
    (unread_eq : (lines s₂).unread = (lines s₁).unread)
    (cut : (∀ f, sought ≠ .broke f) → Cut s₁.source.parts [] s₂.source.parts)
    (mild_of : s₁.source.Mild → s₂.source.Mild) (signal : hit.bind signal? = sought.signal?)
    (usage_eq : p.Calm → w₂.client.usage = w₁.client.usage)
    (broke : ∀ f, sought = .broke f → BrokeBy p s.deadline f s₂.source w₂)
    (ended : sought = .ended → s₁.source.Sound ∧ w.now ≤ s.deadline) :
    Seeks p s w { sought, stream := s₂ } w₂ where
  continues := looks.continues.trans continues
  cut := by
    rw [looks.source_eq] at cut
    by_cases broken : ∃ f, sought = .broke f
    · obtain ⟨f, rfl⟩ := broken
      exact ⟨_, .refl _, fun fine => absurd rfl (fine f)⟩
    · exact ⟨_, cut (not_exists.mp broken), fun _ => rfl⟩
  mild_of mild := mild_of (by rwa [looks.source_eq])
  divides := by
    obtain ⟨seen, d⟩ := looks.divides
    refine ⟨passed, hit, seen, ?_, signal, fun calm => ?_⟩
    · rwa [List.append_nil, unread_eq]
    · rw [usage_eq calm, looks.usage_eq]
  broke := broke
  ended := by rwa [looks.source_eq] at ended

/-- A signal was there. -/
theorem stopAt {sought : Sought} (looks : Looks s w passed hit s₁ w₁)
    (signal : hit.bind signal? = sought.signal?) (isSome : sought.signal?.isSome) :
    Seeks p s w { sought, stream := s₁ } w₁ := by
  apply looks.stop (.refl s₁)
  case unread_eq => rfl
  case cut => exact fun _ => .refl _
  case mild_of => exact id
  case signal => exact signal
  case usage_eq => exact fun _ => rfl
  case broke =>
    rintro f rfl
    simp [Sought.signal?] at isSome
  case ended =>
    rintro rfl
    simp [Sought.signal?] at isSome

/-- There is no time for a read. -/
theorem stopLate (looks : Looks s w passed hit s₁ w₁) (signal : hit.bind signal? = none)
    (passedBy : (compact s₁).deadline < w₁.now) :
    Seeks p s w { sought := .broke late, stream := compact s₁ } w₁ := by
  apply looks.stop (.compact s₁)
  case unread_eq => rfl
  case cut => exact fun fine => absurd rfl (fine late)
  case mild_of => exact id
  case signal => exact signal
  case usage_eq => exact fun _ => rfl
  case broke =>
    rintro _ ⟨⟩
    rw [← looks.continues.deadline_eq]
    exact .inl ⟨passedBy, rfl⟩
  case ended => rintro ⟨⟩

/-- The read of the round fails. -/
theorem stopBroken {f : Failure} (looks : Looks s w passed hit s₁ w₁)
    (signal : hit.bind signal? = none) {m : Mark}
    (read : s₁.source.Reads p s₁.deadline (w₁.mark m) (.error f, source) w₂)
    (run_eq : ((s₁.source.read Source.readSize s₁.deadline).run p).run (w₁.mark m) =
      ((.error f, source), w₂)) :
    Seeks p s w { sought := .broke f, stream := { makeRoom (compact s₁) with source } } w₂ := by
  apply looks.stop (.reading s₁ read.number_eq)
  case unread_eq => exact unread_reading s₁ source
  case cut => exact fun fine => absurd rfl (fine f)
  case mild_of => exact read.mild_of
  case signal => exact signal
  case usage_eq => exact fun calm => (read.lingers calm).usage_eq
  case broke =>
    rintro _ ⟨⟩
    rw [← looks.continues.deadline_eq]
    exact .inr ⟨_, _, run_eq⟩
  case ended => rintro ⟨⟩

/-- The read of the round gives nothing. -/
theorem stopEnded (looks : Looks s w passed hit s₁ w₁) (signal : hit.bind signal? = none)
    {m : Mark} (read : s₁.source.Reads p s₁.deadline (w₁.mark m) (.ok [], source) w₂)
    (inTime : w.now ≤ s.deadline) :
    Seeks p s w { sought := .ended, stream := { makeRoom (compact s₁) with source } } w₂ := by
  have takes := read.takes [] rfl
  apply looks.stop (.reading s₁ read.number_eq)
  case unread_eq => exact unread_reading s₁ source
  case cut => exact fun _ => takes.toCut
  case mild_of => exact read.mild_of
  case signal => exact signal
  case usage_eq => exact fun calm => (read.lingers calm).usage_eq
  case broke => rintro _ ⟨⟩
  case ended => exact fun _ => ⟨takes.sound_end rfl, inTime⟩

/-- A round that reads something, after which the search goes on. -/
theorem goesOn {found : Finding} (looks : Looks s w passed none s₁ w₁)
    (same : source.number? = s₁.source.number?) (mild_of : s₁.source.Mild → source.Mild)
    (takes : Takes s₁.source.parts data source.parts) (inTime : w.now ≤ s.deadline)
    (usage_eq : p.Calm → w₂.client.usage = w₁.client.usage)
    (h : Seeks p (receive { makeRoom (compact s₁) with source } data) w₂ found w') :
    Seeks p s w { found with received := data ++ found.received } w' where
  continues := looks.continues.trans
    ((Continues.reading s₁ same).trans ((Continues.receive _ data).trans h.continues))
  cut := by
    obtain ⟨rest, cut, rest_eq⟩ := h.cut
    rw [looks.source_eq] at takes
    exact ⟨rest, takes.toCut.trans cut, rest_eq⟩
  mild_of mild := h.mild_of (mild_of (by rwa [looks.source_eq]))
  divides := by
    obtain ⟨seen, d⟩ := looks.divides
    obtain ⟨passed', hit, seen', d', signal, usage_eq'⟩ := h.divides
    rw [unread_receive, List.append_assoc] at d'
    refine ⟨passed ++ passed', hit, seen ++ seen', d.append d', signal, fun calm => ?_⟩
    rw [usage_eq' calm, usage_eq calm, looks.usage_eq]
    simp [countMalformed, Nat.add_assoc]
  broke := by
    rw [← looks.continues.deadline_eq]
    exact h.broke
  ended ended := by
    rw [← looks.source_eq]
    exact ⟨takes.sound_of (h.ended ended).1, inTime⟩

end Looks

theorem seek_seeks (reads : Nat) (s : OpenStream) (enough : s.source.remaining < reads) :
    (seek reads s).Ensures p w (Seeks p s w) := by
  induction reads generalizing s w with
  | zero => omega
  | succ reads ih =>
    simp only [seek, Job.ensures_bind]
    apply (refuse_looks s).mono
    rintro _ w₁ ⟨passed, hit, looks, payload⟩
    rw [payload]
    generalize ({ s with consumed := _ } : OpenStream) = s₁ at looks ⊢
    rcases signal : hit.bind signal? with _ | _ | value
    · simp only [Job.ensures_bind, Job.ensures_get, Job.ensures_ite, Job.ensures_mark]
      split
      · next passedBy => exact looks.stopLate signal passedBy
      next notYet =>
      have inTime : w.now ≤ s.deadline := by
        rw [← looks.now_eq, ← looks.continues.deadline_eq]
        exact Int.not_lt.mp notYet
      apply ((Job.ensures_run _).and (s₁.source.read_reads (by decide) s₁.deadline)).mono
      rintro ⟨f | _ | ⟨b, data⟩, source⟩ w₂ ⟨run_eq, read⟩
      · exact looks.stopBroken signal read run_eq
      · exact looks.stopEnded signal read inTime
      · obtain ⟨seen, d⟩ := looks.divides
        obtain rfl := d.none_of_bind signal
        have takes := read.takes (b :: data) rfl
        have fewer : source.remaining < reads := by
          have content_eq : s.source.content = b :: data ++ source.content := by
            rw [← looks.source_eq]
            exact takes.bytes_eq
          rw [Source.remaining_eq, content_eq] at enough
          rw [Source.remaining_eq]
          simp at enough
          omega
        rw [Job.ensures_bind]
        apply (ih _ fewer).mono
        intro found w₃ seeks
        exact looks.goesOn read.number_eq read.mild_of takes inTime
          (fun calm => (read.lingers calm).usage_eq) seeks
    · exact looks.stopAt signal rfl
    · exact looks.stopAt signal rfl

/-- A stream that was just opened: nothing of its body has been read. -/
structure Opened (permit : Bool) (source : Source) (deadline startedAt : Instant)
    (s : OpenStream) : Prop where
  permit_eq : s.permit = permit
  active : s.lease.active = true
  source_eq : s.source = source
  unread_eq : (lines s).unread = []
  deadline_eq : s.deadline = deadline
  startedAt_eq : s.startedAt = startedAt

theorem create_opened (permit : Bool) (source : Source) (deadline startedAt : Instant) :
    (create permit source deadline startedAt).Ensures p w fun stream _ =>
      ∃ s, stream = .unfinished s ∧ Opened permit source deadline startedAt s := by
  refine ⟨_, rfl, rfl, rfl, rfl, ?_, rfl, rfl⟩
  exact List.drop_eq_nil_of_le (Nat.le_of_eq (congrArg List.length (take_bytes _)))

/-- What a request seeks and finds, and the world in which it has found it. -/
def found (p : Pause) (w : World) (s : OpenStream) : Finding × World :=
  ((seek (s.source.remaining + 1) s).run p).run w

theorem found_seeks (p : Pause) (w : World) (s : OpenStream) :
    Seeks p s w (found p w s).1 (found p w s).2 :=
  seek_seeks _ s (Nat.lt_succ_self _)

theorem ensures_next (s : OpenStream) {post : Pulled × EventStream → World → Prop} :
    (next (.unfinished s)).Ensures p w post ↔
      (found p w s).1.settle.Ensures p (found p w s).2 post :=
  ensures_pull _ s

theorem fail_finished (s : OpenStream) (f : Failure) :
    (fail s f).Ensures p w fun r _ => r.2 = .finished :=
  .after fun _ _ => rfl

theorem complete_finished (s : OpenStream) :
    (complete s).Ensures p w fun r _ => r.2 = .finished := by
  unfold complete
  rw [Job.ensures_bind, Job.ensures_get]
  apply Job.Ensures.after
  rintro ⟨f | _, source⟩ w₁
  · cases f with
    | client e => exact .after fun _ _ => .after fun _ _ => rfl
    | _ => exact fail_finished _ _
  · exact .after fun _ _ => rfl

theorem exhaust_finished (s : OpenStream) :
    (exhaust s).Ensures p w fun r _ => r.2 = .finished ∧ ∀ f, r.1 ≠ .failed f := by
  unfold exhaust
  apply Job.Ensures.after
  intro _ w₁
  split
  · rw [deliver]
    simp only [Job.ensures_bind, Job.ensures_count, Job.ensures_pure]
    exact .of_all fun _ _ => ⟨trivial, by rintro _ ⟨⟩⟩
  · exact .after fun _ _ => ⟨rfl, by rintro _ ⟨⟩⟩

/-- A stream goes on only after it has found an event. -/
theorem next_finished_or (s : OpenStream) :
    (next (.unfinished s)).Ensures p w fun r _ => r.2 = .finished ∨
      ∃ value, (found p w s).1.sought = .event value ∧
        r = (.event value, .unfinished (found p w s).1.stream) := by
  rw [ensures_next, Finding.settle]
  cases sought : (found p w s).1.sought with
  | met => exact (complete_finished _).mono fun _ _ finished => .inl finished
  | event value => exact .inr ⟨value, rfl, rfl⟩
  | broke f => exact (fail_finished _ f).mono fun _ _ finished => .inl finished
  | ended => exact (exhaust_finished _).mono fun _ _ ended => .inl ended.1

/-- Requests to a stream, all of them answered with an event, after which the stream goes on: what
they received, the events, and the stream after them. Each is made in a world of its own. -/
inductive Delivers (p : Pause) (s : OpenStream) : Bytes → List Json → OpenStream → Prop where
  | nothing : Delivers p s [] [] s
  | event {text values s₁ w value s₂ w'} (earlier : Delivers p s text values s₁)
      (asked : ((next (.unfinished s₁)).run p).run w = ((.event value, .unfinished s₂), w')) :
      Delivers p s (text ++ (found p w s₁).1.received) (values ++ [value]) s₂

/-- A request that has found an event is answered with it. -/
theorem next_of_event {value : Json} (event : (found p w s).1.sought = .event value) :
    ∃ w', ((next (.unfinished s)).run p).run w =
      ((.event value, .unfinished (found p w s).1.stream), w') := by
  have answered : (next (.unfinished s)).Ensures p w fun r _ =>
      r = (.event value, .unfinished (found p w s).1.stream) := by
    rw [ensures_next, Finding.settle, event]
    exact rfl
  exact ⟨_, Prod.ext answered rfl⟩

/-- What was delivered of a stream: the events among the payloads that were looked at, in order. -/
structure Delivered (s : OpenStream) (text : Bytes) (values : List Json) (s' : OpenStream) :
    Prop where
  continues : Continues s s'
  cut : Cut s.source.parts text s'.source.parts
  mild_of : s.source.Mild → s'.source.Mild
  looked : ∃ looked, doneMark ∉ looked ∧ looked.filterMap Json.parse? = values ∧
    ∀ tail, completePayloads (text ++ tail) =
      looked ++ completePayloads ((lines s').unread ++ tail)

/-- The payloads of everything received by the time that a signal was sought: those that were looked
at before, with the events among them, those that were passed over now, and the signal, if one was
found. -/
structure Reached (text : Bytes) (values : List Json) (sought : Sought) (passed : List Bytes)
    (rest : Bytes) : Prop where
  payloads_eq : ∃ looked hit, looked.filterMap Json.parse? = values ∧ doneMark ∉ looked ∧
    hit.bind signal? = sought.signal? ∧
      (sought.signal? = none → hit = none ∧ newline ∉ rest) ∧
        ∀ tail, completePayloads (text ++ tail) =
          looked ++ passed ++ hit.toList ++ completePayloads (rest ++ tail)
  useless : ∀ q ∈ passed, signal? q = none

namespace Reached

variable {text rest : Bytes} {values : List Json} {sought : Sought} {passed : List Bytes}

theorem unmarked (h : Reached text values sought passed rest) : doneMark ∉ passed :=
  fun member => (signal?_eq_none.mp (h.useless _ member)).1 rfl

/-- Where no signal is left, all events were delivered, and the mark was not met. -/
theorem of_none (h : Reached text values sought passed rest) (silent : sought.signal? = none) :
    (completePayloads text).filterMap Json.parse? = values ∧
      doneMark ∉ completePayloads text := by
  obtain ⟨looked, hit, parsed, unmarked, -, exhausted, payloads_eq⟩ := h.payloads_eq
  obtain ⟨rfl, last⟩ := exhausted silent
  have all := payloads_eq []
  rw [List.append_nil, List.append_nil, completePayloads_last last] at all
  simp only [Option.toList_none, List.append_nil] at all
  rw [all]
  simp [parsed, unmarked, h.unmarked, filterMap_useless h.useless]

/-- The payloads before the mark, of which some were looked at. -/
theorem takeWhile_eq (h : Reached text values sought passed rest) {looked back : List Bytes}
    (unmarked : doneMark ∉ looked) : (looked ++ passed ++ back).takeWhile (· ≠ doneMark) =
      looked ++ passed ++ back.takeWhile (· ≠ doneMark) := by
  apply List.takeWhile_append_of_pos
  intro q member
  have other : q ≠ doneMark := by
    rintro rfl
    rcases List.mem_append.mp member with first | second
    · exact unmarked first
    · exact h.unmarked second
  simpa using other

/-- Where the mark is met, all events before it were delivered, and what was passed over now came
right before it. -/
theorem of_met (h : Reached text values .met passed rest) :
    doneMark ∈ completePayloads text ∧
      ((completePayloads text).takeWhile (· ≠ doneMark)).filterMap Json.parse? = values ∧
      passed <:+ (completePayloads text).takeWhile (· ≠ doneMark) := by
  obtain ⟨looked, hit, parsed, unmarked, signal, -, payloads_eq⟩ := h.payloads_eq
  obtain ⟨q, rfl, done⟩ := Option.bind_eq_some_iff.mp signal
  obtain rfl := signal?_eq_done.mp done
  have all := payloads_eq []
  rw [List.append_nil, List.append_assoc] at all
  rw [all, h.takeWhile_eq unmarked]
  simp [parsed, filterMap_useless h.useless]

/-- Where an event is found, it is the next one. -/
theorem of_event {value : Json} (h : Reached text values (.event value) passed rest) :
    values ++ [value] <+:
      ((completePayloads text).takeWhile (· ≠ doneMark)).filterMap Json.parse? := by
  obtain ⟨looked, hit, parsed, unmarked, signal, -, payloads_eq⟩ := h.payloads_eq
  obtain ⟨q, rfl, event⟩ := Option.bind_eq_some_iff.mp signal
  obtain ⟨other, value_eq⟩ := signal?_eq_event.mp event
  have all := payloads_eq []
  rw [List.append_nil, List.append_assoc] at all
  rw [all, h.takeWhile_eq unmarked]
  simp [parsed, filterMap_useless h.useless, other, value_eq]

end Reached

/-- What was delivered before a search, and what the search comes to. -/
theorem Delivered.reached {text : Bytes} {values : List Json} {f : Finding}
    (h : Delivered s text values s') (seeks : Seeks p s' w f w') :
    ∃ passed, Reached (text ++ f.received) values f.sought passed (lines f.stream).unread ∧
      (p.Calm → w'.client.usage = countMalformed passed.length w.client.usage) := by
  obtain ⟨looked, unmarked, parsed, complete_eq⟩ := h.looked
  obtain ⟨passed, hit, seen, d, signal, usage_eq⟩ := seeks.divides
  have exhausted (silent : f.sought.signal? = none) :
      hit = none ∧ newline ∉ (lines f.stream).unread := by
    have none := d.none_of_bind (signal.trans silent)
    exact ⟨none, d.exhausted none⟩
  refine ⟨passed, ⟨⟨looked, hit, parsed, unmarked, signal, exhausted, fun tail => ?_⟩,
    d.useless⟩, usage_eq⟩
  have more := d.complete_eq tail
  rw [List.append_assoc] at more
  rw [List.append_assoc, complete_eq, more]
  simp only [List.append_assoc]

/-- One more event is delivered. -/
theorem Delivered.event {text : Bytes} {values : List Json} {value : Json} {f : Finding}
    (h : Delivered s text values s') (seeks : Seeks p s' w f w') (event : f.sought = .event value) :
    Delivered s (text ++ f.received) (values ++ [value]) f.stream where
  continues := h.continues.trans seeks.continues
  cut := by
    obtain ⟨rest, cut, rest_eq⟩ := seeks.cut
    rw [← rest_eq (by simp [event])]
    exact h.cut.trans cut
  mild_of mild := seeks.mild_of (h.mild_of mild)
  looked := by
    obtain ⟨passed, reached, -⟩ := h.reached seeks
    obtain ⟨looked, hit, parsed, unmarked, signal, -, payloads_eq⟩ := reached.payloads_eq
    rw [event] at signal
    obtain ⟨q, rfl, signal⟩ := Option.bind_eq_some_iff.mp signal
    obtain ⟨other, value_eq⟩ := signal?_eq_event.mp signal
    refine ⟨looked ++ passed ++ [q], ?_, ?_, payloads_eq⟩
    · simp [unmarked, reached.unmarked, Ne.symm other]
    · simp [parsed, filterMap_useless reached.useless, value_eq]

theorem Delivers.delivered {text : Bytes} {values : List Json} (fresh : (lines s).unread = [])
    (h : Delivers p s text values s') : Delivered s text values s' := by
  induction h with
  | nothing => exact ⟨.refl s, .refl _, id, [], by simp, rfl, by simp [fresh]⟩
  | @event text values s₁ w value s₂ w' earlier asked ih =>
    have answered := next_finished_or (p := p) (w := w) s₁
    rw [Job.Ensures, asked] at answered
    obtain finished | ⟨_, sought_eq, answer⟩ := answered
    · cases finished
    · cases answer
      exact ih.event (found_seeks p w s₁) sought_eq

end EventStream

end Parley
