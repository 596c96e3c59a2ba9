import Parley.Proofs.Instants
import Parley.Proofs.Seeks

/-!
Streams that break off, because a read of the body fails or because the deadline has passed. Every
event that was complete by then has been delivered, and the failure is the last thing that the
stream gives.

* `reported`, `fail_breaks`: how a failure is reported, and what goes with it;
* `Breaks`, `Delivered.breaks`: the request with which a stream breaks off;
* `next_breaks_off`: every request to a stream that is bound to break off.
-/
namespace Parley.EventStream

open EventLines Parley.Part

variable {p : Pause} {w w' : World} {s s' : OpenStream} {f : Failure} {source : Source}
variable {deadline startedAt : Instant} {permit : Bool} {text : Bytes} {values : List Json}

/-- A failure as a stream reports it. If it is one that calls have, it tells how long the call took
and how much time it had left. -/
def reported (deadline startedAt now : Instant) : Failure → Failure
  | .client e =>
    .client { e with
      elapsed := toMillis (now.since startedAt)
      remaining := remainingUntil deadline now }
  | f => f

theorem fail_breaks (s : OpenStream) (f : Failure) :
    (fail s f).Ensures p w fun r w' =>
      r = (.failed (reported s.deadline s.startedAt w'.now f), .finished) ∧
        LetsGo s false w w' := by
  rw [fail, Job.ensures_bind]
  apply (finish_letsGo s false).mono
  intro _ w' letsGo
  rw [Job.ensures_bind, Job.ensures_get]
  cases f <;> exact ⟨rfl, letsGo⟩

/-- The request with which a stream breaks off. It was `s` at first, and `s₁` when the request was
made; by the end of the request it has received `text` and delivered `values`. -/
structure Breaks (p : Pause) (s s₁ : OpenStream) (w₁ : World) (text : Bytes) (values : List Json)
    (f : Failure) (stream : EventStream) (w' : World) : Prop where
  /-- What was received is the beginning of the body. -/
  received : text <+: s.source.content
  /-- The events of its complete lines were delivered, each of them once and in order. -/
  delivered : values = (completePayloads text).filterMap Json.parse?
  /-- It is the failure of a read that is reported, or that of the deadline. -/
  cause : ∃ cause, BrokeBy p s.deadline cause (found p w₁ s₁).1.stream.source (found p w₁ s₁).2 ∧
    f = reported s.deadline s.startedAt w'.now cause
  elapsed : ∀ e, f = .client e → Fits (w'.now - s.startedAt) →
    e.elapsed = toMillis (w'.now - s.startedAt)
  remaining : ∀ e, f = .client e → Fits (s.deadline - w'.now) →
    e.remaining = toMillis (max 0 (s.deadline - w'.now))
  /-- Everything that the stream has held from the first is given back, and one failure counted. -/
  continues : Continues s (found p w₁ s₁).1.stream
  letsGo : LetsGo (found p w₁ s₁).1.stream false (found p w₁ s₁).2 w'
  counted : p.Calm → ∃ malformed,
    w'.client.usage = (countMalformed malformed w₁.client.usage).addFailure
  /-- After it there is nothing but the end, and nothing else happens. -/
  finished : stream = .finished
  ended : ∀ w, (next stream).Ensures p w fun r w' => r = (.ended, .finished) ∧ w' = w

theorem reported_elapsed {e : ClientError} (h : reported deadline startedAt w.now f = .client e)
    (fits : Fits (w.now - startedAt)) : e.elapsed = toMillis (w.now - startedAt) := by
  cases f with
  | client e =>
    obtain rfl := Failure.client.inj h
    rw [Instant.since, wrap64_of_fits fits]
  | _ => cases h

theorem reported_remaining {e : ClientError} (h : reported deadline startedAt w.now f = .client e)
    (fits : Fits (deadline - w.now)) :
    e.remaining = toMillis (max 0 (deadline - w.now)) := by
  cases f with
  | client e =>
    obtain rfl := Failure.client.inj h
    exact remainingUntil_of_fits fits
  | _ => cases h

/-- A request whose search breaks off ends the stream. -/
theorem next_of_broke {cause : Failure} (broke : (found p w s).1.sought = .broke cause) :
    (next (.unfinished s)).Ensures p w fun r w' =>
      r = (.failed (reported s.deadline s.startedAt w'.now cause), .finished) ∧
        LetsGo (found p w s).1.stream false (found p w s).2 w' := by
  have continues := (found_seeks p w s).continues
  rw [ensures_next, Finding.settle, broke, ← continues.deadline_eq, ← continues.startedAt_eq]
  exact fail_breaks _ cause

section Delivered
variable {s₁ : OpenStream} {w₁ : World}

/-- What was received by the end of one more request is the beginning of the body. -/
theorem Delivered.received (delivered : Delivered s text values s₁) :
    text ++ (found p w₁ s₁).1.received <+: s.source.content := by
  obtain ⟨rest, cut, -⟩ := (found_seeks p w₁ s₁).cut
  exact ⟨Part.bytes rest, (delivered.cut.trans cut).bytes_eq.symm⟩

/-- A stream breaks off with the failure that a search broke off with. -/
theorem Delivered.breaks {cause : Failure}
    (delivered : Delivered s text values s₁) (broke : (found p w₁ s₁).1.sought = .broke cause) :
    (fail (found p w₁ s₁).1.stream cause).Ensures p (found p w₁ s₁).2 fun r w' =>
      ∃ f, r.1 = .failed f ∧
        Breaks p s s₁ w₁ (text ++ (found p w₁ s₁).1.received) values f r.2 w' := by
  have seeks := found_seeks p w₁ s₁
  have continues := delivered.continues.trans seeks.continues
  obtain ⟨passed, reached, usage_eq⟩ := delivered.reached seeks
  have all := (reached.of_none (by rw [broke]; rfl)).1
  apply (fail_breaks _ cause).mono
  rintro _ w' ⟨rfl, letsGo⟩
  refine ⟨_, rfl, ?_⟩
  constructor
  case received => exact delivered.received
  case delivered => exact all.symm
  case cause =>
    refine ⟨cause, ?_, ?_⟩
    · rw [← delivered.continues.deadline_eq]
      exact seeks.broke cause broke
    · rw [continues.deadline_eq, continues.startedAt_eq]
  case elapsed =>
    rw [continues.deadline_eq, continues.startedAt_eq]
    exact fun e client => reported_elapsed client
  case remaining =>
    rw [continues.deadline_eq, continues.startedAt_eq]
    exact fun e client => reported_remaining client
  case continues => exact continues
  case letsGo => exact letsGo
  case counted =>
    intro calm
    exact ⟨passed.length, by rw [letsGo.usage_eq, usage_eq calm]; rfl⟩
  case finished => rfl
  case ended => exact fun w => ⟨rfl, rfl⟩

/-- There are fewer events than bytes. -/
theorem Delivered.fewer {value : Json} (delivered : Delivered s text values s₁)
    (event : (found p w₁ s₁).1.sought = .event value) :
    values.length < s.source.content.length := by
  obtain ⟨passed, reached, -⟩ := delivered.reached (found_seeks p w₁ s₁)
  rw [event] at reached
  calc values.length
    _ < (values ++ [value]).length := by simp
    _ ≤ _ := reached.of_event.length_le
    _ ≤ (completePayloads (text ++ (found p w₁ s₁).1.received)).length :=
      Nat.le_trans (List.length_filterMap_le ..) (List.takeWhile_sublist _).length_le
    _ ≤ (text ++ (found p w₁ s₁).1.received).length := length_completePayloads_le _
    _ ≤ s.source.content.length := delivered.received.length_le

end Delivered

/-- A stream that is bound to break off, because a part of its body fails or its deadline has
passed, gives all events that are complete before that, and then the failure. -/
theorem next_breaks_off (p : Pause) (w : World) (permit : Bool) (source : Source)
    (deadline startedAt : Instant) :
    (create permit source deadline startedAt).Ensures p w fun stream _ =>
      ∃ s, stream = .unfinished s ∧ Opened permit source deadline startedAt s ∧
        ∀ text values s₁, Delivers p s text values s₁ → ∀ w₁,
          let text := text ++ (found p w₁ s₁).1.received
          doneMark ∉ completePayloads text →
            (next (.unfinished s₁)).Ensures p w₁ fun r w' =>
              (¬source.Sound ∨ deadline < w₁.now →
                (∃ f, r.1 = .failed f) ∨
                  (∃ value s₂, r = (.event value, .unfinished s₂)) ∧
                    values.length < source.content.length) ∧
              ∀ f, r.1 = .failed f → Breaks p s s₁ w₁ text values f r.2 w' := by
  apply (create_opened permit source deadline startedAt).mono
  rintro _ w₀ ⟨s, rfl, opened⟩
  refine ⟨s, rfl, opened, ?_⟩
  intro text values s₁ delivers w₁ text' unmarked
  have delivered := delivers.delivered opened.unread_eq
  have seeks := found_seeks p w₁ s₁
  rw [ensures_next, Finding.settle]
  cases sought : (found p w₁ s₁).1.sought with
  | met =>
    obtain ⟨passed, reached, -⟩ := delivered.reached seeks
    rw [sought] at reached
    exact absurd reached.of_met.1 unmarked
  | event value =>
    refine ⟨fun _ => .inr ⟨⟨value, _, rfl⟩, ?_⟩, ?_⟩
    · rw [← opened.source_eq]
      exact delivered.fewer sought
    · rintro f ⟨⟩
  | broke cause =>
    apply (delivered.breaks sought).mono
    rintro ⟨_, stream⟩ w' ⟨f, rfl, breaks⟩
    refine ⟨fun _ => .inl ⟨f, rfl⟩, ?_⟩
    rintro _ ⟨⟩
    exact breaks
  | ended =>
    obtain ⟨sound, inTime⟩ := seeks.ended sought
    have whole : source.Sound := by
      rw [← opened.source_eq]
      exact delivered.cut.sound_of sound
    rw [delivered.continues.deadline_eq, opened.deadline_eq] at inTime
    apply (exhaust_finished _).mono
    rintro r w' ⟨-, unfailed⟩
    refine ⟨?_, fun f failed => absurd failed (unfailed f)⟩
    rintro (unsound | late)
    · exact absurd whole unsound
    · exact absurd late (Int.not_lt.mpr inTime)

/-- The second chunk of a body is lost, and with it the end of a line. -/
theorem next_breaks_off_cut :
    let config : Config := { clientTag := [] }
    let w : World := { config, client := .ofConfig config 1, chance := .ofSeed 1 }
    let lost : ClientError := { kind := .connectionFailed, reason := .sessionClosed }
    let chunks : List Chunk := [
      { data := ascii "data: 1\r\nda" },
      { data := ascii "ta: 2\n", delay := 2000000, failure := some (.client lost) }]
    let source : Source := .scripted { number := 1, status := 200, headers := [], chunks }
    (create false source 10000000 0).Ensures .quiet w fun stream _ =>
      ∃ s text s₁ all stream' w', stream = .unfinished s ∧ Delivers .quiet s text [.int 1] s₁ ∧
        Breaks .quiet s s₁ w all [.int 1] (.client { lost with elapsed := 2, remaining := 8 })
          stream' w' := by
  intro config w lost chunks source
  obtain ⟨s, stream_eq, -, requests⟩ := next_breaks_off .quiet w false source 10000000 0
  obtain rfl := EventStream.unfinished.inj stream_eq
  let s : OpenStream := {
    permit := false, lease := (Lease.take w.client.buffers).1, source, deadline := 10000000
    startedAt := 0 }
  have one : (found .quiet w s).1.sought = .event (.int 1) := by
    unfold s source chunks w config lost
    exact rfl
  let s₁ : OpenStream := { s with
    lease := { s.lease with buffer := {
      bytes := ascii "data: 1\r\nda", capacity := 8192, number := some 1 } }
    source := .scripted { number := 1, status := 200, headers := [], chunks := [
      { data := [] },
      { data := ascii "ta: 2\n", delay := 2000000, failure := some (.client lost) }] }
    consumed := 9 }
  have left : (found .quiet w s).1.stream = s₁ := by
    unfold s₁ s source chunks w config lost
    exact rfl
  obtain ⟨w₁, asked⟩ := next_of_event one
  rw [left] at asked
  have delivers : Delivers .quiet s _ [.int 1] s₁ := .event .nothing asked
  have two : (found .quiet w s₁).1.sought = .broke (.client lost) := by
    unfold s₁ s source chunks w config lost
    exact rfl
  have unmarked : doneMark ∉ completePayloads
      ([] ++ (found .quiet w s).1.received ++ (found .quiet w s₁).1.received) := by
    decide +kernel
  obtain ⟨answer, letsGo⟩ := next_of_broke two
  have now : (found .quiet w s₁).2.now = 2000000 := by decide +kernel
  rw [letsGo.now_eq, now] at answer
  have breaks := (requests _ _ _ delivers w unmarked).2 _ (congrArg Prod.fst answer)
  exact ⟨_, _, _, _, _, _, rfl, delivers, breaks⟩

end Parley.EventStream
