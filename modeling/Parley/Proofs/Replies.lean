import Parley.Proofs.Course
import Parley.Proofs.Job
import Parley.Client

/-!
Replies that were written down in advance, as a call meets them where nothing else happens.

* `Matches`: what the world has in common with a course between two steps;
* `arrive`: what a scripted body comes to, without the reads it takes;
* `plays_unary`, `plays_streaming`: requests of either kind are answered as the course has it.
-/
namespace Parley.Retry

open Client

variable {w : World}

/-- What all attempts of a call send, over which transport, and what was sent before. -/
structure Sending where
  request : Request
  streaming : Bool
  transport : Nat
  past : List Sent

namespace Course

/-- What the transport receives of an attempt. -/
def sent (c : Course) (s : Sending) (k : Nat) : Sent where
  request := s.request
  timeout := c.call.budget - c.elapsedAt (c.start k)
  streaming := s.streaming
  transport := s.transport
  time := c.start k

/-- The world at an instant, with a state of the backoff, after `k` attempts were sent. -/
structure Matches (c : Course) (s : Sending) (t : Instant) (b : Backoff) (k : Nat) (w : World) :
    Prop where
  now_eq : w.now = t
  backoff_eq : w.client.backoff = b
  running : w.client.shutdown = false
  transport_eq : w.transport = some (.scripted s.transport false)
  replies_eq : ∀ j, (w.script.replies[j]?).getD w.script.fallback = c.reply (k + j)
  sent_eq : w.sent = s.past ++ (List.range k).map (c.sent s)

variable {c : Course} {s : Sending} {t : Instant} {b : Backoff} {k : Nat}

theorem Matches.advanceTo (h : c.Matches s t b k w) (t' : Instant) :
    c.Matches s (max t t') b k (w.advanceTo t') where
  now_eq := by rw [World.advanceTo, h.now_eq]
  backoff_eq := h.backoff_eq
  running := h.running
  transport_eq := h.transport_eq
  replies_eq := h.replies_eq
  sent_eq := h.sent_eq

/-- The next answer is taken; the others move up. -/
theorem takeReply_ensures {p : Pause} : takeReply.Ensures p w fun r w' =>
    r = (w.script.replies[0]?).getD w.script.fallback ∧
      (∀ j, (w'.script.replies[j]?).getD w'.script.fallback =
        (w.script.replies[j + 1]?).getD w.script.fallback) ∧
      w' = { w with script := w'.script } := by
  rw [takeReply, Job.ensures_modifyGet]
  cases replies : w.script.replies with
  | nil => simp [replies]
  | cons r replies => simp

/-- The transport receives the attempt's request, and takes its time for the answer. -/
theorem receive_ensures (h : c.Matches s (c.start k) b k w) :
    (receive s.transport s.request (c.sent s k).timeout s.streaming).Ensures .quiet w fun r w' =>
      c.Matches s (max (c.start k) (c.start k + (c.reply k).delay)) b (k + 1) w' ∧
        r = match (c.reply k).failure with
          | some f => .error f
          | none => .ok (c.reply k) := by
  simp only [receive, Flow.ensures_bind, Flow.ensures_modify, Flow.ensures_lift]
  apply takeReply_ensures.mono
  rintro r w₁ ⟨reply, others, same⟩
  have reply_eq : r = c.reply k := reply.trans (h.replies_eq 0)
  have sent : c.Matches s (c.start k) b (k + 1) w₁ := by
    rw [same]
    refine ⟨h.now_eq, h.backoff_eq, h.running, h.transport_eq, ?_, ?_⟩
    · intro j
      rw [others, h.replies_eq, Nat.add_right_comm, Nat.add_assoc]
    · simp [h.sent_eq, h.now_eq, List.range_succ, Course.sent]
  have arrived := sent.advanceTo (c.start k + (c.reply k).delay)
  simp only [Job.ensures_wait, reply_eq, sent.now_eq]
  cases (c.reply k).failure with
  | some f => exact ⟨arrived, rfl⟩
  | none => exact ⟨arrived, rfl⟩

/-- Requests of one kind whose answers are what the course has of the replies. -/
structure Plays {α : Type} (c : Course) (s : Sending) (kind : Answering α)
    (attempt : Millis → Flow α) (answers : Reply → α → Prop) : Prop where
  attempt_ensures : ∀ {b k w}, c.Matches s (c.start k) b k w →
    (attempt (c.sent s k).timeout).Ensures .quiet w fun r w' =>
      c.Matches s (max (c.start k) (c.start k + (c.reply k).delay)) b (k + 1) w' ∧
        match (c.reply k).failure with
        | some f => r = .error f
        | none => ∃ a, r = .ok a ∧ answers (c.reply k) a
  status_eq : ∀ {r a}, answers r a → kind.status a = r.status
  header_eq : ∀ {r a} name, answers r a → kind.header a name = r.headers.lookup name
  errorBody_ensures : ∀ {r a t b k w}, answers r a → c.Matches s t b k w →
    (kind.errorBody a (c.call.start + c.call.budget * 1000000)).Ensures .quiet w fun body w' =>
      body = (c.readBody t r).1 ∧ c.Matches s (c.readBody t r).2 b k w'

/-- The request goes to the transport that there is. -/
theorem handOver_ensures (h : c.Matches s t b k w) (request : Request) :
    (handOver request).Ensures p w fun r w' =>
      r = .ok (.scripted s.transport false) ∧ c.Matches s t b k w' := by
  simp only [handOver, transport, Flow.ensures_bind, Flow.ensures_get, h.transport_eq, isClosed]
  exact ⟨rfl, { h with }⟩

/-- The answer in one piece, from a reply. -/
def IsResponse (r : Reply) (a : Response) : Prop :=
  a = { status := r.status, headers := r.headers, body := r.body }

theorem plays_unary (single : s.streaming = false)
    (body : ∀ t r, c.readBody t r = (.ok r.body, t)) :
    c.Plays s .unary (sendUnary s.request) IsResponse where
  attempt_ensures h := by
    simp only [sendUnary, Flow.ensures_bind]
    apply (handOver_ensures h _).mono
    rintro r w₁ ⟨rfl, h⟩
    simp only [sendOver, Flow.ensures_bind]
    rw [← single]
    apply (receive_ensures h).mono
    rintro r w₂ ⟨sent, rfl⟩
    cases (c.reply _).failure with
    | some f => exact ⟨sent, rfl⟩
    | none => exact ⟨sent, _, rfl, rfl⟩
  status_eq h := by rw [h]; rfl
  header_eq name h := by rw [h]; rfl
  errorBody_ensures h matched := by
    rw [body, h]
    exact ⟨rfl, matched⟩

end Course

/-- What is read of a scripted body until a limit, and when that is done. -/
def arrive (limit : Instant) : Instant → List Chunk → Except Failure Bytes × Instant
  | now, [] => (.ok [], now)
  | now, c :: chunks =>
    if 0 < c.delay ∧ limit < now + c.delay then
      (.error (.client { kind := .streamTimeout, reason := .readTimedOut }), max now limit)
    else
      let now := max now (now + c.delay)
      match c.failure with
      | some f => (.error f, now)
      | none => ((arrive limit now chunks).1.map (c.data ++ ·), (arrive limit now chunks).2)

/-- The body of a streamed answer that is no success, as it is told about. -/
def streamedBody (limit t : Instant) (r : Reply) : Except Failure Bytes × Instant :=
  match arrive limit t r.stream with
  | (.error (.client e), now) =>
    (.ok (ascii "(error body unavailable: " ++ e.message ++ ascii ")"), now)
  | other => other

section Bodies
variable {limit : Instant}

theorem le_arrive (limit now : Instant) (chunks : List Chunk) :
    now ≤ (arrive limit now chunks).2 := by
  induction chunks generalizing now with
  | nil => exact Int.le_refl _
  | cons c chunks ih =>
    have later : now ≤ max now (now + c.delay) := Int.le_max_left ..
    unfold arrive
    split
    · exact Int.le_max_left ..
    · cases c.failure with
      | some f => exact later
      | none => exact Int.le_trans later (ih _)

theorem le_streamedBody (t : Instant) (r : Reply) : t ≤ (streamedBody limit t r).2 := by
  have later := le_arrive limit t r.stream
  unfold streamedBody
  rcases arrives : arrive limit t r.stream with ⟨f | bytes, known⟩
  all_goals rw [arrives] at later
  · cases f <;> exact later
  · exact later

theorem streamedBody_ne (t : Instant) (r : Reply) (e : ClientError) :
    (streamedBody limit t r).1 ≠ .error (.client e) := by
  unfold streamedBody
  rcases arrive limit t r.stream with ⟨f | bytes, known⟩
  · cases f <;> simp
  · simp

/-- A chunk that comes in time is followed by what arrives after it. -/
theorem arrive_prompt {c : Chunk} {chunks : List Chunk} {now : Instant}
    (early : ¬ (0 < c.delay ∧ limit < now + c.delay)) (fine : c.failure = none) :
    arrive limit now (c :: chunks) =
      ((arrive limit (max now (now + c.delay)) chunks).1.map (c.data ++ ·),
        (arrive limit (max now (now + c.delay)) chunks).2) := by
  rw [arrive, if_neg early, fine]

/-- Of a chunk that was read in part the rest comes at once. -/
theorem arrive_cut (limit : Instant) (front back : Bytes) (chunks : List Chunk) (now : Instant) :
    (arrive limit now ({ data := back } :: chunks)).1.map (front ++ ·) =
        (arrive limit now chunks).1.map (front ++ back ++ ·) ∧
      (arrive limit now ({ data := back } :: chunks)).2 = (arrive limit now chunks).2 := by
  have now_eq : max now (now + 0) = now := by lia
  rw [arrive_prompt (by simp) rfl, now_eq]
  cases (arrive limit now chunks).1 <;> simp [Except.map]

/-- How many bytes some chunks have. -/
def size (chunks : List Chunk) : Nat := chunks.foldr (fun c n => c.data.length + n) 0

/-- A read gives the beginning of what arrives, and takes it off the chunks. -/
structure Begins (limit : Instant) (w : World) (chunks : List Chunk)
    (r : Except Failure Bytes × List Chunk) (w' : World) : Prop where
  same : w' = { w with now := w'.now }
  shorter : ∀ data, r.1 = .ok data → data.length + size r.2 = size chunks
  arrives : arrive limit w.now chunks =
    match r.1 with
    | .error f => (.error f, w'.now)
    | .ok [] => (.ok [], w'.now)
    | .ok data => ((arrive limit w'.now r.2).1.map (data ++ ·), (arrive limit w'.now r.2).2)

/-- A chunk is waited for, unless it comes too late. -/
theorem Begins.waits {c : Chunk} {chunks : List Chunk}
    {j : Job (Except Failure Bytes × List Chunk)}
    (arrived : ¬ (0 < c.delay ∧ limit < w.now + c.delay) →
      j.Ensures .quiet (w.advanceTo (w.now + c.delay)) (Begins limit w (c :: chunks))) :
    if 0 < c.delay then
      if limit < w.now + c.delay then
        Begins limit w (c :: chunks)
          (.error (.client { kind := .streamTimeout, reason := .readTimedOut }), c :: chunks)
          (Pause.quiet limit (fun _ => false) w)
      else
        j.Ensures .quiet (Pause.quiet (w.now + c.delay) (fun _ => false) w)
          (Begins limit w (c :: chunks))
    else j.Ensures .quiet w (Begins limit w (c :: chunks)) := by
  split
  · next delayed =>
    split
    · next late =>
      refine ⟨rfl, by simp, ?_⟩
      rw [arrive, if_pos ⟨delayed, late⟩]
      rfl
    · next early => exact arrived fun h => early h.2
  · next prompt =>
    have same : w.advanceTo (w.now + c.delay) = w := by
      have : max w.now (w.now + c.delay) = w.now := by lia
      rw [World.advanceTo, this]
    have arrived := arrived fun h => prompt h.1
    rwa [same] at arrived

theorem readChunk_begins {capacity : Nat} (room : 0 < capacity) (chunks : List Chunk) :
    (ScriptedBody.readChunk capacity limit chunks).Ensures .quiet w (Begins limit w chunks) := by
  induction chunks generalizing w with
  | nil =>
    refine ⟨rfl, ?_, rfl⟩
    rintro _ ⟨⟩
    rfl
  | cons c chunks ih =>
    obtain ⟨data, delay, failure⟩ := c
    rw [ScriptedBody.readChunk]
    simp only [Job.ensures_bind, Job.ensures_ite, Job.ensures_get, Job.ensures_waitUntil,
      Job.ensures_pure, Job.ensures_wait]
    apply Begins.waits (c := ⟨data, delay, failure⟩)
    intro early
    rcases failure with _ | f
    · rcases data with _ | ⟨b, data⟩
      · apply ih.mono
        rintro r w' ⟨same, shorter, arrives⟩
        refine ⟨same, ?_, ?_⟩
        · simpa [size] using shorter
        · rw [← arrives, arrive_prompt early rfl]
          exact congrArg (·, _) (congrFun Except.map_id _)
      · obtain ⟨n, rfl⟩ := Nat.exists_eq_add_one_of_ne_zero (Nat.pos_iff_ne_zero.mp room)
        simp only [Job.ensures_pure]
        refine ⟨rfl, ?_, ?_⟩
        · rintro _ ⟨⟩
          simp [size]
          omega
        · obtain ⟨bytes, time⟩ := arrive_cut limit ((b :: data).take (n + 1))
            ((b :: data).drop (n + 1)) chunks (w.advanceTo (w.now + delay)).now
          rw [List.take_append_drop] at bytes
          rw [arrive_prompt early rfl]
          exact Prod.ext bytes.symm time.symm
    · refine ⟨rfl, ?_, ?_⟩
      · rintro _ ⟨⟩
      · rw [arrive, if_neg early]
        rfl

theorem readRest_ensures (reads : Nat) (body : Bytes) (b : ScriptedBody)
    (enough : size b.chunks < reads) :
    (Source.readRest limit reads body (.scripted b)).Ensures .quiet w fun r w' =>
      (∃ b', r.2 = .scripted b') ∧ r.1 = (arrive limit w.now b.chunks).1.map (body ++ ·) ∧
        w' = { w with now := (arrive limit w.now b.chunks).2 } := by
  induction reads generalizing w body b with
  | zero => omega
  | succ reads ih =>
    simp only [Source.readRest, Source.read, ScriptedBody.read, Job.ensures_bind, Job.ensures_pure]
    apply (readChunk_begins (by decide) b.chunks).mono
    rintro ⟨f | _ | ⟨x, data⟩, chunks⟩ w₁ ⟨same, shorter, arrives⟩
    · rw [arrives]
      exact ⟨⟨_, rfl⟩, rfl, same⟩
    · rw [arrives]
      exact ⟨⟨_, rfl⟩, congrArg Except.ok (List.append_nil body).symm, same⟩
    · have fewer : size chunks < reads := by
        have := shorter _ rfl
        simp at this
        omega
      apply (ih (body ++ x :: data) { b with chunks } fewer).mono
      rintro r w₂ ⟨left, result, time⟩
      refine ⟨left, ?_, ?_⟩
      · rw [result, arrives]
        cases (arrive limit w₁.now chunks).1 <;> simp [Except.map]
      · rw [time, same, arrives]

/-- Reading a scripted body to its end comes to what arrives. -/
theorem readAll_ensures (b : ScriptedBody) :
    (Source.readAll (.scripted b) limit).Ensures .quiet w fun r w' =>
      (∃ b', r.2 = .scripted b') ∧ r.1 = (arrive limit w.now b.chunks).1 ∧
        w' = { w with now := (arrive limit w.now b.chunks).2 } := by
  apply (readRest_ensures _ [] b (Nat.lt_succ_self _)).mono
  rintro r w' ⟨left, result, time⟩
  exact ⟨left, result.trans (congrFun Except.map_id _), time⟩

end Bodies

namespace Course

variable {c : Course} {s : Sending}

/-- The streamed answer, from a reply. -/
def IsStream (r : Reply) (a : Source) : Prop :=
  ∃ number, a = .scripted { number, status := r.status, headers := r.headers, chunks := r.stream }

section Matched
variable {t : Instant} {b : Backoff} {k : Nat}

theorem Matches.at (h : c.Matches s t b k w) (t' : Instant) :
    c.Matches s t' b k { w with now := t' } :=
  { h with now_eq := rfl }

/-- Which bodies are there makes no difference, and neither does the log. -/
theorem Matches.withBodies (h : c.Matches s t b k w) (bodies : Nat) (live : List Nat)
    (log : List Marked) : c.Matches s t b k { w with bodies, live, log } :=
  { h with }

end Matched

theorem plays_streaming (streamed : s.streaming = true)
    (body : ∀ t r, c.readBody t r = streamedBody (c.call.start + c.call.budget * 1000000) t r) :
    c.Plays s .streaming (sendStreaming s.request) IsStream where
  attempt_ensures h := by
    simp only [sendStreaming, Flow.ensures_bind]
    apply (handOver_ensures h _).mono
    rintro r w₁ ⟨rfl, h⟩
    simp only [streamOver, Flow.ensures_bind]
    rw [← streamed]
    apply (receive_ensures h).mono
    rintro r w₂ ⟨sent, rfl⟩
    cases (c.reply _).failure with
    | some f => exact ⟨sent, rfl⟩
    | none => exact ⟨sent.withBodies _ _ _, _, rfl, _, rfl⟩
  status_eq := by
    rintro r a ⟨number, rfl⟩
    rfl
  header_eq := by
    rintro r a name ⟨number, rfl⟩
    rfl
  errorBody_ensures := by
    rintro r a t b k w ⟨number, rfl⟩ matched
    simp only [Answering.streaming, Flow.ensures_bind, Flow.ensures_lift]
    apply (readAll_ensures _).mono
    rintro ⟨outcome, source⟩ w₁ ⟨⟨b', left⟩, result, time⟩
    simp only at left result
    subst left result
    rw [matched.now_eq] at time ⊢
    rw [body, streamedBody]
    have done := matched.at (arrive (c.call.start + c.call.budget * 1000000) t r.stream).2
    rw [← time] at done
    revert done
    rcases arrive (c.call.start + c.call.budget * 1000000) t r.stream with ⟨f | bytes, known⟩
    · cases f <;> exact fun done => ⟨rfl, done.withBodies _ _ _⟩
    · exact fun done => ⟨rfl, done.withBodies _ _ _⟩

end Course

end Parley.Retry
