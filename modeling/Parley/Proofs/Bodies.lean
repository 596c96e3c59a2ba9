import Parley.Proofs.Reads
import Parley.Proofs.Replacements

/-!
What is read of a body that arrives over a connection, by any number of reads and whatever happens
between them. The reads give the bytes of the body in order. One that gives none says that the body
is complete, unless a read before it failed: then the connection is lost, and with it the rest.

* `WireBody.Reads`, `WireBody.read_reads`: what one read does;
* `Tells`, `WireBody.readEach_tells`: what any number of reads say about a body;
* `Session.streamed_tells`: the same of a body that the wire has written down.
-/
namespace Parley

variable {p : Pause} {w : World}

namespace Session

/-- A connection is kept only by a read that gives some bytes. -/
theorem readPiece_ends (i : Nat) (c : Connection) {capacity : Nat} (room : 0 < capacity)
    (deadline : Instant) (pieces : List Piece) :
    (readPiece i c capacity deadline pieces).Ensures p w fun r _ =>
      r.2 = none ∨ ∃ data, r.1 = .ok data ∧ data ≠ [] := by
  induction pieces generalizing w with
  | nil =>
    apply Job.Ensures.after
    intro _ w₁
    exact .inl rfl
  | cons q pieces ih =>
    rw [readPiece, Job.ensures_bind, Job.ensures_get, Job.ensures_ite]
    split
    · exact .inl rfl
    refine .after fun left w₁ => .after fun _ w₂ => .after fun failed w₃ => ?_
    cases failed with
    | some e => exact .inl rfl
    | none =>
      apply Job.Ensures.after
      intro _ w₄
      split
      · next left =>
        refine .inr ⟨_, rfl, ?_⟩
        intro none
        rw [List.take_eq_nil_iff] at none
        obtain none | none := none
        · omega
        · rw [none, List.drop_nil] at left
          cases left
      · apply Job.Ensures.after
        intro _ w₅
        exact .inl rfl
      · rw [Job.ensures_ite]
        split
        · exact ih
        · next taken =>
          rw [List.isEmpty_iff] at taken
          exact .inr ⟨_, rfl, taken⟩

end Session

namespace WireBody

/-- What is left to be read of a body: nothing, once its connection is gone. -/
def left (b : WireBody) : Bytes := Part.bytes (Session.unread b.connection)

/-- What a read does to a body. -/
inductive Reads (b b' : WireBody) : Except Failure Bytes → Prop where
  /-- It gives the next bytes. -/
  | gives {data : Bytes} : data ≠ [] → b.left = data ++ b'.left → Reads b b' (.ok data)
  /-- There are none. -/
  | ends : b.left = [] → b'.connection = none → Reads b b' (.ok [])
  /-- It fails, and the connection is lost. -/
  | breaks (f : Failure) : b'.connection = none → Reads b b' (.error f)

theorem read_reads (b : WireBody) {capacity : Nat} (room : 0 < capacity) (deadline : Instant) :
    (b.read capacity deadline).Ensures p w fun r _ => Reads b r.2 r.1 := by
  obtain ⟨session, _ | c, status, headers⟩ := b
  · exact .ends rfl rfl
  · rw [read, Job.ensures_bind]
    apply ((Session.readPiece_takes room session c deadline c.unread).and
      (Session.readPiece_ends session c room deadline c.unread)).mono
    rintro ⟨_ | data, connection⟩ w₁ ⟨takes, kept⟩
    · obtain lost | ⟨data, given, -⟩ := kept
      · exact .breaks _ lost
      · cases given
    · have cut := (takes data rfl).bytes_eq
      by_cases none : data = []
      · subst none
        obtain lost | ⟨data, given, some⟩ := kept
        · subst lost
          exact .ends cut rfl
        · cases given
          exact absurd rfl some
      · exact .gives none cut

/-- A read, and the world it begins in. -/
structure OneRead where
  pause : Pause
  world : World
  capacity : Nat
  deadline : Instant

/-- What reads of a body give, one after the other. Anything may happen between them. -/
def readEach (b : WireBody) : List OneRead → List (Except Failure Bytes)
  | [] => []
  | r :: reads =>
    let ((result, b), _) := ((b.read r.capacity r.deadline).run r.pause).run r.world
    result :: readEach b reads

/-- All bytes that some reads gave. -/
def received (results : List (Except Failure Bytes)) : Bytes :=
  results.flatMap fun r => r.toOption.getD []

/-- What reads tell of a body. -/
structure Tells (whole : Bytes) (results : List (Except Failure Bytes)) : Prop where
  /-- They give its bytes in order. -/
  received_prefix : received results <+: whole
  /-- One that gives none says that all bytes were read, or comes after a failure. -/
  whole_of_empty : ∀ before after, results = before ++ .ok [] :: after →
    received before = whole ∨ ∃ f, .error f ∈ before
  /-- After a failure, and after the end, there is nothing more. -/
  empty_after : ∀ before r after, results = before ++ r :: after →
    (r = .ok [] ∨ ∃ f, r = .error f) → ∀ r' ∈ after, r' = .ok []

namespace Tells

variable {whole rest data : Bytes} {results : List (Except Failure Bytes)} {f : Failure}

theorem nil (whole : Bytes) : Tells whole [] where
  received_prefix := List.nil_prefix
  whole_of_empty := by simp
  empty_after := by simp

theorem received_empty (done : ∀ r ∈ results, r = .ok []) : received results = [] := by
  rw [received, List.flatMap_eq_nil_iff]
  intro r member
  rw [done r member]
  rfl

theorem ended (done : ∀ r ∈ results, r = .ok []) : Tells [] (.ok [] :: results) := by
  have all : ∀ r ∈ .ok [] :: results, r = .ok [] := List.forall_mem_cons.mpr ⟨rfl, done⟩
  constructor
  case received_prefix => exact List.prefix_nil.mpr (received_empty all)
  case whole_of_empty =>
    intro before after same
    rw [same] at all
    exact .inl (received_empty fun r member => all r (List.mem_append_left _ member))
  case empty_after =>
    intro before r after same _ r' member
    rw [same] at all
    exact all r' (List.mem_append_right _ (List.mem_cons_of_mem _ member))

theorem failed (done : ∀ r ∈ results, r = .ok []) : Tells whole (.error f :: results) where
  received_prefix := by
    have none : received (.error f :: results) = received results := rfl
    rw [none, received_empty done]
    exact List.nil_prefix
  whole_of_empty before after same := by
    cases before with
    | nil => cases same
    | cons r before =>
      cases same
      exact .inr ⟨f, List.mem_cons_self⟩
  empty_after before r after same _ r' member := by
    cases before with
    | nil =>
      cases same
      exact done r' member
    | cons _ before =>
      cases same
      exact done r' (List.mem_append_right _ (List.mem_cons_of_mem _ member))

theorem cons (some : data ≠ []) (tells : Tells rest results) :
    Tells (data ++ rest) (.ok data :: results) where
  received_prefix := (List.prefix_append_right_inj data).mpr tells.received_prefix
  whole_of_empty before after same := by
    cases before with
    | nil =>
      cases same
      exact absurd rfl some
    | cons r before =>
      cases same
      obtain all | ⟨f, member⟩ := tells.whole_of_empty before after rfl
      · exact .inl (congrArg (data ++ ·) all)
      · exact .inr ⟨f, List.mem_cons_of_mem _ member⟩
  empty_after before r after same last := by
    cases before with
    | nil =>
      cases same
      obtain none | ⟨f, failed⟩ := last
      · exact absurd (Except.ok.inj none) some
      · cases failed
    | cons _ before =>
      cases same
      exact tells.empty_after before r after rfl last

end Tells

/-- A body that has lost its connection gives nothing, whenever it is read. -/
theorem readEach_lost {b : WireBody} (lost : b.connection = none) (reads : List OneRead) :
    ∀ r ∈ b.readEach reads, r = .ok [] := by
  induction reads with
  | nil => simp [readEach]
  | cons r reads ih =>
    have same : ((b.read r.capacity r.deadline).run r.pause).run r.world =
        ((.ok [], b), r.world) := by
      rw [read, lost]
      rfl
    rw [readEach, same]
    exact List.forall_mem_cons.mpr ⟨rfl, ih⟩

theorem readEach_tells (b : WireBody) (reads : List OneRead) (room : ∀ r ∈ reads, 0 < r.capacity) :
    Tells b.left (b.readEach reads) := by
  induction reads generalizing b with
  | nil => exact .nil _
  | cons r reads ih =>
    obtain ⟨first, others⟩ := List.forall_mem_cons.mp room
    have step : (b.read r.capacity r.deadline).Ensures r.pause r.world fun x _ =>
        Reads b x.2 x.1 := b.read_reads first r.deadline
    rw [Job.Ensures] at step
    rw [readEach]
    generalize ((b.read r.capacity r.deadline).run r.pause).run r.world = outcome at step ⊢
    obtain ⟨⟨result, b'⟩, w'⟩ := outcome
    cases step with
    | gives some left =>
      rw [left]
      exact .cons some (ih b' others)
    | ends none lost =>
      rw [none]
      exact .ended (readEach_lost lost reads)
    | breaks f lost => exact .failed (readEach_lost lost reads)

end WireBody

namespace Session

variable {i : Nat} {deadline : Instant} {wire : WireRequest}

/-- A connection over which the head of a response was just read: the session has entered what the
response is, and the body is yet to be read. -/
def Heads (i : Nat) (c : Connection) (w : World) : Prop :=
  ∃ x past, w.journal = ⟨i, .answered c.number x, w.now⟩ :: past ∧ c.unread = x.body

theorem begin_heads (c : Connection) :
    (begin i c wire deadline).Ensures p w fun r w' => ∀ a, r = .ok a → Heads i a.2 w' := by
  rw [begin]
  refine .after fun left w₁ => .after fun _ w₂ => .after fun _ w₃ => .after fun x w₄ => ?_
  refine .after fun failed w₅ => ?_
  cases failed with
  | some e =>
    apply Job.Ensures.after
    rintro _ w₆ _ ⟨⟩
  | none =>
    refine .after fun left w₆ => .after fun _ w₇ => .after fun failed w₈ => ?_
    cases failed with
    | some e =>
      apply Job.Ensures.after
      rintro _ w₉ _ ⟨⟩
    | none =>
      rintro _ ⟨⟩
      exact ⟨x, w₈.journal, rfl, rfl⟩

theorem pass_heads :
    (pass i wire deadline).Ensures p w fun r w' => ∀ c a, r = .ok (c, .ok a) → Heads i a.2 w' := by
  rw [ensures_pass]
  apply Flow.Ensures.of_all
  intro r w₁
  cases r with
  | error f => rintro _ _ ⟨⟩
  | ok c =>
    apply (begin_heads c).mono
    intro result w₂ heads
    cases result with
    | ok answer =>
      rintro _ _ ⟨⟩
      exact heads answer rfl
    | error e =>
      apply Job.Ensures.of_all
      rintro _ w₃ _ _ ⟨⟩

theorem answered_heads :
    (answered i wire deadline).Ensures p w fun r w' => ∀ a, r = .ok a → Heads i a.2 w' := by
  rw [ensures_answered]
  apply pass_heads.mono
  rintro (f | ⟨c, e | answer⟩) w₁ heads
  · rintro _ ⟨⟩
  · simp only
    split
    · rw [lastPass, Flow.ensures_bind]
      apply pass_heads.mono
      rintro (f | ⟨c, e | answer⟩) w₂ heads
      · rintro _ ⟨⟩
      · rintro _ ⟨⟩
      · rintro _ ⟨⟩
        exact heads c answer rfl
    · rintro _ ⟨⟩
  · rintro _ ⟨⟩
    exact heads c answer rfl

/-- A streamed body is all that the wire has written down for it. Whatever the session is like,
whatever happens meanwhile, and however often and in whatever world the body is read: the reads give
its bytes in order. One that gives none says that all of it was read, unless an earlier one failed;
after that the others give nothing, though there may be more. -/
theorem streamed_tells (i : Nat) (request : Request) (timeout : Millis) (p : Pause) (w : World) :
    (sendStreaming i request timeout).Ensures p w fun r w' => ∀ b, r = .ok b →
      ∃ n x past, w'.journal = ⟨i, .answered n x, w'.now⟩ :: past ∧
        ∀ reads : List WireBody.OneRead, (∀ r ∈ reads, 0 < r.capacity) →
          WireBody.Tells (Ledger.bytes x.body) (b.readEach reads) := by
  rw [sendStreaming]
  simp only [Flow.ensures_bind, Flow.ensures_get, Flow.ensures_lift, ensures_current,
    Flow.ensures_ofExcept]
  cases WireRequest.ofRequest (find w i).hostHeader request with
  | error f => rintro _ ⟨⟩
  | ok wire =>
    apply answered_heads.mono
    intro r w₁ heads
    cases r with
    | error f => rintro _ ⟨⟩
    | ok answer =>
      obtain ⟨head, c⟩ := answer
      obtain ⟨x, past, journal, unread⟩ := heads _ rfl
      intro b same
      have all : Part.bytes (x.body.map Piece.part) = Ledger.bytes x.body := by
        rw [Part.bytes, List.flatMap_map]
        rfl
      have left : b.left = Ledger.bytes x.body := by
        cases same
        exact (congrArg (fun pieces => Part.bytes (pieces.map Piece.part)) unread).trans all
      refine ⟨c.number, x, past, journal, fun reads room => ?_⟩
      rw [← left]
      exact b.readEach_tells reads room

/-- What a response brings, if this is about the head of one. -/
def brings? : Dealing → Option Bytes
  | .answered _ x => some (Ledger.bytes x.body)
  | _ => none

/-- The second of three reads comes too early for what is left, and the third one gives nothing. -/
theorem streamed_tells_lost :
    let c : Config := { clientTag := [], baseUrl := ascii "http://h" }
    let request : Request := { method := ascii "GET", target := [], headers := [], body := [] }
    let x : Exchange := {
      body := [{ data := ascii "abc" }, { data := ascii "def", outcome := { delay := 5 } }] }
    let reads (w : World) : List WireBody.OneRead :=
      [⟨.quiet, w, 9, 3⟩, ⟨.quiet, w, 9, 3⟩, ⟨.quiet, w, 9, 9⟩]
    ∃ s w, Session.ofConfig c = .ok s ∧
      w = { config := c, client := .ofConfig c 1, chance := .ofSeed 1
            script := { exchanges := [x] }, sessions := [s] } ∧
      (sendStreaming 0 request 5).Ensures .quiet w fun r w' => ∃ b, r = .ok b ∧
        (∀ r ∈ reads w', 0 < r.capacity) ∧
        WireBody.Tells (ascii "abcdef") (b.readEach (reads w')) ∧
        b.readEach (reads w') = [.ok (ascii "abc"),
          .error (.client { kind := .streamTimeout, reason := .readTimedOut }), .ok []] := by
  intro c request x reads
  let s : Session := (Session.ofConfig c).toOption.getD absent
  have made : Session.ofConfig c = .ok s := by rfl
  let w : World := {
    config := c, client := .ofConfig c 1, chance := .ofSeed 1
    script := { exchanges := [x] }, sessions := [s] }
  refine ⟨s, w, made, rfl, ?_⟩
  have answered : (sendStreaming 0 request 5).Ensures .quiet w fun _ w' =>
      w'.journal.head?.bind (brings? ·.dealing) = some (ascii "abcdef") := by decide +kernel
  have gives : (sendStreaming 0 request 5).Ensures .quiet w fun r w' =>
      r.toOption.map (·.readEach (reads w')) = some [.ok (ascii "abc"),
        .error (.client { kind := .streamTimeout, reason := .readTimedOut }), .ok []] := by
    decide +kernel
  apply ((answered.and gives).and (streamed_tells 0 request 5 .quiet w)).mono
  rintro (f | b) w' ⟨⟨answered, gives⟩, tells⟩
  · cases gives
  · obtain ⟨n, x', past, journal, tells⟩ := tells b rfl
    rw [journal] at answered
    have bytes_eq : Ledger.bytes x'.body = ascii "abcdef" := Option.some.inj answered
    have room : ∀ r ∈ reads w', 0 < r.capacity := by simp [reads]
    exact ⟨b, rfl, room, bytes_eq ▸ tells _ room, Option.some.inj gives⟩

end Session

end Parley
