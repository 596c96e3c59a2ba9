import Parley.CommandLine
import Parley.Proofs.Counts

/-!
Every call is counted once, in the way in which it ended. A call in one piece is counted when it
returns, a streamed one when its stream has told how it ended; whoever makes the call sees the same.
So the counters are what all calls have counted together, however they take turns.

* `EventStream.next_counts`: a stream is counted when it has told how it ended;
* `CommandLine.call_counts`: what one call of the command line counts;
* `Thread.Tallied`: the counters, as the sum of what each thread has counted. It is kept when one
  of them goes on, and when all of them have ended.
-/
namespace Parley

variable {α β : Type}

/-- What something adds at its end, by the way in which it ends. -/
def Tally.ended : Except Failure α → Tally
  | .ok _ => success
  | .error _ => failure

/-! ### Streams -/

namespace EventStream

/-- What a stream adds when it ends well, if it has. -/
def tally : EventStream → Tally
  | .finished => .success
  | .unfinished _ => 0

/-- What a stream has added when it gives an answer. -/
def answerTally : Pulled × EventStream → Tally
  | (.event _, s) => s.tally
  | (.ended, _) => .success
  | (.failed _, _) => .failure

theorem finish_counts (o : OpenStream) (succeeded : Bool) :
    (finish o succeeded).Counts fun _ d => d = if succeeded then .success else .failure := by
  have counts : (do
      Job.count (if succeeded then Usage.addSuccess else Usage.addFailure)
      Job.note .closed : Job Unit).Counts fun _ d =>
        d = if succeeded then .success else .failure := by
    have noted (d : Tally) : (Job.note .closed).Counts fun _ d' => d + d' = d :=
      (Job.note_uncounted _).counts fun _ => add_zero d
    cases succeeded with
    | true => exact .count (fun _ => rfl) (noted .success)
    | false => exact .count (fun _ => rfl) (noted .failure)
  refine .after o.source.dispose_uncounted fun _ => .after (.change fun _ => rfl) fun _ => ?_
  refine .ite ?_ counts
  exact .after (Job.mark_uncounted _) fun _ => .after (.change fun _ => rfl) fun _ => counts

theorem create_counts (permit : Bool) (source : Source) (deadline startedAt : Instant) :
    (create permit source deadline startedAt).Counts fun s d => d = 0 ∧ s.tally = 0 := by
  refine .after (.take fun _ => rfl) fun lease => ?_
  exact .after (Job.count_uncounted fun _ => rfl) fun _ => .ret ⟨rfl, rfl⟩

theorem fail_counts (o : OpenStream) (f : Failure) :
    (fail o f).Counts fun r d => d = answerTally r := by
  refine .bind (finish_counts o false) fun _ d counted => .look fun w => ?_
  exact .ret ((add_zero d).trans counted)

/-- A stream ends with a success. -/
theorem succeeds_counts (o : OpenStream) :
    (do
      finish o true
      return (Pulled.ended, EventStream.finished)).Counts fun r d => d = answerTally r := by
  refine .bind (finish_counts o true) fun _ d counted => ?_
  exact .ret ((add_zero d).trans counted)

theorem close_counts (s : EventStream) : (close s).Counts fun _ d => s.tally + d = .success := by
  cases s with
  | finished => exact .ret (add_zero _)
  | unfinished o => exact (finish_counts o true).mono fun _ d counted => (zero_add d).trans counted

theorem deliver_uncounted (value : Json) (rest : EventStream) :
    (deliver value rest).Counts fun r d => d = 0 ∧ r = (.event value, rest) :=
  .after (Job.count_uncounted fun _ => rfl) fun _ => .ret ⟨rfl, rfl⟩

theorem refuse_uncounted (payloads : List Bytes) : (refuse payloads).Uncounted :=
  .bind (Job.count_uncounted fun _ => rfl) fun _ => .forM _ fun _ => Job.notice_uncounted _

theorem exhaust_counts (o : OpenStream) : (exhaust o).Counts fun r d => d = answerTally r := by
  refine .after (refuse_uncounted _) fun _ => ?_
  split
  · rename_i value _
    refine .bind (deliver_uncounted value .finished) fun answer d => ?_
    rintro ⟨rfl, rfl⟩
    refine .bind (finish_counts o true) fun _ d counted => ?_
    rw [if_pos rfl] at counted
    exact .ret (by rw [counted, add_zero, zero_add]; rfl)
  · exact succeeds_counts o

theorem drain_uncounted (deadline limit : Instant) (reads : Nat) (s : Source) :
    (drain deadline limit reads s).Uncounted := by
  induction reads generalizing s with
  | zero => exact .ret _
  | succ reads ih =>
    refine .look fun w => .ite (.ret _) (.bind (Job.mark_uncounted _) fun _ => ?_)
    refine .bind (s.read_uncounted _ _) ?_
    rintro ⟨f | _ | ⟨b, data⟩, s⟩
    · exact .ret _
    · exact .ret _
    · exact ih _

theorem complete_counts (o : OpenStream) : (complete o).Counts fun r d => d = answerTally r := by
  refine .look fun w => .after (drain_uncounted _ _ _ _) ?_
  rintro ⟨f | _, source⟩
  · cases f with
    | client e => exact .after (Job.notice_uncounted _) fun _ => succeeds_counts _
    | _ => exact fail_counts _ _
  · exact succeeds_counts _

theorem pull_counts (reads : Nat) (o : OpenStream) :
    (pull reads o).Counts fun r d => d = answerTally r := by
  induction reads generalizing o with
  | zero => exact exhaust_counts o
  | succ reads ih =>
    refine .after (refuse_uncounted _) fun _ => ?_
    split
    · exact complete_counts _
    · refine (deliver_uncounted _ _).mono ?_
      rintro _ _ ⟨rfl, rfl⟩
      rfl
    · refine .look fun w => .ite (fail_counts _ _) ?_
      refine .after (Job.mark_uncounted _) fun _ => .after (Source.read_uncounted _ _ _) ?_
      rintro ⟨f | _ | ⟨b, data⟩, source⟩
      · exact fail_counts _ _
      · exact exhaust_counts _
      · exact ih _

/-- Whatever a stream is asked, it has counted once when it has told how it ended. -/
theorem next_counts (s : EventStream) :
    (next s).Counts fun r d => s.tally + d = answerTally r := by
  cases s with
  | finished => exact .ret (add_zero _)
  | unfinished o => exact (pull_counts _ o).mono fun _ d counted => (zero_add d).trans counted

end EventStream

/-! ### Calls -/

namespace Client

/-- A call is counted when it begins, and once more if it fails. -/
theorem counted_counts {flow : Flow α} {post : Except Failure α → Tally → Prop}
    (goes : flow.Counts fun r d =>
      match r with
      | .ok a => post (.ok a) (.call + d)
      | .error f => post (.error f) (.call + (d + .failure))) :
    (counted flow).Counts post := by
  refine .count (d := .call) (fun _ => rfl) (.liftAfter (Job.note_uncounted _) fun _ => ?_)
  refine .onFailure goes (fun _ _ holds => holds) fun e d holds => ?_
  exact .count (d := .failure) (fun _ => rfl)
    ((Job.note_uncounted _).counts fun _ => by simpa only [add_zero] using holds)

section
variable {messages : List Message} (some : messages ≠ []) (deadline : Instant)
include some

/-- A call in one piece is counted when it returns. -/
theorem chat_counts :
    (chat messages deadline).Counts fun r d => d = .call + .ended r := by
  have filled : messages.isEmpty = false := List.isEmpty_eq_false_iff.mpr some
  have succeeds : (succeeding (chatAdmitted messages deadline)).Counts fun r d =>
      d = match r with | .ok _ => .success | .error _ => 0 := by
    refine .after (chatAdmitted_uncounted messages deadline) (fun completion => ?_) fun _ => rfl
    exact .count (d := .success) (fun _ => rfl) (.ret (add_zero _))
  rw [chat, filled]
  refine counted_counts ?_
  refine .after (obtainPermit_uncounted deadline) (fun _ => ?_) fun _ => ?_
  · refine .liftAfter (Job.note_uncounted _) fun _ => ?_
    refine .bind (.andAlways succeeds releasePermit_uncounted) (fun completion d counted => ?_) ?_
    · refine .liftAfter (Job.note_uncounted _) fun _ => .ret ?_
      rw [counted, add_zero]
      rfl
    · intro e d none
      rw [none, zero_add]
      rfl
  · rw [zero_add]
    rfl

/-- A streamed call is not counted as ended before its stream has told how it ended. -/
theorem stream_counts :
    (stream messages deadline).Counts fun r d =>
      d = .call + match r with | .ok (_, s) => s.tally | .error _ => .failure := by
  have filled : messages.isEmpty = false := List.isEmpty_eq_false_iff.mpr some
  have admitted : ((streamAdmitted messages deadline).onFailure releasePermit).Uncounted :=
    .onFailure (streamAdmitted_uncounted messages deadline) releasePermit_uncounted
  rw [stream, filled]
  refine counted_counts ?_
  refine .after (obtainPermit_uncounted deadline) (fun _ => ?_) fun _ => ?_
  · refine .liftAfter (Job.note_uncounted _) fun _ => .after admitted ?_ fun _ => ?_
    · rintro ⟨call, source⟩
      refine .liftBind (EventStream.create_counts true source deadline call.start) ?_
      rintro s _ ⟨rfl, unfinished⟩
      exact .liftAfter (Job.note_uncounted _) fun _ =>
        .ret (congrArg (Tally.call + ·) unfinished.symm)
    · rw [zero_add]
  · rw [zero_add]

end

end Client

namespace CommandLine

/-- Whether a result is shown by an entry. -/
def isShown : Except Failure Bytes → Bool
  | .ok _ | .error (.client _) => true
  | .error _ => false

/-- The texts of a stream are all there once it has told that it ended well. -/
theorem collect_counts (asks : Nat) (text : Bytes) (s : EventStream) :
    (collect asks text s).Counts fun r d => s.tally + d = .ended r := by
  induction asks generalizing text s with
  | zero =>
    refine .liftBind (EventStream.close_counts s) fun _ d counted => .ret ?_
    rw [add_zero]
    exact counted
  | succ asks ih =>
    refine .liftBind (EventStream.next_counts s) ?_
    rintro ⟨pulled, s'⟩ d counted
    cases pulled with
    | event value =>
      refine (ih _ s').mono fun r d' rest => ?_
      rw [← add_assoc, counted]
      exact rest
    | ended => exact .ret (by rw [add_zero]; exact counted)
    | failed f => exact .fail (by rw [add_zero]; exact counted)

/-- A call is counted once, in the way in which it ended. Only a failure that is no call's may come
after the call was counted as a success. -/
theorem call_counts (o : Options) :
    (call o).Counts fun r d => isShown r = true → d = .call + .ended r := by
  have some : [({ role := ascii "user", content := o.prompt } : Message)] ≠ [] :=
    List.cons_ne_nil _ _
  refine .look fun w => .ite ?_ ?_
  · refine .bind (Client.stream_counts some _) ?_ fun e d counted _ => counted
    rintro ⟨key, s⟩ d rfl
    cases s with
    | finished => exact .ret fun _ => add_zero _
    | unfinished stream =>
      refine (collect_counts _ [] (.unfinished stream)).mono fun r d counted _ => ?_
      rw [add_assoc, counted]
  · refine .bind (Client.chat_counts some _) (fun completion d counted => ?_)
      fun e d counted _ => counted
    have returned (text : Bytes) : (pure text : Flow Bytes).Counts fun r d' =>
        isShown r = true → d + d' = .call + .ended r :=
      .ret fun _ => (add_zero d).trans counted
    split
    · exact returned _
    · split
      · exact returned _
      · exact .fail nofun

end CommandLine

/-! ### Threads -/

namespace Thread

/-- What a thread has counted so far, and what becomes of it by its end. -/
def Counts (post : α → Tally → Prop) (own : Tally) : Thread α → Prop
  | unbegun job => job.Counts fun a d => post a (own + d)
  | waiting _ _ resume => ∀ w, (resume w).Counts w.tally fun a d => post a (own + d)
  | ended a => post a own

/-- The counters are what some threads have counted in all. -/
def Tallied (post : α → Tally → Prop) : List (Thread α) → Tally → Prop
  | [], total => total = 0
  | thread :: threads, total =>
    ∃ own rest, thread.Counts post own ∧ Tallied post threads rest ∧ total = own + rest

end Thread

variable {post : α → Tally → Prop} {own total : Tally}

theorem Strand.Counts.thread {s : Strand α} {before : Tally}
    (h : s.Counts before fun a d => post a (own + d)) :
    ∃ d, s.thread.2.tally = before + d ∧ s.thread.1.Counts post (own + d) := by
  cases s with
  | ends a w => exact h
  | waits t stop w resume =>
    obtain ⟨d, tally_eq, goes⟩ := h
    refine ⟨d, tally_eq, fun w' => ?_⟩
    simpa only [add_assoc] using goes w'

theorem Pause.quiet_tally (t : Instant) (stop : World → Bool) (w : World) :
    (Pause.quiet t stop w).tally = w.tally := by
  unfold Pause.quiet
  split <;> rfl

/-- If nothing happens during its waits, the counters tell what it counted. -/
theorem Strand.Counts.run {s : Strand α} {before : Tally} (h : s.Counts before post) :
    ∃ d, (s.run .quiet).2.tally = before + d ∧ post (s.run .quiet).1 d := by
  induction s generalizing before post with
  | ends a w => exact h
  | waits t stop w resume ih =>
    obtain ⟨d, tally_eq, goes⟩ := h
    obtain ⟨d', tally_eq', holds⟩ := ih _ (goes (Pause.quiet t stop w))
    refine ⟨d + d', ?_, holds⟩
    rw [Strand.run, tally_eq', Pause.quiet_tally, tally_eq, add_assoc]

namespace Thread

variable {thread : Thread α} {threads : List (Thread α)}

/-- Whatever it finds when it goes on, a thread adds what it counts itself. -/
theorem go_counts (w : World) (h : thread.Counts post own) :
    ∃ d, (thread.go w).2.tally = w.tally + d ∧ (thread.go w).1.Counts post (own + d) := by
  cases thread with
  | unbegun job => exact (h w).thread
  | waiting t stop resume =>
    rw [← Pause.quiet_tally t stop w]
    exact (h _).thread
  | ended a => exact ⟨0, (add_zero _).symm, (add_zero own).symm ▸ h⟩

theorem finish_counts (w : World) (h : thread.Counts post own) :
    ∃ d, (thread.finish w).2.tally = w.tally + d ∧ post (thread.finish w).1 (own + d) := by
  cases thread with
  | unbegun job => exact (h w).run
  | waiting t stop resume =>
    rw [← Pause.quiet_tally t stop w]
    exact (h _).run
  | ended a => exact ⟨0, (add_zero _).symm, (add_zero own).symm ▸ h⟩

theorem length_finishAll (threads : List (Thread α)) (w : World) :
    (finishAll threads w).1.length = threads.length := by
  induction threads generalizing w with
  | nil => rfl
  | cons thread threads ih => exact congrArg (· + 1) (ih _)

/-- Threads none of which has begun have counted nothing. -/
theorem tallied_replicate {job : Job α} (counts : job.Counts post) (n : Nat) :
    Tallied post (List.replicate n (.unbegun job)) 0 := by
  induction n with
  | zero => exact rfl
  | succ n ih =>
    refine ⟨0, 0, ?_, ih, (add_zero 0).symm⟩
    simpa only [Counts, zero_add] using counts

/-- What one thread counts comes to the sum. -/
theorem Tallied.go (tallied : Tallied post threads total) {index : Nat}
    (found : threads[index]? = some thread) (w : World) :
    ∃ d, (thread.go w).2.tally = w.tally + d ∧
      Tallied post (threads.set index (thread.go w).1) (total + d) := by
  induction threads generalizing index total with
  | nil => cases found
  | cons first threads ih =>
    obtain ⟨own, rest, counts, others, rfl⟩ := tallied
    cases index with
    | zero =>
      obtain rfl : first = thread := Option.some.inj found
      obtain ⟨d, tally_eq, counts⟩ := go_counts w counts
      exact ⟨d, tally_eq, own + d, rest, counts, others, add_right_comm own rest d⟩
    | succ index =>
      obtain ⟨d, tally_eq, others⟩ := ih others found
      exact ⟨d, tally_eq, own, rest + d, counts, others, add_assoc own rest d⟩

theorem Tallied.finishAll (tallied : Tallied post threads total) (w : World) :
    ∃ d, (finishAll threads w).2.tally = w.tally + d ∧
      Tallied post ((finishAll threads w).1.map ended) (total + d) := by
  induction threads generalizing w total with
  | nil => exact ⟨0, (add_zero _).symm, (add_zero total).trans tallied⟩
  | cons first threads ih =>
    obtain ⟨own, rest, counts, others, rfl⟩ := tallied
    obtain ⟨d, tally_eq, holds⟩ := finish_counts w counts
    obtain ⟨d', tally_eq', others⟩ := ih others (first.finish w).2
    refine ⟨d + d', ?_, own + d, rest + d', holds, others, add_add_add_comm own rest d d'⟩
    rw [Thread.finishAll, tally_eq', tally_eq, add_assoc]

end Thread

end Parley
