import Mathlib.Data.List.TakeWhile
import Parley.Proofs.Pool
import Parley.Proofs.Tally

/-!
The report of the command line. The calls are made at the same time, and what they come to is shown
as soon as it is there, in their order. The numbers of the report are those of the client, and the
entries are made from what the calls came to; the two agree, because each call is counted once, in
the way in which it ended.

* `Shown.Tells`: what is printed, as two lists of numbered entries;
* `Calls.Sound.steps`: what is shown and counted, however the calls take turns;
* `run_summarizes`: both together, unless a failure that is no call's ends everything.
-/
namespace Parley.CommandLine

/-! ### Entries -/

/-- The entry of a call that brought a text. -/
def textEntry (e : Nat × Bytes) : Bytes := label e.1 ++ e.2 ++ [0x0A]

/-- The entry of a call that failed. -/
def failureEntry (e : Nat × ClientError) : Bytes :=
  label e.1 ++ ascii "failed: " ++ e.2.message ++ ascii " (elapsed " ++ Bytes.ofInt e.2.elapsed ++
    ascii " ms)\n"

/-- The texts among the results, numbered from `number` on. -/
def texts : Nat → List (Except Failure Bytes) → List (Nat × Bytes)
  | _, [] => []
  | number, .ok text :: results => (number, text) :: texts (number + 1) results
  | number, .error _ :: results => texts (number + 1) results

/-- The failures of calls among the results, numbered in the same way. -/
def failures : Nat → List (Except Failure Bytes) → List (Nat × ClientError)
  | _, [] => []
  | number, .error (.client e) :: results => (number, e) :: failures (number + 1) results
  | number, _ :: results => failures (number + 1) results

variable {results : List (Except Failure Bytes)}

theorem texts_append (number : Nat) (results more : List (Except Failure Bytes)) :
    texts number (results ++ more) = texts number results ++ texts (number + results.length) more := by
  induction results generalizing number with
  | nil => rfl
  | cons result results ih =>
    cases result <;> simp [texts, ih, Nat.add_assoc, Nat.add_comm 1]

theorem failures_append (number : Nat) (results more : List (Except Failure Bytes)) :
    failures number (results ++ more) =
      failures number results ++ failures (number + results.length) more := by
  induction results generalizing number with
  | nil => rfl
  | cons result results ih =>
    rcases result with f | text
    · cases f <;> simp [failures, ih, Nat.add_assoc, Nat.add_comm 1]
    · simp [failures, ih, Nat.add_assoc, Nat.add_comm 1]

/-- Every number from `number` on has one entry, and those of each kind are in order. -/
structure Numbered (number : Nat) (results : List (Except Failure Bytes)) : Prop where
  once : ((texts number results).map (·.1) ++ (failures number results).map (·.1)).Perm
    (List.range' number results.length)
  texts_lt : ((texts number results).map (·.1)).Pairwise (· < ·)
  failures_lt : ((failures number results).map (·.1)).Pairwise (· < ·)

theorem texts_sublist (number : Nat) (results : List (Except Failure Bytes)) :
    ((texts number results).map (·.1)).Sublist (List.range' number results.length) := by
  induction results generalizing number with
  | nil => exact List.Sublist.refl _
  | cons result results ih =>
    cases result with
    | ok text => exact (ih (number + 1)).cons_cons number
    | error f => exact (ih (number + 1)).cons number

theorem failures_sublist (number : Nat) (results : List (Except Failure Bytes)) :
    ((failures number results).map (·.1)).Sublist (List.range' number results.length) := by
  induction results generalizing number with
  | nil => exact List.Sublist.refl _
  | cons result results ih =>
    rcases result with f | text
    · cases f with
      | client e => exact (ih (number + 1)).cons_cons number
      | _ => exact (ih (number + 1)).cons number
    · exact (ih (number + 1)).cons number

theorem numbered (number : Nat) (all : results.all isShown = true) : Numbered number results := by
  have increasing := List.pairwise_lt_range' (s := number) (n := results.length)
  constructor
  case texts_lt => exact increasing.sublist (texts_sublist ..)
  case failures_lt => exact increasing.sublist (failures_sublist ..)
  case once =>
    clear increasing
    induction results generalizing number with
    | nil => exact .nil
    | cons result results ih =>
      rcases result with f | text
      · cases f with
        | client e => exact List.perm_middle.trans ((ih (number + 1) all).cons number)
        | _ => cases all
      · exact (ih (number + 1) all).cons number

/-! ### What is shown -/

/-- What is put out on the standard error. -/
inductive Line where
  | notice (n : Notice)
  | failure (e : Nat × ClientError)

namespace Line

def text : Line → Bytes
  | notice n => n.text
  | failure e => failureEntry e

def failure? : Line → Option (Nat × ClientError)
  | notice _ => none
  | failure e => some e

theorem flatMap_notices (notices : List Notice) :
    (notices.map notice).flatMap text = told notices := by
  induction notices with
  | nil => rfl
  | cons n notices ih => exact congrArg (n.text ++ ·) ih

end Line

/-- The failures put out on the standard error, in order; notices may stand between them. -/
def Enters (stderr : Bytes) (entries : List (Nat × ClientError)) : Prop :=
  ∃ lines : List Line, stderr = lines.flatMap Line.text ∧ lines.filterMap Line.failure? = entries

theorem Enters.told {stderr : Bytes} {entries : List (Nat × ClientError)}
    (h : Enters stderr entries) (notices : List Notice) :
    Enters (stderr ++ told notices) entries := by
  obtain ⟨lines, rfl, rfl⟩ := h
  exact ⟨lines ++ notices.map .notice, by simp [Line.flatMap_notices], by simp [Line.failure?]⟩

theorem Enters.failure {stderr : Bytes} {entries : List (Nat × ClientError)}
    (h : Enters stderr entries) (e : Nat × ClientError) :
    Enters (stderr ++ failureEntry e) (entries ++ [e]) := by
  obtain ⟨lines, rfl, rfl⟩ := h
  exact ⟨lines ++ [.failure e], by simp [Line.text], by simp [Line.failure?]⟩

namespace Shown

/-- Some results have been shown, each by an entry. -/
structure Tells (s : Shown) (results : List (Except Failure Bytes)) : Prop where
  all : results.all isShown = true
  results_eq : s.results = results.length
  failed_eq : s.failed = (failures 1 results).length
  stdout_eq : s.stdout = (texts 1 results).flatMap textEntry
  stderr : Enters s.stderr (failures 1 results)

/-- The results there are have been shown, or some of them, if there is one that has no entry. -/
inductive Follows (s : Shown) (results : List (Except Failure Bytes)) : Prop where
  | all (going : s.fatal = none) (tells : s.Tells results)
  | some {f : Failure} {r : Except Failure Bytes} {shown : List (Except Failure Bytes)}
    (fatal : s.fatal = .some f) (tells : s.Tells shown) (member : r ∈ results)
    (hidden : isShown r = false)

variable {s : Shown}

theorem Tells.hear (tells : s.Tells results) (notices : List Notice) :
    (s.hear notices).Tells results :=
  { tells with stderr := tells.stderr.told _ }

theorem Tells.enter (tells : s.Tells results) {result : Except Failure Bytes}
    (shown : isShown result = true) : (s.enter result).Tells (results ++ [result]) := by
  have all : (results ++ [result]).all isShown = true := by simp [tells.all, shown]
  rcases result with f | text
  · cases f with
    | client e =>
      have entries : failures 1 (results ++ [.error (.client e)]) =
          failures 1 results ++ [(s.results + 1, e)] := by
        rw [failures_append, tells.results_eq, Nat.add_comm 1]
        rfl
      constructor
      case all => exact all
      case results_eq => simp [Shown.enter, tells.results_eq]
      case failed_eq => simp [Shown.enter, entries, tells.failed_eq]
      case stdout_eq => simpa [Shown.enter, texts_append, texts] using tells.stdout_eq
      case stderr =>
        rw [entries]
        simpa [Shown.enter, failureEntry] using tells.stderr.failure (s.results + 1, e)
    | _ => cases shown
  · have entries : texts 1 (results ++ [.ok text]) = texts 1 results ++ [(s.results + 1, text)] := by
      rw [texts_append, tells.results_eq, Nat.add_comm 1]
      rfl
    constructor
    case all => exact all
    case results_eq => simp [Shown.enter, tells.results_eq]
    case failed_eq => simpa [Shown.enter, failures_append, failures] using tells.failed_eq
    case stdout_eq => simp [Shown.enter, entries, textEntry, tells.stdout_eq]
    case stderr => simpa [Shown.enter, failures_append, failures] using tells.stderr

theorem next_fatal {f : Failure} (fatal : s.fatal = .some f) (notices : List Notice)
    (result : Except Failure Bytes) : s.next notices result = s := by
  rw [Shown.next, fatal, Option.isSome_some, if_pos rfl]

/-- One more result is shown, unless nothing more is. -/
theorem Follows.next (follows : s.Follows results) (notices : List Notice)
    (result : Except Failure Bytes) : (s.next notices result).Follows (results ++ [result]) := by
  cases follows with
  | some fatal tells member hidden =>
    rw [next_fatal fatal]
    exact .some fatal tells (List.mem_append_left _ member) hidden
  | all going tells =>
    have next_eq : s.next notices result = (s.hear notices).enter result := by
      rw [Shown.next, going, Option.isSome_none, if_neg Bool.false_ne_true]
    have heard := tells.hear notices
    have last : result ∈ results ++ [result] := List.mem_append_right _ (List.mem_singleton_self _)
    rw [next_eq]
    rcases result with f | text
    · cases f with
      | client e => exact .all going (heard.enter rfl)
      | _ => exact .some rfl { heard with } last rfl
    · exact .all going (heard.enter rfl)

theorem Follows.nexts (follows : s.Follows results) (notices : List Notice)
    (more : List (Except Failure Bytes)) :
    (more.foldl (Shown.next notices) s).Follows (results ++ more) := by
  induction more generalizing s results with
  | nil => simpa using follows
  | cons result more ih => simpa using ih (follows.next notices result)

theorem foldl_fatal {f : Failure} (fatal : s.fatal = .some f) (notices : List Notice)
    (more : List (Except Failure Bytes)) : more.foldl (Shown.next notices) s = s := by
  induction more with
  | nil => rfl
  | cons result more ih => rwa [List.foldl_cons, next_fatal fatal]

end Shown

/-! ### Calls that take turns -/

namespace Calls

/-- What the results of calls have been counted as. -/
abbrev Counted (r : Except Failure Bytes) (d : Tally) : Prop :=
  isShown r = true → d = .call + .ended r

/-- Calls that are being made: those that have ended have counted what they came to, and the results
of the first ones have been shown. -/
structure Sound (s : Calls) : Prop where
  tallied : Thread.Tallied Counted s.threads s.world.tally
  shown : ∃ results rest, s.threads = results.map .ended ++ rest ∧ s.shown.Follows results

variable {o : Options} {w : World} {s : Calls}

theorem start_sound (o : Options) (zero : w.tally = 0) : (start o w).Sound where
  tallied := zero ▸ Thread.tallied_replicate (call_counts o) _
  shown := ⟨[], _, rfl, .all rfl ⟨rfl, rfl, rfl, rfl, [], rfl, rfl⟩⟩

/-- A thread that has ended does not change any more, whichever of them goes on. -/
theorem exists_set {results : List (Except Failure Bytes)} {index : Nat}
    {rest : List (Thread (Except Failure Bytes))} {thread : Thread (Except Failure Bytes)}
    (found : (results.map Thread.ended ++ rest)[index]? = some thread) (w : World) :
    ∃ rest', (results.map Thread.ended ++ rest).set index (thread.go w).1 =
      results.map .ended ++ rest' := by
  induction results generalizing index with
  | nil => exact ⟨_, rfl⟩
  | cons result results ih =>
    cases index with
    | zero =>
      obtain rfl : Thread.ended result = thread := Option.some.inj found
      exact ⟨rest, rfl⟩
    | succ index =>
      obtain ⟨rest', set_eq⟩ := ih found
      exact ⟨rest', congrArg (Thread.ended result :: ·) set_eq⟩

/-- The next result is the one after those that were shown. -/
theorem next_shown {results : List (Except Failure Bytes)} {result : Except Failure Bytes}
    {rest : List (Thread (Except Failure Bytes))}
    (threads_eq : s.threads = results.map .ended ++ rest) (follows : s.shown.Follows results)
    (found : s.threads[s.shown.results]? = some (.ended result)) :
    ∃ results rest, s.threads = results.map .ended ++ rest ∧
      (s.shown.next s.world.notices result).Follows results := by
  have shown_next := follows.next s.world.notices result
  cases follows with
  | some fatal tells member hidden =>
    rw [Shown.next_fatal fatal]
    exact ⟨results, rest, threads_eq, .some fatal tells member hidden⟩
  | all going tells =>
    rw [threads_eq, tells.results_eq, ← List.length_map Thread.ended,
      List.getElem?_append_right (Nat.le_refl _), Nat.sub_self] at found
    cases rest with
    | nil => cases found
    | cons first rest =>
      obtain rfl : first = .ended result := Option.some.inj found
      exact ⟨results ++ [result], rest, by simp [threads_eq], shown_next⟩

/-- Whatever happens next, what is shown and what is counted stays right. -/
theorem Sound.step (sound : s.Sound) (choice : Choice) : (s.step choice).Sound := by
  obtain ⟨tallied, results, rest, threads_eq, follows⟩ := sound
  cases choice with
  | elapse t => exact ⟨tallied, results, rest, threads_eq, follows⟩
  | call index =>
    simp only [Calls.step]
    split
    · rename_i thread found
      obtain ⟨d, tally_eq, counted⟩ := tallied.go found s.world
      rw [threads_eq] at found
      obtain ⟨rest', set_eq⟩ := exists_set found s.world
      rw [← threads_eq] at set_eq
      exact ⟨tally_eq ▸ counted, results, rest', set_eq, follows⟩
    · exact ⟨tallied, results, rest, threads_eq, follows⟩
  | result =>
    simp only [Calls.step]
    split
    · rename_i result found
      exact ⟨tallied, next_shown threads_eq follows found⟩
    · exact ⟨tallied, results, rest, threads_eq, follows⟩

@[simp] theorem length_step (s : Calls) (choice : Choice) :
    (s.step choice).threads.length = s.threads.length := by
  cases choice with
  | elapse t => rfl
  | call index =>
    simp only [Calls.step]
    split
    · exact List.length_set
    · rfl
  | result =>
    simp only [Calls.step]
    split <;> rfl

theorem length_steps (s : Calls) (choices : List Choice) :
    (s.steps choices).threads.length = s.threads.length := by
  induction choices generalizing s with
  | nil => rfl
  | cons choice choices ih => exact (ih _).trans (length_step s choice)

theorem Sound.steps (sound : s.Sound) (choices : List Choice) : (s.steps choices).Sound := by
  induction choices generalizing s with
  | nil => exact sound
  | cons choice choices ih => exact ih (sound.step choice)

/-- What the calls come to in the end begins with what they have come to already. -/
theorem exists_finishAll (results : List (Except Failure Bytes))
    (rest : List (Thread (Except Failure Bytes))) (w : World) :
    ∃ more, (Thread.finishAll (results.map .ended ++ rest) w).1 = results ++ more := by
  induction results with
  | nil => exact ⟨_, rfl⟩
  | cons result results ih =>
    obtain ⟨more, finish_eq⟩ := ih
    exact ⟨more, congrArg (result :: ·) finish_eq⟩

/-- In the end everything is shown, up to the first result that has no entry. -/
theorem Sound.showAll (sound : s.Sound) (notices : List Notice) :
    (s.showAll s.finish.1 notices).Follows s.finish.1 := by
  obtain ⟨results, rest, threads_eq, follows⟩ := sound.shown
  obtain ⟨more, finish_eq⟩ := exists_finishAll results rest s.world
  rw [← threads_eq] at finish_eq
  rw [Calls.showAll, finish, finish_eq]
  cases follows with
  | some fatal tells member hidden =>
    rw [Shown.foldl_fatal fatal]
    exact .some fatal tells (List.mem_append_left _ member) hidden
  | all going tells =>
    rw [tells.results_eq, List.drop_left]
    exact Shown.Follows.nexts (.all going tells) notices more

/-- The counters say how many calls there were, and how many entries of each kind. -/
theorem tally_eq_of_tallied {total : Tally}
    (tallied : Thread.Tallied Counted (results.map .ended) total)
    (all : results.all isShown = true) (number : Nat) :
    total = ⟨results.length, (texts number results).length, (failures number results).length⟩ := by
  induction results generalizing total number with
  | nil => exact tallied
  | cons result results ih =>
    obtain ⟨own, rest, counted, others, rfl⟩ := tallied
    rw [List.all_cons, Bool.and_eq_true] at all
    obtain rfl := counted all.1
    obtain rfl := ih others all.2 (number + 1)
    rcases result with f | text
    · cases f with
      | client e => exact Tally.ext (Nat.add_comm ..) (Nat.zero_add _) (Nat.add_comm ..)
      | _ => cases all.1
    · exact Tally.ext (Nat.add_comm ..) (Nat.add_comm ..) (Nat.zero_add _)

end Calls

/-! ### The report -/

/-- What the command line puts out with a report. -/
structure Summarizes (o : Options) (results : List (Except Failure Bytes)) (client : ClientState)
    (out : Output) : Prop where
  length_eq : (results.length : Int) = o.requests
  numbered : Numbered 1 results
  stdout_eq : out.stdout = banner o ++ (texts 1 results).flatMap textEntry ++ report client
  stderr : Enters out.stderr (failures 1 results)
  totalCalls_eq : (client.usage.totalCalls : Int) = o.requests
  succeeded_eq : client.usage.successfulCalls = (texts 1 results).length
  failedCalls_eq : client.usage.failedCalls = (failures 1 results).length
  ended_eq : client.usage.successfulCalls + client.usage.failedCalls = client.usage.totalCalls
  exitCode_eq : out.exitCode = if 0 < client.usage.failedCalls then 2 else 0

/-- What the command line puts out when there is no report: it breaks off after some entries. -/
def Aborts (o : Options) (out : Output) : Prop :=
  out.exitCode = 1 ∧ ∃ (entries : List (Nat × Bytes)) (before message : Bytes),
    out.stdout = banner o ++ entries.flatMap textEntry ∧
      out.stderr = before ++ ascii "Fatal error: " ++ message ++ [0x0A]

theorem aborts_fatal (o : Options) (entries : List (Nat × Bytes)) (stderr message : Bytes)
    (world : Option World) :
    Aborts o (fatal (banner o ++ entries.flatMap textEntry) stderr message world) :=
  ⟨rfl, entries, stderr, message, rfl, rfl⟩

/-- Nothing is shown before the first call. -/
theorem aborts_atOnce (o : Options) (stderr message : Bytes) (world : Option World) :
    Aborts o (fatal (banner o) stderr message world) := by
  simpa using aborts_fatal o [] stderr message world

/-- Everything is shown and the report says the same, unless there is a result that has no entry. -/
theorem Calls.Sound.output {o : Options} {s : Calls} (sound : s.Sound)
    (length_eq : (s.finish.1.length : Int) = o.requests) :
    (Aborts o (s.output o) ∧ ∃ r ∈ s.finish.1, isShown r = false) ∨
      Summarizes o s.finish.1 s.finish.2.client (s.output o) := by
  obtain ⟨d, tally_eq, tallied⟩ := sound.tallied.finishAll s.world
  rw [← tally_eq] at tallied
  unfold Calls.output
  cases sound.showAll s.finish.2.notices with
  | some fatal tells member hidden =>
    refine .inl ⟨?_, _, member, hidden⟩
    simp only [fatal, tells.stdout_eq]
    exact aborts_fatal ..
  | all going tells =>
    have counted := Calls.tally_eq_of_tallied tallied tells.all 1
    have total : s.finish.2.client.usage.totalCalls = s.finish.1.length :=
      congrArg Tally.begun counted
    have succeeded : s.finish.2.client.usage.successfulCalls = (texts 1 s.finish.1).length :=
      congrArg Tally.succeeded counted
    have failed : s.finish.2.client.usage.failedCalls = (failures 1 s.finish.1).length :=
      congrArg Tally.failed counted
    have entries : (texts 1 s.finish.1).length + (failures 1 s.finish.1).length =
        s.finish.1.length := by
      simpa using (numbered 1 tells.all).once.length_eq
    right
    simp only [going]
    constructor
    case length_eq => exact length_eq
    case numbered => exact numbered 1 tells.all
    case stdout_eq => rw [tells.stdout_eq]
    case stderr => exact tells.stderr.told _
    case totalCalls_eq => rw [total, length_eq]
    case succeeded_eq => exact succeeded
    case failedCalls_eq => exact failed
    case ended_eq => rw [succeeded, failed, total, entries]
    case exitCode_eq =>
      rw [failed, ← tells.failed_eq]
      cases (s.showAll s.finish.1 s.finish.2.notices).failed <;> simp

theorem ofClient_tally {c : Config} {chance : UInt64} {script : Script} {w : World}
    (begun : World.ofClient c chance script = .ok w) : w.tally = 0 := by
  obtain ⟨url, -, rfl⟩ := World.ofClient_eq begun
  rfl

/-- What the calls come to, and the world they leave, when they take turns in this way. -/
def ends (o : Options) (choices : List Choice) (w : World) :
    List (Except Failure Bytes) × World :=
  ((Calls.start o w).steps choices).finish

/-- However the calls take turns, there is a report unless the client cannot be made, the number of
calls is negative, or a call comes to something that is neither a text nor a failure of calls. What
the report says is right: the calls are all those that were asked for, each has one entry, and those
that failed are those that are shown to have failed. -/
theorem run_summarizes {arguments : List Bytes} {o : Options} (parsed : parse arguments = .ok o)
    (script : Script) (chance : UInt64) (choices : List Choice) :
    (Aborts o (run arguments script chance choices) ∧
        ∀ w, World.ofClient o.config chance script = .ok w → 0 ≤ o.requests →
          ∃ r ∈ (ends o choices w).1, isShown r = false) ∨
      ∃ w, World.ofClient o.config chance script = .ok w ∧
        Summarizes o (ends o choices w).1 (ends o choices w).2.client
          (run arguments script chance choices) := by
  have run_eq : run arguments script chance choices = runWith o script chance choices := by
    rw [run, parsed]
  rw [run_eq, runWith]
  cases begun : World.ofClient o.config chance script with
  | error e =>
    refine .inl ⟨aborts_atOnce .., ?_⟩
    rintro _ ⟨⟩
  | ok w =>
    simp only
    split
    · rename_i negative
      refine .inl ⟨aborts_atOnce .., fun _ _ nonneg => ?_⟩
      exact absurd nonneg (Int.not_le.mpr negative)
    · rename_i nonneg
      have sound := (Calls.start_sound o (ofClient_tally begun)).steps choices
      have length_eq : (ends o choices w).1.length = o.requests.toNat := by
        simp only [ends, Calls.finish, Thread.length_finishAll, Calls.length_steps, Calls.start,
          List.length_replicate]
      have all_made : ((ends o choices w).1.length : Int) = o.requests := by
        rw [length_eq, Int.toNat_of_nonneg (Int.not_lt.mp nonneg)]
      rcases sound.output all_made with ⟨aborts, hidden⟩ | summarizes
      · refine .inl ⟨aborts, ?_⟩
        rintro _ ⟨⟩ _
        exact hidden
      · exact .inr ⟨w, rfl, summarizes⟩

/-- Two calls begin at once, and only one of them may be made at a time. The other one has to wait
for its end, and then too little of its time is left. -/
theorem run_summarizes_overlapping :
    let arguments : List Bytes := [
      ascii "--requests", ascii "2", ascii "--max-concurrent", ascii "1",
      ascii "--timeout-ms", ascii "40", ascii "--retries", ascii "1"]
    let o : Options := {
      config := { clientTag := ascii "cli", maxConcurrent := 1, timeout := 40, retryAttempts := 1 }
      requests := 2 }
    let slow : Exchange := { Exchange.plain with head := { delay := 30000000 } }
    let script : Script := { overWire := true, exchanges := [slow, slow] }
    let choices : List Choice := [.call 0, .call 1]
    parse arguments = .ok o ∧ (run arguments script 1 choices).exitCode = 2 ∧
      (run arguments script 1).exitCode = 0 ∧
      ∃ w, World.ofClient o.config 1 script = .ok w ∧
        (texts 1 (ends o choices w).1).map (·.1) = [1] ∧
        (failures 1 (ends o choices w).1).map (·.1) = [2] ∧
        Summarizes o (ends o choices w).1 (ends o choices w).2.client
          (run arguments script 1 choices) := by
  intro arguments o slow script choices
  have parsed : parse arguments = .ok o := by decide +kernel
  have exitCode : (run arguments script 1 choices).exitCode = 2 := by decide +kernel
  have inTurn : (run arguments script 1).exitCode = 0 := by decide +kernel
  rcases run_summarizes parsed script 1 choices with ⟨⟨aborted, -⟩, -⟩ | ⟨w, begun, summarizes⟩
  · exact absurd (exitCode.symm.trans aborted) (by decide)
  · let v : World := {
      config := o.config, target := chatPath, client := .ofConfig o.config 1, chance := .ofSeed 1
      script }
    have made : World.ofClient o.config 1 script = .ok v := by rfl
    obtain rfl : v = w := Except.ok.inj (made.symm.trans begun)
    have entries : (texts 1 (ends o choices v).1).map (·.1) = [1] := by decide +kernel
    have failed : (failures 1 (ends o choices v).1).map (·.1) = [2] := by decide +kernel
    exact ⟨parsed, exitCode, inTurn, v, begun, entries, failed, summarizes⟩

end Parley.CommandLine
