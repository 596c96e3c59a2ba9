import Parley.Proofs.Payloads

/-!
A line buffer that is filled, read and compacted in any order.

* `search_stops`: a search stops at the beginning of a line;
* `Feed`, `Feed.run`: a line buffer that was empty at first, with all that has been appended to it
  and taken from it;
* `Placed`, `Placed.step`, `run_placed`: what has been looked at ends with a line, and what has been
  taken are the payloads of it;
* `Feed.run_extracts`: the payloads taken are the first ones of the complete lines appended, none is
  given exactly when none is left, and flushes give the rest, one each, the last line included.
-/
namespace Parley

namespace EventLines

/-- A text whose last line, if it has any, is complete: what comes after it begins a line. -/
def EndsLine (text : Bytes) : Prop := text = [] ∨ text.getLast? = some newline

theorem EndsLine.append {text more : Bytes} (h : EndsLine text) (h' : EndsLine more) :
    EndsLine (text ++ more) := by
  rcases h' with rfl | last
  · simpa using h
  · exact .inr (by rw [List.getLast?_append, last, Option.some_or])

theorem endsLine_newline (line : Bytes) : EndsLine (line ++ [newline]) :=
  .inr List.getLast?_concat

/-- What follows the last newline of a text. -/
def lastLine (text : Bytes) : Bytes := ((text.splitOn newline).getLast?).getD []

/-- A body has the payloads of its complete lines, and that of its last line if it carries one. -/
theorem payloads_eq_complete (body : Bytes) :
    payloads body = completePayloads body ++ (payload? (lastLine body)).toList := by
  have lines : body.splitOn newline ≠ [] := List.splitOn_ne_nil _ _
  have last : lastLine body = (body.splitOn newline).getLast lines := by
    rw [lastLine, List.getLast?_eq_some_getLast lines, Option.getD_some]
  rw [payloads_eq_filterMap, completePayloads_eq_filterMap, last]
  conv_lhs => rw [← List.dropLast_append_getLast lines]
  rw [List.filterMap_append]
  cases hp : payload? ((body.splitOn newline).getLast lines) <;> simp [hp]

variable {α : Type}

/-- A search goes forward by whole lines. -/
theorem search_stops (accept : Bytes → Option α) (text : Bytes) :
    ∀ (consumed : Nat) (refused : List Bytes) (line : Bytes), newline ∉ line →
      ∃ count, (search accept consumed refused line text).consumed = consumed + count ∧
        EndsLine ((line.reverse ++ text).take count) := by
  induction text with
  | nil =>
    intro consumed refused line _
    exact ⟨0, rfl, .inl rfl⟩
  | cons b text ih =>
    intro consumed refused line h
    by_cases hb : b = newline
    · subst hb
      have cut (count : Nat) : (line.reverse ++ newline :: text).take (line.length + 1 + count) =
          line.reverse ++ [newline] ++ text.take count := by
        have length_eq : line.length + 1 = (line.reverse ++ [newline]).length := by simp
        rw [List.append_cons, length_eq, List.take_length_add_append]
      rw [search_newline]
      cases (payload? line.reverse).bind accept with
      | some a =>
        refine ⟨line.length + 1 + 0, rfl, ?_⟩
        rw [cut, List.take_zero, List.append_nil]
        exact endsLine_newline _
      | none =>
        obtain ⟨count, looked, ends⟩ :=
          ih (consumed + line.length + 1) ((payload? line.reverse).toList ++ refused) [] (by simp)
        refine ⟨line.length + 1 + count, by rw [looked]; omega, ?_⟩
        rw [cut]
        exact (endsLine_newline _).append ends
    · have h' : newline ∉ b :: line := by
        simp only [List.mem_cons, not_or]
        exact ⟨Ne.symm hb, h⟩
      obtain ⟨count, looked, ends⟩ := ih consumed refused (b :: line) h'
      refine ⟨count, ?_, by simpa using ends⟩
      rw [search_other accept consumed refused line text hb, looked]

end EventLines

namespace LineBuffer

open EventLines

variable {α : Type}

/-- What a search through a buffer divides off are whole lines. -/
theorem next_divides_lines (accept : Bytes → Option α) (b : LineBuffer) :
    ∃ passed hit seen rest, Divides accept b.unread passed hit seen rest ∧ EndsLine seen ∧
      b.next accept = ⟨hit.bind accept, passed, b.consumed + seen.length⟩ ∧
      b.bytes.drop (b.consumed + seen.length) = rest := by
  obtain ⟨passed, hit, seen, rest, d, found, left⟩ := b.next_divides accept
  obtain ⟨count, looked, ends⟩ := search_stops accept b.unread b.consumed [] [] (by simp)
  have count_eq : b.consumed + seen.length = b.consumed + count := by
    rw [← looked]
    exact (congrArg Found.consumed found).symm
  rw [← Nat.add_left_cancel count_eq, d.covers] at ends
  refine ⟨passed, hit, seen, rest, d, ?_, found, left⟩
  simpa using ends

/-- A search that can use any payload passes over none. -/
theorem next_some_divides (b : LineBuffer) :
    ∃ hit seen rest, Divides some b.unread [] hit seen rest ∧ EndsLine seen ∧
      b.next some = ⟨hit, [], b.consumed + seen.length⟩ ∧
      b.bytes.drop (b.consumed + seen.length) = rest := by
  obtain ⟨passed, hit, seen, rest, d, ends, found, left⟩ := b.next_divides_lines some
  obtain rfl : passed = [] :=
    List.eq_nil_iff_forall_not_mem.mpr fun q member => Option.some_ne_none q (d.useless q member)
  exact ⟨hit, seen, rest, d, ends, by rw [found, Option.bind_fun_some], left⟩

/-- The bytes that an act brings in. -/
def Act.data : Act → Bytes
  | .append data => data
  | _ => []

/-- Whether an act leaves an unfinished line alone. -/
def Act.isPatient : Act → Bool
  | .flush | .drainFlush => false
  | _ => true

/-- A line buffer with all that has been appended to it and taken from it since it was empty. -/
structure Feed where
  buffer : LineBuffer := {}
  appended : Bytes := []
  taken : List Bytes := []

namespace Feed

def step (f : Feed) (act : Act) : Feed where
  buffer := (f.buffer.step act).2
  appended := f.appended ++ act.data
  taken := f.taken ++ (f.buffer.step act).1

def run (f : Feed) (acts : List Act) : Feed := acts.foldl step f

@[simp] theorem run_nil (f : Feed) : f.run [] = f := rfl

@[simp] theorem run_cons (f : Feed) (act : Act) (acts : List Act) :
    f.run (act :: acts) = (f.step act).run acts := rfl

/-- The buffer is the end of what was appended; of this, a number of whole lines has been looked at,
and what was taken are the payloads of these lines. -/
structure Placed (f : Feed) : Prop where
  consumed_le : f.buffer.consumed ≤ f.buffer.bytes.length
  place : ∃ dropped, f.appended = dropped ++ f.buffer.bytes ∧
    EndsLine (dropped ++ f.buffer.bytes.take f.buffer.consumed)
  complete_eq : ∀ tail, completePayloads (f.appended ++ tail) =
    f.taken ++ completePayloads (f.buffer.unread ++ tail)
  payloads_eq : ∀ tail, payloads (f.appended ++ tail) =
    f.taken ++ payloads (f.buffer.unread ++ tail)

namespace Placed

theorem empty : Placed {} where
  consumed_le := Nat.le_refl 0
  place := ⟨[], rfl, .inl rfl⟩
  complete_eq _ := rfl
  payloads_eq _ := rfl

variable {f : Feed}

theorem append (p : Placed f) (data : Bytes) : Placed (f.step (.append data)) where
  consumed_le := by
    have within := p.consumed_le
    simp only [step, LineBuffer.step, LineBuffer.append, List.length_append]
    omega
  place := by
    obtain ⟨dropped, whole, ends⟩ := p.place
    refine ⟨dropped, ?_, ?_⟩
    · simp [step, LineBuffer.step, LineBuffer.append, Act.data, whole]
    · simpa [step, LineBuffer.step, LineBuffer.append,
        List.take_append_of_le_length p.consumed_le] using ends
  complete_eq tail := by
    simpa [step, LineBuffer.step, LineBuffer.append, Act.data, unread,
      List.drop_append_of_le_length p.consumed_le] using p.complete_eq (data ++ tail)
  payloads_eq tail := by
    simpa [step, LineBuffer.step, LineBuffer.append, Act.data, unread,
      List.drop_append_of_le_length p.consumed_le] using p.payloads_eq (data ++ tail)

theorem compact (p : Placed f) : Placed (f.step .compact) where
  consumed_le := Nat.zero_le _
  place := by
    obtain ⟨dropped, whole, ends⟩ := p.place
    refine ⟨dropped ++ f.buffer.bytes.take f.buffer.consumed, ?_, ?_⟩
    · simp [step, LineBuffer.step, LineBuffer.compact, Act.data, whole]
    · simpa [step, LineBuffer.step, LineBuffer.compact] using ends
  complete_eq tail := by
    simpa [step, LineBuffer.step, Act.data] using p.complete_eq tail
  payloads_eq tail := by
    simpa [step, LineBuffer.step, Act.data] using p.payloads_eq tail

/-- A search takes with it what it divides off. -/
theorem look (p : Placed f) {accept : Bytes → Option α} {passed : List Bytes} {hit : Option Bytes}
    {seen rest : Bytes} (d : Divides accept f.buffer.unread passed hit seen rest)
    (ends : EndsLine seen) (left : f.buffer.bytes.drop (f.buffer.consumed + seen.length) = rest) :
    Placed { buffer := { f.buffer with consumed := f.buffer.consumed + seen.length },
             appended := f.appended, taken := f.taken ++ (passed ++ hit.toList) } where
  consumed_le := by
    have within := p.consumed_le
    have length_eq := congrArg List.length d.covers
    simp only [unread, List.length_drop, List.length_append] at length_eq ⊢
    omega
  place := by
    obtain ⟨dropped, whole, before⟩ := p.place
    refine ⟨dropped, whole, ?_⟩
    have covers : f.buffer.bytes.drop f.buffer.consumed = seen ++ rest := d.covers
    rw [List.take_add, covers, List.take_left, ← List.append_assoc]
    exact before.append ends
  complete_eq tail := by
    rw [p.complete_eq, d.complete_eq, unread, left]
    simp only [List.append_assoc]
  payloads_eq tail := by
    rw [p.payloads_eq, d.payloads_eq, unread, left]
    simp only [List.append_assoc]

theorem next (p : Placed f) : Placed (f.step .next) := by
  obtain ⟨hit, seen, rest, d, ends, found, left⟩ := f.buffer.next_some_divides
  simpa [step, LineBuffer.step, Act.data, found] using p.look d ends left

theorem drain (p : Placed f) : Placed (f.step .drain) := by
  obtain ⟨passed, hit, seen, rest, d, ends, found, left⟩ :=
    f.buffer.next_divides_lines fun _ => (none : Option Unit)
  have hit_eq : hit = none := d.none_of_bind (Option.bind_eq_none_iff.mpr fun _ _ => rfl)
  simpa [step, LineBuffer.step, Act.data, found, hit_eq] using p.look d ends left

theorem step (p : Placed f) {act : Act} (patient : act.isPatient) : Placed (f.step act) := by
  cases act with
  | append data => exact p.append data
  | compact => exact p.compact
  | next => exact p.next
  | drain => exact p.drain
  | flush | drainFlush => exact absurd patient Bool.false_ne_true

end Placed

theorem run_placed {f : Feed} (p : Placed f) {acts : List Act}
    (patient : ∀ act ∈ acts, act.isPatient) : Placed (f.run acts) := by
  induction acts generalizing f with
  | nil => exact p
  | cons act acts ih =>
    exact ih (p.step (patient act List.mem_cons_self))
      fun act' member => patient act' (List.mem_cons_of_mem act member)

end Feed

/-- A flush takes the first payload that is left, and leaves the others. -/
theorem flush_takes (b : LineBuffer) :
    (b.step .flush).1 = (payloads b.unread).take 1 ∧
      payloads (b.step .flush).2.unread = (payloads b.unread).drop 1 := by
  obtain ⟨hit, seen, rest, d, -, found, left⟩ := b.next_some_divides
  have whole : payloads b.unread = hit.toList ++ payloads rest := by simpa using d.payloads_eq []
  rw [whole]
  cases hit with
  | some q => simp [LineBuffer.step, flush, found, unread, left]
  | none =>
    have last : payloads rest = (payload? rest).toList := payloads_last (d.exhausted rfl)
    have bound : b.bytes.length ≤ b.consumed + seen.length ↔ rest = [] := by
      rw [← left, List.drop_eq_nil_iff]
    by_cases looked : rest = []
    · simp [LineBuffer.step, flush, found, unread, left, looked, bound]
    · rw [last]
      cases hp : payload? rest <;>
        simp [LineBuffer.step, flush, found, unread, left, looked, bound, hp]

namespace Feed

/-- Flushes take the payloads that are left, one each. -/
theorem run_flushes (f : Feed) (n : Nat) :
    (f.run (List.replicate n .flush)).taken =
      f.taken ++ (payloads f.buffer.unread).take n := by
  induction n generalizing f with
  | zero => simp
  | succ n ih =>
    obtain ⟨first, others⟩ := f.buffer.flush_takes
    rw [List.replicate_succ, run_cons, ih, Nat.add_comm, List.take_add, ← others, ← first,
      ← List.append_assoc]
    rfl

/-- What has been taken from a line buffer, and what can still be taken. -/
structure Extracts (f : Feed) : Prop where
  consumed_le : f.buffer.consumed ≤ f.buffer.bytes.length
  /-- The bytes that have not been looked at are the end of what was appended, from the beginning of
  a line on. -/
  place : ∃ dropped, f.appended = dropped ++ f.buffer.bytes ∧
    EndsLine (f.appended.take (dropped.length + f.buffer.consumed)) ∧
    f.buffer.bytes.drop f.buffer.consumed = f.appended.drop (dropped.length + f.buffer.consumed)
  taken_first : f.taken <+: completePayloads f.appended
  next_eq_none : (f.buffer.next some).payload = none ↔ f.taken = completePayloads f.appended
  flushed : ∀ n, (f.run (List.replicate n .flush)).taken =
    (completePayloads f.appended ++ (payload? (lastLine f.appended)).toList).take
      (f.taken.length + n)

/-- The next payload is missing exactly when no complete line has one. -/
theorem next_eq_none_iff (b : LineBuffer) :
    (b.next some).payload = none ↔ completePayloads b.unread = [] := by
  obtain ⟨hit, seen, rest, d, -, found, -⟩ := b.next_some_divides
  have complete : completePayloads b.unread = hit.toList ++ completePayloads rest := by
    simpa using d.complete_eq []
  cases hit with
  | some q => simp [found, complete]
  | none => simp [found, complete, completePayloads_last (d.exhausted rfl)]

/-- Whatever is appended, taken and dropped, and in whatever order: the payloads are taken one after
the other as they stand in what was appended, and none of them is lost or taken twice. -/
theorem run_extracts {acts : List Act} (patient : ∀ act ∈ acts, act.isPatient) :
    Extracts (run {} acts) := by
  have placed : Placed (run {} acts) := run_placed .empty patient
  generalize run {} acts = f at placed
  have complete : completePayloads f.appended = f.taken ++ completePayloads f.buffer.unread := by
    simpa using placed.complete_eq []
  have whole : payloads f.appended = f.taken ++ payloads f.buffer.unread := by
    simpa using placed.payloads_eq []
  refine ⟨placed.consumed_le, ?_, ?_, ?_, fun n => ?_⟩
  · obtain ⟨dropped, appended_eq, ends⟩ := placed.place
    refine ⟨dropped, appended_eq, ?_, ?_⟩
    · rwa [appended_eq, List.take_length_add_append]
    · rw [appended_eq, List.drop_length_add_append]
  · rw [complete]
    exact List.prefix_append ..
  · rw [next_eq_none_iff, complete, List.self_eq_append_right]
  · rw [run_flushes, ← payloads_eq_complete, whole, List.take_length_add_append]

theorem run_extracts_cut :
    let acts : List Act := [.append (ascii "data: a\r"), .next, .append (ascii "\n:b\ndata: c\nda"),
      .next, .compact, .append (ascii "ta: d\r"), .next]
    (∀ act ∈ acts, act.isPatient) ∧ Extracts (run {} acts) ∧
      (run {} acts).taken = [ascii "a", ascii "c"] :=
  ⟨by decide, run_extracts (by decide), by decide +kernel⟩

end Feed

end LineBuffer

end Parley
