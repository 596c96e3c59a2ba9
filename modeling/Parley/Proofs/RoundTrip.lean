import Mathlib.Tactic.IntervalCases
import Parley.Proofs.Texts

/-!
What was written is read back. A reader that has come to the end of a value's text is where it would
be if the value had been handed to it whole, whatever follows the text. Doubles are left out: they
are written in another form than they are read from.

* `Reader.finish_string`: a string, escape by escape;
* `Reader.finish_int`: an integer, which ends where something else begins;
* `parse_write`: every other value, by what it is made of.
-/
namespace Parley

namespace Bytes

variable {s t : Bytes}

theorem before_irrefl (s : Bytes) : before s s = false := by
  induction s with
  | nil => rfl
  | cons b s ih => simp [before, ih]

theorem before_asymm (h : before s t = true) : before t s = false := by
  induction s generalizing t with
  | nil =>
    cases t with
    | nil => cases h
    | cons b t => rfl
  | cons a s ih =>
    cases t with
    | nil => cases h
    | cons b t =>
      simp only [before, Bool.or_eq_true, Bool.and_eq_true, decide_eq_true_eq, beq_iff_eq,
        Bool.or_eq_false_iff, decide_eq_false_iff_not] at h ⊢
      rcases h with less | ⟨rfl, less⟩
      · refine ⟨UInt8.not_lt.mpr (UInt8.le_of_lt less), ?_⟩
        simp [UInt8.ne_of_lt less |>.symm]
      · simp [ih less]

end Bytes

namespace Table

variable {α : Type}

/-- What is put in with the greatest key comes last. -/
theorem insert_last {t : Table α} {key : Bytes} (value : α)
    (last : ∀ e ∈ t, e.1.before key = true) : t.insert key value = t ++ [(key, value)] := by
  have absent : t.get? key = none ∧ t.place key value = t ++ [(key, value)] := by
    induction t with
    | nil => exact ⟨rfl, rfl⟩
    | cons e t ih =>
      obtain ⟨k, a⟩ := e
      have before : k.before key = true := last _ (List.mem_cons_self ..)
      obtain ⟨absent, placed⟩ := ih fun e member => last e (List.mem_cons_of_mem _ member)
      have other : k ≠ key := by
        rintro rfl
        exact Bool.false_ne_true ((Bytes.before_irrefl k).symm.trans before)
      constructor
      · rw [get?, if_neg other, absent]
      · rw [place, if_neg (by simp [Bytes.before_asymm before]), placed, List.cons_append]
  rw [insert, absent.1]
  exact absent.2

end Table

namespace Utf8

/-- Inside a code point only bytes above ASCII follow. -/
def State.beyond : State → Bool
  | .boundary => true
  | .inside _ low _ => 0x80 ≤ low

variable {place place' : State} {b : UInt8}

theorem step_beyond (beyond : place.beyond = true) (stepped : step place b = some place') :
    place'.beyond = true := by
  cases place with
  | boundary =>
    simp only [step] at stepped
    repeat' split at stepped
    all_goals cases stepped
    all_goals rfl
  | inside more low high =>
    simp only [step] at stepped
    split at stepped
    · cases more <;> cases stepped <;> rfl
    · cases stepped

/-- Between code points a byte of ASCII stands alone. -/
theorem step_ascii (small : b < 0x80) (stepped : step .boundary b = some place') :
    place' = .boundary := by
  rw [step, if_pos small] at stepped
  exact (Option.some.inj stepped).symm

theorem le_of_step_inside {more : Nat} {low high : UInt8}
    (stepped : step (.inside more low high) b = some place') : low ≤ b := by
  simp only [step] at stepped
  split at stepped
  · rename_i within
    exact of_decide_eq_true (Bool.and_eq_true_iff.mp within).1
  · cases stepped

end Utf8

namespace Json

mutual

/-- Whether a value is read back from what is written of it: its integers fit into 64 bits, it has
no doubles, and the names of members are in order. -/
def isExact : Json → Bool
  | .int i => -0x8000000000000000 ≤ i && i ≤ 0xFFFFFFFFFFFFFFFF
  | .double _ => false
  | .array items => areExact items
  | .object members => areOrdered members
  | _ => true

def areExact : List Json → Bool
  | [] => true
  | item :: items => item.isExact && areExact items

def areOrdered : List (Bytes × Json) → Bool
  | [] => true
  | (name, value) :: members =>
    value.isExact && (members.all (name.before ·.1) && areOrdered members)

end

namespace Reader

/-- What a reader makes of the rest of a text. -/
def finish (r : Reader) (text : Bytes) : Except Fault Json := do (← run r text).result

variable {r r' : Reader} {expecting expecting' : Expecting} {opened opened' : List Frame}
  {rest text : Bytes}

theorem finish_nil (r : Reader) : r.finish [] = r.result := rfl

theorem finish_cons {b : UInt8} (stepped : r.step b = .ok r') :
    r.finish (b :: rest) = r'.finish rest := by
  rw [finish, run, stepped]
  rfl

/-! ### Strings -/

theorem hexValue?_hexDigit : ∀ n < 16, Bytes.hexValue? (Bytes.hexDigit n) = some n := by decide

/-- A byte is written as it is, as a letter that stands for it, or as its digits. -/
theorem escapeByte_cases (b : UInt8) :
    (b ≠ byte '"' ∧ b ≠ byte '\\' ∧ ¬ b < 0x20 ∧ escapeByte b = [b]) ∨
    (b < 0x80 ∧ ∃ c, c ≠ byte 'u' ∧ escaped? c = some b ∧ escapeByte b = [byte '\\', c]) ∨
    (b < 0x20 ∧ escapeByte b =
      ascii "\\u00" ++ [Bytes.hexDigit (b.toNat / 16), Bytes.hexDigit (b.toNat % 16)]) := by
  unfold escapeByte
  repeat
    split
    · next same =>
      subst same
      exact .inr (.inl ⟨by decide, _, by decide, rfl, rfl⟩)
  split
  · next control => exact .inr (.inr ⟨control, rfl⟩)
  · next quote backslash _ _ _ _ _ control => exact .inl ⟨quote, backslash, control, rfl⟩

/-- A byte that is no control byte, quote or backslash stands for itself. -/
theorem finish_plain {done : Bytes} {place place' : Utf8.State} {b : UInt8}
    (quote : b ≠ byte '"') (backslash : b ≠ byte '\\') (control : ¬ b < 0x20)
    (stepped : Utf8.step place b = some place') :
    finish ⟨.text done (.plain place), expecting, opened⟩ (b :: rest) =
      finish ⟨.text (b :: done) (.plain place'), expecting, opened⟩ rest := by
  have closes : closesText (.plain place) b = false := by
    cases place with
    | boundary => exact decide_eq_false quote
    | inside more low high => rfl
  apply finish_cons
  simp only [step, closes, Bool.false_eq_true, if_false, stepText, decide_eq_false backslash,
    Bool.false_and, if_neg control, stepped, Option.map_some]

/-- A control byte without an escape of its own is written as two digits. -/
theorem finish_control {done : Bytes} {b : UInt8} (control : b < 0x20) :
    finish ⟨.text done (.plain .boundary), expecting, opened⟩
        (ascii "\\u00" ++ [Bytes.hexDigit (b.toNat / 16), Bytes.hexDigit (b.toNat % 16)] ++ rest) =
      finish ⟨.text (b :: done) (.plain .boundary), expecting, opened⟩ rest := by
  have small : b.toNat < 32 := control
  have high := hexValue?_hexDigit (b.toNat / 16) (by omega)
  have low := hexValue?_hexDigit (b.toNat % 16) (by omega)
  have unit : takeUnit done none (16 * (b.toNat / 16) + b.toNat % 16) =
      some (.text (b :: done) (.plain .boundary)) := by
    have whole : 16 * (b.toNat / 16) + b.toNat % 16 = b.toNat := by omega
    have notHigh : ¬ 0xD800 ≤ b.toNat := by omega
    have notLow : ¬ 0xDC00 ≤ b.toNat := by omega
    have ascii : b.toNat < 0x80 := by omega
    simp [whole, takeUnit, notHigh, notLow, appendCodePoint, Utf8.encode, ascii]
  have escape : ascii "\\u00" = [byte '\\', byte 'u', byte '0', byte '0'] := by rfl
  rw [escape]
  have highDone : step ⟨.text done (.hex none 1 0), expecting, opened⟩
      (Bytes.hexDigit (b.toNat / 16)) =
        .ok ⟨.text done (.hex none 0 (b.toNat / 16)), expecting, opened⟩ := by
    simp [step, closesText, stepText, high]
  have lowDone : step ⟨.text done (.hex none 0 (b.toNat / 16)), expecting, opened⟩
      (Bytes.hexDigit (b.toNat % 16)) =
        .ok ⟨.text (b :: done) (.plain .boundary), expecting, opened⟩ := by
    simp [step, closesText, stepText, low, unit]
  refine (finish_cons rfl).trans ((finish_cons rfl).trans ((finish_cons rfl).trans
    ((finish_cons rfl).trans ?_)))
  exact (finish_cons highDone).trans (finish_cons lowDone)

/-- A byte is read back from its escape, wherever it stands in a string. -/
theorem finish_escapeByte {done : Bytes} {place place' : Utf8.State} {b : UInt8}
    (beyond : place.beyond = true) (stepped : Utf8.step place b = some place') :
    finish ⟨.text done (.plain place), expecting, opened⟩ (escapeByte b ++ rest) =
      finish ⟨.text (b :: done) (.plain place'), expecting, opened⟩ rest := by
  have boundary (small : b < 0x80) : place = .boundary := by
    cases place with
    | boundary => rfl
    | inside more low high =>
      have above := UInt8.le_trans (of_decide_eq_true beyond) (Utf8.le_of_step_inside stepped)
      exact absurd small (UInt8.not_lt.mpr above)
  obtain ⟨quote, backslash, control, escape⟩ | ⟨small, c, other, stands, escape⟩ |
    ⟨control, escape⟩ := escapeByte_cases b
  · rw [escape]
    exact finish_plain quote backslash control stepped
  · obtain rfl := boundary small
    obtain rfl := Utf8.step_ascii small stepped
    rw [escape]
    refine (finish_cons rfl).trans (finish_cons ?_)
    simp only [step, closesText, Bool.false_eq_true, if_false, stepText, if_neg other, stands,
      Option.map_some]
  · have small : b < 0x80 := UInt8.lt_trans control (by decide)
    obtain rfl := boundary small
    obtain rfl := Utf8.step_ascii small stepped
    rw [escape]
    exact finish_control control

theorem finish_escaped {done s : Bytes} {place place' : Utf8.State} (beyond : place.beyond = true)
    (formed : Utf8.run place s = some place') :
    finish ⟨.text done (.plain place), expecting, opened⟩ (s.flatMap escapeByte ++ rest) =
      finish ⟨.text (s.reverse ++ done) (.plain place'), expecting, opened⟩ rest := by
  induction s generalizing done place with
  | nil =>
    cases formed
    rfl
  | cons b s ih =>
    rw [Utf8.run] at formed
    cases stepped : Utf8.step place b with
    | none =>
      rw [stepped] at formed
      cases formed
    | some next =>
      rw [stepped] at formed
      rw [List.flatMap_cons, List.append_assoc, finish_escapeByte beyond stepped,
        ih (Utf8.step_beyond beyond stepped) formed, List.reverse_cons, List.append_assoc]
      rfl

/-- A string is taken whole. -/
theorem finish_string {s : Bytes} (written : writeString s = .ok text)
    (taken : take expecting opened (.string s) = .ok (expecting', opened')) :
    finish ⟨.between, expecting, opened⟩ (text ++ rest) =
      finish ⟨.between, expecting', opened'⟩ rest := by
  have formed : Utf8.run .boundary s = some .boundary := by
    have writes := writes_string s
    rw [written] at writes
    exact beq_iff_eq.mp writes
  have text_eq : text = byte '"' :: s.flatMap escapeByte ++ [byte '"'] := by
    unfold writeString at written
    split at written
    · exact (Except.ok.inj written).symm
    · cases written
  have closes : step ⟨.text s.reverse (.plain .boundary), expecting, opened⟩ (byte '"') =
      .ok ⟨.between, expecting', opened'⟩ := by
    simp [step, closesText, emit, taken, bind, Except.bind]
  calc finish ⟨.between, expecting, opened⟩ (text ++ rest)
    _ = finish ⟨.text [] (.plain .boundary), expecting, opened⟩
          (s.flatMap escapeByte ++ (byte '"' :: rest)) := by
        rw [text_eq, List.cons_append, List.cons_append, List.append_assoc]
        exact finish_cons rfl
    _ = finish ⟨.text s.reverse (.plain .boundary), expecting, opened⟩ (byte '"' :: rest) := by
        have beyond : Utf8.State.boundary.beyond = true := rfl
        rw [finish_escaped beyond formed, List.append_nil]
    _ = finish ⟨.between, expecting', opened'⟩ rest := finish_cons closes

/-! ### Integers -/

/-- The numeral of an integer. -/
def numeral (negative : Bool) (n : Nat) : Numeral :=
  { negative, part := if n = 0 then .zero else .whole, digits := n }

theorem digit_facts : ∀ d < 10, Bytes.isDigit (byte d.digitChar) = true ∧
    Bytes.digitValue (byte d.digitChar) = d := by decide

theorem extend?_numeral {negative : Bool} {n d : Nat} (filled : n ≠ 0) (digit : d < 10) :
    (numeral negative n).extend? (byte d.digitChar) = some (numeral negative (10 * n + d)) := by
  obtain ⟨isDigit, value⟩ := digit_facts d digit
  have more : 10 * n + d ≠ 0 := by omega
  simp only [Numeral.extend?, numeral, if_neg filled, isDigit, if_true, Numeral.addDigit, value,
    if_neg more]

/-- The digits of a number are read one by one, if the first of them may stand there. -/
theorem finish_digits {negative : Bool}
    (first : ∀ d < 10, r.step (byte d.digitChar) =
      .ok { r with lexing := .number (numeral negative d) }) (n : Nat) :
    r.finish (Bytes.ofNat n ++ rest) =
      finish { r with lexing := .number (numeral negative n) } rest := by
  induction n using Nat.strongRecOn generalizing rest with
  | ind n ih =>
    rw [Bytes.ofNat, Nat.toDigits_eq_if (by decide)]
    split
    · rename_i small
      exact finish_cons (first n small)
    · have fewer : n / 10 < n := by omega
      have digit : n % 10 < 10 := by omega
      have whole : 10 * (n / 10) + n % 10 = n := by omega
      rw [List.map_append, List.append_assoc]
      refine (ih (n / 10) fewer).trans (finish_cons ?_)
      simp only [step, extend?_numeral (by omega : n / 10 ≠ 0) digit, whole]

/-- Where a number may end: at the end of the text, or before the rest of an array or object. -/
def Stops (rest : Bytes) : Prop :=
  ∀ b ∈ rest.head?, b = byte ',' ∨ b = byte ']' ∨ b = 0x7D

theorem value_numeral {i : Int} (least : -0x8000000000000000 ≤ i) (most : i ≤ 0xFFFFFFFFFFFFFFFF) :
    (numeral (decide (i < 0)) i.natAbs).value = .ok (.int i) := by
  have integer : (numeral (decide (i < 0)) i.natAbs).isInteger = true := by
    unfold numeral
    by_cases zero : i.natAbs = 0
    · simp only [if_pos zero]
      rfl
    · simp only [if_neg zero]
      rfl
  unfold Numeral.value
  rw [integer]
  by_cases negative : i < 0
  · have fits : i.natAbs ≤ 0x8000000000000000 := by omega
    have same : -(i.natAbs : Int) = i := by omega
    simp only [numeral, decide_eq_true negative, if_true, Bool.true_and, decide_eq_true fits, same]
  · have fits : i.natAbs ≤ 0xFFFFFFFFFFFFFFFF := by omega
    have same : (i.natAbs : Int) = i := by omega
    simp only [numeral, decide_eq_false negative, Bool.false_eq_true, if_false, Bool.true_and,
      decide_eq_true fits, if_true, same]

theorem complete_numeral (negative : Bool) (n : Nat) : (numeral negative n).complete = true := by
  by_cases zero : n = 0 <;> simp [numeral, zero, Numeral.complete]

/-- What a number may be followed by is no part of it. -/
theorem extend?_stop (negative : Bool) (n : Nat) {b : UInt8}
    (stop : b = byte ',' ∨ b = byte ']' ∨ b = 0x7D) : (numeral negative n).extend? b = none := by
  have other : Bytes.isDigit b = false ∧ b ≠ byte '.' ∧ b ≠ byte 'e' ∧ b ≠ byte 'E' := by
    obtain rfl | rfl | rfl := stop <;> decide
  obtain ⟨digit, point, mark, capital⟩ := other
  have ends (m : Numeral) : m.afterWhole? b = none := by
    simp only [Numeral.afterWhole?, if_neg point, decide_eq_false mark, decide_eq_false capital,
      Bool.or_self, Bool.false_eq_true, if_false]
  by_cases zero : n = 0
  · simp only [numeral, Numeral.extend?, if_pos zero, ends]
  · simp only [numeral, Numeral.extend?, if_neg zero, digit, Bool.false_eq_true, if_false, ends]

/-- A number ends where it may, and is taken whole. -/
theorem finish_numeral {negative : Bool} {n : Nat} {value : Json} (stops : Stops rest)
    (value_eq : (numeral negative n).value = .ok value)
    (taken : take expecting opened (.scalar (.ok value)) = .ok (expecting', opened')) :
    finish ⟨.number (numeral negative n), expecting, opened⟩ rest =
      finish ⟨.between, expecting', opened'⟩ rest := by
  have emitted : emit ⟨.number (numeral negative n), expecting, opened⟩
      (.scalar (numeral negative n).value) = .ok ⟨.between, expecting', opened'⟩ := by
    rw [value_eq, emit]
    simp only [taken]
    rfl
  cases rest with
  | nil =>
    rw [finish_nil, finish_nil, result, result]
    simp only [complete_numeral, if_true, emitted]
  | cons b rest =>
    have stop := stops b rfl
    have stepped : step ⟨.number (numeral negative n), expecting, opened⟩ b =
        step ⟨.between, expecting', opened'⟩ b := by
      simp only [step, extend?_stop negative n stop, complete_numeral, if_true, emitted]
      rfl
    rw [finish, finish, run, run, stepped]

theorem finish_int {i : Int} (exact : isExact (.int i) = true) (stops : Stops rest)
    (taken : take expecting opened (.scalar (.ok (.int i))) = .ok (expecting', opened')) :
    finish ⟨.between, expecting, opened⟩ (Bytes.ofInt i ++ rest) =
      finish ⟨.between, expecting', opened'⟩ rest := by
  obtain ⟨least, most⟩ := Bool.and_eq_true_iff.mp exact
  have value_eq := value_numeral (of_decide_eq_true least) (of_decide_eq_true most)
  by_cases negative : i < 0
  · rw [decide_eq_true negative] at value_eq
    have signed : ∀ d < 10, step ⟨.number { negative := true, part := .minus }, expecting, opened⟩
        (byte d.digitChar) = .ok ⟨.number (numeral true d), expecting, opened⟩ := by
      intro d digit
      interval_cases d <;> rfl
    rw [Bytes.ofInt, if_pos negative, List.cons_append]
    refine (finish_cons rfl).trans ((finish_digits signed _).trans ?_)
    exact finish_numeral stops value_eq taken
  · rw [decide_eq_false negative] at value_eq
    have plain : ∀ d < 10, step ⟨.between, expecting, opened⟩ (byte d.digitChar) =
        .ok ⟨.number (numeral false d), expecting, opened⟩ := by
      intro d digit
      interval_cases d <;> rfl
    rw [Bytes.ofInt, if_neg negative]
    exact (finish_digits plain _).trans (finish_numeral stops value_eq taken)

/-! ### Words and marks -/

theorem emit_eq {lexing : Lexing} {token : Token}
    (taken : take expecting opened token = .ok (expecting', opened')) :
    emit ⟨lexing, expecting, opened⟩ token = .ok ⟨.between, expecting', opened'⟩ := by
  rw [emit]
  simp only [taken]
  rfl

/-- A word is taken whole. -/
theorem finish_word {c : UInt8} {word : Bytes} {value : Json}
    (taken : take expecting opened (.scalar (.ok value)) = .ok (expecting', opened')) :
    finish ⟨.word (c :: word) value, expecting, opened⟩ (c :: word ++ rest) =
      finish ⟨.between, expecting', opened'⟩ rest := by
  induction word generalizing c with
  | nil =>
    refine finish_cons ?_
    simp only [step, if_true]
    exact emit_eq taken
  | cons d word ih =>
    refine (finish_cons ?_).trans ih
    simp only [step, if_true]

/-- The end of an array. -/
theorem finish_closeArray {items : List Json}
    (ends : expecting = .valueOrEnd ∨ expecting = .more)
    (delivered : deliver opened (.array items.reverse) = .ok (expecting', opened')) :
    finish ⟨.between, expecting, .array items :: opened⟩ (byte ']' :: rest) =
      finish ⟨.between, expecting', opened'⟩ rest := by
  obtain rfl | rfl := ends <;> exact finish_cons (emit_eq delivered)

/-- The end of an object. -/
theorem finish_closeObject {members : Table Json}
    (ends : expecting = .nameOrEnd ∨ expecting = .more)
    (delivered : deliver opened (.object members) = .ok (expecting', opened')) :
    finish ⟨.between, expecting, .object members :: opened⟩ (0x7D :: rest) =
      finish ⟨.between, expecting', opened'⟩ rest := by
  obtain rfl | rfl := ends <;> exact finish_cons (emit_eq delivered)

end Reader

open Reader

/-- A reader takes a value wherever one may stand. -/
def Accepts (expecting : Expecting) : Prop := expecting = .value ∨ expecting = .valueOrEnd

/-- What is put together from several texts was written if they all were. -/
theorem bind_eq_ok {α β : Type} {x : Except Fault α} {k : α → Except Fault β} {b : β}
    (bound : (x >>= k) = .ok b) : ∃ a, x = .ok a ∧ k a = .ok b := by
  cases x with
  | error fault => cases bound
  | ok a => exact ⟨a, rfl, bound⟩

mutual

/-- The text of a value is as good as the value, whatever follows. -/
theorem finish_value (value : Json) {expecting expecting' : Expecting}
    {opened opened' : List Frame} {rest text : Bytes} (exact : value.isExact = true)
    (written : value.write = .ok text) (accepts : Accepts expecting)
    (delivered : deliver opened value = .ok (expecting', opened')) (stops : Stops rest) :
    finish ⟨.between, expecting, opened⟩ (text ++ rest) =
      finish ⟨.between, expecting', opened'⟩ rest := by
  have scalar (v : Json) (same : v = value) :
      take expecting opened (.scalar (.ok v)) = .ok (expecting', opened') := by
    subst same
    obtain rfl | rfl := accepts <;> exact delivered
  cases value with
  | null =>
    obtain rfl : ascii "null" = text := Except.ok.inj written
    exact (finish_cons rfl).trans (finish_word (scalar _ rfl))
  | bool b =>
    cases b with
    | true =>
      obtain rfl : ascii "true" = text := Except.ok.inj written
      exact (finish_cons rfl).trans (finish_word (scalar _ rfl))
    | false =>
      obtain rfl : ascii "false" = text := Except.ok.inj written
      exact (finish_cons rfl).trans (finish_word (scalar _ rfl))
  | int i =>
    obtain rfl : Bytes.ofInt i = text := Except.ok.inj written
    exact finish_int exact stops (scalar _ rfl)
  | double bits => cases exact
  | string s =>
    refine finish_string written ?_
    obtain rfl | rfl := accepts <;> exact delivered
  | array items =>
    obtain ⟨inner, inside, same⟩ := bind_eq_ok written
    obtain rfl : byte '[' :: inner ++ [byte ']'] = text := Except.ok.inj same
    have opens : step ⟨.between, expecting, opened⟩ (byte '[') =
        .ok ⟨.between, .valueOrEnd, .array [] :: opened⟩ := by
      obtain rfl | rfl := accepts <;> rfl
    rw [List.cons_append, List.cons_append, List.append_assoc]
    refine (finish_cons opens).trans ?_
    exact finish_items items exact inside (.inr rfl) (fun _ => rfl) delivered
  | object members =>
    obtain ⟨inner, inside, same⟩ := bind_eq_ok written
    obtain rfl : 0x7B :: inner ++ [0x7D] = text := Except.ok.inj same
    have opens : step ⟨.between, expecting, opened⟩ 0x7B =
        .ok ⟨.between, .nameOrEnd, .object [] :: opened⟩ := by
      obtain rfl | rfl := accepts <;> rfl
    rw [List.cons_append, List.cons_append, List.append_assoc]
    refine (finish_cons opens).trans ?_
    exact finish_members members exact (List.forall_mem_nil _) inside (.inl rfl) (fun _ => rfl)
      delivered

theorem finish_items (items : List Json) {expecting expecting' : Expecting}
    {opened opened' : List Frame} {rest text : Bytes} {done : List Json}
    (exact : areExact items = true)
    (written : writeItems items = .ok text) (accepts : Accepts expecting)
    (ends : items = [] → expecting = .valueOrEnd)
    (delivered : deliver opened (.array (done.reverse ++ items)) = .ok (expecting', opened')) :
    finish ⟨.between, expecting, .array done :: opened⟩ (text ++ byte ']' :: rest) =
      finish ⟨.between, expecting', opened'⟩ rest := by
  cases items with
  | nil =>
    obtain rfl : [] = text := Except.ok.inj written
    rw [List.append_nil] at delivered
    exact finish_closeArray (.inl (ends rfl)) delivered
  | cons item items =>
    obtain ⟨own, others⟩ := Bool.and_eq_true_iff.mp exact
    rw [List.append_cons, ← List.reverse_cons] at delivered
    cases items with
    | nil =>
      rw [List.append_nil] at delivered
      have stops : Stops (byte ']' :: rest) := by
        rintro _ ⟨⟩
        exact .inr (.inl rfl)
      refine (finish_value item own written accepts rfl stops).trans ?_
      exact finish_closeArray (.inr rfl) delivered
    | cons next items =>
      obtain ⟨first, wrote, more⟩ := bind_eq_ok written
      obtain ⟨further, wrote', same⟩ := bind_eq_ok more
      obtain rfl : first ++ byte ',' :: further = text := Except.ok.inj same
      have stops : Stops (byte ',' :: (further ++ byte ']' :: rest)) := by
        rintro _ ⟨⟩
        exact .inl rfl
      rw [List.append_assoc, List.cons_append]
      refine (finish_value item own wrote accepts rfl stops).trans ((finish_cons rfl).trans ?_)
      exact finish_items (next :: items) others wrote' (.inl rfl) (by rintro ⟨⟩) delivered

theorem finish_members (members : List (Bytes × Json)) {expecting expecting' : Expecting}
    {opened opened' : List Frame} {rest text : Bytes} {done : Table Json}
    (ordered : areOrdered members = true)
    (last : ∀ e ∈ done, ∀ m ∈ members, e.1.before m.1 = true)
    (written : writeMembers members = .ok text)
    (accepts : expecting = .nameOrEnd ∨ expecting = .name)
    (ends : members = [] → expecting = .nameOrEnd)
    (delivered : deliver opened (.object (done ++ members)) = .ok (expecting', opened')) :
    finish ⟨.between, expecting, .object done :: opened⟩ (text ++ 0x7D :: rest) =
      finish ⟨.between, expecting', opened'⟩ rest := by
  cases members with
  | nil =>
    obtain rfl : [] = text := Except.ok.inj written
    rw [List.append_nil] at delivered
    exact finish_closeObject (.inl (ends rfl)) delivered
  | cons member members =>
    obtain ⟨name, value⟩ := member
    obtain ⟨own, behind⟩ := Bool.and_eq_true_iff.mp ordered
    obtain ⟨before, others⟩ := Bool.and_eq_true_iff.mp behind
    have before := List.all_eq_true.mp before
    have inserted : deliver (.member done name :: opened) value =
        .ok (.more, .object (done ++ [(name, value)]) :: opened) := by
      rw [deliver, Table.insert_last value fun e member => last e member _ (List.mem_cons_self ..)]
    have placed {label inner rest : Bytes} (named : writeString name = .ok label)
        (wrote : value.write = .ok inner) (stops : Stops rest) :
        finish ⟨.between, expecting, .object done :: opened⟩
            (label ++ byte ':' :: inner ++ rest) =
          finish ⟨.between, .more, .object (done ++ [(name, value)]) :: opened⟩ rest := by
      have taken : take expecting (.object done :: opened) (.string name) =
          .ok (.colon, .member done name :: opened) := by
        obtain rfl | rfl := accepts <;> rfl
      rw [List.append_assoc, List.cons_append]
      refine (finish_string named taken).trans ((finish_cons rfl).trans ?_)
      exact finish_value value own wrote (.inl rfl) inserted stops
    rw [List.append_cons] at delivered
    cases members with
    | nil =>
      obtain ⟨label, named, more⟩ := bind_eq_ok written
      obtain ⟨inner, wrote, same⟩ := bind_eq_ok more
      obtain rfl : label ++ byte ':' :: inner = text := Except.ok.inj same
      rw [List.append_nil] at delivered
      have stops : Stops (0x7D :: rest) := by
        rintro _ ⟨⟩
        exact .inr (.inr rfl)
      exact (placed named wrote stops).trans (finish_closeObject (.inr rfl) delivered)
    | cons next members =>
      obtain ⟨label, named, more⟩ := bind_eq_ok written
      obtain ⟨inner, wrote, more⟩ := bind_eq_ok more
      obtain ⟨further, wrote', same⟩ := bind_eq_ok more
      obtain rfl : label ++ byte ':' :: inner ++ byte ',' :: further = text := Except.ok.inj same
      have stops : Stops (byte ',' :: (further ++ 0x7D :: rest)) := by
        rintro _ ⟨⟩
        exact .inl rfl
      have later : ∀ e ∈ done ++ [(name, value)], ∀ m ∈ next :: members,
          e.1.before m.1 = true := by
        intro e member m further
        rcases List.mem_append.mp member with earlier | here
        · exact last e earlier m (List.mem_cons_of_mem _ further)
        · cases List.mem_singleton.mp here
          exact before m further
      rw [List.append_assoc _ (byte ',' :: further), List.cons_append]
      refine (placed named wrote stops).trans ((finish_cons rfl).trans ?_)
      exact finish_members (next :: members) others later wrote' (.inr rfl) (by rintro ⟨⟩) delivered

end

/-- What was written is read back. -/
theorem parse_write {value : Json} {text : Bytes} (exact : value.isExact = true)
    (written : value.write = .ok text) : parse text = .ok value := by
  have whole : finish {} (text ++ []) = finish ⟨.between, .nothing value, []⟩ [] :=
    finish_value value exact written (.inl rfl) rfl (by rintro _ ⟨⟩)
  rw [List.append_nil] at whole
  exact whole

end Json

end Parley
