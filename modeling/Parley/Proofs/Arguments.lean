import Mathlib.Data.List.TakeDrop
import Mathlib.Data.List.TakeWhile
import Parley.CommandLine
import Parley.Proofs.Cuts

/-!
Which numbers the options have that arguments ask for.

* `NumberType.Converts`: what a whole number becomes in a type;
* `NumberType.read?_eq_some_iff`: a text is taken for the number it starts with;
* `NumberType.Takes.denotes_iff`: which of the texts that are taken count for what they denote;
* `Laid`: arguments that ask for something at every place, and the texts they give for numbers;
* `Laid.parseFrom_goes`, `exists_laid`: how such arguments are read, and that no others are;
* `parse_numbers`: every numeric option has what the last text given for it is taken for.
-/
namespace Parley.CommandLine

/-- A whole number in decimal, possibly with a sign. -/
structure WholeNumber where
  sign : Bytes
  digits : Bytes
  sign_mem : sign ∈ [[], [byte '+'], [byte '-']]
  digits_ne : digits ≠ []
  digits_all : ∀ b ∈ digits, Bytes.isDigit b

namespace WholeNumber
variable (d : WholeNumber)

def text : Bytes := d.sign ++ d.digits

/-- The number it denotes. -/
def value : Int :=
  if d.sign = [byte '-'] then -(Bytes.decimalValue d.digits : Int)
  else Bytes.decimalValue d.digits

end WholeNumber

/-- A text that starts with a whole number: blanks, the number, and what follows its digits. -/
structure Leading where
  before : Bytes
  number : WholeNumber
  after : Bytes
  before_blank : ∀ b ∈ before, NumberType.isSpace b
  after_stops : ∀ b ∈ after.head?, Bytes.isDigit b = false

def Leading.text (l : Leading) : Bytes := l.before ++ (l.number.text ++ l.after)

/-- A whole number with nothing around it. -/
def WholeNumber.leading (d : WholeNumber) : Leading where
  before := []
  number := d
  after := []
  before_blank := by simp
  after_stops := by simp

@[simp]
theorem WholeNumber.leading_text (d : WholeNumber) : d.leading.text = d.text := by
  simp [leading, Leading.text]

namespace NumberType

/-- The numbers that a type has. -/
def Has : NumberType → Int → Prop
  | .int, n => -0x80000000 ≤ n ∧ n < 0x80000000
  | .long, n => -0x8000000000000000 ≤ n ∧ n < 0x8000000000000000
  | .unsignedLong, n => 0 ≤ n ∧ n < 0x10000000000000000

/-- What a whole number becomes in a type: itself if the type has it. A negative number that is not
too large wraps around where there are no negative ones. -/
inductive Converts (type : NumberType) (n : Int) : Int → Prop where
  | same : type.Has n → Converts type n n
  | wrapped : type = .unsignedLong → -0x10000000000000000 < n → n < 0 →
      Converts type n (n + 0x10000000000000000)

/-- What a text is taken for. -/
def Takes (type : NumberType) (text : Bytes) (m : Int) : Prop :=
  ∃ l : Leading, l.text = text ∧ type.Converts l.number.value m

/-- A text that is all of it a number that the type has. -/
def Plain (type : NumberType) (text : Bytes) : Prop :=
  ∃ d : WholeNumber, d.text = text ∧ type.Has d.value

variable {type : NumberType} {text : Bytes} {m : Int}

theorem converts_iff {n : Int} : type.Converts n m ↔
    (type.Has n ∧ m = n) ∨ (type = .unsignedLong ∧ -0x10000000000000000 < n ∧ n < 0 ∧
      m = n + 0x10000000000000000) := by
  constructor
  · rintro (has | ⟨unsigned, large, negative⟩)
    · exact .inl ⟨has, rfl⟩
    · exact .inr ⟨unsigned, large, negative, rfl⟩
  · rintro (⟨has, rfl⟩ | ⟨unsigned, large, negative, rfl⟩)
    · exact .same has
    · exact .wrapped unsigned large negative

theorem ofMagnitude?_eq_some_iff (negative : Bool) (magnitude : Nat) :
    ofMagnitude? negative magnitude type = some m ↔
      type.Converts (if negative then -(magnitude : Int) else magnitude) m := by
  rw [converts_iff]
  cases type <;> cases negative <;>
    simp only [ofMagnitude?, ofMagnitude?.signed, Has, reduceCtorEq, if_true, if_false,
      Bool.false_eq_true, Option.ite_none_right_eq_some, Option.some.injEq, true_and, false_and,
      or_false] <;> omega

theorem isSpace_of_isDigit {b : UInt8} (h : Bytes.isDigit b) : isSpace b = false := by
  simp only [Bytes.isDigit, isSpace, Bool.and_eq_true, decide_eq_true_eq, Bool.or_eq_false_iff,
    decide_eq_false_iff_not, Bool.and_eq_false_iff] at h ⊢
  constructor
  · rintro rfl
    exact absurd h.1 (by decide)
  · exact .inr fun le => absurd (UInt8.le_trans h.1 le) (by decide)

/-- A sign, if there is one, and what follows it. -/
def splitSign : Bytes → Bytes × Bytes
  | [] => ([], [])
  | b :: rest => if b = byte '-' ∨ b = byte '+' then ([b], rest) else ([], b :: rest)

theorem splitSign_divides (s : Bytes) :
    s = (splitSign s).1 ++ (splitSign s).2 ∧
      (splitSign s).1 ∈ [[], [byte '+'], [byte '-']] := by
  cases s with
  | nil => simp [splitSign]
  | cons b rest =>
    rw [splitSign]
    split
    · rename_i signed
      obtain rfl | rfl := signed <;> simp
    · simp

theorem splitSign_append {sign : Bytes} (sign_mem : sign ∈ [[], [byte '+'], [byte '-']]) {b : UInt8}
    (digit : Bytes.isDigit b) (rest : Bytes) :
    splitSign (sign ++ b :: rest) = (sign, b :: rest) := by
  have unsigned : ¬ (b = byte '-' ∨ b = byte '+') := by
    rintro (rfl | rfl) <;> exact absurd digit (by decide)
  simp only [List.mem_cons, List.not_mem_nil, or_false] at sign_mem
  obtain rfl | rfl | rfl := sign_mem
  · rw [List.nil_append, splitSign, if_neg unsigned]
  · rfl
  · rfl

theorem splitSign_text (d : WholeNumber) : splitSign d.text = (d.sign, d.digits) := by
  obtain ⟨b, rest, digits_eq⟩ := List.exists_cons_of_ne_nil d.digits_ne
  have digit : Bytes.isDigit b := d.digits_all b (digits_eq ▸ List.mem_cons_self)
  rw [WholeNumber.text, digits_eq, splitSign_append d.sign_mem digit]

theorem read?_eq (type : NumberType) (text : Bytes) :
    read? type text =
      if (splitSign (text.dropWhile isSpace)).2.takeWhile Bytes.isDigit = [] then none else
      ofMagnitude? ((splitSign (text.dropWhile isSpace)).1 = [byte '-'])
        (Bytes.decimalValue ((splitSign (text.dropWhile isSpace)).2.takeWhile Bytes.isDigit))
        type := by
  rw [read?]
  cases text.dropWhile isSpace with
  | nil => rfl
  | cons b rest =>
    by_cases signed : b = byte '-' ∨ b = byte '+'
    · obtain rfl | rfl := signed <;> rfl
    · have unsigned : splitSign (b :: rest) = ([], b :: rest) := if_neg signed
      obtain ⟨minus, plus⟩ := not_or.mp signed
      simp only [unsigned, if_neg minus, if_neg plus]
      rfl

/-- How a text is read that starts with a number. -/
theorem read?_text (l : Leading) : read? type l.text =
    ofMagnitude? (l.number.sign = [byte '-']) (Bytes.decimalValue l.number.digits) type := by
  obtain ⟨before, ⟨sign, digits, sign_mem, digits_ne, all⟩, after, blank, stops⟩ := l
  have taken : (digits ++ after).takeWhile Bytes.isDigit = digits := by
    have cut := Bytes.span_append all stops
    rw [List.span_eq_takeWhile_dropWhile] at cut
    exact congrArg Prod.fst cut
  obtain ⟨b, rest, rfl⟩ := List.exists_cons_of_ne_nil digits_ne
  have digit := all b List.mem_cons_self
  have unblank : (sign ++ (b :: rest ++ after)).dropWhile isSpace =
      sign ++ (b :: rest ++ after) := by
    simp only [List.mem_cons, List.not_mem_nil, or_false] at sign_mem
    obtain rfl | rfl | rfl := sign_mem
    · exact List.dropWhile_cons_of_neg (by simp [isSpace_of_isDigit digit])
    · exact List.dropWhile_cons_of_neg (by decide)
    · exact List.dropWhile_cons_of_neg (by decide)
  have split := splitSign_append sign_mem digit (rest ++ after)
  have read := read?_eq type (before ++ (sign ++ (b :: rest ++ after)))
  rw [List.dropWhile_append_of_pos blank, unblank, List.cons_append, split] at read
  rw [Leading.text, WholeNumber.text, List.append_assoc, List.cons_append, read,
    ← List.cons_append, taken, if_neg digits_ne]

theorem exists_leading (h : read? type text = some m) : ∃ l : Leading, l.text = text := by
  have read := read?_eq type text
  obtain ⟨text_eq, sign_mem⟩ := splitSign_divides (text.dropWhile isSpace)
  set sign := (splitSign (text.dropWhile isSpace)).1
  set rest := (splitSign (text.dropWhile isSpace)).2
  have digits_ne : rest.takeWhile Bytes.isDigit ≠ [] := by
    intro none
    rw [h, if_pos none] at read
    cases read
  refine ⟨{
    before := text.takeWhile isSpace
    number := {
      sign, digits := rest.takeWhile Bytes.isDigit, sign_mem, digits_ne
      digits_all := fun _ member => List.mem_takeWhile_imp member }
    after := rest.dropWhile Bytes.isDigit
    before_blank := fun _ member => List.mem_takeWhile_imp member
    after_stops := ?_ }, ?_⟩
  · intro b first
    have := List.head?_dropWhile_not Bytes.isDigit rest
    rw [first] at this
    simpa using this
  · rw [Leading.text, WholeNumber.text, List.append_assoc, List.takeWhile_append_dropWhile,
      ← text_eq, List.takeWhile_append_dropWhile]

/-- A text is taken for the number it starts with, if the type has a place for that. -/
theorem read?_eq_some_iff : read? type text = some m ↔ type.Takes text m := by
  constructor
  · intro h
    obtain ⟨l, rfl⟩ := exists_leading h
    rw [read?_text, ofMagnitude?_eq_some_iff] at h
    exact ⟨l, rfl, by simpa [WholeNumber.value] using h⟩
  · rintro ⟨l, rfl, converts⟩
    rw [read?_text, ofMagnitude?_eq_some_iff]
    simpa [WholeNumber.value] using converts

/-- A text that is taken counts for what it denotes as a whole exactly if all of it is a number that
the type has. -/
theorem Takes.denotes_iff (h : type.Takes text m) :
    (∃ d : WholeNumber, d.text = text ∧ d.value = m) ↔ type.Plain text := by
  have converts : ∀ d : WholeNumber, d.text = text → type.Converts d.value m := by
    rintro d rfl
    have read := read?_eq_some_iff.mpr h
    rw [← d.leading_text, read?_text, ofMagnitude?_eq_some_iff] at read
    simpa [WholeNumber.leading, WholeNumber.value] using read
  constructor
  · rintro ⟨d, text_eq, rfl⟩
    obtain ⟨has, -⟩ | ⟨-, -, -, wraps⟩ := converts_iff.mp (converts d text_eq)
    · exact ⟨d, text_eq, has⟩
    · omega
  · rintro ⟨d, text_eq, has⟩
    obtain ⟨-, same⟩ | ⟨rfl, -, negative, -⟩ := converts_iff.mp (converts d text_eq)
    · exact ⟨d, text_eq, same.symm⟩
    · exact absurd has.1 (by omega)

end NumberType

/-- The options that have a number. -/
inductive NumericOption where
  | maxTokens
  | requests
  | maxConcurrent
  | timeout
  | retries
  deriving DecidableEq

namespace NumericOption

def name : NumericOption → Bytes
  | maxTokens => ascii "--max-tokens"
  | requests => ascii "--requests"
  | maxConcurrent => ascii "--max-concurrent"
  | timeout => ascii "--timeout-ms"
  | retries => ascii "--retries"

def type : NumericOption → NumberType
  | maxTokens | requests | retries => .int
  | maxConcurrent => .unsignedLong
  | timeout => .long

def value : NumericOption → Options → Int
  | maxTokens, o => o.config.maxTokens
  | requests, o => o.requests
  | maxConcurrent, o => o.config.maxConcurrent
  | timeout, o => o.config.timeout
  | retries, o => o.config.retryAttempts

def set (m : Int) : NumericOption → Options → Options
  | maxTokens, o => { o with config := { o.config with maxTokens := m } }
  | requests, o => { o with requests := m }
  | maxConcurrent, o => { o with config := { o.config with maxConcurrent := m.toNat } }
  | timeout, o => { o with config := { o.config with timeout := m } }
  | retries, o => { o with config := { o.config with retryAttempts := m } }

variable {n n' : NumericOption} {m : Int} {text : Bytes}

theorem value_set_of_ne (other : n' ≠ n) (m : Int) (o : Options) :
    n'.value (n.set m o) = n'.value o := by
  cases n <;> cases n' <;> first | rfl | exact absurd rfl other

theorem value_set (h : n.type.Takes text m) (o : Options) : n.value (n.set m o) = m := by
  cases n with
  | maxConcurrent =>
    obtain ⟨l, -, converts⟩ := h
    have nonneg : 0 ≤ m := by
      obtain ⟨has, rfl⟩ | ⟨-, large, -, rfl⟩ := NumberType.converts_iff.mp converts
      · exact has.1
      · omega
    exact Int.toNat_of_nonneg nonneg
  | maxTokens | requests | timeout | retries => rfl

end NumericOption

/-- The options without a value that leave the arguments after them to be read. -/
def flags : List Bytes := [ascii "--stream", ascii "--verbose"]

/-- The options whose value is a text. -/
def textOptions : List Bytes := [ascii "--base-url", ascii "--model", ascii "--prompt"]

/-- Arguments that ask for something at every place. What they give for numbers stands in the order
in which it is given. -/
inductive Laid : List Bytes → List (NumericOption × Bytes) → Prop where
  | nil : Laid [] []
  | flag {argument rest given} (known : argument ∈ flags) (laid : Laid rest given) :
      Laid (argument :: rest) given
  | text {argument rest given} (known : argument ∈ textOptions) (value : Bytes)
      (laid : Laid rest given) : Laid (argument :: value :: rest) given
  | number {rest given} (n : NumericOption) (value : Bytes) (laid : Laid rest given) :
      Laid (n.name :: value :: rest) ((n, value) :: given)

variable {argument value : Bytes} {o o' : Options} {arguments rest : List Bytes}
  {given : List (NumericOption × Bytes)}

theorem flag?_of_mem (known : argument ∈ flags) (o : Options) :
    ∃ o', flag? argument o = some (.ok o') ∧ ∀ n : NumericOption, n.value o' = n.value o := by
  simp only [flags, List.mem_cons, List.not_mem_nil, or_false] at known
  obtain rfl | rfl := known
  · refine ⟨{ o with stream := true }, rfl, fun n => ?_⟩
    cases n <;> rfl
  · refine ⟨{ o with config := { o.config with verbose := true } }, rfl, fun n => ?_⟩
    cases n <;> rfl

theorem mem_of_flag? (h : flag? argument o = some (.ok o')) : argument ∈ flags := by
  rw [flag?] at h
  split at h
  · simp_all [flags]
  split at h
  · simp_all [flags]
  split at h <;> cases h

theorem valued?_of_mem (known : argument ∈ textOptions) (value : Bytes) (o : Options) :
    flag? argument o = none ∧ ∃ o', valued? argument value o = some (.ok o') ∧
      ∀ n : NumericOption, n.value o' = n.value o := by
  simp only [textOptions, List.mem_cons, List.not_mem_nil, or_false] at known
  obtain rfl | rfl | rfl := known
  · refine ⟨rfl, { o with config := { o.config with baseUrl := value } }, rfl, fun n => ?_⟩
    cases n <;> rfl
  · refine ⟨rfl, { o with config := { o.config with model := value } }, rfl, fun n => ?_⟩
    cases n <;> rfl
  · refine ⟨rfl, { o with prompt := value }, rfl, fun n => ?_⟩
    cases n <;> rfl

theorem valued?_name (n : NumericOption) (value : Bytes) (o : Options) :
    flag? n.name o = none ∧
      valued? n.name value o = some ((n.type.read value).map fun m => n.set m o) := by
  cases n <;> exact ⟨rfl, rfl⟩

theorem known_of_valued? {result : Except Stop Options}
    (h : valued? argument value o = some result) :
    argument ∈ textOptions ∨ ∃ n : NumericOption, argument = n.name := by
  by_contra unknown
  obtain ⟨noText, noNumber⟩ := not_or.mp unknown
  have other : ∀ n : NumericOption, argument ≠ n.name := not_exists.mp noNumber
  have maxTokens : argument ≠ ascii "--max-tokens" := other .maxTokens
  have requests : argument ≠ ascii "--requests" := other .requests
  have maxConcurrent : argument ≠ ascii "--max-concurrent" := other .maxConcurrent
  have timeout : argument ≠ ascii "--timeout-ms" := other .timeout
  have retries : argument ≠ ascii "--retries" := other .retries
  simp only [textOptions, List.mem_cons, List.not_mem_nil, or_false, not_or] at noText
  obtain ⟨baseUrl, model, prompt⟩ := noText
  simp only [valued?, if_neg baseUrl, if_neg model, if_neg prompt, if_neg maxTokens,
    if_neg requests, if_neg maxConcurrent, if_neg timeout, if_neg retries] at h
  cases h

theorem parseFrom_flag (found : flag? argument o = some (.ok o')) (rest : List Bytes) :
    parseFrom o (argument :: rest) = parseFrom o' rest := by
  cases rest with
  | nil => simp only [parseFrom, found]
  | cons value rest => rw [parseFrom, found]

theorem parseFrom_text (unflagged : flag? argument o = none)
    (found : valued? argument value o = some (.ok o')) (rest : List Bytes) :
    parseFrom o (argument :: value :: rest) = parseFrom o' rest := by
  rw [parseFrom, unflagged, found]

theorem parseFrom_number (n : NumericOption) (value : Bytes) (o : Options) (rest : List Bytes) :
    parseFrom o (n.name :: value :: rest) =
      match n.type.read? value with
      | some m => parseFrom (n.set m o) rest
      | none => .error (.badNumber n.type.conversion) := by
  obtain ⟨unflagged, found⟩ := valued?_name n value o
  rw [parseFrom, unflagged, found, NumberType.read]
  cases n.type.read? value <;> rfl

/-- Arguments that are read ask for something at every place. -/
theorem exists_laid (h : parseFrom o arguments = .ok o') : ∃ given, Laid arguments given := by
  fun_induction parseFrom o arguments with
  | case1 => exact ⟨[], .nil⟩
  | case2 o argument result found =>
    rw [h] at found
    exact ⟨[], .flag (mem_of_flag? found) .nil⟩
  | case3 => cases h
  | case4 o argument value rest o₁ found ih =>
    obtain ⟨given, laid⟩ := ih h
    exact ⟨given, .flag (mem_of_flag? found) laid⟩
  | case5 => cases h
  | case6 o argument value rest unflagged o₁ found ih =>
    obtain ⟨given, laid⟩ := ih h
    obtain known | ⟨n, rfl⟩ := known_of_valued? found
    · exact ⟨given, .text known value laid⟩
    · exact ⟨(n, value) :: given, .number n value laid⟩
  | case7 => cases h
  | case8 => cases h

/-- Every numeric option has what the last text given for it is taken for, and what it had before if
there is none. -/
def Settles (start : Options) (given : List (NumericOption × Bytes)) (o : Options) : Prop :=
  ∀ n : NumericOption,
    (given.reverse.lookup n = none → n.value o = n.value start) ∧
    ∀ text, given.reverse.lookup n = some text → n.type.Takes text (n.value o)

/-- Every text given is taken for some number. -/
def AllTaken (given : List (NumericOption × Bytes)) : Prop :=
  ∀ g ∈ given, ∃ m, g.1.type.Takes g.2 m

theorem Settles.of_same {start start' : Options} (same : ∀ n : NumericOption,
    n.value start' = n.value start) (h : Settles start' given o) : Settles start given o := by
  intro n
  rw [← same n]
  exact h n

theorem Settles.cons {n : NumericOption} {m : Int} {start : Options}
    (takes : n.type.Takes value m) (h : Settles (n.set m start) given o) :
    Settles start ((n, value) :: given) o := by
  intro n'
  obtain ⟨unchanged, taken⟩ := h n'
  rw [List.reverse_cons, List.lookup_append]
  cases later : given.reverse.lookup n' with
  | some text => simpa using taken text later
  | none =>
    have kept := unchanged later
    by_cases same : n' = n
    · subst same
      rw [NumericOption.value_set takes] at kept
      simpa [kept] using takes
    · rw [NumericOption.value_set_of_ne same] at kept
      have unlike : (n' == n) = false := beq_eq_false_iff_ne.mpr same
      simpa [List.lookup_cons, unlike] using kept

/-- How arguments are read that ask for something at every place: up to the first text that no
number is taken from. -/
theorem Laid.parseFrom_goes (laid : Laid arguments given) (start : Options) :
    (AllTaken given ∧ ∃ o, parseFrom start arguments = .ok o ∧ Settles start given o) ∨
    ∃ g ∈ given, (¬ ∃ m, g.1.type.Takes g.2 m) ∧
      parseFrom start arguments = .error (.badNumber g.1.type.conversion) := by
  induction laid generalizing start with
  | nil => exact .inl ⟨by simp [AllTaken], start, rfl, fun n => by simp⟩
  | flag known laid ih =>
    obtain ⟨next, found, same⟩ := flag?_of_mem known start
    rw [parseFrom_flag found]
    obtain ⟨taken, o, goes, settles⟩ | fails := ih next
    · exact .inl ⟨taken, o, goes, settles.of_same same⟩
    · exact .inr fails
  | text known value laid ih =>
    obtain ⟨unflagged, next, found, same⟩ := valued?_of_mem known value start
    rw [parseFrom_text unflagged found]
    obtain ⟨taken, o, goes, settles⟩ | fails := ih next
    · exact .inl ⟨taken, o, goes, settles.of_same same⟩
    · exact .inr fails
  | @number rest given n value laid ih =>
    rw [parseFrom_number]
    cases read : n.type.read? value with
    | none =>
      have untaken : ¬ ∃ m, n.type.Takes value m := by
        rintro ⟨m, takes⟩
        rw [NumberType.read?_eq_some_iff.mpr takes] at read
        cases read
      exact .inr ⟨(n, value), List.mem_cons_self, untaken, rfl⟩
    | some m =>
      have takes := NumberType.read?_eq_some_iff.mp read
      obtain ⟨taken, o, goes, settles⟩ | ⟨g, member, fails⟩ := ih (n.set m start)
      · exact .inl ⟨List.forall_mem_cons.mpr ⟨⟨m, takes⟩, taken⟩, o, goes, settles.cons takes⟩
      · exact .inr ⟨g, List.mem_cons_of_mem _ member, fails⟩

/-- Arguments are accepted exactly if they ask for something at every place and each text given for
a number starts with one that its type has a place for. Every numeric option has then what the last
text given for it is taken for, which is the number that the whole text denotes exactly if the text
is nothing but a number of the type. -/
theorem parse_numbers (arguments : List Bytes) :
    (∀ o, parse arguments = .ok o → ∃ given, Laid (arguments.map Bytes.beforeZero) given) ∧
    ∀ given, Laid (arguments.map Bytes.beforeZero) given →
      ((∃ o, parse arguments = .ok o) ↔ AllTaken given) ∧
      (¬ AllTaken given → ∃ g ∈ given, (¬ ∃ m, g.1.type.Takes g.2 m) ∧
        parse arguments = .error (.badNumber g.1.type.conversion)) ∧
      ∀ o, parse arguments = .ok o → Settles {} given o ∧
        ∀ (n : NumericOption) (text : Bytes), given.reverse.lookup n = some text →
          ((∃ d : WholeNumber, d.text = text ∧ d.value = n.value o) ↔ n.type.Plain text) := by
  refine ⟨fun o h => exists_laid h, ?_⟩
  intro given laid
  obtain ⟨taken, o, goes, settles⟩ | ⟨g, member, untaken, fails⟩ := laid.parseFrom_goes {}
  · refine ⟨⟨fun _ => taken, fun _ => ⟨o, goes⟩⟩, fun bad => absurd taken bad, ?_⟩
    intro o' h
    obtain rfl : o = o' := Except.ok.inj (goes.symm.trans h)
    exact ⟨settles, fun n text last => ((settles n).2 text last).denotes_iff⟩
  · have rejected : ∀ o, parse arguments ≠ .ok o := by
      intro o h
      cases fails.symm.trans h
    have bad : ¬ AllTaken given := fun taken => untaken (taken g member)
    refine ⟨⟨?_, fun taken => absurd taken bad⟩, fun _ => ⟨g, member, untaken, fails⟩, ?_⟩
    · rintro ⟨o, h⟩
      exact absurd h (rejected o)
    · intro o h
      exact absurd h (rejected o)

/-- Of two texts for one option the last counts. A number among other things is taken for itself,
and a negative one wraps around. -/
theorem parse_numbers_last :
    let arguments : List Bytes := [ascii "--retries", ascii "007", ascii "--retries",
      ascii " 3abc", ascii "--stream", ascii "--max-concurrent", ascii "-1"]
    let given : List (NumericOption × Bytes) :=
      [(.retries, ascii "007"), (.retries, ascii " 3abc"), (.maxConcurrent, ascii "-1")]
    let o : Options := {
      config := {
        clientTag := ascii "cli", retryAttempts := 3, maxConcurrent := 0xFFFFFFFFFFFFFFFF }
      stream := true }
    Laid (arguments.map Bytes.beforeZero) given ∧ parse arguments = .ok o ∧
      Settles {} given o ∧ ¬ NumericOption.retries.type.Plain (ascii " 3abc") ∧
      ¬ NumericOption.maxConcurrent.type.Plain (ascii "-1") := by
  intro arguments given o
  have laid : Laid (arguments.map Bytes.beforeZero) given :=
    .number .retries _ (.number .retries _ (.flag (by decide) (.number .maxConcurrent _ .nil)))
  have parsed : parse arguments = .ok o := by decide +kernel
  obtain ⟨settles, meant⟩ := ((parse_numbers arguments).2 given laid).2.2 o parsed
  refine ⟨laid, parsed, settles, ?_, ?_⟩
  · rintro ⟨d, text_eq, -⟩
    have parts := NumberType.splitSign_text d
    rw [text_eq] at parts
    have digits_eq : d.digits = ascii " 3abc" := (Prod.mk.inj parts).2.symm
    exact absurd (d.digits_all (byte ' ') (digits_eq ▸ by decide)) (by decide)
  · rw [← meant .maxConcurrent (ascii "-1") rfl]
    rintro ⟨d, text_eq, value_eq⟩
    have parts := NumberType.splitSign_text d
    rw [text_eq] at parts
    obtain ⟨sign_eq, digits_eq⟩ := Prod.mk.inj parts
    rw [WholeNumber.value, ← sign_eq, ← digits_eq] at value_eq
    exact absurd value_eq (by decide)

end Parley.CommandLine
