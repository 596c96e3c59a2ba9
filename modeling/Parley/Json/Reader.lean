import Parley.Json.Numeral
import Parley.Utf8

/-!
Reading JSON text. A reader takes the text byte by byte: its lexical part cuts the bytes into
tokens, its grammatical part holds the arrays and objects that are still open. Nothing recurs, so
no depth of nesting is too deep, and the first fault of the text in reading order is the one
reported.
-/
namespace Parley.Json

inductive Token where
  | openArray
  | closeArray
  | openObject
  | closeObject
  | comma
  | colon
  | string (s : Bytes)
  /-- A value of one token, or the fault that its numeral raises where a value may stand. -/
  | scalar (value : Except Fault Json)

/-- How far a string has been read. -/
inductive TextMode where
  /-- Among plain bytes, perhaps inside a code point. -/
  | plain (place : Utf8.State)
  /-- After a backslash. -/
  | escape
  /-- Inside `\u` with `left + 1` digits to come; `high` is the surrogate that came before. -/
  | hex (high : Option Nat) (left : Nat) (value : Nat)
  /-- After a high surrogate, which must have its partner next. -/
  | partner (high : Nat)
  | partnerMark (high : Nat)

inductive Lexing where
  | between
  /-- Inside one of the three words, of which `rest` is still to come. -/
  | word (rest : Bytes) (value : Json)
  | number (n : Numeral)
  /-- Inside a string, whose bytes so far are in `done`, the last first. -/
  | text (done : Bytes) (mode : TextMode)

/-- An array or object that is still open, its latest item first. -/
inductive Frame where
  | array (items : List Json)
  | object (members : Table Json)
  | member (members : Table Json) (name : Bytes)

/-- What the grammar waits for. -/
inductive Expecting where
  | value
  /-- A value or the end of the array just opened. -/
  | valueOrEnd
  /-- A name or the end of the object just opened. -/
  | nameOrEnd
  | name
  | colon
  /-- A comma or the end of the innermost array or object. -/
  | more
  | nothing (result : Json)

structure Reader where
  lexing : Lexing := .between
  expecting : Expecting := .value
  opened : List Frame := []

namespace Reader

/-- A value is complete: it goes to the innermost open array or object. -/
def deliver (opened : List Frame) (value : Json) : Except Fault (Expecting × List Frame) :=
  match opened with
  | [] => .ok (.nothing value, [])
  | .array items :: rest => .ok (.more, .array (value :: items) :: rest)
  | .member members name :: rest => .ok (.more, .object (members.insert name value) :: rest)
  | .object _ :: _ => .error .malformed

/-- One more token. -/
def take (expecting : Expecting) (opened : List Frame) (token : Token) :
    Except Fault (Expecting × List Frame) :=
  match expecting, token, opened with
  | .value, .openArray, _ | .valueOrEnd, .openArray, _ => .ok (.valueOrEnd, .array [] :: opened)
  | .value, .openObject, _ | .valueOrEnd, .openObject, _ => .ok (.nameOrEnd, .object [] :: opened)
  | .value, .string s, _ | .valueOrEnd, .string s, _ => deliver opened (.string s)
  | .value, .scalar value, _ | .valueOrEnd, .scalar value, _ => do deliver opened (← value)
  | .valueOrEnd, .closeArray, .array items :: rest
  | .more, .closeArray, .array items :: rest => deliver rest (.array items.reverse)
  | .nameOrEnd, .closeObject, .object members :: rest
  | .more, .closeObject, .object members :: rest => deliver rest (.object members)
  | .nameOrEnd, .string s, .object members :: rest
  | .name, .string s, .object members :: rest => .ok (.colon, .member members s :: rest)
  | .colon, .colon, _ => .ok (.value, opened)
  | .more, .comma, .array _ :: _ => .ok (.value, opened)
  | .more, .comma, .object _ :: _ => .ok (.name, opened)
  | _, _, _ => .error .malformed

def emit (r : Reader) (token : Token) : Except Fault Reader := do
  let (expecting, opened) ← take r.expecting r.opened token
  .ok { lexing := .between, expecting, opened }

def isBlank (b : UInt8) : Bool := b = 0x20 || b = 0x09 || b = 0x0A || b = 0x0D

/-- A byte between two tokens. -/
def stepBetween (r : Reader) (b : UInt8) : Except Fault Reader :=
  if isBlank b then .ok { r with lexing := .between }
  else if b = byte '[' then r.emit .openArray
  else if b = byte ']' then r.emit .closeArray
  else if b = 0x7B then r.emit .openObject
  else if b = 0x7D then r.emit .closeObject
  else if b = byte ',' then r.emit .comma
  else if b = byte ':' then r.emit .colon
  else if b = byte '"' then .ok { r with lexing := .text [] (.plain .boundary) }
  else if b = byte 't' then .ok { r with lexing := .word (ascii "rue") (.bool true) }
  else if b = byte 'f' then .ok { r with lexing := .word (ascii "alse") (.bool false) }
  else if b = byte 'n' then .ok { r with lexing := .word (ascii "ull") .null }
  else
    match Numeral.start? b with
    | some n => .ok { r with lexing := .number n }
    | none => .error .malformed

/-- The byte that a one-letter escape stands for. -/
def escaped? (b : UInt8) : Option UInt8 :=
  if b = byte '"' || b = byte '\\' || b = byte '/' then some b
  else if b = byte 'b' then some 0x08
  else if b = byte 'f' then some 0x0C
  else if b = byte 'n' then some 0x0A
  else if b = byte 'r' then some 0x0D
  else if b = byte 't' then some 0x09
  else none

/-- Appends the bytes of a code point to a string whose last byte comes first. -/
def appendCodePoint (done : Bytes) (c : Nat) : Bytes := (Utf8.encode c).reverse ++ done

/-- The string after the four digits of a `\u` escape: a high surrogate waits for its partner,
and a surrogate alone is a fault. -/
def takeUnit (done : Bytes) (high : Option Nat) (unit : Nat) : Option Lexing :=
  let isHigh := 0xD800 ≤ unit && unit < 0xDC00
  let isLow := 0xDC00 ≤ unit && unit < 0xE000
  match high with
  | some h =>
    if isLow then
      some (.text (appendCodePoint done (0x10000 + (h - 0xD800) * 0x400 + (unit - 0xDC00)))
        (.plain .boundary))
    else none
  | none =>
    if isHigh then some (.text done (.partner unit))
    else if isLow then none
    else some (.text (appendCodePoint done unit) (.plain .boundary))

/-- A byte inside a string, the closing quote apart. -/
def stepText (done : Bytes) (mode : TextMode) (b : UInt8) : Option Lexing :=
  match mode with
  | .plain place =>
    if b = byte '\\' && place == .boundary then some (.text done .escape)
    else if b < 0x20 then none
    else (Utf8.step place b).map fun place => .text (b :: done) (.plain place)
  | .escape =>
    if b = byte 'u' then some (.text done (.hex none 3 0))
    else (escaped? b).map fun c => .text (c :: done) (.plain .boundary)
  | .hex high left value =>
    match Bytes.hexValue? b, left with
    | some d, 0 => takeUnit done high (16 * value + d)
    | some d, left + 1 => some (.text done (.hex high left (16 * value + d)))
    | none, _ => none
  | .partner high => if b = byte '\\' then some (.text done (.partnerMark high)) else none
  | .partnerMark high => if b = byte 'u' then some (.text done (.hex (some high) 3 0)) else none

def closesText (mode : TextMode) (b : UInt8) : Bool :=
  match mode with
  | .plain .boundary => b = byte '"'
  | _ => false

/-- One more byte of the text. -/
def step (r : Reader) (b : UInt8) : Except Fault Reader :=
  match r.lexing with
  | .between => r.stepBetween b
  | .word [] _ => .error .malformed
  | .word (c :: rest) value =>
    if b = c then
      match rest with
      | [] => r.emit (.scalar (.ok value))
      | _ => .ok { r with lexing := .word rest value }
    else .error .malformed
  | .number n =>
    match n.extend? b with
    | some n => .ok { r with lexing := .number n }
    | none =>
      if n.complete then do (← r.emit (.scalar n.value)).stepBetween b
      else .error .malformed
  | .text done mode =>
    if closesText mode b then r.emit (.string done.reverse)
    else
      match stepText done mode b with
      | some lexing => .ok { r with lexing }
      | none => .error .malformed

def run : Reader → Bytes → Except Fault Reader
  | r, [] => .ok r
  | r, b :: bs =>
    match r.step b with
    | .ok r => run r bs
    | .error fault => .error fault

/-- The value, once the text has ended. -/
def result (r : Reader) : Except Fault Json := do
  let r ← match r.lexing with
    | .between => .ok r
    | .number n => if n.complete then r.emit (.scalar n.value) else .error .malformed
    | _ => .error .malformed
  match r.expecting with
  | .nothing value => .ok value
  | _ => .error .malformed

end Reader

/-- The value of a JSON text. -/
def parse (text : Bytes) : Except Fault Json := do (← Reader.run {} text).result

/-- The value of a text, if it is a JSON text. -/
def parse? (text : Bytes) : Option Json := (parse text).toOption

end Parley.Json
