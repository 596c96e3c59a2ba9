import Parley.Chat

/-!
JSON texts that are written, and texts that are read. A value has a text exactly if all its strings
are well-formed; a text that cannot be read has no value, or has a number that no double holds.
-/
namespace Parley

namespace Json

mutual

/-- Whether all strings of a value, the names of members included, are well-formed. -/
def isText : Json → Bool
  | .string s => Utf8.wellFormed s
  | .array items => areTexts items
  | .object members => areNamed members
  | _ => true

def areTexts : List Json → Bool
  | [] => true
  | item :: items => item.isText && areTexts items

def areNamed : List (Bytes × Json) → Bool
  | [] => true
  | (name, value) :: members => Utf8.wellFormed name && (value.isText && areNamed members)

end

/-- There is a text if a condition holds, and only then. -/
def Writes (ok : Bool) (text : Except Fault Bytes) : Prop :=
  match text with
  | .ok _ => ok = true
  | .error fault => ok = false ∧ fault = .wrongType

theorem writes_string (s : Bytes) : Writes (Utf8.wellFormed s) (writeString s) := by
  unfold writeString
  cases formed : Utf8.wellFormed s with
  | true => rfl
  | false => exact ⟨rfl, rfl⟩

theorem Writes.bind {ok ok' : Bool} {text : Except Fault Bytes} {k : Bytes → Except Fault Bytes}
    (h : Writes ok text) (next : ∀ b, Writes ok' (k b)) : Writes (ok && ok') (text >>= k) := by
  cases text with
  | ok b =>
    rw [show ok = true from h]
    exact next b
  | error fault =>
    obtain ⟨rfl, rfl⟩ := h
    exact ⟨rfl, rfl⟩

theorem Writes.map {ok : Bool} {text : Except Fault Bytes} {f : Bytes → Bytes}
    (h : Writes ok text) : Writes ok (text >>= fun b => .ok (f b)) := by
  have ends (b : Bytes) : Writes true (.ok (f b)) := by rfl
  have mapped := h.bind ends
  rwa [Bool.and_true] at mapped

mutual

/-- A value has a text if all its strings are well-formed, and only then. -/
theorem writes (value : Json) : Writes value.isText value.write := by
  cases value with
  | string s => exact writes_string s
  | array items => exact (writes_items items).map
  | object members => exact (writes_members members).map
  | bool b => cases b <;> rfl
  | null | int | double => rfl

theorem writes_items (items : List Json) : Writes (areTexts items) (writeItems items) := by
  cases items with
  | nil => rfl
  | cons item items =>
    cases items with
    | nil =>
      rw [areTexts, areTexts, Bool.and_true]
      exact writes item
    | cons next items => exact (writes item).bind fun _ => (writes_items (next :: items)).map

theorem writes_members (members : List (Bytes × Json)) :
    Writes (areNamed members) (writeMembers members) := by
  cases members with
  | nil => rfl
  | cons member members =>
    obtain ⟨name, value⟩ := member
    cases members with
    | nil =>
      rw [areNamed, areNamed, Bool.and_true]
      exact (writes_string name).bind fun _ => (writes value).map
    | cons next members =>
      refine (writes_string name).bind fun _ => (writes value).bind fun _ => ?_
      exact (writes_members (next :: members)).map

end

end Json

/-- Whether the texts of a message are well-formed. -/
def Message.isText (m : Message) : Bool := Utf8.wellFormed m.content && Utf8.wellFormed m.role

theorem Message.isText_toJson (m : Message) : m.toJson.isText = m.isText := by
  have members : m.toJson =
      .object [(ascii "content", .string m.content), (ascii "role", .string m.role)] := by rfl
  have names : Utf8.wellFormed (ascii "content") ∧ Utf8.wellFormed (ascii "role") := by decide
  simp [members, Json.isText, Json.areNamed, names, isText]

theorem Message.areTexts_toJson (messages : List Message) :
    Json.areTexts (messages.map toJson) = messages.all isText := by
  induction messages with
  | nil => rfl
  | cons m messages ih => rw [List.map_cons, Json.areTexts, isText_toJson, ih, List.all_cons]

/-- Whether the texts of a request are well-formed. -/
def Config.areTexts (c : Config) (messages : List Message) : Bool :=
  messages.all Message.isText && Utf8.wellFormed c.model

/-- The members of a request, in the order of their names. -/
def Config.asked (c : Config) (messages : List Message) (stream : Bool) : Table Json :=
  [(ascii "max_tokens", .int c.maxTokens),
    (ascii "messages", .array (messages.map Message.toJson)),
    (ascii "model", .string c.model)] ++
  if stream then [(ascii "stream", .bool true)] else []

theorem chatRequest_eq (c : Config) (messages : List Message) (stream : Bool) :
    chatRequest c messages stream = .object (c.asked messages stream) := by
  cases stream <;> rfl

theorem isText_chatRequest (c : Config) (messages : List Message) (stream : Bool) :
    (chatRequest c messages stream).isText = c.areTexts messages := by
  have names : Utf8.wellFormed (ascii "max_tokens") ∧ Utf8.wellFormed (ascii "messages") ∧
      Utf8.wellFormed (ascii "model") ∧ Utf8.wellFormed (ascii "stream") := by decide
  rw [chatRequest_eq]
  cases stream <;> simp [Config.asked, Json.isText, Json.areNamed, names,
    Message.areTexts_toJson, Config.areTexts]

/-! ### Reading -/

namespace Json

variable {α β : Type}

/-- What cannot be read is no text, or has a number in it that is too large. -/
def Reads (r : Except Fault α) : Prop := ∀ fault, r = .error fault → fault ≠ .wrongType

theorem Reads.ok (a : α) : Reads (.ok a) := nofun

theorem Reads.malformed : Reads (.error .malformed : Except Fault α) := by
  rintro _ ⟨⟩
  exact nofun

theorem Reads.bind {r : Except Fault α} {k : α → Except Fault β} (h : Reads r)
    (next : ∀ a, Reads (k a)) : Reads (r >>= k) := by
  cases r with
  | ok a => exact next a
  | error fault =>
    rintro _ ⟨⟩
    exact h fault rfl

theorem Reads.ite {c : Prop} [Decidable c] {r r' : Except Fault α} (yes : Reads r)
    (no : Reads r') : Reads (if c then r else r') := by
  split
  · exact yes
  · exact no

theorem Numeral.reads_value (n : Numeral) : Reads n.value := by
  have tooLarge : Reads (.error .outOfRange : Except Fault Json) := by
    rintro _ ⟨⟩
    exact nofun
  exact .ite (.ok _) (.ite tooLarge (.ok _))

namespace Reader

theorem reads_deliver (opened : List Frame) (value : Json) : Reads (deliver opened value) := by
  unfold deliver
  split
  · exact .ok _
  · exact .ok _
  · exact .ok _
  · exact .malformed

/-- A token brings no other faults than its value. -/
theorem reads_take {token : Token} (scalar : ∀ value, token = .scalar value → Reads value)
    (expecting : Expecting) (opened : List Frame) : Reads (take expecting opened token) := by
  unfold take
  split
  all_goals
    first
      | exact .ok _
      | exact .malformed
      | exact reads_deliver _ _
      | exact (scalar _ rfl).bind fun _ => reads_deliver _ _

theorem reads_emit {token : Token} (scalar : ∀ value, token = .scalar value → Reads value)
    (r : Reader) : Reads (r.emit token) :=
  (reads_take scalar _ _).bind fun _ => .ok _

theorem reads_mark (r : Reader) (token : Token) (plain : ∀ value, token ≠ .scalar value) :
    Reads (r.emit token) :=
  reads_emit (fun value same => absurd same (plain value)) r

theorem reads_stepBetween (r : Reader) (b : UInt8) : Reads (r.stepBetween b) := by
  unfold stepBetween
  refine .ite (.ok _) (.ite (reads_mark r _ nofun) (.ite (reads_mark r _ nofun) ?_))
  refine .ite (reads_mark r _ nofun) (.ite (reads_mark r _ nofun) ?_)
  refine .ite (reads_mark r _ nofun) (.ite (reads_mark r _ nofun) (.ite (.ok _) ?_))
  refine .ite (.ok _) (.ite (.ok _) (.ite (.ok _) ?_))
  split
  · exact .ok _
  · exact .malformed

theorem reads_step (r : Reader) (b : UInt8) : Reads (r.step b) := by
  unfold step
  split
  · exact reads_stepBetween r b
  · exact .malformed
  · refine .ite ?_ .malformed
    split
    · refine reads_emit ?_ r
      rintro _ ⟨⟩
      exact .ok _
    · exact .ok _
  · split
    · exact .ok _
    · refine .ite (.bind (reads_emit ?_ r) fun r => reads_stepBetween r b) .malformed
      rintro _ ⟨⟩
      exact Numeral.reads_value _
  · refine .ite (reads_mark r (.string _) nofun) ?_
    split
    · exact .ok _
    · exact .malformed

theorem reads_run (r : Reader) (text : Bytes) : Reads (run r text) := by
  induction text generalizing r with
  | nil => exact .ok r
  | cons b text ih =>
    have stepped := reads_step r b
    rw [run]
    cases next : r.step b with
    | ok r => exact ih r
    | error fault =>
      rintro _ ⟨⟩
      exact stepped fault next

theorem reads_result (r : Reader) : Reads r.result := by
  unfold result
  simp only
  split
  · refine .bind (.ok r) fun r => ?_
    split
    · exact .ok _
    · exact .malformed
  · rename_i n _
    split
    · refine .bind (reads_emit ?_ r) fun r => ?_
      · rintro _ ⟨⟩
        exact n.reads_value
      · split
        · exact .ok _
        · exact .malformed
    · exact .malformed
  · exact .malformed

end Reader

/-- What cannot be read is no text, or has a number in it that is too large. -/
theorem reads_parse (text : Bytes) : Reads (parse text) :=
  (Reader.reads_run {} text).bind fun r => r.reads_result

end Json

end Parley
