import Parley.Config
import Parley.Json.Reader
import Parley.Json.Writer

/-!
Chat completions as JSON: the request that asks for one, and the places in a response where its
text, or the reason why there is none, is found.
-/
namespace Parley

/-- One turn of a conversation. -/
structure Message where
  role : Bytes
  content : Bytes
  deriving DecidableEq, Repr

namespace Message

def toJson (m : Message) : Json :=
  .object (Table.ofList [(ascii "role", .string m.role), (ascii "content", .string m.content)])

/-- The role is looked at first. -/
def ofJson (value : Json) : Except Json.Fault Message := do
  let role ← (← value.require (ascii "role")).asString
  let content ← (← value.require (ascii "content")).asString
  return { role, content }

end Message

/-- The request for the next turn, streamed or in one piece. -/
def chatRequest (config : Config) (messages : List Message) (stream : Bool) : Json :=
  .object (Table.ofList (
    [(ascii "model", .string config.model),
      (ascii "messages", .array (messages.map Message.toJson)),
      (ascii "max_tokens", .int config.maxTokens)] ++
    if stream then [(ascii "stream", .bool true)] else []))

/-- `choices[0].<section>.content`, where the value has that shape. -/
def firstChoiceContent? (value : Json) (part : Bytes) : Option Bytes := do
  let choices ← value.member? (ascii "choices")
  let choice ← choices.first?
  let found ← choice.member? part
  let content ← found.member? (ascii "content")
  content.string?

/-- The text of a response in one piece. -/
def assistantText? (response : Json) : Option Bytes :=
  firstChoiceContent? response (ascii "message")

/-- The text that one event of a streamed response adds. -/
def deltaText? (event : Json) : Option Bytes :=
  firstChoiceContent? event (ascii "delta")

/-- What a response body says went wrong. -/
def errorText? (body : Bytes) : Option Bytes := do
  let value ← Json.parse? body
  let error ← value.member? (ascii "error")
  match error with
  | .string s => some s
  | error => (← error.member? (ascii "message")).string?

/-- How much of an error body that explains nothing is quoted. -/
def excerptLength : Nat := 200

/-- What is said of a response whose status is not a success. -/
def statusReason (code : Nat) (body : Bytes) : Reason :=
  match errorText? body with
  | some detail => .status code (some detail)
  | none => .status code (if body = [] then none else some (body.take excerptLength))

/-- The path of the endpoint below the base address. -/
def chatPath : Bytes := ascii "/v1/chat/completions"

end Parley
