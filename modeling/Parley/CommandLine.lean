import Parley.Scenario
import Parley.Thread

/-!
The command line: a number of calls with one prompt, their texts, and a report of what was counted.
Texts and the report go to the standard output, failures and notices to the standard error.

All calls are made at the same time. They begin and go on in any order, each with a deadline of its
own, and what they come to is shown in the order of their numbers; which of all this happens next is
a `Choice`.
-/
namespace Parley.CommandLine

structure Options where
  config : Config := { clientTag := ascii "cli" }
  prompt : Bytes := ascii "Hello"
  requests : Int := 1
  stream : Bool := false
  deriving DecidableEq

/-- Why no call is made. -/
inductive Stop where
  | help
  | unknown (argument : Bytes)
  /-- An argument is no number, or one out of range; the conversion has this name. -/
  | badNumber (conversion : Bytes)
  deriving DecidableEq

/-- The number types of the options. -/
inductive NumberType where
  | int
  | long
  | unsignedLong

namespace NumberType

def conversion : NumberType → Bytes
  | .int => ascii "stoi"
  | .long => ascii "stol"
  | .unsignedLong => ascii "stoul"

/-- The number of a type that a sign and a magnitude stand for. A negative number becomes an
unsigned one by wrapping around. -/
def ofMagnitude? (negative : Bool) (magnitude : Nat) : NumberType → Option Int
  | .int => signed 0x80000000
  | .long => signed 0x8000000000000000
  | .unsignedLong =>
    if magnitude < 0x10000000000000000 then
      some (if negative then (-(magnitude : Int)) % 0x10000000000000000 else magnitude)
    else none
where
  /-- The numbers from `-limit` up to, but not including, `limit`. -/
  signed (limit : Nat) : Option Int :=
    if negative then if magnitude ≤ limit then some (-(magnitude : Int)) else none
    else if magnitude < limit then some magnitude else none

def isSpace (b : UInt8) : Bool := b = 0x20 || (0x09 ≤ b && b ≤ 0x0D)

/-- The number a text starts with, after blanks and with an optional sign. What follows the digits
is ignored. -/
def read? (type : NumberType) (text : Bytes) : Option Int :=
  let text := text.dropWhile isSpace
  let (negative, text) :=
    match text with
    | b :: rest =>
      if b = byte '-' then (true, rest) else if b = byte '+' then (false, rest) else (false, text)
    | [] => (false, text)
  let digits := text.takeWhile Bytes.isDigit
  if digits = [] then none else ofMagnitude? negative (Bytes.decimalValue digits) type

def read (type : NumberType) (text : Bytes) : Except Stop Int :=
  match read? type text with
  | some n => .ok n
  | none => .error (.badNumber type.conversion)

end NumberType

/-- What an option without a value changes. -/
def flag? (argument : Bytes) (o : Options) : Option (Except Stop Options) :=
  if argument = ascii "--stream" then some (.ok { o with stream := true })
  else if argument = ascii "--verbose" then
    some (.ok { o with config := { o.config with verbose := true } })
  else if argument = ascii "--help" ∨ argument = ascii "-h" then some (.error .help)
  else none

/-- What an option with a value changes. -/
def valued? (argument value : Bytes) (o : Options) : Option (Except Stop Options) :=
  let config (change : Config → Config) : Options := { o with config := change o.config }
  if argument = ascii "--base-url" then
    some (.ok (config fun c => { c with baseUrl := value }))
  else if argument = ascii "--model" then some (.ok (config fun c => { c with model := value }))
  else if argument = ascii "--prompt" then some (.ok { o with prompt := value })
  else if argument = ascii "--max-tokens" then
    some ((NumberType.int.read value).map fun n => config fun c => { c with maxTokens := n })
  else if argument = ascii "--requests" then
    some ((NumberType.int.read value).map fun n => { o with requests := n })
  else if argument = ascii "--max-concurrent" then
    some ((NumberType.unsignedLong.read value).map fun n =>
      config fun c => { c with maxConcurrent := n.toNat })
  else if argument = ascii "--timeout-ms" then
    some ((NumberType.long.read value).map fun n => config fun c => { c with timeout := n })
  else if argument = ascii "--retries" then
    some ((NumberType.int.read value).map fun n => config fun c => { c with retryAttempts := n })
  else none

/-- Reads the arguments from left to right. An option without the value it needs is unknown. -/
def parseFrom (o : Options) : List Bytes → Except Stop Options
  | [] => .ok o
  | [argument] =>
    match flag? argument o with
    | some result => result
    | none => .error (.unknown argument)
  | argument :: value :: rest =>
    match flag? argument o with
    | some (.ok o) => parseFrom o (value :: rest)
    | some (.error stop) => .error stop
    | none =>
      match valued? argument value o with
      | some (.ok o) => parseFrom o rest
      | some (.error stop) => .error stop
      | none => .error (.unknown argument)

/-- The options that arguments ask for. An argument ends before its first zero byte. -/
def parse (arguments : List Bytes) : Except Stop Options :=
  parseFrom {} (arguments.map Bytes.beforeZero)

def usage : Bytes :=
  ascii ("Usage: llm_client_cli [options]\n\n" ++
    "Options:\n" ++
    "  --base-url URL       Backend base URL          (default: http://localhost:3000)\n" ++
    "  --model NAME         Model id                  (default: test-model)\n" ++
    "  --prompt TEXT        User message              (default: Hello)\n" ++
    "  --max-tokens N       max_tokens in the request (default: 100)\n" ++
    "  --stream             Use the streaming endpoint\n" ++
    "  --requests N         Concurrent calls to issue (default: 1)\n" ++
    "  --max-concurrent N   In-flight call limit      (default: 32)\n" ++
    "  --timeout-ms N       Per-call deadline in ms   (default: 30000)\n" ++
    "  --retries N          Attempts per call         (default: 3)\n" ++
    "  --verbose            Enable verbose diagnostics\n" ++
    "  --help, -h           Show this message\n")

def banner (o : Options) : Bytes :=
  ascii "=== llm_client ===\n" ++
  ascii "Base URL:        " ++ o.config.baseUrl ++
  ascii "\nModel:           " ++ o.config.model ++
  ascii "\nMode:            " ++ ascii (if o.stream then "stream" else "unary") ++
  ascii "\nRequests:        " ++ Bytes.ofInt o.requests ++
  ascii "\nMax concurrent:  " ++ Bytes.ofNat o.config.maxConcurrent ++
  ascii "\nTimeout:         " ++ Bytes.ofInt o.config.timeout ++
  ascii " ms\n==================\n\n"

def report (c : ClientState) : Bytes :=
  ascii "\n=== Summary Report ===\n" ++
  ascii "Calls:               " ++ Bytes.ofNat c.usage.totalCalls ++
  ascii "\nSucceeded:           " ++ Bytes.ofNat c.usage.successfulCalls ++
  ascii "\nFailed:              " ++ Bytes.ofNat c.usage.failedCalls ++
  ascii "\nAttempts:            " ++ Bytes.ofNat c.usage.totalAttempts ++
  ascii "\nRetries:             " ++ Bytes.ofNat c.usage.totalRetries ++
  ascii "\nRate limited:        " ++ Bytes.ofNat c.usage.rateLimited ++
  ascii "\nEvents delivered:    " ++ Bytes.ofNat c.usage.eventsDelivered ++
  ascii "\nMalformed frames:    " ++ Bytes.ofNat c.usage.malformedFrames ++
  ascii "\nPeak in flight:      " ++ Bytes.ofNat c.semaphore.peak ++
  ascii "\n======================\n"

/-- Joins the texts of a stream's events, of which there are at most `events`. -/
def collect : Nat → Bytes → EventStream → Flow Bytes
  | 0, text, s => do
    s.close
    return text
  | events + 1, text, s => do
    let (pulled, s) ← EventStream.next s
    match pulled with
    | .event value => collect events (text ++ (deltaText? value).getD []) s
    | .ended => return text
    | .failed f => throw f

/-- The text that one call brings. An event takes at least one byte of the body, and one of the
asks brings none. -/
def call (o : Options) : Flow Bytes := do
  let messages := [{ role := ascii "user", content := o.prompt : Message }]
  let deadline := Client.defaultDeadline (← get)
  if o.stream then
    match ← Client.stream messages deadline with
    | (_, .finished) => return []
    | (_, .unfinished s) => collect (s.source.remaining + 1) [] (.unfinished s)
  else
    let completion ← Client.chat messages deadline
    match assistantText? completion.body with
    | some text => return text
    | none =>
      match completion.body.write with
      | .ok text => return text
      | .error fault => throw (.json fault)

/-- How an entry begins. -/
def label (number : Nat) : Bytes := Bytes.padLeft 4 (Bytes.ofNat number) ++ ascii "  "

def told (notices : List Notice) : Bytes := notices.flatMap Notice.text

/-- What has been put out of the results and the notices. -/
structure Shown where
  stdout : Bytes := []
  stderr : Bytes := []
  /-- How many results there are entries of, and how many notices were put out. -/
  results : Nat := 0
  notices : Nat := 0
  failed : Nat := 0
  /-- The failure that nothing more is shown after. -/
  fatal : Option Failure := none

namespace Shown

/-- Puts out the notices that were told since the last time. -/
def hear (s : Shown) (notices : List Notice) : Shown :=
  { s with
    stderr := s.stderr ++ told (notices.drop s.notices)
    notices := notices.length }

/-- Puts out the next result, on a line of its own. -/
def enter (s : Shown) : Except Failure Bytes → Shown
  | .ok text =>
    { s with
      stdout := s.stdout ++ label (s.results + 1) ++ text ++ [0x0A]
      results := s.results + 1 }
  | .error (.client e) =>
    { s with
      stderr := s.stderr ++ label (s.results + 1) ++ ascii "failed: " ++ e.message ++
        ascii " (elapsed " ++ Bytes.ofInt e.elapsed ++ ascii " ms)\n"
      results := s.results + 1
      failed := s.failed + 1 }
  | .error f => { s with fatal := some f }

/-- Shows the next result, after the notices told so far. -/
def next (notices : List Notice) (s : Shown) (result : Except Failure Bytes) : Shown :=
  if s.fatal.isSome then s else (s.hear notices).enter result

end Shown

/-- What happens next while calls are made: time passes, a call goes on, or the next result is shown
if it is there. -/
inductive Choice where
  | elapse (t : Instant)
  | call (index : Nat)
  | result

/-- Calls that are being made at the same time, and what has been shown of them. -/
structure Calls where
  world : World
  threads : List (Thread (Except Failure Bytes))
  shown : Shown := {}

namespace Calls

/-- The calls that the options ask for; none has begun. -/
def start (o : Options) (w : World) : Calls where
  world := w
  threads := List.replicate o.requests.toNat (.unbegun (call o).run)

def step (s : Calls) : Choice → Calls
  | .elapse t => { s with world := s.world.advanceTo t }
  | .call index =>
    match s.threads[index]? with
    | some thread =>
      let (thread, world) := thread.go s.world
      { s with world, threads := s.threads.set index thread }
    | none => s
  | .result =>
    match s.threads[s.shown.results]? with
    | some (.ended result) => { s with shown := s.shown.next s.world.notices result }
    | _ => s

/-- The calls after a number of choices. -/
def steps (s : Calls) (choices : List Choice) : Calls := choices.foldl step s

/-- What the calls come to. Those that have not ended do so one after the other. -/
def finish (s : Calls) : List (Except Failure Bytes) × World := Thread.finishAll s.threads s.world

/-- What has been put out in the end, when these are the results and the notices told. -/
def showAll (s : Calls) (results : List (Except Failure Bytes)) (notices : List Notice) : Shown :=
  (results.drop s.shown.results).foldl (Shown.next notices) s.shown

end Calls

structure Output where
  exitCode : Nat
  stdout : Bytes
  stderr : Bytes
  /-- The world after the client has ended, if there was one. -/
  world : Option World := none

def fatal (stdout stderr message : Bytes) (world : Option World) : Output where
  exitCode := 1
  stdout
  stderr := stderr ++ ascii "Fatal error: " ++ message ++ [0x0A]
  world

/-- What is put out when all calls have ended. The client ends after the report. -/
def Calls.output (o : Options) (s : Calls) : Output :=
  let (results, w) := s.finish
  let shown := s.showAll results w.notices
  let (_, last) := w.run Job.endClient
  let stdout := banner o ++ shown.stdout
  let stderr := shown.stderr ++ told (last.notices.drop shown.notices)
  match shown.fatal with
  | some f => fatal stdout stderr f.message (some last)
  | none => {
      exitCode := if shown.failed = 0 then 0 else 2
      stdout := stdout ++ report w.client
      stderr
      world := some last }

/-- Makes the calls that the options ask for. They begin and go on as it is chosen; what is left of
them then is done one after the other. -/
def runWith (o : Options) (script : Script) (chance : UInt64) (choices : List Choice) : Output :=
  match World.ofClient o.config chance script with
  | .error f => fatal (banner o) [] f.message none
  | .ok w =>
    if o.requests < 0 then
      let (_, w) := w.run Job.endClient
      fatal (banner o) (told w.notices) (ascii "vector::reserve") (some w)
    else ((Calls.start o w).steps choices).output o

/-- What the command line does with its arguments. Without a choice the calls are made one after the
other. -/
def run (arguments : List Bytes) (script : Script) (chance : UInt64)
    (choices : List Choice := []) : Output :=
  match parse arguments with
  | .ok o => runWith o script chance choices
  | .error .help => { exitCode := 0, stdout := usage, stderr := [] }
  | .error (.unknown argument) => {
      exitCode := 1
      stdout := usage
      stderr := ascii "Unknown argument: " ++ argument ++ ascii "\n\n" }
  | .error (.badNumber conversion) => fatal [] [] conversion none

end Parley.CommandLine
