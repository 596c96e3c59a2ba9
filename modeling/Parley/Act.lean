import Parley.Chat
import Parley.Reply

/-!
What a caller can do with a client, a session or a semaphore, and what it is answered. Streams,
bodies and permits are held under names. Acts are data, so that one can be put off to a later
instant.
-/
namespace Parley

inductive Act where
  -- calls
  | chat (messages : List Message) (deadline : Option Nanos)
  | stream (name : Bytes) (messages : List Message) (deadline : Option Nanos)
  | closeSession
  | shutdown
  /-- More answers for a scripted transport. -/
  | push (replies : List Reply)
  -- streams of events
  | openStream (name : Bytes) (chunks : List Chunk) (deadline : Nanos) (key : Bytes)
      (startedAgo : Nanos) (permit : Bool)
  | next (name : Bytes) (times : Nat)
  | close (name : Bytes)
  | drop (name : Bytes)
  | move (name dest : Bytes)
  -- the state that calls share
  | sleep (duration : Millis)
  | isShutdown
  | delay (attempt : Int)
  -- permits
  | acquire
  | tryAcquire (wait : Nanos)
  | release
  | permit (name : Bytes) (wait : Nanos)
  | permitRelease (name : Bytes)
  | permitDrop (name : Bytes)
  | permitMove (name dest : Bytes)
  -- exchanges on a session
  | send (request : Request) (timeout : Millis)
  | sendStreaming (name : Bytes) (request : Request) (timeout : Millis)
  | read (name : Bytes) (capacity : Nat) (deadline : Nanos)
  | readAll (name : Bytes) (deadline : Nanos)
  | dropBody (name : Bytes)
  | destroySession
  -- time
  | advance (duration : Nanos)
  /-- Puts an act off; it happens while something waits. -/
  | later (delay : Nanos) (act : Act)

namespace Act

/-- How many acts are put off, one inside the other. -/
def postponed : Act → Nat
  | .later _ act => act.postponed + 1
  | _ => 0

end Act

/-- A response in one piece, decoded. -/
structure Completion where
  status : Nat
  attempts : Nat
  key : Bytes
  body : Json

/-- What asking a stream for its next event comes to. -/
inductive Pulled where
  | event (value : Json)
  | ended
  | failed (failure : Failure)

inductive Answer where
  | done
  | failed (failure : Failure)
  | yes (value : Bool)
  | wait (duration : Millis)
  | completion (c : Completion)
  /-- A stream is open, under an idempotency key. -/
  | opened (key : Bytes)
  /-- No permit was free. -/
  | full
  | pulled (results : List Pulled) (finished : Bool)
  /-- Whether the stream moved from and the one moved to are finished. -/
  | moved (source target : Bool)
  | response (r : Response)
  | head (status : Nat) (headers : Headers)
  | data (bytes : Bytes)
  | noBody
  | wouldBlock

end Parley
