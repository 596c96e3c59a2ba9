import Parley.Time
import Parley.Bytes

/-!
What a verbose client tells about its work.
-/
namespace Parley

inductive Notice where
  | malformedFrame (size : Nat)
  /-- A stream was complete, but its connection cannot be used again. -/
  | notReusable (why : Bytes)
  | notRetrying (why : Bytes)
  | retrying (why : Bytes) (attempt : Nat) (attempts : Int) (wait : Millis) (key : Bytes)
  | streamOpen (key : Bytes) (attempt : Nat)
  | connected (host : Bytes)
  | wentStale (code : Bytes)
  | closedIdle (count : Nat)
  deriving DecidableEq, Repr

/-- One line of text, the newline included. -/
def Notice.text (n : Notice) : Bytes :=
  (match n with
    | .malformedFrame size =>
      ascii "[Stream] Dropping malformed frame (" ++ Bytes.ofNat size ++ ascii " bytes)"
    | .notReusable why => ascii "[Stream] Connection not reusable after [DONE]: " ++ why
    | .notRetrying why => ascii "[ChatClient] Not retrying: " ++ why
    | .retrying why attempt attempts wait key =>
      ascii "[ChatClient] " ++ why ++ ascii " - attempt " ++ Bytes.ofNat attempt ++ ascii "/" ++
        Bytes.ofInt attempts ++ ascii ", retrying in " ++ Bytes.ofInt wait ++ ascii " ms (key " ++
        key ++ ascii ")"
    | .streamOpen key attempt =>
      ascii "[ChatClient] Stream open (key " ++ key ++ ascii ", attempt " ++
        Bytes.ofNat attempt ++ ascii ")"
    | .connected host => ascii "[Transport] Opened connection to " ++ host
    | .wentStale code =>
      ascii "[Transport] Pooled connection went stale (" ++ code ++ ascii "); reconnecting"
    | .closedIdle count =>
      ascii "[Transport] Closed " ++ Bytes.ofNat count ++ ascii " idle connection(s)") ++
  [0x0A]

end Parley
