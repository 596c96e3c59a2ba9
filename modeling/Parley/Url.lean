import Parley.Bytes

/-!
Addresses of a backend: `scheme://host:port/target`, the port and the target optional.
-/
namespace Parley

structure Url where
  scheme : Bytes
  host : Bytes
  port : Bytes
  target : Bytes
  deriving DecidableEq, Repr

namespace Url

inductive Fault where
  | missingScheme
  | badPort
  | emptyHost
  deriving DecidableEq, Repr

def Fault.message (url : Bytes) : Fault → Bytes
  | .missingScheme => ascii "Invalid URL (missing scheme): " ++ url
  | .badPort => ascii "Invalid URL (bad port): " ++ url
  | .emptyHost => ascii "Invalid URL (empty host): " ++ url

def defaultPort (scheme : Bytes) : Bytes :=
  if scheme = ascii "https" then ascii "443" else ascii "80"

/-- What stands before the first slash, and the rest from that slash on. -/
def splitTarget (s : Bytes) : Bytes × Bytes :=
  s.span (· ≠ byte '/')

/-- Host and port: the port follows the last colon. -/
def parseAuthority (scheme authority : Bytes) : Except Fault (Bytes × Bytes) :=
  match Bytes.splitLast? (byte ':') authority with
  | some (host, port) =>
    if port ≠ [] ∧ port.all Bytes.isDigit then .ok (host, port) else .error .badPort
  | none => .ok (authority, defaultPort scheme)

def parse (url : Bytes) : Except Fault Url :=
  match Bytes.splitFirst? (ascii "://") url with
  | none | some ([], _) => .error .missingScheme
  | some (scheme, rest) => do
    let scheme := Bytes.lower scheme
    let (authority, target) := splitTarget rest
    let (host, port) ← parseAuthority scheme authority
    if host = [] then throw .emptyHost
    return { scheme, host, port, target := if target = [] then [byte '/'] else target }

/-- `host:port`, or the host alone where the port is the scheme's own. -/
def hostHeader (u : Url) : Bytes :=
  if u.port = defaultPort u.scheme then u.host else u.host ++ byte ':' :: u.port

end Url

/-- A path below a base: one slash between them, whatever slashes the base ends in. -/
def joinPath (base path : Bytes) : Bytes :=
  let base := Bytes.trimEnd (· = byte '/') base
  match path with
  | [] => base ++ [byte '/']
  | b :: _ => if b = byte '/' then base ++ path else base ++ byte '/' :: path

end Parley
