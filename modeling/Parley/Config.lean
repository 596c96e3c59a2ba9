import Parley.Error
import Parley.Url

/-!
The settings of a client and the conditions they have to meet.
-/
namespace Parley

structure Config where
  baseUrl : Bytes := ascii "http://localhost:3000"
  timeout : Millis := 30000
  maxConcurrent : Nat := 32
  keepAlive : Millis := 60000
  /-- How long a resolved address stays valid, in seconds. -/
  dnsCacheTtl : Int := 300
  retryAttempts : Int := 3
  retryBaseDelay : Millis := 100
  maxRetryDelay : Millis := 5000
  connectTimeout : Millis := 5000
  model : Bytes := ascii "test-model"
  maxTokens : Int := 100
  /-- What the idempotency keys of this client start with. -/
  clientTag : Bytes
  /-- The seed of the jitter; zero leaves it to chance. -/
  jitterSeed : UInt64 := 0
  verbose : Bool := false
  deriving DecidableEq

namespace Config

/-- The first condition that a configuration does not meet. -/
inductive Fault where
  | badUrl (fault : Url.Fault) (url : Bytes)
  | unsupportedScheme (scheme : Bytes)
  | timeout
  | maxConcurrent
  | retryAttempts
  | negativeDelay
  | delayOrder
  | connectTimeout
  | maxTokens
  | model
  deriving DecidableEq, Repr

def Fault.message : Fault → Bytes
  | .badUrl fault url => ascii "baseUrl: " ++ fault.message url
  | .unsupportedScheme scheme =>
    ascii "baseUrl: unsupported scheme '" ++ scheme ++ ascii "'"
  | .timeout => ascii "timeout must be positive"
  | .maxConcurrent => ascii "maxConcurrent must be at least 1"
  | .retryAttempts => ascii "retryAttempts must be at least 1"
  | .negativeDelay => ascii "retry delays must not be negative"
  | .delayOrder => ascii "maxRetryDelay must be >= retryBaseDelay"
  | .connectTimeout => ascii "connectTimeout must be positive"
  | .maxTokens => ascii "maxTokens must be at least 1"
  | .model => ascii "model must not be empty"

/-- The base address of a configuration that meets all conditions. -/
def validate (c : Config) : Except Fault Url :=
  match Url.parse c.baseUrl with
  | .error fault => .error (.badUrl fault c.baseUrl)
  | .ok url =>
    if url.scheme ≠ ascii "http" ∧ url.scheme ≠ ascii "https" then
      .error (.unsupportedScheme url.scheme)
    else if c.timeout ≤ 0 then .error .timeout
    else if c.maxConcurrent = 0 then .error .maxConcurrent
    else if c.retryAttempts < 1 then .error .retryAttempts
    else if c.retryBaseDelay < 0 ∨ c.maxRetryDelay < 0 then .error .negativeDelay
    else if c.maxRetryDelay < c.retryBaseDelay then .error .delayOrder
    else if c.connectTimeout ≤ 0 then .error .connectTimeout
    else if c.maxTokens < 1 then .error .maxTokens
    else if c.model = [] then .error .model
    else .ok url

end Config

end Parley
