import SizedCache.Config

/-!
# Errors

What can go wrong in building, calling or serving a cache, with the one wording
of each error and the status under which it is served.
-/

namespace SizedCache

inductive CacheError where
  | invalidConfig (reason : String)
  | missingRuntime
  | notFound (key : String)
  | expired (key : String)
  | invalidRequest (reason : String)
  | internal (reason : String)
deriving DecidableEq, Repr

namespace CacheError

def message : CacheError → String
  | .invalidConfig reason => "Invalid configuration: " ++ reason
  | .missingRuntime => "Periodic cleanup requires a running tokio runtime"
  | .notFound key => "Key not found: " ++ key
  | .expired key => "Key expired: " ++ key
  | .invalidRequest reason => "Invalid request: " ++ reason
  | .internal reason => "Internal error: " ++ reason

def status : CacheError → Nat
  | .notFound _ | .expired _ => 404
  | .invalidRequest _ => 400
  | .invalidConfig _ | .missingRuntime | .internal _ => 500

end CacheError

def Config.check (c : Config) : Except CacheError Config :=
  match c.fault? with
  | some f => .error (.invalidConfig f.message)
  | none => .ok c

end SizedCache
