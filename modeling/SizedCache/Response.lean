import SizedCache.Config
import SizedCache.Error
import SizedCache.Report
import SizedCache.Stats
import SizedCache.Timestamp

/-!
# Responses

What a served cache answers: a status with some headers, and for most answers a
JSON object whose members are plain values. `body` functions give the object of
each kind of answer.
-/

namespace SizedCache

inductive Plain where
  | text (s : String)
  | number (n : Nat)
  | ratio (x : Float)
deriving Repr

abbrev Body := List (String × Plain)

inductive Content where
  | none
  /-- Text for people to read, whose wording is free. -/
  | note
  | json (body : Body)
deriving Repr

structure Response where
  status : Nat
  content : Content := .none
  headersOnly : Bool := false
  /-- The methods of the route, for a request with another one. -/
  allow : List String := []
  allowOrigin : Option String := none
deriving Repr

namespace Response

def ok (body : Body) : Response := { status := 200, content := .json body }

def refused (status : Nat) : Response := { status, content := .note }

-- ---------------------------------------------------------------------------
-- Bodies
-- ---------------------------------------------------------------------------

def errorBody (message : String) : Body := [("error", .text message)]

/-- The `ttl` of a value that never expires is left out. -/
def getBody (key value : String) (ttl : Option UInt64) : Body :=
  [("key", .text key), ("value", .text value)] ++
    (ttl.map fun s => ("ttl", Plain.number s.toNat)).toList

def setBody (key : String) : Body :=
  [("message", .text ("Key '" ++ key ++ "' set successfully")), ("key", .text key)]

def deleteBody (key : String) : Body :=
  [("message", .text ("Key '" ++ key ++ "' deleted successfully")), ("key", .text key)]

def statsBody (s : Stats) (total maxCapacity evictTo : Nat) : Body :=
  [("hits", .number s.hits.toNat), ("misses", .number s.misses.toNat),
    ("evictions", .number s.evictions.toNat), ("expirations", .number s.expirations.toNat),
    ("cleanup_runs", .number s.runs.toNat), ("cleanup_skipped", .number s.skipped.toNat),
    ("total_entries", .number total), ("max_capacity", .number maxCapacity),
    ("evict_to_capacity", .number evictTo), ("hit_rate", .ratio s.hitRate)]

/-- What is left is told only by a pass that ran. -/
def cleanupBody : Outcome → Body
  | .completed r =>
    [("status", .text "completed"), ("expired", .number r.expired),
      ("evicted", .number r.evicted), ("remaining", .number r.remaining)]
  | .skipped => [("status", .text "skipped"), ("expired", .number 0), ("evicted", .number 0)]

def healthBody (now : Int64) : Body :=
  [("status", .text "healthy"), ("timestamp", .text (Timestamp.text now))]

end Response

def CacheError.response (e : CacheError) : Response :=
  { status := e.status, content := .json (Response.errorBody e.message) }

end SizedCache
