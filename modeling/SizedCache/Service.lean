import SizedCache.Cache.Builder
import SizedCache.Request
import SizedCache.Response
import SizedCache.Settings

/-!
# Served caches

A service is a cache of timed texts with the time that values live by default.
Each kind of request is a function from a service to its response and the
service it leaves; a refused request leaves it as it was.
-/

namespace SizedCache

structure Service (σ : Type) where
  cache : Cache String (Timed String) σ
  /-- Seconds. -/
  defaultTtl : UInt64

namespace Service

variable {σ : Type}

def ofSettings (s : Settings) (ambient : Bool) (now : Int64) (notes : σ) :
    Except CacheError (Service σ) := do
  let config ← s.config
  let cache ← Cache.expiringLru config ambient now notes
  return ⟨cache, s.defaultTtl⟩

def set (s : Service σ) (r : SetRequest) : Response × Service σ :=
  match r.fault? with
  | some fault => ((CacheError.invalidRequest fault.message).response, s)
  | none =>
    let v := Timed.lasting r.value s.cache.now (some (r.ttl.getD s.defaultTtl))
    (.ok (Response.setBody r.key), { s with cache := (s.cache.put r.key v).2 })

def get (s : Service σ) (key : String) : Response × Service σ :=
  let (found, cache) := s.cache.getLive key
  let r :=
    match found with
    | .live v => .ok (Response.getBody key v.value (v.remainingSeconds cache.now))
    | .expired => (CacheError.expired key).response
    | .absent => (CacheError.notFound key).response
  (r, { s with cache })

def delete (s : Service σ) (key : String) : Response × Service σ :=
  let (old, cache) := s.cache.remove key
  let r :=
    if old.isSome then .ok (Response.deleteBody key) else (CacheError.notFound key).response
  (r, { s with cache })

def stats (s : Service σ) : Response :=
  .ok (Response.statsBody s.cache.stats s.cache.size s.cache.config.maxCapacity
    s.cache.config.evictTo)

def cleanup (s : Service σ) : Response × Service σ :=
  let (r, cache) := s.cache.forceCleanup
  let response :=
    match r with
    | .ok outcome => .ok (Response.cleanupBody outcome)
    | .error _ => (CacheError.internal "cleanup pass failed").response
  (response, { s with cache })

def health (s : Service σ) : Response := .ok (Response.healthBody s.cache.now)

end Service

end SizedCache
