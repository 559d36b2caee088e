/-!
# Statistics

Counters of lookups and cleanup attempts. They are 64-bit words and wrap.
-/

namespace SizedCache

structure Stats where
  hits : UInt64 := 0
  misses : UInt64 := 0
  expirations : UInt64 := 0
  evictions : UInt64 := 0
  runs : UInt64 := 0
  /-- Attempts that found a pass in progress. -/
  skipped : UInt64 := 0
deriving DecidableEq, Repr

namespace Stats

def hit (s : Stats) : Stats := { s with hits := s.hits + 1 }

def miss (s : Stats) : Stats := { s with misses := s.misses + 1 }

def skip (s : Stats) : Stats := { s with skipped := s.skipped + 1 }

def pass (s : Stats) (expired evicted : Nat) : Stats :=
  { s with
    runs := s.runs + 1
    expirations := s.expirations + UInt64.ofNat expired
    evictions := s.evictions + UInt64.ofNat evicted }

/-- The share of lookups that hit, 0 before the first one. -/
def hitRate (s : Stats) : Float :=
  let lookups := s.hits + s.misses
  if lookups = 0 then 0 else s.hits.toFloat / lookups.toFloat

end Stats

end SizedCache
