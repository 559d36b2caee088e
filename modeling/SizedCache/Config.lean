/-!
# Size limits

The limits of a cache, fixed when it is built: `maxCapacity` is the ceiling
above which a cleanup pass evicts, and `evictTo` the size it evicts down to,
which is also the size above which a write asks for a pass.
-/

namespace SizedCache

structure Config where
  /-- A sizing hint, without effect on behaviour. -/
  initialCapacity : Nat
  maxCapacity : Nat
  evictTo : Nat
  /-- Seconds between periodic sweeps; 0 turns them off. -/
  sweepSecs : Nat
deriving DecidableEq, Repr

namespace Config

structure Valid (c : Config) : Prop where
  maxCapacity_pos : 0 < c.maxCapacity
  evictTo_le : c.evictTo ≤ c.maxCapacity

inductive Fault where
  | noRoom
  | targetAboveMax (evictTo maxCapacity : Nat)
deriving DecidableEq, Repr

def Fault.message : Fault → String
  | .noRoom => "max_capacity must be greater than zero"
  | .targetAboveMax target max =>
    "evict_to_capacity (" ++ toString target ++ ") exceeds max_capacity (" ++ toString max ++ ")"

/-- A missing ceiling is reported before a target above it. -/
def fault? (c : Config) : Option Fault :=
  if c.maxCapacity = 0 then some .noRoom
  else if c.maxCapacity < c.evictTo then some (.targetAboveMax c.evictTo c.maxCapacity)
  else none

theorem fault?_eq_none_iff {c : Config} : c.fault? = none ↔ c.Valid := by
  unfold fault?
  constructor
  · intro h
    split at h
    · simp at h
    · split at h
      · simp at h
      · exact ⟨by omega, by omega⟩
  · intro ⟨hpos, hle⟩
    rw [if_neg (by omega), if_neg (by omega)]

def sweepsPeriodically (c : Config) : Bool := 0 < c.sweepSecs

def text (c : Config) : String :=
  "CacheConfig \x7b initial_capacity: " ++ toString c.initialCapacity ++
    ", max_capacity: " ++ toString c.maxCapacity ++
    ", evict_to_capacity: " ++ toString c.evictTo ++
    ", cleanup_interval_secs: " ++ toString c.sweepSecs ++ " \x7d"

end Config

end SizedCache
