import SizedCache.Failure

/-!
# Reports of cleanup attempts

A cleanup attempt either completes a pass and reports its counts, or is skipped
because another pass is in progress.
-/

namespace SizedCache

structure Report where
  expired : Nat := 0
  evicted : Nat := 0
  remaining : Nat := 0
deriving DecidableEq, Repr

def Report.removed (r : Report) : Nat := r.expired + r.evicted

inductive Outcome where
  | completed (report : Report)
  | skipped
deriving DecidableEq, Repr

inductive Trigger where
  /-- A short delay after a write found the cache above its target size. -/
  | onWrite
  | periodic
deriving DecidableEq, Repr

def Trigger.name : Trigger → String
  | .onWrite => "on-write"
  | .periodic => "periodic"

inductive Origin where
  | caller
  | trigger (t : Trigger)
deriving DecidableEq, Repr

end SizedCache
