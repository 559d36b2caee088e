import SizedCache.Config
import SizedCache.Report

/-!
# Logged events

Everything the cache logs, with the one wording of each event. The fields of an
event are names with their values as text.
-/

namespace SizedCache

inductive Level where
  | error
  | warn
  | info
  | debug
deriving DecidableEq, Repr

inductive Event where
  | created (config : Config)
  /-- A write asked for an attempt where no timers run. -/
  | deferred
  | scheduled
  | reconciled (pruned adopted : Nat)
  | leftAboveMax (remaining maxCapacity : Nat)
  | sweepsStarted (secs : Nat)
  /-- A periodic task found its target gone. -/
  | sweepsStopped
  | removed (t : Trigger) (report : Report)
  | nothingToRemove (t : Trigger) (remaining : Nat)
  | skipped (t : Trigger)
  | failed (t : Trigger)
deriving DecidableEq, Repr

namespace Event

def level : Event → Level
  | .failed _ => .error
  | .leftAboveMax .. => .warn
  | .sweepsStarted _ | .removed .. => .info
  | .created _ | .deferred | .scheduled | .reconciled .. | .sweepsStopped
  | .nothingToRemove .. | .skipped _ => .debug

def message : Event → String
  | .created _ => "bounded cache created"
  | .deferred => "no tokio runtime; over-threshold cleanup deferred to an explicit attempt"
  | .scheduled => "scheduled on-write cleanup"
  | .reconciled .. => "reconciled recency records with the store"
  | .leftAboveMax .. => "cleanup pass left the cache above max_capacity"
  | .sweepsStarted secs =>
    "Starting cleanup task with interval of " ++ toString secs ++ " seconds"
  | .sweepsStopped => "cache dropped, stopping cleanup task"
  | .removed .. => "cleanup pass removed entries"
  | .nothingToRemove .. => "cleanup pass found nothing to remove"
  | .skipped _ => "cleanup already running, attempt skipped"
  | .failed _ => "cleanup pass failed"

def fields : Event → List (String × String)
  | .created config => [("config", config.text)]
  | .deferred | .scheduled | .sweepsStarted _ | .sweepsStopped => []
  | .reconciled pruned adopted =>
    [("pruned", toString pruned), ("adopted", toString adopted)]
  | .leftAboveMax remaining maxCapacity =>
    [("remaining", toString remaining), ("max_capacity", toString maxCapacity)]
  | .removed t report =>
    [("trigger", t.name), ("expired", toString report.expired),
      ("evicted", toString report.evicted), ("remaining", toString report.remaining)]
  | .nothingToRemove t remaining => [("trigger", t.name), ("remaining", toString remaining)]
  | .skipped t | .failed t => [("trigger", t.name)]

def ofAttempt (t : Trigger) : Except Failure Outcome → Event
  | .ok (.completed report) =>
    if 0 < report.removed then .removed t report else .nothingToRemove t report.remaining
  | .ok .skipped => .skipped t
  | .error _ => .failed t

end Event

end SizedCache
