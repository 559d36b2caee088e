import SizedCache.Event
import SizedCache.Recency
import SizedCache.RunSlot
import SizedCache.Selection
import SizedCache.Stats

/-!
# The core of a cache and its cleanup pass

The core is all that a cleanup pass reads and changes. A pass sweeps the entries
that the removal test gives up, brings the recency records in line with the
store, and, if more entries are left than the ceiling allows, drops victims until
the target size is reached. A policy that fails ends the pass on the spot: what
was removed stays removed, and nothing is counted.
-/

namespace SizedCache

structure Setup (κ α σ : Type) where
  config : Config
  valid : config.Valid
  test : RemovalTest κ α σ
  selector : Selector κ α σ
  walk : Walk κ

structure Core (κ α σ : Type) where
  store : Table κ α := .empty
  /-- Present iff the keys' recency is tracked. -/
  tracker : Option (Recency κ)
  stats : Stats := {}
  slot : RunSlot Origin := {}
  notes : σ
  /-- Logged events, oldest first. -/
  journal : List Event := []

namespace Core

variable {κ α σ : Type}

def record (c : Core κ α σ) (e : Event) : Core κ α σ :=
  { c with journal := c.journal ++ [e] }

/-- Follows a removal test to its answer. A pass holds the slot while it tests
an entry, so an attempt made by the test is skipped. -/
def settle : Judgement σ → Core κ α σ → Except Failure Bool × Core κ α σ
  | .keep notes, c => (.ok false, { c with notes })
  | .remove notes, c => (.ok true, { c with notes })
  | .fail e notes, c => (.error e, { c with notes })
  | .askRunning resume, c => settle (resume c.slot.isRunning) c
  | .attempt resume, c => settle (resume .skipped) { c with stats := c.stats.skip }

variable [DecidableEq κ]

def touch (c : Core κ α σ) (now : Int64) (k : κ) : Core κ α σ :=
  { c with tracker := c.tracker.map (·.touch now k) }

def forget (c : Core κ α σ) (k : κ) : Core κ α σ :=
  { c with tracker := c.tracker.map (·.forget k) }

def drop (c : Core κ α σ) (k : κ) : Core κ α σ :=
  { c with store := c.store.erase k }.forget k

-- ---------------------------------------------------------------------------
-- Sweep
-- ---------------------------------------------------------------------------

def sweep (test : RemovalTest κ α σ) (now : Int64) :
    List κ → Core κ α σ → Except Failure Nat × Core κ α σ
  | [], c => (.ok 0, c)
  | k :: ks, c =>
    match c.store.get? k with
    | none => sweep test now ks c
    | some v =>
      match c.settle (test c.notes now k v) with
      | (.error e, c) => (.error e, c)
      | (.ok false, c) => sweep test now ks c
      | (.ok true, c) =>
        match sweep test now ks (c.drop k) with
        | (.ok n, c) => (.ok (n + 1), c)
        | (.error e, c) => (.error e, c)

-- ---------------------------------------------------------------------------
-- Reconciliation
-- ---------------------------------------------------------------------------

/-- Drops the records of absent keys and touches the keys without a record. -/
def reconcile (walk : Walk κ) (now : Int64) (c : Core κ α σ) : Core κ α σ :=
  match c.tracker with
  | none => c
  | some r =>
    let kept := r.retain c.store.contains
    let untracked := (walk.arrange c.store.keys).filter fun k => !kept.contains k
    let pruned := r.size - kept.size
    let adopted := untracked.length
    let c := { c with tracker := some (untracked.foldl (·.touch now ·) kept) }
    if 0 < pruned + adopted then c.record (.reconciled pruned adopted) else c

-- ---------------------------------------------------------------------------
-- Eviction
-- ---------------------------------------------------------------------------

/-- Drops stored keys in the given order until `target` entries are left, and
counts them. -/
def evict (target : Nat) : List κ → Core κ α σ → Nat × Core κ α σ
  | [], c => (0, c)
  | k :: ks, c =>
    if c.store.size ≤ target then (0, c)
    else if c.store.contains k then
      let (n, c) := evict target ks (c.drop k)
      (n + 1, c)
    else evict target ks c

def shrink (s : Setup κ α σ) (now : Int64) (c : Core κ α σ) : Except Failure Nat × Core κ α σ :=
  let current := c.store.size
  let target := s.config.evictTo
  if s.config.maxCapacity < current then
    match s.selector.choose s.walk c.tracker c.notes now current target c.store with
    | .victims keys notes =>
      let (n, c) := evict target keys { c with notes }
      (.ok n, c)
    | .fail e notes => (.error e, { c with notes })
  else (.ok 0, c)

-- ---------------------------------------------------------------------------
-- Pass and attempt
-- ---------------------------------------------------------------------------

/-- Closes a pass: warns if the store is still above its ceiling, and counts. -/
def conclude (s : Setup κ α σ) (expired evicted : Nat) (c : Core κ α σ) :
    Report × Core κ α σ :=
  let remaining := c.store.size
  let c :=
    if s.config.maxCapacity < remaining then
      c.record (.leftAboveMax remaining s.config.maxCapacity)
    else c
  (⟨expired, evicted, remaining⟩, { c with stats := c.stats.pass expired evicted })

def pass (s : Setup κ α σ) (now : Int64) (c : Core κ α σ) : Except Failure Report × Core κ α σ :=
  match c.sweep s.test now (s.walk.arrange c.store.keys) with
  | (.error e, c) => (.error e, c)
  | (.ok expired, c) =>
    match (c.reconcile s.walk now).shrink s now with
    | (.error e, c) => (.error e, c)
    | (.ok evicted, c) =>
      let (report, c) := c.conclude s expired evicted
      (.ok report, c)

def attempt (s : Setup κ α σ) (who : Origin) (now : Int64) (c : Core κ α σ) :
    Except Failure Outcome × Core κ α σ :=
  match c.slot.claim? who with
  | none => (.ok .skipped, { c with stats := c.stats.skip })
  | some slot =>
    let (r, c) := { c with slot }.pass s now
    (r.map .completed, { c with slot := c.slot.release })

end Core

end SizedCache
