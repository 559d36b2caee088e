import SizedCache.Core
import SizedCache.Scheduler
import SizedCache.Table.Update

/-!
# Caches

A cache is a core with its setup, its scheduler and the wall clock. Every call is
a function from a cache to its answer and the cache it leaves. A write is applied
first and the size checked afterwards: above the target size it asks the
scheduler for an attempt a little later, so between a burst of writes and the
next pass a cache may hold more than its ceiling.
-/

namespace SizedCache

structure Cache (κ α σ : Type) where
  setup : Setup κ α σ
  core : Core κ α σ
  scheduler : Scheduler
  /-- The wall clock, in Unix milliseconds. -/
  now : Int64

namespace Cache

variable {κ α σ : Type}

-- ---------------------------------------------------------------------------
-- Views
-- ---------------------------------------------------------------------------

def config (c : Cache κ α σ) : Config := c.setup.config

def store (c : Cache κ α σ) : Table κ α := c.core.store

def size (c : Cache κ α σ) : Nat := c.core.store.size

def stats (c : Cache κ α σ) : Stats := c.core.stats

def tracksRecency (c : Cache κ α σ) : Bool := c.core.tracker.isSome

def isCleanupRunning (c : Cache κ α σ) : Bool := c.core.slot.isRunning

def text (c : Cache κ α σ) : String :=
  "BoundedCache \x7b config: " ++ c.config.text ++
    ", tracks_recency: " ++ toString c.tracksRecency ++ ", .. \x7d"

-- ---------------------------------------------------------------------------
-- Parts of a call
-- ---------------------------------------------------------------------------

def withStore (c : Cache κ α σ) (store : Table κ α) : Cache κ α σ :=
  { c with core := { c.core with store } }

def countHit (c : Cache κ α σ) : Cache κ α σ :=
  { c with core := { c.core with stats := c.core.stats.hit } }

def countMiss (c : Cache κ α σ) : Cache κ α σ :=
  { c with core := { c.core with stats := c.core.stats.miss } }

/-- Ends a write: above the target size an attempt is asked for. -/
def checkCapacity (c : Cache κ α σ) : Cache κ α σ :=
  if c.config.evictTo < c.size then
    let (scheduler, events) := c.scheduler.requestOneShot
    { c with scheduler, core := events.foldl Core.record c.core }
  else c

/-- What background attempts act on. A cache that is still in use is alive. -/
def target [DecidableEq κ] (s : Setup κ α σ) : Target (Core κ α σ) where
  alive _ := true
  attempt t now core := core.attempt s (.trigger t) now
  record := Core.record

variable [DecidableEq κ]

def touch (c : Cache κ α σ) (k : κ) : Cache κ α σ :=
  { c with core := c.core.touch c.now k }

def forget (c : Cache κ α σ) (k : κ) : Cache κ α σ :=
  { c with core := c.core.forget k }

def follow (c : Cache κ α σ) (k : κ) (present : Bool) : Cache κ α σ :=
  if present then c.touch k else c.forget k

-- ---------------------------------------------------------------------------
-- Writes
-- ---------------------------------------------------------------------------

def put (c : Cache κ α σ) (k : κ) (v : α) : Option α × Cache κ α σ :=
  let (old, store) := c.store.insert k v
  (old, ((c.withStore store).touch k).checkCapacity)

/-- Stores every pair and checks the size once, at the end. -/
def putAll (c : Cache κ α σ) (es : List (κ × α)) : Cache κ α σ :=
  (es.foldl (fun c e => (c.withStore (c.store.insert e.1 e.2).2).touch e.1) c).checkCapacity

/-- Answers with the value that is there already; its key counts as used. -/
def putIfAbsent (c : Cache κ α σ) (k : κ) (v : α) : Option α × Cache κ α σ :=
  let (old, store) := c.store.insertIfAbsent k v
  (old, ((c.withStore store).touch k).checkCapacity)

def remove (c : Cache κ α σ) (k : κ) : Option α × Cache κ α σ :=
  let (old, store) := c.store.remove k
  let c := c.withStore store
  (old, (if old.isSome then c.forget k else c).checkCapacity)

/-- Removes `k` if it maps to `v`, without a check of the size. -/
def removeIfEq [DecidableEq α] (c : Cache κ α σ) (k : κ) (v : α) : Bool × Cache κ α σ :=
  let (old, store) := c.store.removeIf k fun _ w => w = v
  let c := c.withStore store
  (old.isSome, if old.isSome then c.forget k else c)

def replace (c : Cache κ α σ) (k : κ) (v : α) : Option α × Cache κ α σ :=
  let (old, store) := c.store.replace k v
  let c := c.withStore store
  (old, (if old.isSome then c.touch k else c).checkCapacity)

def replaceIfEq [DecidableEq α] (c : Cache κ α σ) (k : κ) (old new : α) : Bool × Cache κ α σ :=
  let (replaced, store) := c.store.replaceIfEq k old new
  let c := c.withStore store
  (replaced, (if replaced then c.touch k else c).checkCapacity)

/-- Empties the store and the recency records; the counters go on. -/
def clear (c : Cache κ α σ) : Cache κ α σ :=
  { c with core := { c.core with store := .empty, tracker := c.core.tracker.map (·.clear) } }

-- ---------------------------------------------------------------------------
-- Updates by closures
-- A closure that fails leaves the cache as it was, and the size is not checked.
-- ---------------------------------------------------------------------------

def computeIfAbsent (c : Cache κ α σ) (k : κ) (f : κ → Except Failure (Option α)) :
    Except Failure (Option α) × Cache κ α σ :=
  match c.store.computeIfAbsent k f with
  | .error e => (.error e, c)
  | .ok (v, store) =>
    let c := c.withStore store
    (.ok v, (if v.isSome then c.touch k else c).checkCapacity)

def computeIfPresent (c : Cache κ α σ) (k : κ) (f : κ → α → Except Failure (Option α)) :
    Except Failure (Option α) × Cache κ α σ :=
  match c.store.computeIfPresent k f with
  | .error e => (.error e, c)
  | .ok (v, store) => (.ok v, ((c.withStore store).follow k v.isSome).checkCapacity)

def compute (c : Cache κ α σ) (k : κ) (f : κ → Option α → Except Failure (Option α)) :
    Except Failure (Option α) × Cache κ α σ :=
  match c.store.compute k f with
  | .error e => (.error e, c)
  | .ok (v, store) => (.ok v, ((c.withStore store).follow k v.isSome).checkCapacity)

def merge (c : Cache κ α σ) (k : κ) (v : α) (f : α → α → Except Failure (Option α)) :
    Except Failure (Option α) × Cache κ α σ :=
  match c.store.merge k v f with
  | .error e => (.error e, c)
  | .ok (v, store) => (.ok v, ((c.withStore store).follow k v.isSome).checkCapacity)

-- ---------------------------------------------------------------------------
-- Reads
-- ---------------------------------------------------------------------------

def get (c : Cache κ α σ) (k : κ) : Option α × Cache κ α σ :=
  match c.store.get? k with
  | some v => (some v, c.countHit.touch k)
  | none => (none, c.countMiss)

def getOrDefault (c : Cache κ α σ) (k : κ) (v : α) : α × Cache κ α σ :=
  let (found, c) := c.get k
  (found.getD v, c)

def contains (c : Cache κ α σ) (k : κ) : Bool := c.store.contains k

inductive Lookup (α : Type) where
  | live (v : α)
  | expired
  | absent
deriving DecidableEq, Repr

/-- Only a live value counts as a hit; an expired one is removed at once. -/
def getLive [Expirable α] (c : Cache κ α σ) (k : κ) : Lookup α × Cache κ α σ :=
  match c.store.get? k with
  | none => (.absent, c.countMiss)
  | some v =>
    if Expirable.expired v c.now then
      let (old, store) := c.store.removeIf k fun _ w => Expirable.expired w c.now
      let c := c.withStore store
      (.expired, (if old.isSome then c.forget k else c).countMiss)
    else (.live v, c.countHit.touch k)

-- ---------------------------------------------------------------------------
-- Cleanup and time
-- ---------------------------------------------------------------------------

def forceCleanup (c : Cache κ α σ) : Except Failure Outcome × Cache κ α σ :=
  let (r, core) := c.core.attempt c.setup .caller c.now
  (r, { c with core })

def sleep (c : Cache κ α σ) (ms : Nat) : Cache κ α σ :=
  let (scheduler, core) := c.scheduler.advance (target c.setup) c.now ms c.core
  { c with scheduler, core, now := c.now + Int64.ofNat ms }

def setClock (c : Cache κ α σ) (now : Int64) : Cache κ α σ := { c with now }

/-- Whoever shares the tracker may change it behind the cache's back. -/
def editTracker (c : Cache κ α σ) (f : Recency κ → Recency κ) : Cache κ α σ :=
  { c with core := { c.core with tracker := c.core.tracker.map f } }

-- ---------------------------------------------------------------------------
-- The journal
-- ---------------------------------------------------------------------------

def drainJournal (c : Cache κ α σ) : List Event × Cache κ α σ :=
  (c.core.journal, { c with core := { c.core with journal := [] } })

end Cache

end SizedCache
