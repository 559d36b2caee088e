import SizedCache.Cache

/-!
# Building a cache

A builder starts with a removal test that keeps everything and victims in any
order, and later calls override earlier ones. Choosing a selector also decides
whether recency is tracked: only the tracker that comes with the selector chosen
last is kept up to date.
-/

namespace SizedCache

structure Builder (κ α σ : Type) where
  config : Config
  test : RemovalTest κ α σ
  selector : Selector κ α σ
  tracker : Option (Recency κ)
  runtime : Bool
  walk : Walk κ

namespace Builder

variable {κ α σ : Type}

/-- `ambient` tells whether timers run where the builder is started. -/
def start (config : Config) (ambient : Bool) : Builder κ α σ where
  config
  test := Rule.toTest Rule.never
  selector := .anyOrder
  tracker := none
  runtime := ambient
  walk := .stored

def removalTest (b : Builder κ α σ) (test : RemovalTest κ α σ) : Builder κ α σ :=
  { b with test }

def expireEntries [Expirable α] (b : Builder κ α σ) : Builder κ α σ :=
  b.removalTest (Rule.toTest Rule.whenExpired)

/-- `tracker` is the one that the selector reads, if it reads one. -/
def victimSelector (b : Builder κ α σ) (selector : Selector κ α σ)
    (tracker : Option (Recency κ)) : Builder κ α σ :=
  { b with selector, tracker }

def leastRecentlyTouched (b : Builder κ α σ) : Builder κ α σ :=
  b.victimSelector .leastRecent (some {})

/-- Lets timers run, whether they do where the builder was started or not. -/
def onRuntime (b : Builder κ α σ) : Builder κ α σ := { b with runtime := true }

/-- Checks the limits, then starts the periodic sweep if there is to be one. -/
def build (b : Builder κ α σ) (now : Int64) (notes : σ) : Except CacheError (Cache κ α σ) :=
  match h : b.config.fault? with
  | some fault => .error (.invalidConfig fault.message)
  | none =>
    match ({ runtime := b.runtime } : Scheduler).startPeriodic b.config.sweepSecs with
    | .error e => .error e
    | .ok (scheduler, events) =>
      .ok {
        setup := ⟨b.config, Config.fault?_eq_none_iff.mp h, b.test, b.selector, b.walk⟩
        core := { tracker := b.tracker, notes, journal := .created b.config :: events }
        scheduler
        now }

end Builder

namespace Cache

variable {κ α σ : Type}

def ofConfig (config : Config) (ambient : Bool) (now : Int64) (notes : σ) :
    Except CacheError (Cache κ α σ) :=
  (Builder.start config ambient).build now notes

def lru (config : Config) (ambient : Bool) (now : Int64) (notes : σ) :
    Except CacheError (Cache κ α σ) :=
  (Builder.start config ambient).leastRecentlyTouched.build now notes

def expiring [Expirable α] (config : Config) (ambient : Bool) (now : Int64) (notes : σ) :
    Except CacheError (Cache κ α σ) :=
  (Builder.start config ambient).expireEntries.build now notes

def expiringLru [Expirable α] (config : Config) (ambient : Bool) (now : Int64) (notes : σ) :
    Except CacheError (Cache κ α σ) :=
  (Builder.start config ambient).expireEntries.leastRecentlyTouched.build now notes

end Cache

end SizedCache
