import SizedCache.Error
import SizedCache.Event

/-!
# The scheduler of background attempts

Timers run on a clock of their own, in milliseconds, which moves only while the
program sleeps. There is at most one pending on-write attempt, and a periodic
task ticks at every multiple of its period after its start. Nothing that happens
when a timer is due sets another timer but the task's own next tick, so what is
due in a stretch of time is known when it begins.
-/

namespace SizedCache

/-- Milliseconds from a write that asks for an attempt to that attempt. -/
def oneShotDelay : Nat := 50

structure SweepTask where
  /-- Milliseconds. -/
  period : Nat
  next : Nat
  ended : Bool := false
deriving DecidableEq, Repr

structure Scheduler where
  runtime : Bool
  clock : Nat := 0
  /-- When the pending on-write attempt is due. -/
  oneShot : Option Nat := none
  /-- Every periodic task started so far; its place is its number. -/
  tasks : List SweepTask := []
  periodic : Option Nat := none
deriving DecidableEq, Repr

structure Target (S : Type) where
  alive : S → Bool
  attempt : Trigger → Int64 → S → Except Failure Outcome × S
  record : S → Event → S

inductive Timer where
  | oneShot
  | tick (task : Nat)
deriving DecidableEq, Repr

structure Firing where
  due : Nat
  timer : Timer
deriving DecidableEq, Repr

namespace SweepTask

def ticks (t : SweepTask) (limit : Nat) : List Nat :=
  if t.ended ∨ limit < t.next then []
  else (List.range ((limit - t.next) / t.period + 1)).map (t.next + t.period * ·)

end SweepTask

namespace Scheduler

variable {S : Type}

-- ---------------------------------------------------------------------------
-- Setting timers
-- ---------------------------------------------------------------------------

/-- Starts a periodic task, whose first tick is one period away. A task without
a period, or with one that signed 64-bit seconds cannot hold, ends at once. -/
def spawn (s : Scheduler) (secs : Nat) : Scheduler :=
  let period := secs * 1000
  { s with tasks := s.tasks ++ [⟨period, s.clock + period, secs = 0 ∨ UInt64.size / 2 ≤ secs⟩] }

def setTask (s : Scheduler) (id : Nat) (f : SweepTask → SweepTask) : Scheduler :=
  { s with tasks := s.tasks.modify id f }

def abort (s : Scheduler) (id : Nat) : Scheduler :=
  s.setTask id fun t => { t with ended := true }

def hasEnded (s : Scheduler) (id : Nat) : Bool :=
  match s.tasks[id]? with
  | some t => t.ended
  | none => true

def close (s : Scheduler) : Scheduler :=
  match s.periodic with
  | some id => { s.abort id with periodic := none }
  | none => s

/-- Starts the scheduler's own sweep in place of the one before; an interval of
0 changes nothing. -/
def startPeriodic (s : Scheduler) (secs : Nat) : Except CacheError (Scheduler × List Event) :=
  if secs = 0 then .ok (s, [])
  else if s.runtime then
    .ok ({ s.close.spawn secs with periodic := some s.tasks.length }, [.sweepsStarted secs])
  else .error .missingRuntime

/-- Asks for an on-write attempt. Requests made while one is pending are folded
into it. -/
def requestOneShot (s : Scheduler) : Scheduler × List Event :=
  if s.runtime then
    match s.oneShot with
    | some _ => (s, [])
    | none => ({ s with oneShot := some (s.clock + oneShotDelay) }, [.scheduled])
  else (s, [.deferred])

-- ---------------------------------------------------------------------------
-- Letting time pass
-- ---------------------------------------------------------------------------

def oneShotFirings (s : Scheduler) (limit : Nat) : List Firing :=
  match s.oneShot with
  | some due => if due ≤ limit then [⟨due, .oneShot⟩] else []
  | none => []

def tickFirings (s : Scheduler) (limit : Nat) : List Firing :=
  s.tasks.zipIdx.flatMap fun (t, id) => (t.ticks limit).map (⟨·, .tick id⟩)

def firings (s : Scheduler) (limit : Nat) : List Firing :=
  (s.tickFirings limit ++ s.oneShotFirings limit).mergeSort fun a b => a.due ≤ b.due

def trigger (target : Target S) (t : Trigger) (now : Int64) (x : S) : S :=
  let (r, x) := target.attempt t now x
  target.record x (.ofAttempt t r)

/-- A one-shot stops being pending before its attempt begins. A task whose target
is gone ends at its next tick. -/
def fire (target : Target S) (now : Int64) (timer : Timer) (s : Scheduler) (x : S) :
    Scheduler × S :=
  match timer with
  | .oneShot =>
    ({ s with oneShot := none }, if target.alive x then trigger target .onWrite now x else x)
  | .tick id =>
    if s.hasEnded id then (s, x)
    else if target.alive x then
      (s.setTask id fun t => { t with next := t.next + t.period },
        trigger target .periodic now x)
    else (s.abort id, target.record x .sweepsStopped)

def fireAll (target : Target S) (wall : Nat → Int64) :
    List Firing → Scheduler → S → Scheduler × S
  | [], s, x => (s, x)
  | f :: fs, s, x =>
    let (s, x) := fire target (wall f.due) f.timer s x
    fireAll target wall fs s x

/-- Lets `ms` milliseconds pass from wall clock `now`. Each attempt sees the wall
clock of the millisecond at which it is due. -/
def advance (target : Target S) (now : Int64) (ms : Nat) (s : Scheduler) (x : S) :
    Scheduler × S :=
  let start := s.clock
  let limit := start + ms
  let (s, x) :=
    fireAll target (fun due => now + Int64.ofNat (due - start)) (s.firings limit) s x
  ({ s with clock := limit }, x)

end Scheduler

end SizedCache
