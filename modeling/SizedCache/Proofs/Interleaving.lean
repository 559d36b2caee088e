import SizedCache.Core

/-!
# Attempts in small steps

Many threads may attempt a cleanup at the same time, and a removal test may
attempt one from inside a pass. What a thread does is cut into steps between
which others may do theirs: to claim the slot, to ask the test one question or do
one other piece of a pass, and to release the slot. Between two steps other calls
may change the entries and the records as they like, so it does not matter how
small the pieces of a pass are. Run alone an attempt does what `Core.attempt`
says.
-/

namespace SizedCache

variable {τ κ α σ : Type}

-- ---------------------------------------------------------------------------
-- The pieces of a pass
-- ---------------------------------------------------------------------------

/-- What a pass has left to do. `expired` and `evicted` count what it has removed. -/
inductive Stage (κ α σ : Type) where
  | list
  | sweep (keys : List κ) (expired : Nat)
  | judge (k : κ) (j : Judgement σ) (keys : List κ) (expired : Nat)
  | reconcile (expired : Nat)
  | choose (expired : Nat)
  | evict (victims : List κ) (expired evicted : Nat)
  | conclude (expired evicted : Nat)

/-- How a piece of a pass ends: with more to do, with an attempt by the test whose
outcome it waits for, or with the end of the pass. -/
inductive Next (κ α σ : Type) where
  | go (stage : Stage κ α σ)
  | nest (resume : Outcome → Stage κ α σ)
  | stop (r : Except Failure Report)

/-- One piece of a pass. `running` is what the test is told if it asks. -/
def Stage.step [DecidableEq κ] (s : Setup κ α σ) (running : Bool) (now : Int64)
    (c : Core κ α σ) : Stage κ α σ → Next κ α σ × Core κ α σ
  | .list => (.go (.sweep (s.walk.arrange c.store.keys) 0), c)
  | .sweep [] n => (.go (.reconcile n), c)
  | .sweep (k :: ks) n =>
    match c.store.get? k with
    | none => (.go (.sweep ks n), c)
    | some v => (.go (.judge k (s.test c.notes now k v) ks n), c)
  | .judge _ (.keep notes) ks n => (.go (.sweep ks n), { c with notes })
  | .judge k (.remove notes) ks n => (.go (.sweep ks (n + 1)), { c with notes }.drop k)
  | .judge _ (.fail e notes) _ _ => (.stop (.error e), { c with notes })
  | .judge k (.askRunning resume) ks n => (.go (.judge k (resume running) ks n), c)
  | .judge k (.attempt resume) ks n => (.nest fun o => .judge k (resume o) ks n, c)
  | .reconcile n => (.go (.choose n), c.reconcile s.walk now)
  | .choose n =>
    if s.config.maxCapacity < c.store.size then
      match s.selector.choose s.walk c.tracker c.notes now c.store.size s.config.evictTo c.store with
      | .victims keys notes => (.go (.evict keys n 0), { c with notes })
      | .fail e notes => (.stop (.error e), { c with notes })
    else (.go (.conclude n 0), c)
  | .evict [] n m => (.go (.conclude n m), c)
  | .evict (k :: ks) n m =>
    if c.store.size ≤ s.config.evictTo then (.go (.conclude n m), c)
    else if c.store.contains k then (.go (.evict ks n (m + 1)), c.drop k)
    else (.go (.evict ks n m), c)
  | .conclude n m =>
    let (report, c) := c.conclude s n m
    (.stop (.ok report), c)

-- ---------------------------------------------------------------------------
-- Attempts
-- ---------------------------------------------------------------------------

inductive Phase (κ α σ : Type) where
  | claiming
  /-- The slot was held, which is still to be counted. -/
  | skipping
  | pass (stage : Stage κ α σ)
  | nesting (resume : Outcome → Stage κ α σ)
  /-- The pass is over, and the slot still to be released. -/
  | leaving (r : Except Failure Report)

def Phase.InBody : Phase κ α σ → Bool
  | .claiming | .skipping => false
  | .pass _ | .nesting _ | .leaving _ => true

structure Attempt (τ κ α σ : Type) where
  thread : τ
  found : Option τ := none
  phase : Phase κ α σ := .claiming

namespace Attempt

def InBody (a : Attempt τ κ α σ) : Bool := a.phase.InBody

/-- The attempt once the one that its test made has ended. A failure goes on
through the pass. -/
def answered (a : Attempt τ κ α σ) (r : Except Failure Outcome) : Attempt τ κ α σ :=
  match a.phase, r with
  | .nesting resume, .ok o => { a with phase := .pass (resume o) }
  | .nesting _, .error e => { a with phase := .leaving (.error e) }
  | _, _ => a

end Attempt

structure Ending (τ : Type) where
  thread : τ
  found : Option τ
  result : Except Failure Outcome

-- ---------------------------------------------------------------------------
-- Worlds
-- ---------------------------------------------------------------------------

/-- A core that threads share, with the slot in which they name themselves, and
the attempts that are under way. An attempt that was made inside another stands
before it. -/
structure World (τ κ α σ : Type) where
  core : Core κ α σ
  slot : RunSlot τ := {}
  live : List (Attempt τ κ α σ) := []
  begun : Nat := 0
  ended : List (Ending τ) := []

def splice [DecidableEq τ] (t : τ) (f : Attempt τ κ α σ → List (Attempt τ κ α σ)) :
    List (Attempt τ κ α σ) → List (Attempt τ κ α σ)
  | [] => []
  | a :: as => if a.thread = t then f a ++ as else a :: splice t f as

inductive Move (τ κ α σ : Type) where
  | start (t : τ)
  | advance (t : τ) (now : Int64)
  /-- The pass of a thread fails, wherever it is. -/
  | unwind (t : τ) (e : Failure)
  /-- Other calls change what attempts work on, but not the counts of attempts. -/
  | meddle (core : Core κ α σ)

namespace World

variable [DecidableEq τ]

def innermost? (w : World τ κ α σ) (t : τ) : Option (Attempt τ κ α σ) :=
  w.live.find? (·.thread = t)

def put (w : World τ κ α σ) (t : τ) (phase : Phase κ α σ) : World τ κ α σ :=
  { w with live := splice t (fun a => [{ a with phase }]) w.live }

def finish (w : World τ κ α σ) (a : Attempt τ κ α σ) (result : Except Failure Outcome) :
    World τ κ α σ :=
  { w with
    live := splice a.thread (fun outer => [outer.answered result])
      (splice a.thread (fun _ => []) w.live)
    ended := ⟨a.thread, a.found, result⟩ :: w.ended }

def claim (w : World τ κ α σ) (t : τ) : World τ κ α σ :=
  let found := w.slot.runner
  match w.slot.claim? t with
  | none => { w with live := splice t (fun a => [{ a with found, phase := .skipping }]) w.live }
  | some slot =>
    { w with slot, live := splice t (fun a => [{ a with found, phase := .pass .list }]) w.live }

def skip (w : World τ κ α σ) (a : Attempt τ κ α σ) : World τ κ α σ :=
  { w with core := { w.core with stats := w.core.stats.skip } }.finish a (.ok .skipped)

def release (w : World τ κ α σ) (a : Attempt τ κ α σ) (r : Except Failure Report) :
    World τ κ α σ :=
  { w with slot := w.slot.release }.finish a (r.map .completed)

def work [DecidableEq κ] (s : Setup κ α σ) (w : World τ κ α σ) (t : τ) (now : Int64)
    (stage : Stage κ α σ) : World τ κ α σ :=
  match stage.step s w.slot.isRunning now w.core with
  | (.go stage, core) => { w with core }.put t (.pass stage)
  | (.stop r, core) => { w with core }.put t (.leaving r)
  | (.nest resume, core) =>
    { w with
      core
      live := splice t (fun a => [{ thread := t }, { a with phase := .nesting resume }]) w.live
      begun := w.begun + 1 }

def advance [DecidableEq κ] (s : Setup κ α σ) (w : World τ κ α σ) (t : τ) (now : Int64) :
    World τ κ α σ :=
  match w.innermost? t with
  | none => w
  | some a =>
    match a.phase with
    | .claiming => w.claim t
    | .skipping => w.skip a
    | .pass stage => w.work s t now stage
    | .nesting _ => w
    | .leaving r => w.release a r

/-- A move that cannot be made changes nothing. -/
def step [DecidableEq κ] (s : Setup κ α σ) (w : World τ κ α σ) : Move τ κ α σ → World τ κ α σ
  | .start t =>
    match w.innermost? t with
    | none => { w with live := { thread := t } :: w.live, begun := w.begun + 1 }
    | some _ => w
  | .advance t now => w.advance s t now
  | .unwind t e =>
    match (w.innermost? t).map Attempt.phase with
    | some (.pass _) => w.put t (.leaving (.error e))
    | _ => w
  | .meddle core =>
    { w with core := { core with
        stats := { core.stats with
          runs := w.core.stats.runs
          skipped := w.core.stats.skipped } } }

def run [DecidableEq κ] (s : Setup κ α σ) (w : World τ κ α σ) (moves : List (Move τ κ α σ)) :
    World τ κ α σ :=
  moves.foldl (step s) w

end World

end SizedCache
