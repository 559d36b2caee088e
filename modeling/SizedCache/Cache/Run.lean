import SizedCache.Cache

/-!
# Runs of calls

The calls that can change a cache, as data, so that a run is a list of them. A
call answers with a reply and the cache it leaves; reads of views alone are not
calls.
-/

namespace SizedCache.Cache

variable {κ α σ : Type}

inductive Call (κ α : Type) where
  | put (k : κ) (v : α)
  | putAll (es : List (κ × α))
  | putIfAbsent (k : κ) (v : α)
  | remove (k : κ)
  | removeIfEq (k : κ) (v : α)
  | replace (k : κ) (v : α)
  | replaceIfEq (k : κ) (old new : α)
  | get (k : κ)
  | getOrDefault (k : κ) (v : α)
  | getLive (k : κ)
  | contains (k : κ)
  | computeIfAbsent (k : κ) (f : κ → Except Failure (Option α))
  | computeIfPresent (k : κ) (f : κ → α → Except Failure (Option α))
  | compute (k : κ) (f : κ → Option α → Except Failure (Option α))
  | merge (k : κ) (v : α) (f : α → α → Except Failure (Option α))
  | clear
  | forceCleanup
  | sleep (ms : Nat)
  | setClock (now : Int64)
  | editTracker (f : Recency κ → Recency κ)

inductive Reply (α : Type) where
  | done
  | value (v : Option α)
  | flag (b : Bool)
  | lookup (l : Lookup α)
  | outcome (o : Outcome)
  | time (now : Int64)
  | failed (e : Failure)

def Reply.isSome : Reply α → Bool
  | .done | .value none => false
  | _ => true

def Reply.ofValue : Except Failure (Option α) → Reply α
  | .ok v => .value v
  | .error e => .failed e

def Reply.ofOutcome : Except Failure Outcome → Reply α
  | .ok o => .outcome o
  | .error e => .failed e

variable [DecidableEq κ] [DecidableEq α] [Expirable α]

def step (c : Cache κ α σ) : Call κ α → Reply α × Cache κ α σ
  | .put k v => let (r, c) := c.put k v; (.value r, c)
  | .putAll es => (.done, c.putAll es)
  | .putIfAbsent k v => let (r, c) := c.putIfAbsent k v; (.value r, c)
  | .remove k => let (r, c) := c.remove k; (.value r, c)
  | .removeIfEq k v => let (r, c) := c.removeIfEq k v; (.flag r, c)
  | .replace k v => let (r, c) := c.replace k v; (.value r, c)
  | .replaceIfEq k old new => let (r, c) := c.replaceIfEq k old new; (.flag r, c)
  | .get k => let (r, c) := c.get k; (.value r, c)
  | .getOrDefault k v => let (r, c) := c.getOrDefault k v; (.value (some r), c)
  | .getLive k => let (r, c) := c.getLive k; (.lookup r, c)
  | .contains k => (.flag (c.contains k), c)
  | .computeIfAbsent k f => let (r, c) := c.computeIfAbsent k f; (.ofValue r, c)
  | .computeIfPresent k f => let (r, c) := c.computeIfPresent k f; (.ofValue r, c)
  | .compute k f => let (r, c) := c.compute k f; (.ofValue r, c)
  | .merge k v f => let (r, c) := c.merge k v f; (.ofValue r, c)
  | .clear => (.done, c.clear)
  | .forceCleanup => let (r, c) := c.forceCleanup; (.ofOutcome r, c)
  | .sleep ms => let c := c.sleep ms; (.time c.now, c)
  | .setClock now => (.done, c.setClock now)
  | .editTracker f => (.done, c.editTracker f)

def run (c : Cache κ α σ) (calls : List (Call κ α)) : Cache κ α σ :=
  calls.foldl (fun c call => (c.step call).2) c

end SizedCache.Cache
