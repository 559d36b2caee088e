import SizedCache.Failure
import SizedCache.Table

/-!
# Single-key updates

Each update answers with a value and the table it leaves. An update that runs a
supplied closure leaves no table when the closure fails, so its caller still
holds the old one. A closure that answers `none` vacates its key.
-/

namespace SizedCache.Table

variable {κ α : Type} [DecidableEq κ]

def insert (t : Table κ α) (k : κ) (v : α) : Option α × Table κ α :=
  (t.get? k, t.set k v)

def insertIfAbsent (t : Table κ α) (k : κ) (v : α) : Option α × Table κ α :=
  match t.get? k with
  | some old => (some old, t)
  | none => (none, t.set k v)

def remove (t : Table κ α) (k : κ) : Option α × Table κ α :=
  (t.get? k, t.erase k)

def removeIf (t : Table κ α) (k : κ) (p : κ → α → Bool) : Option α × Table κ α :=
  match t.get? k with
  | some v => if p k v then (some v, t.erase k) else (none, t)
  | none => (none, t)

def replace (t : Table κ α) (k : κ) (v : α) : Option α × Table κ α :=
  match t.get? k with
  | some old => (some old, t.set k v)
  | none => (none, t)

def replaceIfEq [DecidableEq α] (t : Table κ α) (k : κ) (old new : α) : Bool × Table κ α :=
  if t.get? k = some old then (true, t.set k new) else (false, t)

def getOrDefault (t : Table κ α) (k : κ) (v : α) : α := (t.get? k).getD v

/-- Fills a vacant key; a present one keeps its value and `f` is not run. -/
def computeIfAbsent (t : Table κ α) (k : κ) (f : κ → Except Failure (Option α)) :
    Except Failure (Option α × Table κ α) :=
  match t.get? k with
  | some old => .ok (some old, t)
  | none =>
    match f k with
    | .ok (some v) => .ok (some v, t.set k v)
    | .ok none => .ok (none, t)
    | .error e => .error e

/-- Recomputes a present key; for a vacant one `f` is not run. -/
def computeIfPresent (t : Table κ α) (k : κ) (f : κ → α → Except Failure (Option α)) :
    Except Failure (Option α × Table κ α) :=
  match t.get? k with
  | none => .ok (none, t)
  | some old =>
    match f k old with
    | .ok (some v) => .ok (some v, t.set k v)
    | .ok none => .ok (none, t.erase k)
    | .error e => .error e

def compute (t : Table κ α) (k : κ) (f : κ → Option α → Except Failure (Option α)) :
    Except Failure (Option α × Table κ α) :=
  match f k (t.get? k) with
  | .ok (some v) => .ok (some v, t.set k v)
  | .ok none => .ok (none, t.erase k)
  | .error e => .error e

def merge (t : Table κ α) (k : κ) (v : α) (f : α → α → Except Failure (Option α)) :
    Except Failure (Option α × Table κ α) :=
  match t.get? k with
  | none => .ok (some v, t.set k v)
  | some old =>
    match f old v with
    | .ok (some w) => .ok (some w, t.set k w)
    | .ok none => .ok (none, t.erase k)
    | .error e => .error e

end SizedCache.Table
