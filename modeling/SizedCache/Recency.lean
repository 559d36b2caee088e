import SizedCache.Table
import SizedCache.Touch

/-!
# Recency records

A side table of the last touch of each key, with the counter that numbers
touches. Dropping records never turns the counter back, so a number is not used
twice before the counter wraps.
-/

namespace SizedCache

structure Recency (κ : Type) where
  stamps : Table κ Touch := .empty
  next : UInt64 := 0

namespace Recency

variable {κ : Type}

def size (r : Recency κ) : Nat := r.stamps.size

def keys (r : Recency κ) : List κ := r.stamps.keys

def stamp (r : Recency κ) (now : Int64) : Touch := ⟨now, r.next⟩

def retain (r : Recency κ) (keep : κ → Bool) : Recency κ :=
  { r with stamps := r.stamps.filter fun k _ => keep k }

def clear (r : Recency κ) : Recency κ :=
  { r with stamps := .empty }

def byAge (r : Recency κ) : List (κ × Touch) :=
  r.stamps.entries.mergeSort fun a b => a.2 ≤ b.2

variable [DecidableEq κ]

def get? (r : Recency κ) (k : κ) : Option Touch := r.stamps.get? k

def contains (r : Recency κ) (k : κ) : Bool := r.stamps.contains k

def touch (r : Recency κ) (now : Int64) (k : κ) : Recency κ where
  stamps := r.stamps.set k (r.stamp now)
  next := r.next + 1

def forget (r : Recency κ) (k : κ) : Recency κ :=
  { r with stamps := r.stamps.erase k }

-- ---------------------------------------------------------------------------
-- Views
-- ---------------------------------------------------------------------------

@[simp] theorem get?_touch (r : Recency κ) (now : Int64) (k k' : κ) :
    (r.touch now k).get? k' = if k = k' then some (r.stamp now) else r.get? k' :=
  r.stamps.get?_set k k' (r.stamp now)

@[simp] theorem get?_forget (r : Recency κ) (k k' : κ) :
    (r.forget k).get? k' = if k = k' then none else r.get? k' :=
  r.stamps.get?_erase k k'

@[simp] theorem get?_clear (r : Recency κ) (k : κ) : r.clear.get? k = none := rfl

@[simp] theorem get?_retain (r : Recency κ) (keep : κ → Bool) (k : κ) :
    (r.retain keep).get? k = if keep k then r.get? k else none := by
  have h : (r.retain keep).get? k = (r.get? k).filter fun _ => keep k :=
    r.stamps.get?_filter (fun k _ => keep k) k
  rw [h]
  cases r.get? k <;> simp [Option.filter]

theorem get?_eq_none_iff {r : Recency κ} {k : κ} : r.get? k = none ↔ k ∉ r.keys :=
  Table.get?_eq_none_iff

theorem contains_iff {r : Recency κ} {k : κ} : r.contains k = true ↔ k ∈ r.keys :=
  Table.contains_iff

theorem keys_touch (r : Recency κ) (now : Int64) (k : κ) :
    (r.touch now k).keys = if k ∈ r.keys then r.keys else r.keys ++ [k] :=
  r.stamps.keys_set k (r.stamp now)

theorem keys_forget (r : Recency κ) (k : κ) :
    (r.forget k).keys = r.keys.filter fun k' => !decide (k' = k) :=
  r.stamps.keys_erase k

end Recency

end SizedCache
