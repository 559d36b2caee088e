import SizedCache.Cache.Run
import SizedCache.Proofs.EvictLaws
import SizedCache.Proofs.TableLaws

/-!
# Recency lists

What a cache with selection by recency does, told without a clock and a counter:
its state is a table of the stored entries in the order of their last touch,
oldest first. A touch moves its key to the end, and a pass drops the entries that
the rule accepts, then entries from the front. The wall clock comes in from
outside, as an argument of the rule and of a read that looks at the time.
-/

namespace SizedCache

namespace Table

variable {κ α : Type}

def skip (n : Nat) (t : Table κ α) : Table κ α where
  entries := t.entries.drop n
  nodup := t.nodup.sublist ((List.drop_sublist n _).map _)

@[simp] theorem size_skip (t : Table κ α) (n : Nat) : (t.skip n).size = t.size - n :=
  List.length_drop

variable [DecidableEq κ]

/-- Moves `k` to the end, or appends it, with the value `v`. -/
def refresh (t : Table κ α) (k : κ) (v : α) : Table κ α := (t.erase k).set k v

def use (t : Table κ α) (k : κ) : Table κ α :=
  match t.get? k with
  | some v => t.refresh k v
  | none => t

@[simp] theorem get?_refresh (t : Table κ α) (k k' : κ) (v : α) :
    (t.refresh k v).get? k' = if k = k' then some v else t.get? k' := by
  rw [refresh, get?_set, get?_erase]
  split <;> rfl

theorem keys_refresh (t : Table κ α) (k : κ) (v : α) :
    (t.refresh k v).keys = (t.keys.filter fun k' => !decide (k' = k)) ++ [k] := by
  have hk : k ∉ (t.erase k).keys := fun h => (mem_keys_erase.mp h).1 rfl
  rw [refresh, keys_set, if_neg hk, keys_erase]

theorem without_take_keys (t : Table κ α) (n : Nat) : t.without (t.keys.take n) = t.skip n := by
  have hsplit : t.entries = t.entries.take n ++ t.entries.drop n := (List.take_append_drop n _).symm
  have htake : ∀ e ∈ t.entries.take n, e.1 ∈ t.keys.take n := fun e he => by
    rw [keys, ← List.map_take]
    exact List.mem_map_of_mem he
  have hdrop : ∀ e ∈ t.entries.drop n, e.1 ∉ t.keys.take n := fun e he hk => by
    have hmem : e.1 ∈ t.keys.drop n := by
      rw [keys, ← List.map_drop]
      exact List.mem_map_of_mem he
    exact List.disjoint_take_drop t.keys_nodup (Nat.le_refl n) hk hmem
  apply ext
  show t.entries.filter (fun e => !decide (e.1 ∈ t.keys.take n)) = t.entries.drop n
  calc t.entries.filter (fun e => !decide (e.1 ∈ t.keys.take n))
      = (t.entries.take n).filter (fun e => !decide (e.1 ∈ t.keys.take n)) ++
          (t.entries.drop n).filter (fun e => !decide (e.1 ∈ t.keys.take n)) := by
        rw [← List.filter_append, ← hsplit]
    _ = [] ++ t.entries.drop n := by
        congr 1
        · exact List.filter_eq_nil_iff.mpr fun e he => by simp [htake e he]
        · exact List.filter_eq_self.mpr fun e he => by simp [hdrop e he]
    _ = t.entries.drop n := List.nil_append _

theorem size_eq_of_get? {t u : Table κ α} (h : ∀ k, t.get? k = u.get? k) : t.size = u.size := by
  have hperm : t.keys.Perm u.keys :=
    (List.perm_ext_iff_of_nodup t.keys_nodup u.keys_nodup).mpr fun k => by
      rw [mem_keys_iff, mem_keys_iff, h k]
  rw [← length_keys, ← length_keys, hperm.length_eq]

end Table

namespace RecencyList

open Cache (Call Reply)

variable {κ α : Type}

/-- What the wall clock says when a call is made, and at the background attempts
that are made while it lasts. -/
structure Moment where
  now : Int64
  attempts : List Int64 := []

/-- A pass keeps what the rule rejects, less the oldest if that is too much. -/
def pass (rule : Rule κ α) (config : Config) (now : Int64) (t : Table κ α) :
    Report × Table κ α :=
  let live := t.filter fun k v => !rule now k v
  let excess := config.excess live.size
  (⟨(t.filter (rule now)).size, excess, live.size - excess⟩, live.skip excess)

variable [DecidableEq κ]

def resolve (t : Table κ α) (k : κ) : Except Failure (Option α) → Reply α × Table κ α
  | .ok (some v) => (.value (some v), t.refresh k v)
  | .ok none => (.value none, t.erase k)
  | .error e => (.failed e, t)

variable [DecidableEq α] [Expirable α]

def step (rule : Rule κ α) (config : Config) (m : Moment) (t : Table κ α) :
    Call κ α → Reply α × Table κ α
  | .put k v => (.value (t.get? k), t.refresh k v)
  | .putAll es => (.done, es.foldl (fun t e => t.refresh e.1 e.2) t)
  | .putIfAbsent k v => (.value (t.get? k), t.refresh k ((t.get? k).getD v))
  | .remove k => (.value (t.get? k), t.erase k)
  | .removeIfEq k v => if t.get? k = some v then (.flag true, t.erase k) else (.flag false, t)
  | .replace k v => (.value (t.get? k), if t.contains k then t.refresh k v else t)
  | .replaceIfEq k old new =>
    if t.get? k = some old then (.flag true, t.refresh k new) else (.flag false, t)
  | .get k => (.value (t.get? k), t.use k)
  | .getOrDefault k v => (.value (some ((t.get? k).getD v)), t.use k)
  | .getLive k =>
    match t.get? k with
    | none => (.lookup .absent, t)
    | some v =>
      if Expirable.expired v m.now then (.lookup .expired, t.erase k)
      else (.lookup (.live v), t.refresh k v)
  | .contains k => (.flag (t.contains k), t)
  | .computeIfAbsent k f =>
    match t.get? k with
    | some v => (.value (some v), t.refresh k v)
    | none => resolve t k (f k)
  | .computeIfPresent k f =>
    match t.get? k with
    | some v => resolve t k (f k v)
    | none => (.value none, t)
  | .compute k f => resolve t k (f k (t.get? k))
  | .merge k v f =>
    match t.get? k with
    | some old => resolve t k (f old v)
    | none => (.value (some v), t.refresh k v)
  | .clear => (.done, .empty)
  | .forceCleanup =>
    let (report, t) := pass rule config m.now t
    (.outcome (.completed report), t)
  | .sleep ms =>
    (.time (m.now + Int64.ofNat ms), m.attempts.foldl (fun t now => (pass rule config now t).2) t)
  | .setClock _ | .editTracker _ => (.done, t)

def run (rule : Rule κ α) (config : Config) :
    List (Moment × Call κ α) → Table κ α → List (Reply α) × Table κ α
  | [], t => ([], t)
  | (m, call) :: rest, t =>
    let (reply, t) := step rule config m t call
    let (replies, t) := run rule config rest t
    (reply :: replies, t)

end RecencyList

end SizedCache
