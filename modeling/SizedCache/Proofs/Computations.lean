import SizedCache.Proofs.CallLaws
import SizedCache.Proofs.EvictLaws

/-!
# Writes as computations

A write to a key ends with a value under it or with none, and `assign` is what it
leaves: the entry, its record and the check of the size. The writes differ in code,
as some forget a vacant key and others leave it alone, and some store a value that
is there already. Where the tracked keys are the stored keys these come to the same,
and every write is a `compute` (`writes_are_computations`).
-/

namespace SizedCache

theorem Recency.forget_of_notMem {κ : Type} [DecidableEq κ] {r : Recency κ} {k : κ}
    (h : k ∉ r.keys) : r.forget k = r :=
  Recency.ext (Table.erase_of_notMem h) rfl

theorem Core.Mirrored.forget_vacant {κ α σ : Type} [DecidableEq κ] {c : Core κ α σ}
    (h : c.Mirrored) {k : κ} (hk : c.store.get? k = none) : c.forget k = c := by
  have hforget : c.tracker.map (·.forget k) = c.tracker := by
    cases hr : c.tracker with
    | none => rfl
    | some r =>
      have hnot : k ∉ r.keys := mt (h r hr k).mp (Table.get?_eq_none_iff.mp hk)
      rw [Option.map_some, Recency.forget_of_notMem hnot]
  rw [forget, hforget]

namespace Cache

variable {κ α σ : Type} [DecidableEq κ] {c : Cache κ α σ} {k : κ} {v : α}

def assign (c : Cache κ α σ) (k : κ) (w : Option α) : Cache κ α σ :=
  checkCapacity { c with core := c.core.act c.now (.settle k w) }

theorem assign_present (hk : c.store.get? k = some v) :
    c.assign k (some v) = (c.touch k).checkCapacity := by
  have hact : c.core.act c.now (.settle k (some v)) = c.core.touch c.now k :=
    Core.act_keep_self hk c.now
  rw [assign, hact]
  rfl

theorem assign_vacant (hk : c.store.get? k = none) :
    c.assign k none = (c.forget k).checkCapacity := by
  have hact : c.core.act c.now (.settle k none) = c.core.forget k :=
    Core.act_drop_vacant hk c.now
  rw [assign, hact]
  rfl

theorem assign_vacant_of_mirrored (hm : c.core.Mirrored) (hk : c.store.get? k = none) :
    c.assign k none = c.checkCapacity := by
  have hforget : c.core.forget k = c.core := hm.forget_vacant hk
  rw [assign_vacant hk, forget, hforget]

def resolve (c : Cache κ α σ) (k : κ) :
    Except Failure (Option α) → Except Failure (Option α) × Cache κ α σ
  | .ok w => (.ok w, c.assign k w)
  | .error e => (.error e, c)

theorem compute_eq (c : Cache κ α σ) (k : κ) (f : κ → Option α → Except Failure (Option α)) :
    c.compute k f = c.resolve k (f k (c.store.get? k)) := by
  rcases hf : f k (c.store.get? k) with e | _ | w <;>
    simp only [compute, Table.compute, hf] <;> rfl

-- ---------------------------------------------------------------------------
-- Writes of a value
-- ---------------------------------------------------------------------------

section Values

variable (c k v)

theorem put_eq :
    c.put k v = (c.store.get? k, (c.compute k fun _ _ => .ok (some v)).2) := by
  rw [compute_eq]
  rfl

theorem putIfAbsent_eq :
    c.putIfAbsent k v =
      (c.store.get? k, (c.compute k fun _ cur => .ok (some (cur.getD v))).2) := by
  rw [compute_eq]
  cases hk : c.store.get? k with
  | none =>
    simp only [putIfAbsent, Table.insertIfAbsent, hk]
    rfl
  | some old =>
    rw [resolve, Option.getD_some, assign_present hk]
    simp only [putIfAbsent, Table.insertIfAbsent, hk]
    rfl

variable {c}

theorem replace_eq (hm : c.core.Mirrored) :
    c.replace k v = (c.store.get? k, (c.compute k fun _ cur => .ok (cur.map fun _ => v)).2) := by
  rw [compute_eq]
  cases hk : c.store.get? k with
  | none =>
    rw [resolve, Option.map_none, assign_vacant_of_mirrored hm hk]
    simp only [replace, Table.replace, hk]
    rfl
  | some old =>
    simp only [replace, Table.replace, hk]
    rfl

theorem remove_eq (hm : c.core.Mirrored) :
    c.remove k = (c.store.get? k, (c.compute k fun _ _ => .ok none).2) := by
  rw [compute_eq, resolve]
  cases hk : c.store.get? k with
  | none =>
    rw [assign_vacant_of_mirrored hm hk]
    simp only [remove, Table.remove, hk, Table.erase_of_get? hk]
    rfl
  | some old =>
    simp only [remove, Table.remove, hk]
    rfl

end Values

-- ---------------------------------------------------------------------------
-- Writes by closures
-- ---------------------------------------------------------------------------

theorem computeIfAbsent_eq (hm : c.core.Mirrored) (k : κ) (f : κ → Except Failure (Option α)) :
    c.computeIfAbsent k f =
      c.compute k fun k cur => cur.elim (f k) fun old => .ok (some old) := by
  rw [compute_eq]
  cases hk : c.store.get? k with
  | some old =>
    show _ = c.resolve k (.ok (some old))
    rw [resolve, assign_present hk]
    simp only [computeIfAbsent, Table.computeIfAbsent, hk]
    rfl
  | none =>
    show _ = c.resolve k (f k)
    rcases hf : f k with e | _ | w
    · simp only [computeIfAbsent, Table.computeIfAbsent, hk, hf, resolve]
    · rw [resolve, assign_vacant_of_mirrored hm hk]
      simp only [computeIfAbsent, Table.computeIfAbsent, hk, hf]
      rfl
    · simp only [computeIfAbsent, Table.computeIfAbsent, hk, hf]
      rfl

theorem computeIfPresent_eq (c : Cache κ α σ) (k : κ) (f : κ → α → Except Failure (Option α)) :
    c.computeIfPresent k f = c.compute k fun k cur => cur.elim (.ok none) (f k) := by
  rw [compute_eq]
  cases hk : c.store.get? k with
  | none =>
    show _ = c.resolve k (.ok none)
    rw [resolve, assign_vacant hk]
    simp only [computeIfPresent, Table.computeIfPresent, hk]
    rfl
  | some old =>
    show _ = c.resolve k (f k old)
    rcases hf : f k old with e | _ | w <;>
      simp only [computeIfPresent, Table.computeIfPresent, hk, hf] <;> rfl

theorem merge_eq (c : Cache κ α σ) (k : κ) (v : α) (f : α → α → Except Failure (Option α)) :
    c.merge k v f = c.compute k fun _ cur => cur.elim (.ok (some v)) (f · v) := by
  rw [compute_eq]
  cases hk : c.store.get? k with
  | none =>
    simp only [merge, Table.merge, hk]
    rfl
  | some old =>
    show _ = c.resolve k (f old v)
    rcases hf : f old v with e | _ | w <;>
      simp only [merge, Table.merge, hk, hf] <;> rfl

-- ---------------------------------------------------------------------------
-- Writes on the condition of a value
-- ---------------------------------------------------------------------------

section Conditions

variable [DecidableEq α] {old : α}

theorem replaceIfEq_of_match (v : α) (hk : c.store.get? k = some old) :
    c.replaceIfEq k old v = (true, (c.replace k v).2) := by
  simp only [replaceIfEq, Table.replaceIfEq, replace, Table.replace, hk]
  rfl

theorem replaceIfEq_of_mismatch (v : α) (hk : c.store.get? k ≠ some old) :
    c.replaceIfEq k old v = (false, c.checkCapacity) := by
  simp only [replaceIfEq, Table.replaceIfEq, if_neg hk]
  rfl

theorem removeIfEq_of_mismatch (hk : c.store.get? k ≠ some old) :
    c.removeIfEq k old = (false, c) := by
  cases hw : c.store.get? k with
  | none =>
    simp only [removeIfEq, Table.removeIf, hw]
    rfl
  | some w =>
    have hne : w ≠ old := fun he => hk (he ▸ hw)
    simp only [removeIfEq, Table.removeIf, hw, decide_eq_false hne]
    rfl

end Conditions

/-- In a cache that tracks nothing or exactly its stored keys, every write to a key
is a `compute`: it leaves the same cache, with what is pending and what is logged,
and answers with the value that was there or, if it runs a closure, with what the
`compute` answers, a failure included. A write on the condition of a value is a
`replace` where the value is there, and otherwise leaves the entries and the records
alone. -/
theorem writes_are_computations (hm : c.core.Mirrored) (k : κ) (v : α) :
    c.put k v = (c.store.get? k, (c.compute k fun _ _ => .ok (some v)).2) ∧
    c.putIfAbsent k v =
      (c.store.get? k, (c.compute k fun _ cur => .ok (some (cur.getD v))).2) ∧
    c.replace k v = (c.store.get? k, (c.compute k fun _ cur => .ok (cur.map fun _ => v)).2) ∧
    c.remove k = (c.store.get? k, (c.compute k fun _ _ => .ok none).2) ∧
    (∀ f, c.computeIfAbsent k f =
      c.compute k fun k cur => cur.elim (f k) fun old => .ok (some old)) ∧
    (∀ f, c.computeIfPresent k f = c.compute k fun k cur => cur.elim (.ok none) (f k)) ∧
    (∀ f, c.merge k v f = c.compute k fun _ cur => cur.elim (.ok (some v)) (f · v)) ∧
    ∀ [DecidableEq α] (old : α),
      (c.store.get? k = some old → c.replaceIfEq k old v = (true, (c.replace k v).2)) ∧
      (c.store.get? k ≠ some old → c.removeIfEq k old = (false, c) ∧
        (c.replaceIfEq k old v).1 = false ∧ (c.replaceIfEq k old v).2.store = c.store ∧
        (c.replaceIfEq k old v).2.core.tracker = c.core.tracker) := by
  refine ⟨put_eq c k v, putIfAbsent_eq c k v, replace_eq k v hm, remove_eq k hm,
    computeIfAbsent_eq hm k, computeIfPresent_eq c k, merge_eq c k v, ?_⟩
  intro _ old
  refine ⟨replaceIfEq_of_match v, fun hk => ⟨removeIfEq_of_mismatch hk, ?_⟩⟩
  obtain ⟨oneShot, journal, hcheck⟩ := c.checkCapacity_frame
  rw [replaceIfEq_of_mismatch v hk, hcheck]
  exact ⟨rfl, rfl, rfl⟩

def trackedPair : Cache Nat Nat Unit where
  setup := ⟨⟨10, 4, 2, 0⟩, ⟨by decide, by decide⟩, Rule.toTest Rule.never, .leastRecent, .stored⟩
  core := {
    store := ⟨[(1, 15), (2, 25)], by decide⟩
    tracker := some { stamps := ⟨[(2, ⟨5, 1⟩), (1, ⟨3, 2⟩)], by decide⟩, next := 3 }
    notes := () }
  scheduler := { runtime := true }
  now := 7

theorem writes_are_computations_tracked :
    trackedPair.core.Mirrored ∧
    trackedPair.remove 9 = (none, (trackedPair.compute 9 fun _ _ => .ok none).2) ∧
    (trackedPair.compute 3 fun _ _ => .ok (some 30)).2.scheduler.oneShot = some 50 ∧
    trackedPair.merge 2 5 (fun _ _ => .error ⟨"closure failure"⟩) =
      (.error ⟨"closure failure"⟩, trackedPair) := by
  have hm : trackedPair.core.Mirrored := by
    rintro r ⟨⟩ k
    exact (List.Perm.swap 1 2 []).mem_iff
  obtain ⟨-, -, -, hremove, -⟩ := writes_are_computations hm 9 0
  obtain ⟨hput, -⟩ := writes_are_computations hm 3 30
  obtain ⟨-, -, -, -, -, -, hmerge, -⟩ := writes_are_computations hm 2 5
  exact ⟨hm, hremove, (congrArg (·.2.scheduler.oneShot) hput).symm, hmerge _⟩

end Cache

end SizedCache
