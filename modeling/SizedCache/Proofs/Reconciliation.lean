import SizedCache.Proofs.PassLaws

/-!
# Reconciliation

Writers that race, or whoever shares the tracker, can leave records of keys that
are not stored and stored keys without a record. Reconciliation heals both: the
records become those of the stored keys, a key with a record keeps its touch, and
the touches of the others follow all that are kept (`reconcile_heals`). So a pass
that selects by recency evicts no key that came without a record while one that
came with a record remains. It is enough that the counter is ahead of the records;
they may share numbers.
-/

namespace SizedCache

namespace Recency

variable {κ α : Type} [DecidableEq κ]

def orphans (r : Recency κ) (t : Table κ α) : List κ := r.keys.filter fun k => !t.contains k

def untracked (r : Recency κ) (t : Table κ α) : List κ := t.keys.filter fun k => !r.contains k

theorem mem_untracked {r : Recency κ} {t : Table κ α} {k : κ} :
    k ∈ r.untracked t ↔ k ∈ t.keys ∧ k ∉ r.keys := by
  rw [untracked, List.mem_filter, Bool.not_eq_true', ← Bool.not_eq_true, contains_iff]

theorem length_orphans (r : Recency κ) (t : Table κ α) :
    (r.orphans t).length = r.size - (r.retain t.contains).size := by
  have hsplit := r.stamps.size_filter_add fun k _ => t.contains k
  have horphans : (r.orphans t).length = (r.stamps.filter fun k _ => !t.contains k).size := by
    rw [← Table.length_keys, Table.keys_filter_key]
    rfl
  show _ = r.stamps.size - (r.stamps.filter fun k _ => t.contains k).size
  omega

theorem adopted_perm (r : Recency κ) (t : Table κ α) (walk : Walk κ) :
    ((walk.arrange t.keys).filter fun k => !(r.retain t.contains).contains k).Perm
      (r.untracked t) := by
  refine ((walk.perm t.keys).filter _).trans (.of_eq (List.filter_congr fun k hk => ?_))
  have hget : (r.retain t.contains).get? k = r.get? k := by
    rw [get?_retain, if_pos (Table.contains_iff.mpr hk)]
  exact congrArg (fun u => !u.isSome) hget

theorem untracked_without_le (r : Recency κ) (t : Table κ α) (ks : List κ) :
    ((r.without ks).untracked (t.without ks)).length ≤ (r.untracked t).length := by
  have heq : (r.without ks).untracked (t.without ks) =
      (r.untracked t).filter fun k => !decide (k ∈ ks) := by
    rw [untracked, untracked, Table.without, Table.keys_filter_key, List.filter_filter,
      List.filter_filter]
    refine List.filter_congr fun k _ => ?_
    have hget : (r.without ks).get? k = if k ∈ ks then none else r.get? k :=
      r.stamps.get?_without ks k
    by_cases hk : k ∈ ks
    · simp [hk]
    · rw [if_neg hk] at hget
      simp only [hk, decide_false, Bool.not_false, Bool.and_true, Bool.true_and]
      exact congrArg (fun u => !u.isSome) hget
  rw [heq]
  exact List.length_filter_le ..

-- ---------------------------------------------------------------------------
-- Adoption
-- ---------------------------------------------------------------------------

theorem get?_foldl_touch_of_notMem {r : Recency κ} {now : Int64} {ks : List κ} {k : κ}
    (h : k ∉ ks) : (ks.foldl (·.touch now ·) r).get? k = r.get? k := by
  induction ks generalizing r with
  | nil => rfl
  | cons j ks ih =>
    obtain ⟨hne, hks⟩ := not_or.mp (mt List.mem_cons.mpr h)
    rw [List.foldl_cons, ih hks, get?_touch, if_neg (Ne.symm hne)]

/-- As long as the counter does not wrap, touched keys get numbers from it on. -/
theorem exists_get?_foldl_touch {r : Recency κ} (now : Int64) {ks : List κ} {k : κ} (hk : k ∈ ks)
    (hroom : r.next.toNat + ks.length ≤ UInt64.size) :
    ∃ v, (ks.foldl (·.touch now ·) r).get? k = some v ∧ r.next ≤ v.number := by
  induction ks generalizing r with
  | nil => cases hk
  | cons j ks ih =>
    rw [List.length_cons] at hroom
    by_cases hlater : k ∈ ks
    · -- a later touch of the same key counts, and the counter has not wrapped before it
      have hpos := List.length_pos_of_mem hlater
      have hnext : (r.touch now j).next.toNat = r.next.toNat + 1 :=
        Numbered.next_touch (by omega)
      obtain ⟨v, hv, hle⟩ := ih (r := r.touch now j) hlater (by omega)
      refine ⟨v, hv, UInt64.le_trans ?_ hle⟩
      rw [UInt64.le_iff_toNat_le]
      omega
    · obtain rfl : k = j := (List.mem_cons.mp hk).resolve_right hlater
      refine ⟨r.stamp now, ?_, UInt64.le_refl _⟩
      rw [List.foldl_cons, get?_foldl_touch_of_notMem hlater, get?_touch, if_pos rfl]

/-- The records `s` are those of the stored keys; the keys with a record in `r`
keep its touch, and the others were touched after all of these. -/
structure Heals (r s : Recency κ) (t : Table κ α) : Prop where
  keys : ∀ k, k ∈ s.keys ↔ k ∈ t.keys
  kept : ∀ k ∈ t.keys, ∀ u, r.get? k = some u → s.get? k = some u
  newer : ∀ j ∈ t.keys, ∀ k ∈ t.keys, j ∈ r.keys → k ∉ r.keys →
    ∃ u v, s.get? j = some u ∧ s.get? k = some v ∧ u < v

theorem heals_foldl_touch {r : Recency κ} {t : Table κ α} {ks : List κ} (now : Int64)
    (hbelow : ∀ e ∈ r.stamps.entries, e.2.number < r.next) (hks : ks.Perm (r.untracked t))
    (hroom : r.next.toNat + ks.length ≤ UInt64.size) :
    r.Heals (ks.foldl (·.touch now ·) (r.retain t.contains)) t := by
  have hmem : ∀ k, k ∈ ks ↔ k ∈ t.keys ∧ k ∉ r.keys := fun k => hks.mem_iff.trans mem_untracked
  have hkept : ∀ k ∈ t.keys, ∀ u, r.get? k = some u →
      (ks.foldl (·.touch now ·) (r.retain t.contains)).get? k = some u := by
    intro k hk u hu
    have hnot : k ∉ ks := fun h => ((hmem k).mp h).2 (Table.mem_keys_of_get? hu)
    rw [get?_foldl_touch_of_notMem hnot, get?_retain, if_pos (Table.contains_iff.mpr hk), hu]
  refine ⟨fun k => ?_, hkept, ?_⟩
  · rw [mem_keys_foldl_touch, keys_retain, List.mem_filter, Table.contains_iff, hmem]
    by_cases hr : k ∈ r.keys <;> simp [hr]
  · intro j hj k hk hjr hkr
    obtain ⟨u, hu⟩ := Table.mem_keys_iff.mp hjr
    obtain ⟨v, hv, hle⟩ :=
      exists_get?_foldl_touch (r := r.retain t.contains) now ((hmem k).mpr ⟨hk, hkr⟩) hroom
    have hlt : u.number < r.next := hbelow _ (Table.get?_eq_some_iff.mp hu)
    exact ⟨u, v, hkept j hj u hu, hv, Touch.lt_of_number_lt (UInt64.lt_of_lt_of_le hlt hle)⟩

end Recency

namespace Core

variable {κ α σ : Type} [DecidableEq κ]

def reconciliation (pruned adopted : Nat) : List Event :=
  if 0 < pruned + adopted then [.reconciled pruned adopted] else []

theorem reconcile_heals_records {c : Core κ α σ} {r : Recency κ} (ht : c.tracker = some r)
    (hbelow : ∀ e ∈ r.stamps.entries, e.2.number < r.next)
    (hroom : r.next.toNat + (r.untracked c.store).length ≤ UInt64.size) (walk : Walk κ)
    (now : Int64) :
    ∃ s, r.Heals s c.store ∧ c.reconcile walk now =
      { c with
        tracker := some s
        journal := c.journal ++
          reconciliation (r.orphans c.store).length (r.untracked c.store).length } := by
  have hperm := r.adopted_perm c.store walk
  refine ⟨_, Recency.heals_foldl_touch now hbelow hperm (hperm.length_eq ▸ hroom), ?_⟩
  simp only [reconcile, ht, reconciliation, Recency.length_orphans, ← hperm.length_eq]
  split
  · rfl
  · rw [List.append_nil]

-- ---------------------------------------------------------------------------
-- Passes
-- ---------------------------------------------------------------------------

theorem shrink_older_first {s : Setup κ α σ} (hs : s.selector = .leastRecent) {now : Int64}
    {c : Core κ α σ} {r : Recency κ} (ht : c.tracker = some r) {j k : κ} {u v : Touch}
    (hj : j ∈ c.store.keys) (hu : r.get? j = some u) (hk : k ∈ c.store.keys)
    (hv : r.get? k = some v) (huv : u < v) (hgone : k ∉ (c.shrink s now).2.store.keys) :
    j ∉ (c.shrink s now).2.store.keys := by
  rcases Nat.lt_or_ge s.config.maxCapacity c.store.size with hover | hle
  · have hwalk := s.walk.perm c.store.keys
    let victims := r.victims now c.store.size s.config.evictTo (s.walk.arrange c.store.keys)
    have hchoose : s.selector.choose s.walk c.tracker c.notes now c.store.size s.config.evictTo
        c.store = .victims victims c.notes := by
      rw [hs, ht]
      rfl
    rw [shrink_of_choose hover hchoose
      (Recency.victims_nodup (hwalk.nodup_iff.mpr c.store.keys_nodup))
      fun i hi => hwalk.mem_iff.mp (Recency.victims_subset hi)] at hgone ⊢
    have htaken : k ∈ victims.take (c.store.size - s.config.evictTo) := by
      by_contra hleft
      exact hgone (Table.mem_keys_without.mpr ⟨hk, hleft⟩)
    have hbefore := Recency.mem_take_victims htaken hv (hwalk.mem_iff.mpr hj) hu huv
    exact fun hleft => (Table.mem_keys_without.mp hleft).2 hbefore
  · rw [shrink_of_le now hle] at hgone
    exact absurd hk hgone

/-- Reconciliation of any records behind the counter heals them, and logs how many
records it dropped and how many it made, if any. In a pass with selection by
recency, once a key is evicted that came without a record, no survivor of the sweep
that came with a record is left. -/
theorem reconcile_heals {c : Core κ α σ} {r : Recency κ} (ht : c.tracker = some r)
    (hbelow : ∀ e ∈ r.stamps.entries, e.2.number < r.next)
    (hroom : r.next.toNat + (r.untracked c.store).length ≤ UInt64.size) :
    (∀ walk now, ∃ s, r.Heals s c.store ∧ c.reconcile walk now =
      { c with
        tracker := some s
        journal := c.journal ++
          reconciliation (r.orphans c.store).length (r.untracked c.store).length }) ∧
    ∀ (s : Setup κ α σ) (now : Int64), s.selector = .leastRecent →
      let swept := (c.sweep s.test now (s.walk.arrange c.store.keys)).2
      let left := (c.pass s now).2
      ∀ k ∈ swept.store.keys, k ∉ r.keys → k ∉ left.store.keys →
        ∀ j ∈ swept.store.keys, j ∈ r.keys → j ∉ left.store.keys := by
  refine ⟨reconcile_heals_records ht hbelow hroom, ?_⟩
  intro s now hs swept left k hk hkr hgone j hj hjr
  cases hx : (c.sweep s.test now (s.walk.arrange c.store.keys)).1 with
  | error e =>
    -- a sweep that fails ends the pass, and nothing is evicted
    have hleft : left = swept := congrArg Prod.snd (pass_of_sweep_error (Prod.ext hx rfl))
    exact absurd (hleft ▸ hk) hgone
  | ok n =>
    -- the sweep drops records with their entries, so its survivors have what they had
    obtain ⟨ds, notes, stats, -, hswept⟩ := sweep_snd s.test now (s.walk.arrange c.store.keys) c
    have hstore : swept.store = c.store.without ds := congrArg Core.store hswept
    have htracker : swept.tracker = some (r.without ds) := by
      rw [show swept.tracker = _ from congrArg Core.tracker hswept]
      exact congrArg (Option.map _) ht
    have hrecorded : ∀ i ∈ swept.store.keys, i ∈ (r.without ds).keys ↔ i ∈ r.keys := by
      intro i hi
      rw [hstore, Table.mem_keys_without] at hi
      rw [Recency.mem_keys_without, and_iff_left hi.2]
    have hroom' : (r.without ds).next.toNat + ((r.without ds).untracked swept.store).length ≤
        UInt64.size := by
      have hfewer := r.untracked_without_le c.store ds
      rw [hstore]
      exact Nat.le_trans (Nat.add_le_add_left hfewer _) hroom
    obtain ⟨t, hheals, hreconcile⟩ := reconcile_heals_records htracker
      (fun e he => hbelow e (List.mem_filter.mp he).1) hroom' s.walk now
    obtain ⟨u, v, hu, hv, huv⟩ :=
      hheals.newer j hj k hk ((hrecorded j hj).mpr hjr) (mt (hrecorded k hk).mp hkr)
    have hsifted : (c.sifted s now).store = swept.store := reconcile_store ..
    have hleft : left.store = ((c.sifted s now).shrink s now).2.store := pass_store_eq hx
    rw [hleft] at hgone ⊢
    exact shrink_older_first hs (congrArg Core.tracker hreconcile) (hsifted ▸ hj) hu
      (hsifted ▸ hk) hv huv hgone

/-- Beside the entries below, key 9 is not stored and the keys 3, 4 and 5 have no
record. The counter is three short of wrapping. -/
def strayRecords : Recency Nat where
  stamps := ⟨[(9, ⟨5, 2⟩), (1, ⟨90, 7⟩), (2, ⟨10, 4⟩)], by decide⟩
  next := 0 - 3

def strayed : Core Nat Nat Unit where
  store := ⟨[(1, 11), (2, 22), (3, 33), (4, 44), (5, 55)], by decide⟩
  tracker := some strayRecords
  notes := ()

def strayedSetup : Setup Nat Nat Unit where
  config := ⟨8, 3, 1, 0⟩
  valid := ⟨by decide, by decide⟩
  test := Rule.toTest fun _ k _ => decide (k = 5)
  selector := .leastRecent
  walk := .stored

def healedRecords : Recency Nat where
  stamps := ⟨[(1, ⟨90, 7⟩), (2, ⟨10, 4⟩), (3, ⟨0, 0 - 3⟩), (4, ⟨0, 0 - 2⟩)], by decide⟩
  next := 0 - 1

theorem pass_strayed : (strayed.pass strayedSetup 0).2.store.keys = [4] := by
  have htracker : (strayed.sifted strayedSetup 0).tracker = some healedRecords := by rfl
  have hnumbered : healedRecords.Numbered := ⟨by decide, by decide⟩
  have hage : healedRecords.byAge =
      [(2, ⟨10, 4⟩), (1, ⟨90, 7⟩), (3, ⟨0, 0 - 3⟩), (4, ⟨0, 0 - 2⟩)] :=
    hnumbered.byAge_eq (by decide) (by decide)
  have hvictims : healedRecords.victims 0 4 1 [1, 2, 3, 4] = [2, 1, 3] := by
    rw [hnumbered.victims_eq (by decide), hage]
    rfl
  have hchoose : strayedSetup.selector.choose strayedSetup.walk
      (strayed.sifted strayedSetup 0).tracker (strayed.sifted strayedSetup 0).notes 0 4 1
      (strayed.sifted strayedSetup 0).store = .victims [2, 1, 3] () := by
    rw [htracker]
    exact congrArg (Choice.victims · ()) hvictims
  rw [pass_store_eq (n := 1) rfl, shrink_of_choose (by decide) hchoose (by decide) (by decide)]
  rfl

theorem reconcile_heals_strayed :
    strayed.tracker = some strayRecords ∧
    (∀ e ∈ strayRecords.stamps.entries, e.2.number < strayRecords.next) ∧
    strayRecords.next.toNat + (strayRecords.untracked strayed.store).length ≤ UInt64.size ∧
    (strayed.reconcile .stored 0).journal = [.reconciled 1 3] ∧
    3 ∉ (strayed.pass strayedSetup 0).2.store.keys ∧
    ∀ j ∈ [1, 2], j ∉ (strayed.pass strayedSetup 0).2.store.keys := by
  have hbelow : ∀ e ∈ strayRecords.stamps.entries, e.2.number < strayRecords.next := by decide
  have hroom : strayRecords.next.toNat + (strayRecords.untracked strayed.store).length ≤
      UInt64.size := by decide
  obtain ⟨hreconcile, hpass⟩ := reconcile_heals (c := strayed) rfl hbelow hroom
  obtain ⟨s, -, hs⟩ := hreconcile .stored 0
  have hgone : 3 ∉ (strayed.pass strayedSetup 0).2.store.keys := by
    rw [pass_strayed]
    decide
  refine ⟨rfl, hbelow, hroom, congrArg Core.journal hs, hgone, fun j hj => ?_⟩
  refine hpass strayedSetup 0 rfl 3 (by decide) (by decide) hgone j ?_ ?_
  all_goals revert j; decide

end Core

end SizedCache
