import SizedCache.Proofs.SweepLaws
import SizedCache.Proofs.VictimLaws

/-!
# Laws of reconciliation and eviction

Reconciliation leaves exactly the stored keys with records, and changes nothing
where they have them already. From there a stock selector names enough victims,
so eviction ends at the target size, whatever the recorded touches are.
-/

namespace SizedCache

def Config.excess (c : Config) (n : Nat) : Nat :=
  if c.maxCapacity < n then n - c.evictTo else 0

theorem Config.excess_of_le {c : Config} {n : Nat} (h : n ≤ c.maxCapacity) : c.excess n = 0 := by
  rw [excess, if_neg (Nat.not_lt.mpr h)]

theorem Config.excess_of_lt {c : Config} {n : Nat} (h : c.maxCapacity < n) :
    c.excess n = n - c.evictTo := by
  rw [excess, if_pos h]

theorem Config.sub_excess_le {c : Config} (h : c.Valid) (n : Nat) :
    n - c.excess n ≤ c.maxCapacity := by
  have := h.evictTo_le
  unfold excess
  split <;> omega

theorem Config.sub_excess_of_lt {c : Config} (h : c.Valid) {n : Nat} (hn : c.maxCapacity < n) :
    n - c.excess n = c.evictTo := by
  have := h.evictTo_le
  rw [excess_of_lt hn]
  omega

/-- One of the selectors that come with a cache. The one by recency reads the
records that the cache keeps. -/
def Selector.Stock {κ α σ : Type} : Selector κ α σ → Option (Recency κ) → Prop
  | .anyOrder, _ => True
  | .leastRecent, tracker => tracker.isSome = true
  | .custom _, _ => False

theorem Recency.mem_keys_foldl_touch {κ : Type} [DecidableEq κ] {now : Int64} {ks : List κ}
    {r : Recency κ} {k : κ} :
    k ∈ (ks.foldl (·.touch now ·) r).keys ↔ k ∈ ks ∨ k ∈ r.keys := by
  induction ks generalizing r with
  | nil => simp
  | cons j ks ih =>
    rw [List.foldl_cons, ih, mem_keys_touch, List.mem_cons]
    exact or_left_comm.trans or_assoc.symm

namespace Core

variable {κ α σ : Type} [DecidableEq κ]

/-- The tracked keys, if keys are tracked, are the stored keys. -/
def Mirrored (c : Core κ α σ) : Prop :=
  ∀ r, c.tracker = some r → ∀ k, k ∈ r.keys ↔ k ∈ c.store.keys

theorem Mirrored.without {c : Core κ α σ} (h : c.Mirrored) (ks : List κ) :
    (c.without ks).Mirrored := by
  intro r' hr' k
  obtain ⟨r, hr, rfl⟩ := Option.map_eq_some_iff.mp hr'
  rw [Recency.mem_keys_without, h r hr k]
  exact Table.mem_keys_without.symm

-- ---------------------------------------------------------------------------
-- Reconciliation
-- ---------------------------------------------------------------------------

section Reconcile

variable (walk : Walk κ) (now : Int64) (c : Core κ α σ)

theorem reconcile_eq : ∃ tracker journal, tracker.isSome = c.tracker.isSome ∧
    c.reconcile walk now = { c with tracker, journal } := by
  cases h : c.tracker with
  | none =>
    have heq : c.reconcile walk now = c := by simp only [reconcile, h]
    exact ⟨c.tracker, c.journal, by rw [h], heq⟩
  | some r =>
    simp only [reconcile, h]
    split
    · refine ⟨some _, _, ?_, rfl⟩
      rfl
    · refine ⟨some _, _, ?_, rfl⟩
      rfl

@[simp] theorem reconcile_store : (c.reconcile walk now).store = c.store := by
  obtain ⟨_, _, -, h⟩ := reconcile_eq walk now c
  rw [h]

@[simp] theorem reconcile_tracks :
    (c.reconcile walk now).tracker.isSome = c.tracker.isSome := by
  obtain ⟨_, _, ht, h⟩ := reconcile_eq walk now c
  rw [h, ht]

theorem reconcile_journal :
    ∃ events, (c.reconcile walk now).journal = c.journal ++ events ∧
      ∀ e ∈ events, ∃ pruned adopted, e = .reconciled pruned adopted := by
  unfold reconcile
  split
  · exact ⟨[], by simp⟩
  · simp only
    split
    · exact ⟨[_], rfl, by simp⟩
    · exact ⟨[], by simp⟩

theorem reconcile_tracker {r : Recency κ} (h : c.tracker = some r) :
    (c.reconcile walk now).tracker =
      some (((walk.arrange c.store.keys).filter
        fun k => !(r.retain c.store.contains).contains k).foldl (·.touch now ·)
          (r.retain c.store.contains)) := by
  simp only [reconcile, h]
  split <;> rfl

theorem reconcile_mirrored : (c.reconcile walk now).Mirrored := by
  intro r' hr' k
  rw [reconcile_store]
  cases h : c.tracker with
  | none =>
    have ht := reconcile_tracks walk now c
    rw [hr', h] at ht
    cases ht
  | some r =>
    rw [reconcile_tracker walk now c h, Option.some.injEq] at hr'
    rw [← hr', Recency.mem_keys_foldl_touch, List.mem_filter, (walk.perm _).mem_iff]
    have hkept : k ∈ (r.retain c.store.contains).keys → k ∈ c.store.keys := by
      rw [Recency.keys_retain, List.mem_filter]
      exact fun hk => Table.contains_iff.mp hk.2
    constructor
    · rintro (hk | hk)
      · exact hk.1
      · exact hkept hk
    · intro hk
      by_cases hr : k ∈ (r.retain c.store.contains).keys
      · exact .inr hr
      · refine .inl ⟨hk, ?_⟩
        rw [Bool.not_eq_true', ← Bool.not_eq_true, Recency.contains_iff]
        exact hr

theorem reconcile_of_mirrored (h : c.Mirrored) : c.reconcile walk now = c := by
  unfold reconcile
  cases hr : c.tracker with
  | none => rfl
  | some r =>
    have hkept : r.retain c.store.contains = r :=
      Recency.retain_eq_self fun k hk => Table.contains_iff.mpr ((h r hr k).mp hk)
    have huntracked : (walk.arrange c.store.keys).filter (fun k => !r.contains k) = [] := by
      refine List.filter_eq_nil_iff.mpr fun k hk => ?_
      have hstored := (walk.perm _).mem_iff.mp hk
      simp [Recency.contains_iff.mpr ((h r hr k).mpr hstored)]
    simp only [hkept, huntracked, Nat.sub_self, List.length_nil, Nat.lt_irrefl, if_false,
      List.foldl_nil]
    rw [← hr]

end Reconcile

-- ---------------------------------------------------------------------------
-- Eviction
-- ---------------------------------------------------------------------------

/-- Eviction takes out the present keys, in the order in which they are named,
until the target size is reached. -/
theorem evict_eq (target : Nat) (ks : List κ) (c : Core κ α σ) :
    c.evict target ks =
      (((c.store.present ks).take (c.store.size - target)).length,
        c.without ((c.store.present ks).take (c.store.size - target))) := by
  induction ks generalizing c with
  | nil => simp [evict]
  | cons k ks ih =>
    unfold evict
    rcases Nat.lt_or_ge target c.store.size with hlt | hle
    · rw [if_neg (Nat.not_le.mpr hlt)]
      cases hk : c.store.contains k with
      | false => rw [if_neg Bool.false_ne_true, ih, Table.present_cons_of_absent hk]
      | true =>
        have hsize : (c.drop k).store.size = c.store.size - 1 := by
          show (c.store.erase k).size = _
          rw [Table.size_erase, if_pos (Table.contains_iff.mp hk)]
        obtain ⟨n, hpos⟩ : ∃ n, c.store.size - target = n + 1 :=
          ⟨c.store.size - target - 1, by omega⟩
        have hdiff : c.store.size - 1 - target = n := by omega
        rw [if_pos rfl, ih, Table.present_cons hk, hsize, hpos, hdiff, List.take_succ_cons,
          List.length_cons, ← drop_without]
        rfl
    · rw [if_pos hle, Nat.sub_eq_zero_of_le hle]
      simp

/-- A stock selector names distinct stored keys, and enough of them. -/
theorem choose_stock {s : Selector κ α σ} (walk : Walk κ) (now : Int64) (target : Nat)
    {c : Core κ α σ} (hs : s.Stock c.tracker) (hm : c.Mirrored) :
    ∃ ks, s.choose walk c.tracker c.notes now c.store.size target c.store = .victims ks c.notes ∧
      ks.Nodup ∧ (∀ k ∈ ks, k ∈ c.store.keys) ∧ c.store.size - target ≤ ks.length := by
  have hwalk := walk.perm c.store.keys
  have hnodup : (walk.arrange c.store.keys).Nodup := hwalk.nodup_iff.mpr c.store.keys_nodup
  have hlen : (walk.arrange c.store.keys).length = c.store.size :=
    hwalk.length_eq.trans c.store.length_keys
  cases s with
  | anyOrder =>
    exact ⟨_, rfl, hnodup, fun k hk => hwalk.mem_iff.mp hk, by omega⟩
  | leastRecent =>
    obtain ⟨r, hr⟩ := Option.isSome_iff_exists.mp hs
    refine ⟨_, rfl, Recency.victims_nodup hnodup,
      fun k hk => hwalk.mem_iff.mp (Recency.victims_subset hk), ?_⟩
    rw [hr]
    apply Recency.le_length_victims
    · exact (List.perm_ext_iff_of_nodup hnodup r.stamps.keys_nodup).mpr fun k =>
        hwalk.mem_iff.trans (hm r hr k).symm
    · exact Nat.le_of_eq hlen.symm
  | custom choose => exact hs.elim

theorem shrink_of_le {s : Setup κ α σ} (now : Int64) {c : Core κ α σ}
    (h : c.store.size ≤ s.config.maxCapacity) : c.shrink s now = (.ok 0, c) := by
  simp only [shrink, if_neg (Nat.not_lt.mpr h)]

/-- Above the ceiling the selector is asked, and of the keys that it names go as
many as are too many. -/
theorem shrink_of_victims {s : Setup κ α σ} {now : Int64} {c : Core κ α σ} {ks : List κ}
    {notes : σ} (h : s.config.maxCapacity < c.store.size)
    (hc : s.selector.choose s.walk c.tracker c.notes now c.store.size s.config.evictTo c.store =
      .victims ks notes) :
    c.shrink s now =
      (.ok ((c.store.present ks).take (c.store.size - s.config.evictTo)).length,
        { c with notes }.without
          ((c.store.present ks).take (c.store.size - s.config.evictTo))) := by
  simp only [shrink, if_pos h, hc, evict_eq]

theorem shrink_of_fail {s : Setup κ α σ} {now : Int64} {c : Core κ α σ} {e : Failure} {notes : σ}
    (h : s.config.maxCapacity < c.store.size)
    (hc : s.selector.choose s.walk c.tracker c.notes now c.store.size s.config.evictTo c.store =
      .fail e notes) :
    c.shrink s now = (.error e, { c with notes }) := by
  simp only [shrink, if_pos h, hc]

theorem shrink_snd (s : Setup κ α σ) (now : Int64) (c : Core κ α σ) :
    ∃ vs notes, (c.shrink s now).2 = { c with notes }.without vs ∧
      (c.store.size ≤ s.config.maxCapacity → vs = []) := by
  rcases Nat.lt_or_ge s.config.maxCapacity c.store.size with h | h
  · have hover : ¬ c.store.size ≤ s.config.maxCapacity := Nat.not_le.mpr h
    cases hc : s.selector.choose s.walk c.tracker c.notes now c.store.size s.config.evictTo
        c.store with
    | victims ks notes =>
      exact ⟨_, notes, by rw [shrink_of_victims h hc], fun hle => absurd hle hover⟩
    | fail e notes =>
      exact ⟨[], notes, by rw [shrink_of_fail h hc, without_nil], fun _ => rfl⟩
  · exact ⟨[], c.notes, by rw [shrink_of_le now h, without_nil], fun _ => rfl⟩

theorem shrink_of_choose {s : Setup κ α σ} {now : Int64} {c : Core κ α σ} {ks : List κ}
    (h : s.config.maxCapacity < c.store.size)
    (hc : s.selector.choose s.walk c.tracker c.notes now c.store.size s.config.evictTo c.store =
      .victims ks c.notes)
    (hn : ks.Nodup) (hk : ∀ k ∈ ks, k ∈ c.store.keys) :
    c.shrink s now = (.ok (ks.take (c.store.size - s.config.evictTo)).length,
      c.without (ks.take (c.store.size - s.config.evictTo))) := by
  rw [shrink_of_victims h hc, Table.present_eq_self hn hk]

theorem shrink_stock {s : Setup κ α σ} (now : Int64) {c : Core κ α σ}
    (hs : s.selector.Stock c.tracker) (hm : c.Mirrored) :
    ∃ vs, vs.Nodup ∧ (∀ k ∈ vs, k ∈ c.store.keys) ∧ vs.length = s.config.excess c.store.size ∧
      c.shrink s now = (.ok vs.length, c.without vs) := by
  rcases Nat.lt_or_ge s.config.maxCapacity c.store.size with h | h
  · obtain ⟨ks, hc, hn, hk, hlen⟩ := choose_stock s.walk now s.config.evictTo hs hm
    refine ⟨ks.take (c.store.size - s.config.evictTo), hn.sublist (List.take_sublist _ _),
      fun k hmem => hk k (List.mem_of_mem_take hmem), ?_, shrink_of_choose h hc hn hk⟩
    rw [List.length_take, Config.excess_of_lt h]
    omega
  · refine ⟨[], .nil, by simp, ?_, by simp [shrink_of_le now h]⟩
    rw [Config.excess_of_le h, List.length_nil]

end Core

end SizedCache
