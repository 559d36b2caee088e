import SizedCache.Recency
import Mathlib.Data.List.Nodup

/-!
# Laws of tables and records

`without` takes a list of keys out at once; it is what a sequence of single
erasures leaves, and what a pass does to the store and to the records alike.
-/

namespace SizedCache

namespace Table

variable {κ α : Type}

theorem ext {t u : Table κ α} (h : t.entries = u.entries) : t = u := by
  cases t; cases u; cases h; rfl

theorem filter_filter (t : Table κ α) (p q : κ → α → Bool) :
    (t.filter p).filter q = t.filter fun k v => p k v && q k v := by
  apply ext
  simp [filter, List.filter_filter, Bool.and_comm]

theorem filter_congr {t : Table κ α} {p q : κ → α → Bool}
    (h : ∀ e ∈ t.entries, p e.1 e.2 = q e.1 e.2) : t.filter p = t.filter q :=
  ext (List.filter_congr h)

theorem filter_eq_self {t : Table κ α} {p : κ → α → Bool}
    (h : ∀ e ∈ t.entries, p e.1 e.2 = true) : t.filter p = t :=
  ext (List.filter_eq_self.mpr h)

theorem size_filter_add (t : Table κ α) (p : κ → α → Bool) :
    (t.filter p).size + (t.filter fun k v => !p k v).size = t.size :=
  (List.length_eq_length_filter_add _).symm

theorem keys_filter_key (t : Table κ α) (p : κ → Bool) :
    (t.filter fun k _ => p k).keys = t.keys.filter p := by
  simp only [keys, filter, List.filter_map]
  rfl

theorem mem_keys {t : Table κ α} {e : κ × α} (h : e ∈ t.entries) : e.1 ∈ t.keys :=
  List.mem_map_of_mem h

section Keys

variable [DecidableEq κ]

theorem mem_keys_iff {t : Table κ α} {k : κ} : k ∈ t.keys ↔ ∃ v, t.get? k = some v := by
  rw [← contains_iff, contains, Option.isSome_iff_exists]

theorem mem_keys_of_get? {t : Table κ α} {k : κ} {v : α} (h : t.get? k = some v) : k ∈ t.keys :=
  mem_keys_iff.mpr ⟨v, h⟩

theorem mem_keys_set {t : Table κ α} {k k' : κ} {v : α} :
    k' ∈ (t.set k v).keys ↔ k' = k ∨ k' ∈ t.keys := by
  rw [keys_set]
  split
  · rename_i h
    constructor
    · exact .inr
    · rintro (rfl | hk)
      · exact h
      · exact hk
  · simp [or_comm]

theorem mem_keys_erase {t : Table κ α} {k k' : κ} :
    k' ∈ (t.erase k).keys ↔ k' ≠ k ∧ k' ∈ t.keys := by
  simp [keys_erase, and_comm]

theorem size_erase_le (t : Table κ α) (k : κ) : (t.erase k).size ≤ t.size := by
  rw [size_erase]
  split <;> omega

@[simp] theorem contains_set_self (t : Table κ α) (k : κ) (v : α) :
    (t.set k v).contains k = true := by
  simp [contains]

@[simp] theorem contains_erase_self (t : Table κ α) (k : κ) : (t.erase k).contains k = false := by
  simp [contains]

theorem size_set_contains (t : Table κ α) (k : κ) (v : α) :
    (t.set k v).size = t.size + if t.contains k then 0 else 1 := by
  rw [size_set]
  by_cases hk : k ∈ t.keys <;> simp [hk, contains_iff]

theorem size_erase_contains (t : Table κ α) (k : κ) :
    (t.erase k).size + (if t.contains k then 1 else 0) = t.size := by
  rw [size_erase]
  by_cases hk : k ∈ t.keys
  · have hpos : 0 < t.size := by
      rw [← length_keys]
      exact List.length_pos_of_mem hk
    simp only [hk, contains_iff, if_true]
    omega
  · simp [hk, contains_iff]

theorem erase_of_notMem {t : Table κ α} {k : κ} (h : k ∉ t.keys) : t.erase k = t := by
  apply filter_eq_self (p := fun k' _ => !decide (k' = k))
  intro e he
  have hne : e.1 ≠ k := fun hk => h (hk ▸ mem_keys he)
  simp [hne]

-- ---------------------------------------------------------------------------
-- Taking out many keys
-- ---------------------------------------------------------------------------

def without (t : Table κ α) (ks : List κ) : Table κ α :=
  t.filter fun k _ => !decide (k ∈ ks)

@[simp] theorem without_nil (t : Table κ α) : t.without [] = t :=
  filter_eq_self (by simp)

theorem without_append (t : Table κ α) (js ks : List κ) :
    t.without (js ++ ks) = (t.without js).without ks := by
  rw [without, without, without, filter_filter]
  apply filter_congr
  simp

theorem without_cons (t : Table κ α) (k : κ) (ks : List κ) :
    t.without (k :: ks) = (t.erase k).without ks := by
  have h : t.erase k = t.without [k] := by
    apply ext
    simp [without, erase, eraseIn, filter]
  rw [h, ← without_append]
  rfl

theorem get?_without (t : Table κ α) (ks : List κ) (k : κ) :
    (t.without ks).get? k = if k ∈ ks then none else t.get? k := by
  rw [without, get?_filter]
  cases t.get? k <;> by_cases h : k ∈ ks <;> simp [h]

theorem mem_keys_without {t : Table κ α} {ks : List κ} {k : κ} :
    k ∈ (t.without ks).keys ↔ k ∈ t.keys ∧ k ∉ ks := by
  rw [without, keys_filter_key]
  simp

theorem size_without {t : Table κ α} {ks : List κ} (hn : ks.Nodup) (hk : ∀ k ∈ ks, k ∈ t.keys) :
    (t.without ks).size + ks.length = t.size := by
  induction ks generalizing t with
  | nil => simp
  | cons k ks ih =>
    obtain ⟨hnot, hn⟩ := List.nodup_cons.mp hn
    have hmem : k ∈ t.keys := hk k (by simp)
    have hrest : ∀ j ∈ ks, j ∈ (t.erase k).keys := fun j hj =>
      mem_keys_erase.mpr ⟨fun he => hnot (he ▸ hj), hk j (List.mem_cons_of_mem _ hj)⟩
    have hsize := ih hn hrest
    have herase := t.size_erase_contains k
    rw [if_pos (contains_iff.mpr hmem)] at herase
    rw [without_cons, List.length_cons]
    omega

-- ---------------------------------------------------------------------------
-- Named keys
-- ---------------------------------------------------------------------------

omit [DecidableEq κ] in
theorem eraseDups_filter [BEq κ] [LawfulBEq κ] (p : κ → Bool) (ks : List κ) :
    (ks.filter p).eraseDups = ks.eraseDups.filter p := by
  obtain ⟨n, hn⟩ : ∃ n, ks.length ≤ n := ⟨_, Nat.le_refl _⟩
  -- on a bound of the length, as a first occurrence is followed by a filtered list
  induction n generalizing ks with
  | zero =>
    obtain rfl := List.eq_nil_of_length_eq_zero (Nat.le_zero.mp hn)
    rfl
  | succ n ih =>
    cases ks with
    | nil => rfl
    | cons k ks =>
      have hlen : (ks.filter fun j => !j == k).length ≤ n :=
        Nat.le_trans (List.length_filter_le _ _) (Nat.le_of_succ_le_succ hn)
      rw [List.eraseDups_cons]
      cases hk : p k with
      | true =>
        rw [List.filter_cons_of_pos hk, List.filter_cons_of_pos hk, List.eraseDups_cons,
          ← ih _ hlen, List.filter_filter, List.filter_filter]
        simp only [Bool.and_comm]
      | false =>
        have hne : ∀ j ∈ ks, p j = (p j && !j == k) := by
          intro j _
          by_cases hj : j = k
          · simp [hj, hk]
          · simp [hj]
        rw [List.filter_cons_of_neg (by simp [hk]), List.filter_cons_of_neg (by simp [hk]),
          ← ih _ hlen, List.filter_filter, List.filter_congr hne]

/-- The keys among `ks` that are present, each once, in the order in which they
are first named. -/
def present (t : Table κ α) (ks : List κ) : List κ :=
  ks.eraseDups.filter fun k => t.contains k

@[simp] theorem present_nil (t : Table κ α) : t.present [] = [] := rfl

theorem present_cons {t : Table κ α} {k : κ} {ks : List κ} (h : t.contains k = true) :
    t.present (k :: ks) = k :: (t.erase k).present ks := by
  have herase : ∀ j, (t.erase k).contains j = (t.contains j && !j == k) := by
    intro j
    by_cases hj : k = j
    · simp [contains, hj]
    · simp [contains, hj, Ne.symm hj]
  rw [present, List.eraseDups_cons, List.filter_cons_of_pos h, eraseDups_filter,
    List.filter_filter, present]
  simp only [herase]

theorem present_cons_of_absent {t : Table κ α} {k : κ} {ks : List κ} (h : t.contains k = false) :
    t.present (k :: ks) = t.present ks := by
  have hne : ∀ j ∈ ks.eraseDups, (t.contains j && !j == k) = t.contains j := by
    intro j _
    by_cases hj : j = k
    · simp [hj, h]
    · simp [hj]
  rw [present, List.eraseDups_cons, List.filter_cons_of_neg (by simp [h]), eraseDups_filter,
    List.filter_filter, List.filter_congr hne, present]

theorem mem_present {t : Table κ α} {ks : List κ} {k : κ} :
    k ∈ t.present ks ↔ k ∈ ks ∧ k ∈ t.keys := by
  rw [present, List.mem_filter, List.mem_eraseDups, contains_iff]

theorem present_nodup (t : Table κ α) (ks : List κ) : (t.present ks).Nodup := by
  induction ks generalizing t with
  | nil => exact .nil
  | cons k ks ih =>
    cases hk : t.contains k with
    | false =>
      rw [present_cons_of_absent hk]
      exact ih t
    | true =>
      rw [present_cons hk, List.nodup_cons]
      exact ⟨fun hmem => (mem_keys_erase.mp (mem_present.mp hmem).2).1 rfl, ih _⟩

theorem present_eq_self {t : Table κ α} {ks : List κ} (hn : ks.Nodup)
    (hk : ∀ k ∈ ks, k ∈ t.keys) : t.present ks = ks := by
  induction ks generalizing t with
  | nil => rfl
  | cons k ks ih =>
    obtain ⟨hnot, hn⟩ := List.nodup_cons.mp hn
    rw [present_cons (contains_iff.mpr (hk k (by simp)))]
    exact congrArg (k :: ·) (ih hn fun j hj =>
      mem_keys_erase.mpr ⟨fun he => hnot (he ▸ hj), hk j (List.mem_cons_of_mem _ hj)⟩)

end Keys

end Table

namespace Recency

variable {κ : Type}

theorem ext {r s : Recency κ} (hs : r.stamps = s.stamps) (hn : r.next = s.next) : r = s := by
  cases r; cases s; cases hs; cases hn; rfl

theorem retain_eq_self {r : Recency κ} {keep : κ → Bool} (h : ∀ k ∈ r.keys, keep k = true) :
    r.retain keep = r :=
  ext (Table.filter_eq_self (p := fun k _ => keep k) fun _ he => h _ (Table.mem_keys he)) rfl

theorem keys_retain (r : Recency κ) (keep : κ → Bool) :
    (r.retain keep).keys = r.keys.filter keep :=
  r.stamps.keys_filter_key keep

variable [DecidableEq κ]

theorem mem_keys_touch {r : Recency κ} {now : Int64} {k k' : κ} :
    k' ∈ (r.touch now k).keys ↔ k' = k ∨ k' ∈ r.keys :=
  Table.mem_keys_set

theorem mem_keys_forget {r : Recency κ} {k k' : κ} :
    k' ∈ (r.forget k).keys ↔ k' ≠ k ∧ k' ∈ r.keys :=
  Table.mem_keys_erase

def without (r : Recency κ) (ks : List κ) : Recency κ :=
  { r with stamps := r.stamps.without ks }

@[simp] theorem without_nil (r : Recency κ) : r.without [] = r := by
  simp [without]

theorem without_cons (r : Recency κ) (k : κ) (ks : List κ) :
    r.without (k :: ks) = (r.forget k).without ks := by
  simp [without, forget, Table.without_cons]

theorem mem_keys_without {r : Recency κ} {ks : List κ} {k : κ} :
    k ∈ (r.without ks).keys ↔ k ∈ r.keys ∧ k ∉ ks :=
  Table.mem_keys_without

end Recency

end SizedCache
