/-!
# Tables

A finite map with distinct keys that keeps them in the order in which they came
in. `get?` is its view: every operation is described by what `get?`, `keys` and
`size` say afterwards. The order of the keys is the order of every traversal.
-/

namespace SizedCache

structure Table (κ α : Type) where
  entries : List (κ × α)
  nodup : (entries.map Prod.fst).Nodup

namespace Table

variable {κ α : Type}

-- ---------------------------------------------------------------------------
-- Entry lists
-- ---------------------------------------------------------------------------

section Entries

variable [DecidableEq κ]

def valueIn (k : κ) : List (κ × α) → Option α
  | [] => none
  | e :: rest => if e.1 = k then some e.2 else valueIn k rest

/-- A present key keeps its place, a new one goes to the end. -/
def setIn (k : κ) (v : α) : List (κ × α) → List (κ × α)
  | [] => [(k, v)]
  | e :: rest => if e.1 = k then (k, v) :: rest else e :: setIn k v rest

def eraseIn (k : κ) (es : List (κ × α)) : List (κ × α) :=
  es.filter fun e => !decide (e.1 = k)

theorem valueIn_eq_none_iff {k : κ} {es : List (κ × α)} :
    valueIn k es = none ↔ k ∉ es.map Prod.fst := by
  induction es with
  | nil => simp [valueIn]
  | cons e rest ih =>
    by_cases h : e.1 = k
    · simp [valueIn, h]
    · simp [valueIn, h, ih, Ne.symm h]

theorem valueIn_eq_some_iff {k : κ} {v : α} {es : List (κ × α)}
    (h : (es.map Prod.fst).Nodup) : valueIn k es = some v ↔ (k, v) ∈ es := by
  induction es with
  | nil => simp [valueIn]
  | cons e rest ih =>
    obtain ⟨hn, hr⟩ := List.nodup_cons.mp h
    by_cases hk : e.1 = k
    · have ha : (k, v) ∉ rest := fun hm => hn (hk ▸ List.mem_map_of_mem hm)
      simp [valueIn, hk, ha, Prod.ext_iff, eq_comm]
    · simp [valueIn, hk, ih hr, Prod.ext_iff, Ne.symm hk]

theorem keys_setIn (k : κ) (v : α) (es : List (κ × α)) :
    (setIn k v es).map Prod.fst =
      if k ∈ es.map Prod.fst then es.map Prod.fst else es.map Prod.fst ++ [k] := by
  induction es with
  | nil => simp [setIn]
  | cons e rest ih =>
    by_cases h : e.1 = k
    · simp [setIn, h]
    · by_cases hm : k ∈ rest.map Prod.fst
      · rw [if_pos hm] at ih
        rw [if_pos (by simp only [List.map_cons]; exact List.mem_cons_of_mem _ hm)]
        simp [setIn, h, ih]
      · rw [if_neg hm] at ih
        rw [if_neg (by
          simp only [List.map_cons, List.mem_cons, not_or]; exact ⟨Ne.symm h, hm⟩)]
        simp [setIn, h, ih]

theorem valueIn_setIn (k k' : κ) (v : α) (es : List (κ × α)) :
    valueIn k' (setIn k v es) = if k = k' then some v else valueIn k' es := by
  induction es with
  | nil => simp [setIn, valueIn]
  | cons e rest ih =>
    by_cases h : e.1 = k
    · by_cases hk : k = k' <;> simp [setIn, valueIn, h, hk]
    · by_cases hk : k = k'
      · subst hk; simp [setIn, valueIn, h, ih]
      · simp [setIn, valueIn, h, ih, hk]

theorem valueIn_eraseIn (k k' : κ) (es : List (κ × α)) :
    valueIn k' (eraseIn k es) = if k = k' then none else valueIn k' es := by
  induction es with
  | nil => simp [eraseIn, valueIn]
  | cons e rest ih =>
    simp only [eraseIn] at ih ⊢
    by_cases h : e.1 = k
    · by_cases hk : k = k'
      · simpa [List.filter_cons, valueIn, h, hk] using ih
      · simpa [List.filter_cons, valueIn, h, hk] using ih
    · by_cases hk : k = k'
      · subst hk; simpa [List.filter_cons, valueIn, h] using ih
      · simp [valueIn, h, hk] at ih ⊢
        simp [ih]

end Entries

theorem nodup_filter {es : List (κ × α)} (p : κ × α → Bool) (h : (es.map Prod.fst).Nodup) :
    ((es.filter p).map Prod.fst).Nodup :=
  h.sublist (List.filter_sublist.map _)

-- ---------------------------------------------------------------------------
-- Operations
-- ---------------------------------------------------------------------------

def empty : Table κ α := ⟨[], List.nodup_nil⟩

instance : EmptyCollection (Table κ α) := ⟨empty⟩

def keys (t : Table κ α) : List κ := t.entries.map Prod.fst

def values (t : Table κ α) : List α := t.entries.map Prod.snd

def size (t : Table κ α) : Nat := t.entries.length

def isEmpty (t : Table κ α) : Bool := t.entries.isEmpty

def filter (t : Table κ α) (p : κ → α → Bool) : Table κ α :=
  ⟨t.entries.filter fun e => p e.1 e.2, nodup_filter _ t.nodup⟩

variable [DecidableEq κ]

def get? (t : Table κ α) (k : κ) : Option α := valueIn k t.entries

def contains (t : Table κ α) (k : κ) : Bool := (t.get? k).isSome

def set (t : Table κ α) (k : κ) (v : α) : Table κ α where
  entries := setIn k v t.entries
  nodup := by
    rw [keys_setIn]
    split
    · exact t.nodup
    · rename_i h
      rw [List.nodup_append]
      refine ⟨t.nodup, by simp, ?_⟩
      intro a ha b hb
      simp only [List.mem_singleton] at hb
      subst hb
      exact fun he => h (he ▸ ha)

def erase (t : Table κ α) (k : κ) : Table κ α :=
  ⟨eraseIn k t.entries, nodup_filter _ t.nodup⟩

-- ---------------------------------------------------------------------------
-- Views
-- ---------------------------------------------------------------------------

@[simp] theorem get?_empty (k : κ) : (empty : Table κ α).get? k = none := rfl

@[simp] theorem get?_set (t : Table κ α) (k k' : κ) (v : α) :
    (t.set k v).get? k' = if k = k' then some v else t.get? k' :=
  valueIn_setIn k k' v t.entries

@[simp] theorem get?_erase (t : Table κ α) (k k' : κ) :
    (t.erase k).get? k' = if k = k' then none else t.get? k' :=
  valueIn_eraseIn k k' t.entries

theorem get?_eq_none_iff {t : Table κ α} {k : κ} : t.get? k = none ↔ k ∉ t.keys :=
  valueIn_eq_none_iff

theorem contains_iff {t : Table κ α} {k : κ} : t.contains k = true ↔ k ∈ t.keys := by
  rw [contains, Option.isSome_iff_ne_none, ne_eq, get?_eq_none_iff, Decidable.not_not]

theorem keys_set (t : Table κ α) (k : κ) (v : α) :
    (t.set k v).keys = if k ∈ t.keys then t.keys else t.keys ++ [k] :=
  keys_setIn k v t.entries

theorem keys_erase (t : Table κ α) (k : κ) :
    (t.erase k).keys = t.keys.filter fun k' => !decide (k' = k) := by
  simp only [keys, erase, eraseIn, List.filter_map]
  rfl

theorem get?_eq_some_iff {t : Table κ α} {k : κ} {v : α} :
    t.get? k = some v ↔ (k, v) ∈ t.entries :=
  valueIn_eq_some_iff t.nodup

@[simp] theorem get?_filter (t : Table κ α) (p : κ → α → Bool) (k : κ) :
    (t.filter p).get? k = (t.get? k).filter (p k) := by
  apply Option.ext
  intro v
  simp [get?_eq_some_iff, filter, Option.filter_eq_some_iff]

section Size

omit [DecidableEq κ]

theorem keys_nodup (t : Table κ α) : t.keys.Nodup := t.nodup

theorem length_keys (t : Table κ α) : t.keys.length = t.size := by
  simp [keys, size]

@[simp] theorem keys_empty : (empty : Table κ α).keys = [] := rfl

@[simp] theorem size_empty : (empty : Table κ α).size = 0 := rfl

end Size

theorem size_set (t : Table κ α) (k : κ) (v : α) :
    (t.set k v).size = if k ∈ t.keys then t.size else t.size + 1 := by
  rw [← length_keys, keys_set]
  split <;> simp [length_keys]

theorem size_erase (t : Table κ α) (k : κ) :
    (t.erase k).size = if k ∈ t.keys then t.size - 1 else t.size := by
  have h : (t.erase k).keys = t.keys.erase k := by
    rw [keys_erase, t.keys_nodup.erase_eq_filter]
    apply List.filter_congr
    intro k' _
    simp [bne, BEq.beq]
  rw [← length_keys, h, List.length_erase]
  simp only [length_keys]

end Table

end SizedCache
