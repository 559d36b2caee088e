import SizedCache.Selection
import SizedCache.Proofs.AgeLaws

/-!
# Victims of a selection by recency

Whatever the records are, every stored key touched at or before the cutoff is a
victim once, and where exactly the stored keys have records there are as many
victims as there are keys too many. With distinct numbers the victims are the
oldest of the records, less the keys that are not stored.
-/

namespace SizedCache.Recency

variable {κ : Type}

theorem sort_values (r : Recency κ) : Touch.sort r.stamps.values = r.byAge.map Prod.snd :=
  (List.map_mergeSort (r := fun a b : κ × Touch => a.2 ≤ b.2) fun _ _ _ _ => rfl).symm

theorem cutoff_of_le {r : Recency κ} {now : Int64} {current target : Nat} (h : current ≤ target) :
    r.cutoff now current target = none := by
  simp [cutoff, Nat.sub_eq_zero_of_le h]

theorem cutoff_eq {r : Recency κ} {now : Int64} {current target : Nat} (h : target < current) :
    r.cutoff now current target =
      some ((r.byAge[min (current - target) r.size - 1]?).elim (.upperBound now) Prod.snd) := by
  have hpos : ¬ current - target = 0 := by omega
  rw [cutoff, if_neg hpos, sort_values, ← length_byAge]
  cases r.byAge with
  | nil => simp
  | cons e es =>
    have hlt : min (current - target) (es.length + 1) - 1 < (e :: es).length := by
      rw [List.length_cons]; omega
    simp only [List.map_cons, List.length_map, List.length_cons, List.getD_eq_getElem?_getD]
    rw [← List.map_cons (f := Prod.snd), List.getElem?_map, List.getElem?_eq_getElem hlt]
    rfl

variable [DecidableEq κ]

-- ---------------------------------------------------------------------------
-- Any records
-- ---------------------------------------------------------------------------

def upTo (r : Recency κ) (t : Touch) (stored : List κ) : List (Touch × κ) :=
  stored.filterMap fun k => (r.get? k).bind fun u => if u ≤ t then some (u, k) else none

theorem victims_of_cutoff {r : Recency κ} {now : Int64} {current target : Nat} {t : Touch}
    (h : r.cutoff now current target = some t) (stored : List κ) :
    r.victims now current target stored =
      ((r.upTo t stored).mergeSort fun a b => a.1 ≤ b.1).map Prod.snd := by
  simp only [victims, h, upTo]

theorem upTo_map_snd (r : Recency κ) (t : Touch) (stored : List κ) :
    (r.upTo t stored).map Prod.snd =
      stored.filter fun k => (r.get? k).any fun u => decide (u ≤ t) := by
  induction stored with
  | nil => rfl
  | cons k ks ih =>
    rw [upTo] at ih
    cases hk : r.get? k with
    | none => simpa [upTo, hk] using ih
    | some u => by_cases hu : u ≤ t <;> simpa [upTo, hk, hu] using ih

theorem mem_upTo {r : Recency κ} {t : Touch} {stored : List κ} {e : Touch × κ} :
    e ∈ r.upTo t stored ↔ e.2 ∈ stored ∧ e.swap ∈ r.stamps.entries ∧ e.1 ≤ t := by
  obtain ⟨u, k⟩ := e
  simp only [upTo, List.mem_filterMap, Option.bind_eq_some_iff, Option.ite_none_right_eq_some,
    Option.some.injEq, Prod.mk.injEq, Prod.swap_prod_mk]
  constructor
  · rintro ⟨k', hs, u', hget, hle, rfl, rfl⟩
    exact ⟨hs, Table.get?_eq_some_iff.mp hget, hle⟩
  · rintro ⟨hs, hmem, hle⟩
    exact ⟨k, hs, u, Table.get?_eq_some_iff.mpr hmem, hle, rfl, rfl⟩

theorem victims_perm {r : Recency κ} {now : Int64} {current target : Nat} {stored : List κ}
    {t : Touch} (h : r.cutoff now current target = some t) :
    (r.victims now current target stored).Perm
      (stored.filter fun k => (r.get? k).any fun u => decide (u ≤ t)) := by
  rw [victims_of_cutoff h, ← upTo_map_snd]
  exact (List.mergeSort_perm ..).map _

theorem victims_subset {r : Recency κ} {now : Int64} {current target : Nat} {stored : List κ}
    {k : κ} (h : k ∈ r.victims now current target stored) : k ∈ stored := by
  cases hc : r.cutoff now current target with
  | none => simp [victims, hc] at h
  | some t => exact (List.mem_filter.mp ((victims_perm hc).mem_iff.mp h)).1

theorem victims_nodup {r : Recency κ} {now : Int64} {current target : Nat} {stored : List κ}
    (hn : stored.Nodup) : (r.victims now current target stored).Nodup := by
  cases hc : r.cutoff now current target with
  | none => simp [victims, hc]
  | some t => exact (victims_perm hc).nodup_iff.mpr (hn.filter _)

/-- A stored key goes before every victim that was touched after it. -/
theorem mem_take_victims {r : Recency κ} {now : Int64} {current target n : Nat} {stored : List κ}
    {j k : κ} {u v : Touch} (hk : k ∈ (r.victims now current target stored).take n)
    (hv : r.get? k = some v) (hj : j ∈ stored) (hu : r.get? j = some u) (huv : u < v) :
    j ∈ (r.victims now current target stored).take n := by
  cases hc : r.cutoff now current target with
  | none => simp [victims, hc] at hk
  | some t =>
    rw [victims_of_cutoff hc, ← List.map_take] at hk ⊢
    have hsorted := Touch.pairwise_mergeSort Prod.fst (r.upTo t stored)
    obtain ⟨⟨v', k'⟩, hmem, rfl⟩ := List.mem_map.mp hk
    obtain ⟨-, hrecord, hle⟩ := mem_upTo.mp (List.mem_mergeSort.mp (List.mem_of_mem_take hmem))
    obtain rfl : v' = v := Option.some.inj ((Table.get?_eq_some_iff.mpr hrecord).symm.trans hv)
    have hold : (u, j) ∈ (r.upTo t stored).mergeSort fun a b => a.1 ≤ b.1 :=
      List.mem_mergeSort.mpr (mem_upTo.mpr
        ⟨hj, Table.get?_eq_some_iff.mp hu, Touch.le_trans (Touch.le_of_lt huv) hle⟩)
    rw [← List.take_append_drop n ((r.upTo t stored).mergeSort fun a b => a.1 ≤ b.1)]
      at hsorted hold
    rcases List.mem_append.mp hold with htaken | hleft
    · exact List.mem_map.mpr ⟨_, htaken, rfl⟩
    · exact absurd ((List.pairwise_append.mp hsorted).2.2 _ hmem _ hleft) (Touch.not_le_of_lt huv)

theorem keys_filter_get? (r : Recency κ) (p : Touch → Bool) :
    r.keys.filter (fun k => (r.get? k).any p) =
      (r.stamps.entries.filter fun e => p e.2).map Prod.fst := by
  rw [keys, Table.keys, List.filter_map]
  congr 1
  apply List.filter_congr
  intro e he
  have hget : r.get? e.1 = some e.2 := Table.get?_eq_some_iff.mpr he
  simp [hget]

theorem le_length_victims {r : Recency κ} {now : Int64} {current target : Nat} {stored : List κ}
    (hp : stored.Perm r.keys) (hcur : current ≤ stored.length) :
    current - target ≤ (r.victims now current target stored).length := by
  rcases Nat.lt_or_ge target current with h | h
  · have hsize : r.size = stored.length := by
      rw [hp.length_eq, keys, Table.length_keys, size]
    obtain ⟨t, ht⟩ : ∃ t, r.cutoff now current target = some t := ⟨_, cutoff_eq h⟩
    have hm : current - target - 1 < r.byAge.length := by rw [length_byAge]; omega
    have htm : r.byAge[current - target - 1].2 = t := by
      rw [cutoff_eq h, Nat.min_eq_left (by omega), List.getElem?_eq_getElem hm] at ht
      simpa using ht
    -- ties may put more touches at or before the cutoff, but never fewer
    have hle : ∀ e ∈ r.byAge.take (current - target), e.2 ≤ t := by
      intro e he
      obtain ⟨i, hi, rfl⟩ := List.mem_take_iff_getElem.mp he
      rcases Nat.lt_or_ge i (current - target - 1) with hlt | hge
      · exact htm ▸ List.pairwise_iff_getElem.mp r.byAge_sorted i _ (by omega) hm hlt
      · have hie : i = current - target - 1 := by omega
        subst hie
        rw [htm]
        exact (Touch.le_total t t).elim id id
    calc current - target
        = (r.byAge.take (current - target)).length := by rw [List.length_take]; omega
      _ = ((r.byAge.take (current - target)).filter fun e => decide (e.2 ≤ t)).length := by
          rw [List.filter_eq_self.mpr fun e he => decide_eq_true (hle e he)]
      _ ≤ (r.byAge.filter fun e => decide (e.2 ≤ t)).length :=
          ((List.take_sublist _ _).filter _).length_le
      _ = (r.stamps.entries.filter fun e => decide (e.2 ≤ t)).length :=
          (r.byAge_perm.filter _).length_eq
      _ = (r.keys.filter fun k => (r.get? k).any fun u => decide (u ≤ t)).length := by
          rw [keys_filter_get?, List.length_map]
      _ = (r.victims now current target stored).length :=
          ((victims_perm ht).trans (hp.filter _)).length_eq.symm
  · omega

-- ---------------------------------------------------------------------------
-- Numbered records
-- ---------------------------------------------------------------------------

namespace Numbered

variable {r : Recency κ}

omit [DecidableEq κ] in
theorem take_byAge (h : r.Numbered) {i : Nat} (hi : i < r.byAge.length) :
    r.byAge.take (i + 1) = r.byAge.filter fun e => decide (e.2 ≤ r.byAge[i].2) := by
  have hsorted := List.pairwise_iff_getElem.mp r.byAge_sorted
  have htake : (r.byAge.take (i + 1)).filter (fun e => decide (e.2 ≤ r.byAge[i].2)) =
      r.byAge.take (i + 1) := by
    refine List.filter_eq_self.mpr fun e he => decide_eq_true ?_
    obtain ⟨j, hj, rfl⟩ := List.mem_take_iff_getElem.mp he
    rcases Nat.lt_or_ge j i with hlt | hge
    · exact hsorted j i (by omega) hi hlt
    · have hji : j = i := by omega
      subst hji
      exact (Touch.le_total _ _).elim id id
  -- a later record with at most that touch would be the same record
  have hdrop : (r.byAge.drop (i + 1)).filter (fun e => decide (e.2 ≤ r.byAge[i].2)) = [] := by
    refine List.filter_eq_nil_iff.mpr fun e he hle => ?_
    obtain ⟨j, hj, rfl⟩ := List.mem_drop_iff_getElem.mp he
    have hlt := hsorted i (i + 1 + j) hi (by omega) (by omega)
    have heq := h.antisymm (mem_byAge.mp (List.getElem_mem hi))
      (mem_byAge.mp (List.getElem_mem _)) hlt (of_decide_eq_true hle)
    have hnodup : r.byAge.Nodup := r.byAge_perm.nodup_iff.mpr r.stamps.entries_nodup
    have := (List.getElem_inj hnodup).mp heq
    omega
  calc r.byAge.take (i + 1)
      = (r.byAge.take (i + 1) ++ r.byAge.drop (i + 1)).filter
          (fun e => decide (e.2 ≤ r.byAge[i].2)) := by
        rw [List.filter_append, htake, hdrop, List.append_nil]
    _ = _ := by rw [List.take_append_drop]

theorem victims_eq_filter (h : r.Numbered) {now : Int64} {current target : Nat} {stored : List κ}
    (hn : stored.Nodup) {t : Touch} (hc : r.cutoff now current target = some t) :
    r.victims now current target stored =
      ((r.byAge.filter fun e => decide (e.2 ≤ t)).map Prod.fst).filter
        fun k => decide (k ∈ stored) := by
  let aged := r.byAge.filter fun e => decide (e.1 ∈ stored) && decide (e.2 ≤ t)
  have hold : (r.upTo t stored).Nodup := by
    refine List.Nodup.of_map Prod.snd ?_
    rw [upTo_map_snd]
    exact hn.filter _
  have haged : (aged.map Prod.swap).Nodup :=
    ((r.byAge_perm.nodup_iff.mpr r.stamps.entries_nodup).filter _).map fun _ _ he =>
      Prod.swap_inj.mp he
  have hperm : (aged.map Prod.swap).Perm (r.upTo t stored) := by
    refine (List.perm_ext_iff_of_nodup haged hold).mpr fun e => ?_
    rw [mem_upTo, List.mem_map]
    constructor
    · rintro ⟨e', he', rfl⟩
      simpa [aged, mem_byAge, and_left_comm] using he'
    · intro he
      exact ⟨e.swap, by simpa [aged, mem_byAge, and_left_comm] using he, rfl⟩
  have hsorted : (aged.map Prod.swap).Pairwise fun a b => a.1 ≤ b.1 :=
    (r.byAge_sorted.filter _).map _ fun _ _ hab => hab
  have hsort : (r.upTo t stored).mergeSort (fun a b => a.1 ≤ b.1) = aged.map Prod.swap := by
    refine List.Perm.eq_of_pairwise ?_ (Touch.pairwise_mergeSort Prod.fst (r.upTo t stored))
      hsorted ((List.mergeSort_perm ..).trans hperm.symm)
    intro a b ha hb hab hba
    have ha' := (mem_upTo.mp (List.mem_mergeSort.mp ha)).2.1
    have hb' := (mem_upTo.mp (hperm.mem_iff.mp hb)).2.1
    exact Prod.swap_inj.mp (h.antisymm ha' hb' hab hba)
  rw [victims_of_cutoff hc, hsort, List.map_map, List.filter_map, List.filter_filter]
  rfl

theorem victims_eq (h : r.Numbered) {now : Int64} {current target : Nat} {stored : List κ}
    (hn : stored.Nodup) :
    r.victims now current target stored =
      ((r.byAge.take (current - target)).map Prod.fst).filter fun k => decide (k ∈ stored) := by
  rcases Nat.lt_or_ge target current with hlt | hle
  · have hc : r.cutoff now current target = _ := cutoff_eq hlt
    rw [h.victims_eq_filter hn hc]
    rcases Nat.eq_zero_or_pos r.byAge.length with hz | hpos
    · simp [List.eq_nil_of_length_eq_zero hz]
    · have hi : min (current - target) r.size - 1 < r.byAge.length := by
        rw [length_byAge] at hpos ⊢; omega
      have htake : r.byAge.take (current - target) =
          r.byAge.take (min (current - target) r.size - 1 + 1) := by
        rw [List.take_eq_take_iff, length_byAge] at *
        omega
      rw [List.getElem?_eq_getElem hi, htake, h.take_byAge hi]
      rfl
  · simp [victims, cutoff_of_le hle, Nat.sub_eq_zero_of_le hle]

end Numbered

end SizedCache.Recency
