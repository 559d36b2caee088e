import SizedCache.Recency.Run
import SizedCache.Proofs.TableLaws
import SizedCache.Proofs.TouchOrder

/-!
# Records by age

As long as the counter has not wrapped, the recorded touches have distinct
numbers below it (`Numbered`). The records by age are then determined by their
contents, a fresh touch goes to their end, and dropping records keeps the order
of the others. Every call on the records keeps them so.
-/

namespace SizedCache

theorem Table.entries_nodup {κ α : Type} (t : Table κ α) : t.entries.Nodup :=
  t.nodup.of_map

theorem Table.entries_set_perm {κ α : Type} [DecidableEq κ] (t : Table κ α) (k : κ) (v : α) :
    (t.set k v).entries.Perm ((t.erase k).entries ++ [(k, v)]) := by
  have hnot : (k, v) ∉ (t.erase k).entries := by simp [erase, eraseIn]
  refine (List.perm_ext_iff_of_nodup (t.set k v).entries_nodup ?_).mpr ?_
  · refine List.nodup_append.mpr ⟨(t.erase k).entries_nodup, by simp, ?_⟩
    intro a ha b hb he
    rw [List.mem_singleton] at hb
    exact hnot (hb ▸ he ▸ ha)
  · rintro ⟨k', v'⟩
    rw [List.mem_append, ← get?_eq_some_iff, ← get?_eq_some_iff, get?_set, get?_erase]
    by_cases h : k = k'
    · simp [h, eq_comm]
    · simp [h, Ne.symm h]

namespace Recency

variable {κ : Type}

theorem byAge_perm (r : Recency κ) : r.byAge.Perm r.stamps.entries :=
  List.mergeSort_perm ..

theorem mem_byAge {r : Recency κ} {e : κ × Touch} : e ∈ r.byAge ↔ e ∈ r.stamps.entries :=
  r.byAge_perm.mem_iff

theorem length_byAge (r : Recency κ) : r.byAge.length = r.size :=
  r.byAge_perm.length_eq

theorem byAge_sorted (r : Recency κ) : r.byAge.Pairwise fun a b => a.2 ≤ b.2 :=
  Touch.pairwise_mergeSort Prod.snd r.stamps.entries

theorem Call.touchesIn_append (xs ys : List (Call κ)) :
    Call.touchesIn (xs ++ ys) = Call.touchesIn xs + Call.touchesIn ys :=
  List.countP_append

/-- Recorded touches have distinct numbers, which the counter has passed. -/
structure Numbered (r : Recency κ) : Prop where
  below : ∀ e ∈ r.stamps.entries, e.2.number < r.next
  distinct : ∀ a ∈ r.stamps.entries, ∀ b ∈ r.stamps.entries, a.2.number = b.2.number → a = b

namespace Numbered

variable {r : Recency κ}

theorem antisymm (h : r.Numbered) {a b : κ × Touch} (ha : a ∈ r.stamps.entries)
    (hb : b ∈ r.stamps.entries) (hab : a.2 ≤ b.2) (hba : b.2 ≤ a.2) : a = b :=
  h.distinct a ha b hb
    (UInt64.le_antisymm (Touch.number_le_of_le hab) (Touch.number_le_of_le hba))

theorem byAge_eq (h : r.Numbered) {L : List (κ × Touch)} (hp : L.Perm r.stamps.entries)
    (hs : L.Pairwise fun a b => a.2 ≤ b.2) : r.byAge = L :=
  List.Perm.eq_of_pairwise
    (fun _ _ ha hb => h.antisymm (mem_byAge.mp ha) (hp.mem_iff.mp hb))
    r.byAge_sorted hs (r.byAge_perm.trans hp.symm)

theorem filter (h : r.Numbered) {s : Recency κ} (p : κ × Touch → Bool)
    (hs : s.stamps.entries = r.stamps.entries.filter p) (hn : s.next = r.next) : s.Numbered where
  below e he := by
    rw [hs, List.mem_filter] at he
    exact hn ▸ h.below e he.1
  distinct a ha b hb := by
    rw [hs, List.mem_filter] at ha hb
    exact h.distinct a ha.1 b hb.1

theorem byAge_filter (h : r.Numbered) {s : Recency κ} (p : κ × Touch → Bool)
    (hs : s.stamps.entries = r.stamps.entries.filter p) (hn : s.next = r.next) :
    s.byAge = r.byAge.filter p := by
  apply (h.filter p hs hn).byAge_eq
  · exact hs ▸ r.byAge_perm.filter p
  · exact r.byAge_sorted.filter p

theorem clear (r : Recency κ) : r.clear.Numbered := ⟨by simp [Recency.clear, Table.empty],
  by simp [Recency.clear, Table.empty]⟩

variable [DecidableEq κ]

theorem forget (h : r.Numbered) (k : κ) : (r.forget k).Numbered := h.filter _ rfl rfl

theorem without (h : r.Numbered) (ks : List κ) : (r.without ks).Numbered := h.filter _ rfl rfl

theorem byAge_forget (h : r.Numbered) (k : κ) :
    (r.forget k).byAge = r.byAge.filter fun e => !decide (e.1 = k) :=
  h.byAge_filter _ rfl rfl

theorem byAge_without (h : r.Numbered) (ks : List κ) :
    (r.without ks).byAge = r.byAge.filter fun e => !decide (e.1 ∈ ks) :=
  h.byAge_filter _ rfl rfl

theorem next_touch {now : Int64} {k : κ} (hroom : r.next.toNat + 1 < UInt64.size) :
    (r.touch now k).next.toNat = r.next.toNat + 1 := by
  show (r.next + 1).toNat = _
  rw [UInt64.toNat_add]
  exact Nat.mod_eq_of_lt hroom

theorem mem_touch {now : Int64} {k : κ} {e : κ × Touch}
    (he : e ∈ (r.touch now k).stamps.entries) :
    e ∈ (r.forget k).stamps.entries ∨ e = (k, r.stamp now) := by
  rw [← List.mem_singleton, ← List.mem_append]
  exact (r.stamps.entries_set_perm k (r.stamp now)).mem_iff.mp he

theorem touch (h : r.Numbered) (now : Int64) (k : κ) (hroom : r.next.toNat + 1 < UInt64.size) :
    (r.touch now k).Numbered where
  below e he := by
    have hnext : r.next < (r.touch now k).next := by
      rw [UInt64.lt_iff_toNat_lt, next_touch hroom]
      exact Nat.lt_succ_self _
    rcases mem_touch he with he | rfl
    · exact UInt64.lt_trans ((h.forget k).below e he) hnext
    · exact hnext
  distinct a ha b hb hab := by
    have hne : ∀ e ∈ (r.forget k).stamps.entries, e.2.number ≠ r.next := fun e he =>
      UInt64.ne_of_lt ((h.forget k).below e he)
    rcases mem_touch ha with ha | rfl
    · rcases mem_touch hb with hb | rfl
      · exact (h.forget k).distinct a ha b hb hab
      · exact absurd hab (hne a ha)
    · rcases mem_touch hb with hb | rfl
      · exact absurd hab.symm (hne b hb)
      · rfl

theorem byAge_touch (h : r.Numbered) (now : Int64) (k : κ)
    (hroom : r.next.toNat + 1 < UInt64.size) :
    (r.touch now k).byAge =
      (r.byAge.filter fun e => !decide (e.1 = k)) ++ [(k, r.stamp now)] := by
  rw [← h.byAge_forget]
  apply (h.touch now k hroom).byAge_eq
  · exact (((r.forget k).byAge_perm.append_right _).trans
      (r.stamps.entries_set_perm k (r.stamp now)).symm)
  · refine List.pairwise_append.mpr ⟨(r.forget k).byAge_sorted, by simp, ?_⟩
    intro a ha b hb
    rw [List.mem_singleton] at hb
    subst hb
    exact Touch.le_of_number_lt ((h.forget k).below a (mem_byAge.mp ha))

-- ---------------------------------------------------------------------------
-- Runs
-- ---------------------------------------------------------------------------

theorem step (h : r.Numbered) (call : Call κ)
    (hroom : r.next.toNat + Call.touchesIn [call] < UInt64.size) :
    (r.step call).Numbered ∧
      (r.step call).next.toNat = r.next.toNat + Call.touchesIn [call] := by
  cases call with
  | touch now k => exact ⟨h.touch now k hroom, next_touch hroom⟩
  | forget k => exact ⟨h.forget k, rfl⟩
  | retain keep => exact ⟨h.filter (fun e => keep e.1) rfl rfl, rfl⟩
  | clear => exact ⟨.clear r, rfl⟩

theorem run (h : r.Numbered) {calls : List (Call κ)}
    (hroom : r.next.toNat + Call.touchesIn calls < UInt64.size) :
    (r.run calls).Numbered ∧
      (r.run calls).next.toNat = r.next.toNat + Call.touchesIn calls := by
  induction calls generalizing r with
  | nil => exact ⟨h, rfl⟩
  | cons call calls ih =>
    have hsum : Call.touchesIn (call :: calls) =
        Call.touchesIn [call] + Call.touchesIn calls := Call.touchesIn_append [call] calls
    rw [hsum] at hroom ⊢
    obtain ⟨hstep, hnext⟩ := h.step call (by omega)
    obtain ⟨hrun, hend⟩ := ih hstep (by omega)
    exact ⟨hrun, by show ((r.step call).run calls).next.toNat = _; omega⟩

theorem of_run {calls : List (Call κ)} (hroom : Call.touchesIn calls < UInt64.size) :
    (({} : Recency κ).run calls).Numbered := by
  have hnew : ({} : Recency κ).Numbered := .clear {}
  have hzero : ({} : Recency κ).next.toNat = 0 := rfl
  exact (hnew.run (by omega)).1

theorem next_of_run {calls : List (Call κ)} (hroom : Call.touchesIn calls < UInt64.size) :
    (({} : Recency κ).run calls).next.toNat = Call.touchesIn calls := by
  have hnew : ({} : Recency κ).Numbered := .clear {}
  have hzero : ({} : Recency κ).next.toNat = 0 := rfl
  rw [(hnew.run (by omega)).2, hzero, Nat.zero_add]

end Numbered

end Recency

end SizedCache
