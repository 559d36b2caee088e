import SizedCache.Proofs.AgeLaws
import Mathlib.Data.List.Induction

/-!
# Touches in the order of calls

The touches of a run are numbered from 0 on, whatever the clock shows and whatever
is dropped between them, so as long as the counter has not wrapped each touch follows
every one before it. A key is recorded with what the last call that touched it
returned, unless a later call dropped it (`get?_run_eq_some_iff`). So the records are
ordered as these calls are.
-/

namespace SizedCache.Recency

variable {κ : Type}

-- ---------------------------------------------------------------------------
-- Calls
-- ---------------------------------------------------------------------------

theorem Call.touchesIn_take_lt {calls : List (Call κ)} {p q : Nat} {now : Int64} {k : κ}
    (hp : calls[p]? = some (.touch now k)) (h : p < q) :
    Call.touchesIn (calls.take p) < Call.touchesIn (calls.take q) := by
  have hstep : Call.touchesIn (calls.take (p + 1)) = Call.touchesIn (calls.take p) + 1 := by
    rw [List.take_add_one, hp, touchesIn_append]
    rfl
  have hrest : Call.touchesIn (calls.take (p + 1)) ≤ Call.touchesIn (calls.take q) :=
    (List.take_prefix_take_left h).sublist.countP_le
  omega

def LastTouch (calls : List (Call κ)) (k : κ) (p : Nat) : Prop :=
  (∃ now, calls[p]? = some (.touch now k)) ∧
    ∀ q now, calls[q]? = some (.touch now k) → q ≤ p

theorem lastTouch_append {before after : List (Call κ)} {k : κ} (now : Int64)
    (h : ∀ now, .touch now k ∉ after) :
    LastTouch (before ++ .touch now k :: after) k before.length := by
  refine ⟨⟨now, by simp⟩, fun q now' hq => ?_⟩
  by_contra hlt
  obtain ⟨i, rfl⟩ : ∃ i, q = before.length + (i + 1) := ⟨q - before.length - 1, by omega⟩
  rw [List.getElem?_append_right (by omega), Nat.add_sub_cancel_left] at hq
  exact h now' (List.mem_of_getElem? hq)

theorem LastTouch.notMem_drop {calls : List (Call κ)} {k : κ} {p : Nat}
    (h : LastTouch calls k p) (now : Int64) : .touch now k ∉ calls.drop (p + 1) := by
  intro hmem
  obtain ⟨i, hi⟩ := List.getElem?_of_mem hmem
  rw [List.getElem?_drop] at hi
  have hle := h.2 _ now hi
  omega

theorem LastTouch.unique {calls : List (Call κ)} {k : κ} {p q : Nat} (hp : LastTouch calls k p)
    (hq : LastTouch calls k q) : p = q := by
  obtain ⟨now, hp'⟩ := hp.1
  obtain ⟨now', hq'⟩ := hq.1
  exact Nat.le_antisymm (hq.2 p now hp') (hp.2 q now' hq')

variable [DecidableEq κ]

-- ---------------------------------------------------------------------------
-- Returned touches
-- ---------------------------------------------------------------------------

theorem run_append (r : Recency κ) (xs ys : List (Call κ)) :
    r.run (xs ++ ys) = (r.run xs).run ys :=
  List.foldl_append

/-- The call at place `p` is a touch, which returns `t`. -/
def Returns (calls : List (Call κ)) (p : Nat) (t : Touch) : Prop :=
  ∃ now k, calls[p]? = some (.touch now k) ∧
    t = (({} : Recency κ).run (calls.take p)).stamp now

namespace Returns

variable {calls : List (Call κ)} {p q : Nat} {t u : Touch}

theorem unique (ht : Returns calls p t) (hu : Returns calls p u) : t = u := by
  obtain ⟨now, k, hp, rfl⟩ := ht
  obtain ⟨now', k', hp', rfl⟩ := hu
  cases hp.symm.trans hp'
  rfl

theorem toNat_number (h : Returns calls p t)
    (hroom : Call.touchesIn (calls.take p) < UInt64.size) :
    t.number.toNat = Call.touchesIn (calls.take p) := by
  obtain ⟨now, k, -, rfl⟩ := h
  exact Numbered.next_of_run hroom

theorem lt (hroom : Call.touchesIn calls < UInt64.size) (ht : Returns calls p t)
    (hu : Returns calls q u) (h : p < q) : t < u := by
  have hbound : ∀ i, Call.touchesIn (calls.take i) < UInt64.size := fun i =>
    Nat.lt_of_le_of_lt (List.take_sublist i calls).countP_le hroom
  apply Touch.lt_of_number_lt
  rw [UInt64.lt_iff_toNat_lt, ht.toNat_number (hbound p), hu.toNat_number (hbound q)]
  obtain ⟨now, k, hp, -⟩ := ht
  exact Call.touchesIn_take_lt hp h

theorem lt_iff (hroom : Call.touchesIn calls < UInt64.size) (ht : Returns calls p t)
    (hu : Returns calls q u) : t < u ↔ p < q := by
  refine ⟨fun hlt => ?_, ht.lt hroom hu⟩
  rcases Nat.lt_trichotomy p q with h | rfl | h
  · exact h
  · cases ht.unique hu
    exact absurd (Touch.le_of_lt hlt) (Touch.not_le_of_lt hlt)
  · exact absurd (Touch.le_of_lt (hu.lt hroom ht h)) (Touch.not_le_of_lt hlt)

theorem lt_upperBound (h : Returns calls p t)
    (hroom : Call.touchesIn (calls.take p) < UInt64.size - 1) (now : Int64) :
    t < .upperBound now := by
  apply Touch.lt_of_number_lt
  rw [UInt64.lt_iff_toNat_lt, h.toNat_number (Nat.lt_of_lt_pred hroom),
    Touch.toNat_number_upperBound]
  exact hroom

/-- The touch with the last number has to go by the clock. -/
theorem lt_upperBound_iff (h : Returns calls p t)
    (hlast : Call.touchesIn (calls.take p) = UInt64.size - 1) (now : Int64) :
    t < .upperBound now ↔ t.millis < now := by
  have hroom : Call.touchesIn (calls.take p) < UInt64.size := by
    rw [hlast]
    decide
  have hnumber : t.number = (Touch.upperBound now).number := by
    rw [← UInt64.toNat_inj, h.toNat_number hroom, hlast, Touch.toNat_number_upperBound]
  rw [Touch.lt_def, hnumber]
  simp [Touch.upperBound]

end Returns

-- ---------------------------------------------------------------------------
-- Records
-- ---------------------------------------------------------------------------

def Call.drops (k : κ) : Call κ → Bool
  | .touch .. => false
  | .forget j => j = k
  | .retain keep => !keep k
  | .clear => true

section Records

variable {r : Recency κ} {k : κ}

theorem get?_step_of_drops {call : Call κ} (h : call.drops k = true) :
    (r.step call).get? k = none := by
  cases call with
  | touch now j => cases h
  | forget j => simp [step, of_decide_eq_true h]
  | retain keep =>
    have hk : keep k = false := (Bool.not_eq_true' _).mp h
    simp [step, hk]
  | clear => rfl

theorem get?_step_of_keeps {call : Call κ} (htouch : ∀ now, call ≠ .touch now k)
    (hkeep : call.drops k = false) : (r.step call).get? k = r.get? k := by
  cases call with
  | touch now j =>
    have hne : j ≠ k := fun h => htouch now (h ▸ rfl)
    simp [step, hne]
  | forget j => simp [step, of_decide_eq_false hkeep]
  | retain keep =>
    have hk : keep k = true := (Bool.not_eq_false' _).mp hkeep
    simp [step, hk]
  | clear => cases hkeep

theorem get?_run_of_keeps {calls : List (Call κ)} (htouch : ∀ now, .touch now k ∉ calls)
    (hkeep : ∀ call ∈ calls, call.drops k = false) : (r.run calls).get? k = r.get? k := by
  induction calls generalizing r with
  | nil => rfl
  | cons call calls ih =>
    have hrest : ((r.step call).run calls).get? k = (r.step call).get? k :=
      ih (fun now h => htouch now (List.mem_cons_of_mem _ h))
        fun c h => hkeep c (List.mem_cons_of_mem _ h)
    refine hrest.trans (get?_step_of_keeps (fun now h => ?_) (hkeep call List.mem_cons_self))
    exact htouch now (h ▸ List.mem_cons_self)

theorem exists_of_get?_run {calls : List (Call κ)} {t : Touch}
    (h : (({} : Recency κ).run calls).get? k = some t) :
    ∃ before now after, calls = before ++ .touch now k :: after ∧
      t = (({} : Recency κ).run before).stamp now ∧
      (∀ now, .touch now k ∉ after) ∧ ∀ call ∈ after, call.drops k = false := by
  induction calls using List.reverseRecOn with
  | nil => cases h
  | append_singleton calls call ih =>
    rw [run_append] at h
    by_cases htouch : ∃ now, call = .touch now k
    · obtain ⟨now, rfl⟩ := htouch
      have ht : some ((({} : Recency κ).run calls).stamp now) = some t := by
        simpa [run, step] using h
      exact ⟨calls, now, [], rfl, (Option.some.inj ht).symm, by simp, by simp⟩
    · have htouch : ∀ now, call ≠ .touch now k := not_exists.mp htouch
      cases hdrop : call.drops k with
      | true => exact absurd (h.symm.trans (get?_step_of_drops hdrop)) (Option.some_ne_none t)
      | false =>
        obtain ⟨before, now, after, rfl, ht, hafter, hkeep⟩ :=
          ih ((get?_step_of_keeps htouch hdrop).symm.trans h)
        refine ⟨before, now, after ++ [call], by simp, ht, ?_, ?_⟩
        · intro now' hmem
          rcases List.mem_append.mp hmem with hmem | hmem
          · exact hafter now' hmem
          · exact htouch now' (List.mem_singleton.mp hmem).symm
        · intro c hmem
          rcases List.mem_append.mp hmem with hmem | hmem
          · exact hkeep c hmem
          · exact List.mem_singleton.mp hmem ▸ hdrop

theorem get?_run_eq_some_iff {calls : List (Call κ)} {t : Touch} :
    (({} : Recency κ).run calls).get? k = some t ↔
      ∃ p, LastTouch calls k p ∧ Returns calls p t ∧
        ∀ call ∈ calls.drop (p + 1), call.drops k = false := by
  constructor
  · intro h
    obtain ⟨before, now, after, rfl, rfl, htouch, hkeep⟩ := exists_of_get?_run h
    exact ⟨before.length, lastTouch_append now htouch, ⟨now, k, by simp, by simp⟩,
      by simpa using hkeep⟩
  · rintro ⟨p, hlast, ⟨now, j, hp, rfl⟩, hkeep⟩
    obtain ⟨now', hp'⟩ := hlast.1
    cases hp.symm.trans hp'
    obtain ⟨hlt, hget⟩ := List.getElem?_eq_some_iff.mp hp
    have hsplit : calls = calls.take p ++ .touch now k :: calls.drop (p + 1) := by
      rw [← hget, ← List.drop_eq_getElem_cons hlt, List.take_append_drop]
    have hrun : ({} : Recency κ).run calls =
        ((({} : Recency κ).run (calls.take p)).touch now k).run (calls.drop (p + 1)) := by
      conv_lhs => rw [hsplit]
      exact run_append ..
    rw [hrun, get?_run_of_keeps hlast.notMem_drop hkeep, get?_touch, if_pos rfl]

end Records

-- ---------------------------------------------------------------------------
-- The order
-- ---------------------------------------------------------------------------

/-- A key is recorded with what its last touch returned, unless it was dropped since. While
the counter has not wrapped, the records have distinct numbers below it, they are ordered
as the last touches of their keys are, and each touch that is returned follows every one
before it, whatever became of its key. The upper bound follows every touch but the one
with the last number, and that one too once the clock has moved on. -/
theorem touches_in_order (calls : List (Call κ)) :
    let r := ({} : Recency κ).run calls
    (∀ k t, r.get? k = some t ↔ ∃ p, LastTouch calls k p ∧ Returns calls p t ∧
      ∀ call ∈ calls.drop (p + 1), call.drops k = false) ∧
    (Call.touchesIn calls < UInt64.size →
      r.next.toNat = Call.touchesIn calls ∧
      (r.stamps.values.map Touch.number).Nodup ∧ (∀ t ∈ r.stamps.values, t.number < r.next) ∧
      (∀ j k t u p q, r.get? j = some t → r.get? k = some u →
        LastTouch calls j p → LastTouch calls k q → (t < u ↔ p < q)) ∧
      ∀ p q t u, Returns calls p t → Returns calls q u → p < q → t < u) ∧
    ∀ p t now, Returns calls p t →
      (Call.touchesIn (calls.take p) < UInt64.size - 1 → t < Touch.upperBound now) ∧
      (Call.touchesIn (calls.take p) = UInt64.size - 1 →
        (t < Touch.upperBound now ↔ t.millis < now)) := by
  intro r
  refine ⟨fun k t => get?_run_eq_some_iff, fun hroom => ?_, fun p t now ht =>
    ⟨fun h => ht.lt_upperBound h now, fun h => ht.lt_upperBound_iff h now⟩⟩
  have hr : r.Numbered := .of_run hroom
  refine ⟨?_, ?_, ?_, ?_, fun p q t u ht hu => ht.lt hroom hu⟩
  · exact Numbered.next_of_run hroom
  · rw [Table.values, List.map_map]
    exact List.Nodup.map_on hr.distinct r.stamps.entries_nodup
  · intro t ht
    obtain ⟨e, he, rfl⟩ := List.mem_map.mp ht
    exact hr.below e he
  · intro j k t u p q hj hk hp hq
    obtain ⟨p', hp', ht, -⟩ := get?_run_eq_some_iff.mp hj
    obtain ⟨q', hq', hu, -⟩ := get?_run_eq_some_iff.mp hk
    cases hp.unique hp'
    cases hq.unique hq'
    exact ht.lt_iff hroom hu

/-- Calls under a clock that runs back. Key 2 is last touched at place 3, and key 1 at place 5. -/
def rewoundCalls : List (Call Nat) :=
  [.touch 50 1, .touch 40 2, .clear, .touch 30 2, .touch 20 3, .touch 10 1, .forget 3,
    .retain fun k => k != 3]

def steadyCalls (n : Nat) : List (Call Nat) := List.replicate n (.touch 7 0)

theorem touches_in_order_rewound :
    Call.touchesIn rewoundCalls < UInt64.size ∧
    (∃ t u, (({} : Recency Nat).run rewoundCalls).get? 2 = some t ∧
      (({} : Recency Nat).run rewoundCalls).get? 1 = some u ∧
      u.millis < t.millis ∧ t < u ∧ u < .upperBound 0) ∧
    ∃ t, Returns (steadyCalls UInt64.size) (UInt64.size - 1) t ∧ ¬ t < .upperBound 7 := by
  have hroom : Call.touchesIn rewoundCalls < UInt64.size := by decide
  refine ⟨hroom, ⟨⟨30, 2⟩, ⟨10, 4⟩, rfl, rfl, by decide, ?_, ?_⟩, ?_⟩
  · have htwo : LastTouch ([.touch 50 1, .touch 40 2, .clear] ++ .touch 30 2 ::
        [.touch 20 3, .touch 10 1, .forget 3, .retain fun k => k != 3]) 2 3 :=
      lastTouch_append 30 (by simp)
    have hone : LastTouch ([.touch 50 1, .touch 40 2, .clear, .touch 30 2, .touch 20 3] ++
        .touch 10 1 :: [.forget 3, .retain fun k => k != 3]) 1 5 :=
      lastTouch_append 10 (by simp)
    obtain ⟨-, hordered, -⟩ := touches_in_order rewoundCalls
    obtain ⟨-, -, -, horder, -⟩ := hordered hroom
    exact (horder 2 1 _ _ 3 5 rfl rfl htwo hone).mpr (by decide)
  · obtain ⟨-, -, hbound⟩ := touches_in_order rewoundCalls
    exact (hbound 5 ⟨10, 4⟩ 0 ⟨10, 1, rfl, rfl⟩).1 (by decide)
  · -- all but one of the numbers are used up before the last touch
    obtain ⟨-, -, hbound⟩ := touches_in_order (steadyCalls UInt64.size)
    have hlast : (steadyCalls UInt64.size)[UInt64.size - 1]? = some (.touch 7 0) := by
      rw [steadyCalls, List.getElem?_replicate, if_pos (by decide)]
    have hmany : Call.touchesIn ((steadyCalls UInt64.size).take (UInt64.size - 1)) =
        UInt64.size - 1 := by
      rw [steadyCalls, Call.touchesIn, List.take_replicate, List.countP_replicate]
      rfl
    have hreturns : Returns (steadyCalls UInt64.size) (UInt64.size - 1) _ := ⟨7, 0, hlast, rfl⟩
    refine ⟨_, hreturns, fun hlt => ?_⟩
    exact Int64.lt_irrefl (((hbound _ _ 7 hreturns).2 hmany).mp hlt)

end SizedCache.Recency
