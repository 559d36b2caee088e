import SizedCache.Proofs.SweepLaws
import Mathlib.Data.List.Induction

/-!
# The verdicts of a sweep

A sweep asks its test about one entry after the other and stops where the test
fails. Each question is put to the core that a sweep of the keys before it leaves.
So a sweep fails iff an answer is a failure, and what it has taken out by then is
what was given up by the answers before.
-/

namespace SizedCache.Core

variable {κ α σ : Type} [DecidableEq κ] {test : RemovalTest κ α σ} {now : Int64}

-- ---------------------------------------------------------------------------
-- A sweep in two parts
-- ---------------------------------------------------------------------------

theorem sweep_append (test : RemovalTest κ α σ) (now : Int64) (js ks : List κ) (c : Core κ α σ) :
    c.sweep test now (js ++ ks) =
      match c.sweep test now js with
      | (.error e, x) => (.error e, x)
      | (.ok n, x) => ((x.sweep test now ks).1.map (n + ·), (x.sweep test now ks).2) := by
  induction js generalizing c with
  | nil =>
    simp only [List.nil_append, sweep]
    rcases c.sweep test now ks with ⟨e | n, x⟩ <;> simp [Except.map]
  | cons j js ih =>
    rw [List.cons_append]
    cases hj : c.store.get? j with
    | none => rw [sweep_absent hj, sweep_absent hj, ih]
    | some v =>
      rcases ha : c.settle (test c.notes now j v) with ⟨e | _ | _, x⟩
      · rw [sweep_fail hj ha, sweep_fail hj ha]
      · rw [sweep_keep hj ha, sweep_keep hj ha, ih]
      · rw [sweep_remove hj ha, sweep_remove hj ha, ih]
        rcases (x.drop j).sweep test now js with ⟨e | n, y⟩
        · rfl
        · show (((y.sweep test now ks).1.map (n + ·)).map (· + 1), (y.sweep test now ks).2) =
            ((y.sweep test now ks).1.map (n + 1 + ·), (y.sweep test now ks).2)
          rcases y.sweep test now ks with ⟨e | m, z⟩
          · rfl
          · simp only [Except.map, Nat.add_right_comm]

section Concat

variable {ks : List κ} {j : κ} {c x y : Core κ α σ} {n : Nat} {v : α}

theorem sweep_concat_of_error {e : Failure} (hx : c.sweep test now ks = (.error e, x)) :
    c.sweep test now (ks ++ [j]) = (.error e, x) := by
  rw [sweep_append, hx]

theorem sweep_concat_of_ok (hx : c.sweep test now ks = (.ok n, x)) :
    c.sweep test now (ks ++ [j]) =
      ((x.sweep test now [j]).1.map (n + ·), (x.sweep test now [j]).2) := by
  rw [sweep_append, hx]

theorem sweep_concat_absent (hx : c.sweep test now ks = (.ok n, x))
    (hj : x.store.get? j = none) : c.sweep test now (ks ++ [j]) = (.ok n, x) := by
  rw [sweep_concat_of_ok hx, sweep_absent hj]
  rfl

theorem sweep_concat_fail {e : Failure} (hx : c.sweep test now ks = (.ok n, x))
    (hj : x.store.get? j = some v) (ha : x.settle (test x.notes now j v) = (.error e, y)) :
    c.sweep test now (ks ++ [j]) = (.error e, y) := by
  rw [sweep_concat_of_ok hx, sweep_fail hj ha]
  rfl

theorem sweep_concat_keep (hx : c.sweep test now ks = (.ok n, x))
    (hj : x.store.get? j = some v) (ha : x.settle (test x.notes now j v) = (.ok false, y)) :
    c.sweep test now (ks ++ [j]) = (.ok n, y) := by
  rw [sweep_concat_of_ok hx, sweep_keep hj ha]
  rfl

theorem sweep_concat_remove (hx : c.sweep test now ks = (.ok n, x))
    (hj : x.store.get? j = some v) (ha : x.settle (test x.notes now j v) = (.ok true, y)) :
    c.sweep test now (ks ++ [j]) = (.ok (n + 1), y.drop j) := by
  rw [sweep_concat_of_ok hx, sweep_remove hj ha]
  rfl

end Concat

-- ---------------------------------------------------------------------------
-- Verdicts
-- ---------------------------------------------------------------------------

/-- In a sweep of `ks` the test is asked about the key `k` with the value `v`, and
`answer` is what it says. -/
def Judges (test : RemovalTest κ α σ) (now : Int64) (ks : List κ) (c : Core κ α σ) (k : κ) (v : α)
    (answer : Except Failure Bool) : Prop :=
  ∃ earlier later n x, ks = earlier ++ k :: later ∧ c.sweep test now earlier = (.ok n, x) ∧
    x.store.get? k = some v ∧ (x.settle (test x.notes now k v)).1 = answer

variable {c : Core κ α σ} {ks : List κ} {k : κ} {v : α} {answer : Except Failure Bool}

theorem not_judges_nil : ¬ Judges test now [] c k v answer := by
  rintro ⟨earlier, later, -, -, hnil, -⟩
  cases earlier <;> cases hnil

theorem judges_concat {j : κ} :
    Judges test now (ks ++ [j]) c k v answer ↔
      Judges test now ks c k v answer ∨
        k = j ∧ ∃ n x, c.sweep test now ks = (.ok n, x) ∧ x.store.get? k = some v ∧
          (x.settle (test x.notes now k v)).1 = answer := by
  constructor
  · rintro ⟨earlier, later, n, x, hsplit, hx, hk, ha⟩
    rcases List.eq_nil_or_concat later with rfl | ⟨later, l, rfl⟩
    · obtain ⟨rfl, hlast⟩ := List.append_inj' hsplit rfl
      exact .inr ⟨(List.singleton_inj.mp hlast).symm, n, x, hx, hk, ha⟩
    · rw [List.concat_eq_append, ← List.cons_append, ← List.append_assoc] at hsplit
      obtain ⟨rfl, -⟩ := List.append_inj' hsplit rfl
      exact .inl ⟨earlier, later, n, x, rfl, hx, hk, ha⟩
  · rintro (⟨earlier, later, n, x, rfl, hx, hk, ha⟩ | ⟨rfl, n, x, hx, hk, ha⟩)
    · exact ⟨earlier, later ++ [j], n, x, by simp, hx, hk, ha⟩
    · exact ⟨ks, [], n, x, rfl, hx, hk, ha⟩

section Last

variable {j : κ} {x y : Core κ α σ} {n : Nat} {w : α} {last : Except Failure Bool}

theorem judges_concat_of_error {e : Failure} (hx : c.sweep test now ks = (.error e, x)) :
    Judges test now (ks ++ [j]) c k v answer ↔ Judges test now ks c k v answer := by
  simp [judges_concat, hx]

theorem judges_concat_absent (hx : c.sweep test now ks = (.ok n, x))
    (hj : x.store.get? j = none) :
    Judges test now (ks ++ [j]) c k v answer ↔ Judges test now ks c k v answer := by
  rw [judges_concat, or_iff_left]
  rintro ⟨rfl, m, z, hz, hk, -⟩
  cases hx.symm.trans hz
  cases hj.symm.trans hk

theorem judges_concat_present (hx : c.sweep test now ks = (.ok n, x))
    (hj : x.store.get? j = some w) (ha : x.settle (test x.notes now j w) = (last, y)) :
    Judges test now (ks ++ [j]) c k v answer ↔
      Judges test now ks c k v answer ∨ k = j ∧ v = w ∧ answer = last := by
  rw [judges_concat]
  refine or_congr_right ⟨?_, ?_⟩
  · rintro ⟨rfl, m, z, hz, hk, rfl⟩
    cases hx.symm.trans hz
    obtain rfl := Option.some.inj (hj.symm.trans hk)
    exact ⟨rfl, rfl, congrArg Prod.fst ha⟩
  · rintro ⟨rfl, rfl, rfl⟩
    exact ⟨rfl, n, x, hx, hj, congrArg Prod.fst ha⟩

end Last

theorem sweep_fails_iff {e : Failure} :
    (c.sweep test now ks).1 = .error e ↔ ∃ k v, Judges test now ks c k v (.error e) := by
  -- from the end, as the last question is put to what the keys before it leave
  induction ks using List.reverseRecOn with
  | nil => simp [sweep, not_judges_nil]
  | append_singleton ks j ih =>
    rcases hx : c.sweep test now ks with ⟨e' | n, x⟩
    · simp only [judges_concat_of_error hx, sweep_concat_of_error hx, ← ih, hx]
    · cases hj : x.store.get? j with
      | none => simp only [judges_concat_absent hx hj, sweep_concat_absent hx hj, ← ih, hx]
      | some w =>
        rcases ha : x.settle (test x.notes now j w) with ⟨e' | _ | _, y⟩
        all_goals simp only [judges_concat_present hx hj ha, exists_or, ← ih, hx]
        · simp [sweep_concat_fail hx hj ha, eq_comm]
        · simp [sweep_concat_keep hx hj ha]
        · simp [sweep_concat_remove hx hj ha]

theorem sweep_leaves_iff :
    (c.sweep test now ks).2.store.get? k = some v ↔
      c.store.get? k = some v ∧ ¬ Judges test now ks c k v (.ok true) := by
  induction ks using List.reverseRecOn with
  | nil => simp [sweep, not_judges_nil]
  | append_singleton ks j ih =>
    rcases hx : c.sweep test now ks with ⟨e | n, x⟩
    · simp only [judges_concat_of_error hx, sweep_concat_of_error hx, ← ih, hx]
    · cases hj : x.store.get? j with
      | none => simp only [judges_concat_absent hx hj, sweep_concat_absent hx hj, ← ih, hx]
      | some w =>
        rcases ha : x.settle (test x.notes now j w) with ⟨e | _ | _, y⟩
        all_goals
          have hy := settle_store ha
          simp only [judges_concat_present hx hj ha, not_or, ← and_assoc, ← ih, hx]
        · simp [sweep_concat_fail hx hj ha, hy]
        · simp [sweep_concat_keep hx hj ha, hy]
        · -- the last entry had the value that it was judged by
          have hlast : x.store.get? k = some v → k = j → v = w := by
            rintro hk rfl
            exact Option.some.inj (hk.symm.trans hj)
          have hdrop : (y.drop j).store = x.store.erase j := congrArg (Table.erase · j) hy
          rw [sweep_concat_remove hx hj ha, hdrop, Table.get?_erase]
          by_cases hkj : j = k
          · simpa [hkj] using fun hk => hlast hk hkj.symm
          · simp [hkj, Ne.symm hkj]

theorem sweep_leaves_of_fail {e : Failure} (h : Judges test now ks c k v (.error e)) :
    (c.sweep test now ks).2.store.get? k = some v := by
  induction ks using List.reverseRecOn with
  | nil => exact absurd h not_judges_nil
  | append_singleton ks j ih =>
    rcases judges_concat.mp h with hbefore | ⟨rfl, n, x, hx, hk, ha⟩
    · have hx : c.sweep test now ks = (.error e, _) :=
        Prod.ext (sweep_fails_iff.mpr ⟨k, v, hbefore⟩) rfl
      rw [sweep_concat_of_error hx]
      exact ih hbefore
    · rcases hy : x.settle (test x.notes now k v) with ⟨answer, y⟩
      rw [hy] at ha
      obtain rfl : answer = .error e := ha
      rw [sweep_concat_fail hx hk hy, settle_store hy, hk]

theorem sweep_untracks {r : Recency κ} (hk : k ∈ c.store.keys)
    (hgone : k ∉ (c.sweep test now ks).2.store.keys)
    (hr : (c.sweep test now ks).2.tracker = some r) : k ∉ r.keys := by
  obtain ⟨ds, notes, stats, -, heq⟩ := sweep_snd test now ks c
  rw [heq] at hgone hr
  obtain ⟨r', -, rfl⟩ := Option.map_eq_some_iff.mp hr
  have hdropped : k ∈ ds := by
    by_contra hkept
    exact hgone (Table.mem_keys_without.mpr ⟨hk, hkept⟩)
  exact fun hmem => (Recency.mem_keys_without.mp hmem).2 hdropped

end SizedCache.Core
