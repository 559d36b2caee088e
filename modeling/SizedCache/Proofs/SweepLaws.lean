import SizedCache.Core
import SizedCache.Proofs.TableLaws

/-!
# Laws of the sweep

Whatever the removal test does, a sweep leaves a core less some of the keys it
met, with other notes and counts. A test that never fails lets it end; a rule
takes out exactly the entries it accepts.
-/

namespace SizedCache

-- ---------------------------------------------------------------------------
-- Tests
-- ---------------------------------------------------------------------------

def Judgement.NeverFails {σ : Type} : Judgement σ → Prop
  | .keep _ | .remove _ => True
  | .fail _ _ => False
  | .askRunning resume => ∀ b, (resume b).NeverFails
  | .attempt resume => ∀ o, (resume o).NeverFails

/-- Answers, if it answers, that the entry stays. -/
def Judgement.NeverRemoves {σ : Type} : Judgement σ → Prop
  | .keep _ | .fail _ _ => True
  | .remove _ => False
  | .askRunning resume => ∀ b, (resume b).NeverRemoves
  | .attempt resume => ∀ o, (resume o).NeverRemoves

namespace RemovalTest

variable {κ α σ : Type}

def NeverFails (test : RemovalTest κ α σ) : Prop :=
  ∀ notes now k v, (test notes now k v).NeverFails

def NeverRemoves (test : RemovalTest κ α σ) : Prop :=
  ∀ notes now k v, (test notes now k v).NeverRemoves

end RemovalTest

theorem Rule.toTest_neverFails {κ α σ : Type} (rule : Rule κ α) :
    (rule.toTest : RemovalTest κ α σ).NeverFails := by
  intro notes now k v
  unfold Rule.toTest
  split <;> exact trivial

theorem Rule.never_neverRemoves {κ α σ : Type} :
    ((Rule.never : Rule κ α).toTest : RemovalTest κ α σ).NeverRemoves :=
  fun _ _ _ _ => trivial

namespace Core

variable {κ α σ : Type}

theorem settle_snd (j : Judgement σ) (c : Core κ α σ) :
    ∃ notes stats, (settle j c).2 = { c with notes, stats } := by
  induction j generalizing c with
  | keep notes => exact ⟨notes, c.stats, rfl⟩
  | remove notes => exact ⟨notes, c.stats, rfl⟩
  | fail e notes => exact ⟨notes, c.stats, rfl⟩
  | askRunning resume ih => exact ih _ c
  | attempt resume ih => exact ih _ { c with stats := c.stats.skip }

theorem settle_store {j : Judgement σ} {c x : Core κ α σ} {answer : Except Failure Bool}
    (h : c.settle j = (answer, x)) : x.store = c.store := by
  obtain ⟨notes, stats, heq⟩ := settle_snd j c
  rw [h] at heq
  rw [show x = _ from heq]

theorem settle_ok {j : Judgement σ} (h : j.NeverFails) (c : Core κ α σ) :
    ∃ b, (settle j c).1 = .ok b := by
  induction j generalizing c with
  | keep notes => exact ⟨false, rfl⟩
  | remove notes => exact ⟨true, rfl⟩
  | fail e notes => exact h.elim
  | askRunning resume ih => exact ih _ (h _) c
  | attempt resume ih => exact ih _ (h _) _

theorem settle_ne_true {j : Judgement σ} (h : j.NeverRemoves) (c : Core κ α σ) :
    (settle j c).1 ≠ .ok true := by
  induction j generalizing c with
  | keep notes => exact fun h => nomatch h
  | remove notes => exact h.elim
  | fail e notes => exact fun h => nomatch h
  | askRunning resume ih => exact ih _ (h _) c
  | attempt resume ih => exact ih _ (h _) _

@[simp] theorem settle_toTest (rule : Rule κ α) (now : Int64) (k : κ) (v : α) (c : Core κ α σ) :
    settle (rule.toTest c.notes now k v) c = (.ok (rule now k v), c) := by
  unfold Rule.toTest
  cases rule now k v <;> rfl

variable [DecidableEq κ]

-- ---------------------------------------------------------------------------
-- Taking out keys
-- ---------------------------------------------------------------------------

def without (c : Core κ α σ) (ks : List κ) : Core κ α σ :=
  { c with store := c.store.without ks, tracker := c.tracker.map (·.without ks) }

@[simp] theorem without_nil (c : Core κ α σ) : c.without [] = c := by
  cases h : c.tracker <;> simp [without, h]
  all_goals rw [← h]

theorem drop_without (c : Core κ α σ) (k : κ) (ks : List κ) :
    (c.drop k).without ks = c.without (k :: ks) := by
  cases h : c.tracker <;>
    simp [without, drop, forget, h, Table.without_cons, Recency.without_cons]

-- ---------------------------------------------------------------------------
-- One entry
-- ---------------------------------------------------------------------------

section Entry

variable {test : RemovalTest κ α σ} {now : Int64} {k : κ} {ks : List κ} {c x : Core κ α σ} {v : α}

theorem sweep_absent (hk : c.store.get? k = none) :
    c.sweep test now (k :: ks) = c.sweep test now ks := by
  simp [sweep, hk]

theorem sweep_fail {e : Failure} (hk : c.store.get? k = some v)
    (hj : c.settle (test c.notes now k v) = (.error e, x)) :
    c.sweep test now (k :: ks) = (.error e, x) := by
  simp [sweep, hk, hj]

theorem sweep_keep (hk : c.store.get? k = some v)
    (hj : c.settle (test c.notes now k v) = (.ok false, x)) :
    c.sweep test now (k :: ks) = x.sweep test now ks := by
  simp [sweep, hk, hj]

theorem sweep_remove (hk : c.store.get? k = some v)
    (hj : c.settle (test c.notes now k v) = (.ok true, x)) :
    c.sweep test now (k :: ks) =
      (((x.drop k).sweep test now ks).1.map (· + 1), ((x.drop k).sweep test now ks).2) := by
  simp only [sweep, hk, hj]
  rcases sweep test now ks (x.drop k) with ⟨r, y⟩
  cases r <;> rfl

end Entry

-- ---------------------------------------------------------------------------
-- Any test
-- ---------------------------------------------------------------------------

theorem sweep_snd (test : RemovalTest κ α σ) (now : Int64) (ks : List κ) (c : Core κ α σ) :
    ∃ ds notes stats, ds.Sublist ks ∧
      (c.sweep test now ks).2 = { c.without ds with notes, stats } := by
  induction ks generalizing c with
  | nil => exact ⟨[], c.notes, c.stats, .slnil, by simp [sweep]⟩
  | cons k ks ih =>
    cases hk : c.store.get? k with
    | none =>
      obtain ⟨ds, notes, stats, hsub, heq⟩ := ih c
      exact ⟨ds, notes, stats, hsub.cons _, by rw [sweep_absent hk, heq]⟩
    | some v =>
      obtain ⟨notes, stats, hset⟩ := settle_snd (test c.notes now k v) c
      rcases hj : c.settle (test c.notes now k v) with ⟨answer, x⟩
      rw [hj] at hset
      subst hset
      match answer with
      | .error e => exact ⟨[], notes, stats, List.nil_sublist _, by simp [sweep_fail hk hj]⟩
      | .ok false =>
        obtain ⟨ds, notes', stats', hsub, heq⟩ := ih { c with notes, stats }
        exact ⟨ds, notes', stats', hsub.cons _, by rw [sweep_keep hk hj, heq]; rfl⟩
      | .ok true =>
        obtain ⟨ds, notes', stats', hsub, heq⟩ := ih (({ c with notes, stats }).drop k)
        refine ⟨k :: ds, notes', stats', hsub.cons_cons _, ?_⟩
        rw [sweep_remove hk hj, heq, drop_without]
        rfl

theorem sweep_ok {test : RemovalTest κ α σ} (h : test.NeverFails) (now : Int64) (ks : List κ)
    (c : Core κ α σ) : ∃ n, (c.sweep test now ks).1 = .ok n := by
  induction ks generalizing c with
  | nil => exact ⟨0, rfl⟩
  | cons k ks ih =>
    cases hk : c.store.get? k with
    | none =>
      rw [sweep_absent hk]
      exact ih c
    | some v =>
      obtain ⟨b, hb⟩ := settle_ok (h c.notes now k v) c
      have hj : c.settle (test c.notes now k v) = (.ok b, (c.settle (test c.notes now k v)).2) :=
        Prod.ext hb rfl
      cases b with
      | false =>
        rw [sweep_keep hk hj]
        exact ih _
      | true =>
        obtain ⟨n, hn⟩ := ih ((c.settle (test c.notes now k v)).2.drop k)
        exact ⟨n + 1, by rw [sweep_remove hk hj, hn]; rfl⟩

theorem sweep_store_of_neverRemoves {test : RemovalTest κ α σ} (h : test.NeverRemoves) (now : Int64)
    (ks : List κ) (c : Core κ α σ) : (c.sweep test now ks).2.store = c.store := by
  induction ks generalizing c with
  | nil => rfl
  | cons k ks ih =>
    cases hk : c.store.get? k with
    | none => rw [sweep_absent hk, ih]
    | some v =>
      obtain ⟨notes, stats, hset⟩ := settle_snd (test c.notes now k v) c
      have hne := settle_ne_true (h c.notes now k v) c
      rcases hj : c.settle (test c.notes now k v) with ⟨answer, x⟩
      rw [hj] at hset hne
      subst hset
      match answer with
      | .error e => rw [sweep_fail hk hj]
      | .ok false => rw [sweep_keep hk hj, ih]
      | .ok true => exact absurd rfl hne

-- ---------------------------------------------------------------------------
-- Rules
-- ---------------------------------------------------------------------------

def accepted (c : Core κ α σ) (rule : Rule κ α) (now : Int64) (ks : List κ) : List κ :=
  ks.filter fun k => (c.store.get? k).any (rule now k)

theorem accepted_drop {c : Core κ α σ} {rule : Rule κ α} {now : Int64} {k : κ} {ks : List κ}
    (h : k ∉ ks) : (c.drop k).accepted rule now ks = c.accepted rule now ks := by
  apply List.filter_congr
  intro j hj
  have hne : k ≠ j := fun he => h (he ▸ hj)
  simp [drop, forget, hne]

theorem sweep_toTest (rule : Rule κ α) (now : Int64) {ks : List κ} (hn : ks.Nodup)
    (c : Core κ α σ) :
    c.sweep rule.toTest now ks =
      (.ok (c.accepted rule now ks).length, c.without (c.accepted rule now ks)) := by
  induction ks generalizing c with
  | nil => simp [sweep, accepted]
  | cons k ks ih =>
    obtain ⟨hnot, hn⟩ := List.nodup_cons.mp hn
    cases hk : c.store.get? k with
    | none => simpa [sweep_absent hk, accepted, hk] using ih hn c
    | some v =>
      have hj := settle_toTest rule now k v c
      cases hr : rule now k v with
      | false =>
        rw [hr] at hj
        simpa [sweep_keep hk hj, accepted, hk, hr] using ih hn c
      | true =>
        rw [hr] at hj
        have haccept : c.accepted rule now (k :: ks) = k :: c.accepted rule now ks := by
          simp [accepted, hk, hr]
        rw [sweep_remove hk hj, ih hn, accepted_drop hnot, drop_without, haccept]
        rfl

section Accepted

variable {c : Core κ α σ} {rule : Rule κ α} {now : Int64} {ks : List κ} {t : Table κ α}

/-- Taking the accepted keys of a full walk out of a table with the same entries
leaves the rejected ones. -/
theorem without_accepted (hp : ks.Perm c.store.keys) (ht : ∀ k, t.get? k = c.store.get? k) :
    t.without (c.accepted rule now ks) = t.filter fun k v => !rule now k v := by
  apply Table.filter_congr
  intro e he
  have hget : c.store.get? e.1 = some e.2 := by rw [← ht, Table.get?_eq_some_iff.mpr he]
  have hmem : e.1 ∈ ks := hp.mem_iff.mpr (Table.mem_keys_of_get? hget)
  simp [accepted, hmem, hget]

theorem length_accepted (hp : ks.Perm c.store.keys) (ht : ∀ k, t.get? k = c.store.get? k) :
    (c.accepted rule now ks).length = (t.filter (rule now)).size := by
  have hnodup : (c.accepted rule now ks).Nodup := (hp.nodup_iff.mpr c.store.keys_nodup).filter _
  have hkeys : ∀ k ∈ c.accepted rule now ks, k ∈ t.keys := fun k hk => by
    obtain ⟨v, hv⟩ := Table.mem_keys_iff.mp (hp.mem_iff.mp (List.mem_filter.mp hk).1)
    exact Table.mem_keys_of_get? ((ht k).trans hv)
  have hwithout := Table.size_without hnodup hkeys
  have hfilter := t.size_filter_add (rule now)
  rw [without_accepted hp ht] at hwithout
  omega

end Accepted

end Core

end SizedCache
