import SizedCache.Proofs.EvictLaws

/-!
# Laws of passes and attempts

An attempt that finds the slot free runs a pass and frees the slot again. With
a stock selector and a test that never fails the pass ends, and its report tells
what is left: the sweep's survivors less as many as are too many.
-/

namespace SizedCache

theorem Selector.Stock.congr {κ α σ : Type} {s : Selector κ α σ} {t u : Option (Recency κ)}
    (h : s.Stock t) (htu : u.isSome = t.isSome) : s.Stock u := by
  cases s with
  | anyOrder => trivial
  | leastRecent => exact htu.trans h
  | custom choose => exact h.elim

namespace Core

variable {κ α σ : Type}

theorem conclude_eq (s : Setup κ α σ) (expired evicted : Nat) (c : Core κ α σ) :
    ∃ journal, c.conclude s expired evicted =
      (⟨expired, evicted, c.store.size⟩,
        { c with stats := c.stats.pass expired evicted, journal }) ∧
      (journal = c.journal ∨
        journal = c.journal ++ [.leftAboveMax c.store.size s.config.maxCapacity]) := by
  unfold conclude
  simp only
  split
  · exact ⟨_, rfl, .inr rfl⟩
  · exact ⟨_, rfl, .inl rfl⟩

theorem conclude_journal (s : Setup κ α σ) (expired evicted : Nat) (c : Core κ α σ) :
    (c.conclude s expired evicted).2.journal =
      c.journal ++ if s.config.maxCapacity < c.store.size then
        [.leftAboveMax c.store.size s.config.maxCapacity] else [] := by
  unfold conclude
  simp only
  split
  · rfl
  · simp

variable [DecidableEq κ]

theorem pass_of_sweep_error {s : Setup κ α σ} {now : Int64} {c x : Core κ α σ} {e : Failure}
    (h : c.sweep s.test now (s.walk.arrange c.store.keys) = (.error e, x)) :
    c.pass s now = (.error e, x) := by
  simp [pass, h]

theorem pass_of_shrink_error {s : Setup κ α σ} {now : Int64} {c x y : Core κ α σ} {n : Nat}
    {e : Failure} (hx : c.sweep s.test now (s.walk.arrange c.store.keys) = (.ok n, x))
    (hy : (x.reconcile s.walk now).shrink s now = (.error e, y)) :
    c.pass s now = (.error e, y) := by
  simp [pass, hx, hy]

theorem pass_of_ok {s : Setup κ α σ} {now : Int64} {c x y : Core κ α σ} {n m : Nat}
    (hx : c.sweep s.test now (s.walk.arrange c.store.keys) = (.ok n, x))
    (hy : (x.reconcile s.walk now).shrink s now = (.ok m, y)) :
    c.pass s now = (.ok (y.conclude s n m).1, (y.conclude s n m).2) := by
  simp [pass, hx, hy]

/-- What a pass looks at the size of: the core that its sweep leaves, with the
records in line. -/
def sifted (s : Setup κ α σ) (now : Int64) (c : Core κ α σ) : Core κ α σ :=
  (c.sweep s.test now (s.walk.arrange c.store.keys)).2.reconcile s.walk now

theorem pass_of_sifted_ok {s : Setup κ α σ} {now : Int64} {c y : Core κ α σ} {n m : Nat}
    (hx : (c.sweep s.test now (s.walk.arrange c.store.keys)).1 = .ok n)
    (hy : (c.sifted s now).shrink s now = (.ok m, y)) :
    c.pass s now = (.ok (y.conclude s n m).1, (y.conclude s n m).2) :=
  pass_of_ok (Prod.ext hx rfl) hy

theorem pass_of_sifted_error {s : Setup κ α σ} {now : Int64} {c y : Core κ α σ} {n : Nat}
    {e : Failure} (hx : (c.sweep s.test now (s.walk.arrange c.store.keys)).1 = .ok n)
    (hy : (c.sifted s now).shrink s now = (.error e, y)) : c.pass s now = (.error e, y) :=
  pass_of_shrink_error (Prod.ext hx rfl) hy

/-- After a sweep that ends, the store that a pass leaves is that of the phase that
looks at the size, whether the selector answers or not. -/
theorem pass_store_eq {s : Setup κ α σ} {now : Int64} {c : Core κ α σ} {n : Nat}
    (hx : (c.sweep s.test now (s.walk.arrange c.store.keys)).1 = .ok n) :
    (c.pass s now).2.store = ((c.sifted s now).shrink s now).2.store := by
  rcases hy : (c.sifted s now).shrink s now with ⟨e | m, y⟩
  · rw [pass_of_sifted_error hx hy]
  · obtain ⟨_, hconclude, -⟩ := conclude_eq s n m y
    rw [pass_of_sifted_ok hx hy, hconclude]

/-- That phase takes out what is too much at most, whatever the selector does. -/
theorem pass_snd_store {s : Setup κ α σ} {now : Int64} {c : Core κ α σ} {n : Nat}
    (hx : (c.sweep s.test now (s.walk.arrange c.store.keys)).1 = .ok n) :
    ∃ vs, (c.pass s now).2.store = (c.sifted s now).store.without vs ∧
      ((c.sifted s now).store.size ≤ s.config.maxCapacity → vs = []) := by
  obtain ⟨vs, notes, hsnd, hnil⟩ := shrink_snd s now (c.sifted s now)
  exact ⟨vs, by rw [pass_store_eq hx, hsnd]; rfl, hnil⟩

section Rule

variable {s : Setup κ α σ} {rule : Rule κ α} (htest : s.test = rule.toTest) (now : Int64)
  (c : Core κ α σ)

include htest

theorem sweep_of_rule :
    c.sweep s.test now (s.walk.arrange c.store.keys) =
      (.ok (c.store.filter (rule now)).size,
        c.without (c.accepted rule now (s.walk.arrange c.store.keys))) := by
  have hperm := s.walk.perm c.store.keys
  rw [htest, sweep_toTest rule now (hperm.nodup_iff.mpr c.store.keys_nodup),
    length_accepted hperm fun _ => rfl]

theorem sweep_store_of_rule :
    (c.sweep s.test now (s.walk.arrange c.store.keys)).2.store =
      c.store.filter fun k v => !rule now k v := by
  rw [sweep_of_rule htest]
  exact without_accepted (s.walk.perm c.store.keys) fun _ => rfl

theorem sifted_store : (c.sifted s now).store = c.store.filter fun k v => !rule now k v := by
  rw [sifted, reconcile_store, sweep_store_of_rule htest]

theorem sifted_notes : (c.sifted s now).notes = c.notes := by
  obtain ⟨_, _, -, hready⟩ :=
    reconcile_eq s.walk now (c.without (c.accepted rule now (s.walk.arrange c.store.keys)))
  rw [sifted, sweep_of_rule htest, hready]
  rfl

theorem sifted_journal :
    ∃ events, (c.sifted s now).journal = c.journal ++ events ∧
      ∀ e ∈ events, ∃ pruned adopted, e = .reconciled pruned adopted := by
  rw [sifted, sweep_of_rule htest]
  exact reconcile_journal s.walk now _

end Rule

def claimed (c : Core κ α σ) (who : Origin) : Core κ α σ := { c with slot := ⟨some who⟩ }

theorem attempt_of_free {c : Core κ α σ} (h : c.slot = {}) (s : Setup κ α σ) (who : Origin)
    (now : Int64) :
    c.attempt s who now =
      (((c.claimed who).pass s now).1.map .completed,
        { ((c.claimed who).pass s now).2 with slot := {} }) := by
  have hclaim : c.slot.claim? who = some ⟨some who⟩ := by rw [h]; rfl
  simp only [attempt, hclaim]
  rfl

theorem pass_stock {s : Setup κ α σ} {c : Core κ α σ} (hf : s.test.NeverFails)
    (hs : s.selector.Stock c.tracker) (now : Int64) :
    ∃ n x vs, c.sweep s.test now (s.walk.arrange c.store.keys) = (.ok n, x) ∧
      vs.Nodup ∧ (∀ k ∈ vs, k ∈ x.store.keys) ∧ vs.length = s.config.excess x.store.size ∧
      (c.pass s now).1 = .ok ⟨n, vs.length, x.store.size - vs.length⟩ ∧
      (c.pass s now).2.store = x.store.without vs ∧
      (c.pass s now).2.tracker.isSome = c.tracker.isSome ∧
      (c.pass s now).2.slot = c.slot := by
  let keys := s.walk.arrange c.store.keys
  obtain ⟨n, hn⟩ := sweep_ok hf now keys c
  obtain ⟨ds, notes, stats, -, hx⟩ := sweep_snd s.test now keys c
  rcases hsweep : c.sweep s.test now keys with ⟨r, x⟩
  rw [hsweep] at hn hx
  subst hn
  have htracks : x.tracker.isSome = c.tracker.isSome := by
    rw [show x = _ from hx]
    exact Option.isSome_map
  have hstock : s.selector.Stock (x.reconcile s.walk now).tracker :=
    hs.congr ((reconcile_tracks ..).trans htracks)
  obtain ⟨vs, hnodup, hkeys, hlen, hshrink⟩ :=
    shrink_stock now hstock (reconcile_mirrored s.walk now x)
  rw [reconcile_store] at hkeys hlen
  have hsize : (x.store.without vs).size = x.store.size - vs.length := by
    have := Table.size_without hnodup hkeys
    omega
  obtain ⟨journal, hconclude, -⟩ := conclude_eq s n vs.length ((x.reconcile s.walk now).without vs)
  have hpass := pass_of_ok hsweep hshrink
  rw [hconclude] at hpass
  refine ⟨n, x, vs, rfl, hnodup, hkeys, hlen, ?_, ?_, ?_, ?_⟩
  · rw [hpass, ← hsize, ← reconcile_store s.walk now x]
    rfl
  · rw [hpass]
    show (x.reconcile s.walk now).store.without vs = _
    rw [reconcile_store]
  · rw [hpass, ← htracks, ← reconcile_tracks s.walk now x]
    exact Option.isSome_map
  · obtain ⟨tracker, journal', -, hrec⟩ := reconcile_eq s.walk now x
    rw [hpass]
    show (x.reconcile s.walk now).slot = _
    rw [hrec, show x = _ from hx]
    rfl

theorem attempt_stock {s : Setup κ α σ} {c : Core κ α σ} (hf : s.test.NeverFails)
    (hs : s.selector.Stock c.tracker) (hfree : c.slot = {}) (who : Origin) (now : Int64) :
    ∃ n x vs, (c.claimed who).sweep s.test now (s.walk.arrange c.store.keys) = (.ok n, x) ∧
      vs.Nodup ∧ (∀ k ∈ vs, k ∈ x.store.keys) ∧ vs.length = s.config.excess x.store.size ∧
      (c.attempt s who now).1 = .ok (.completed ⟨n, vs.length, x.store.size - vs.length⟩) ∧
      (c.attempt s who now).2.store = x.store.without vs ∧
      (c.attempt s who now).2.tracker.isSome = c.tracker.isSome ∧
      (c.attempt s who now).2.slot = {} := by
  obtain ⟨n, x, vs, hsweep, hnodup, hkeys, hlen, hreport, hstore, htracks, -⟩ :=
    pass_stock (c := c.claimed who) hf hs now
  rw [attempt_of_free hfree]
  refine ⟨n, x, vs, hsweep, hnodup, hkeys, hlen, ?_, hstore, htracks, rfl⟩
  rw [hreport]
  rfl

end Core

end SizedCache
