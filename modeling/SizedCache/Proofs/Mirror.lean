import SizedCache.Proofs.BuildLaws
import SizedCache.Proofs.CallLaws
import SizedCache.Proofs.PassLaws
import SizedCache.Proofs.TimerLaws

/-!
# The records mirror the store

In a cache with a tracker of its own the tracked keys are the stored keys after
every call, whether it ended or unwound, so that no pass ever finds a record to
drop or a key to adopt. The invariant is kept by each effect of a call and by
each part of a pass, wherever a failing test or selector ends it.
-/

namespace SizedCache

namespace Core

variable {κ α σ : Type} [DecidableEq κ]

/-- Keys are tracked, the records are those of the stored keys, and no pass has
found otherwise. -/
structure InLine (c : Core κ α σ) : Prop where
  tracked : c.tracker.isSome
  mirrored : c.Mirrored
  quiet : ∀ pruned adopted, .reconciled pruned adopted ∉ c.journal

theorem Mirrored.act {c : Core κ α σ} (h : c.Mirrored) (now : Int64) (e : Effect κ α) :
    (c.act now e).Mirrored := by
  intro r' hr' k
  cases e with
  | keep j v =>
    obtain ⟨r, hr, rfl⟩ := Option.map_eq_some_iff.mp hr'
    rw [Recency.mem_keys_touch, h r hr k]
    exact Table.mem_keys_set.symm
  | drop j =>
    obtain ⟨r, hr, rfl⟩ := Option.map_eq_some_iff.mp hr'
    rw [Recency.mem_keys_forget, h r hr k]
    exact Table.mem_keys_erase.symm
  | clear =>
    obtain ⟨r, hr, rfl⟩ := Option.map_eq_some_iff.mp hr'
    rfl

theorem Mirrored.actAll {c : Core κ α σ} (h : c.Mirrored) (now : Int64) (es : List (Effect κ α)) :
    (c.actAll now es).Mirrored := by
  induction es generalizing c with
  | nil => exact h
  | cons e es ih => exact ih (h.act now e)

namespace InLine

variable {c : Core κ α σ}

omit [DecidableEq κ] in
theorem congr {x : Core κ α σ} (h : c.InLine) (hs : x.store = c.store)
    (ht : x.tracker = c.tracker) (hj : x.journal = c.journal) : x.InLine where
  tracked := by rw [ht]; exact h.tracked
  mirrored r hr k := by rw [hs]; exact h.mirrored r (ht ▸ hr) k
  quiet := by rw [hj]; exact h.quiet

omit [DecidableEq κ] in
theorem log (h : c.InLine) (events : List Event)
    (he : ∀ pruned adopted, .reconciled pruned adopted ∉ events) :
    ({ c with journal := c.journal ++ events } : Core κ α σ).InLine where
  tracked := h.tracked
  mirrored := h.mirrored
  quiet pruned adopted hmem := by
    rcases List.mem_append.mp hmem with hmem | hmem
    · exact h.quiet pruned adopted hmem
    · exact he pruned adopted hmem

theorem without (h : c.InLine) (ks : List κ) : (c.without ks).InLine :=
  ⟨Option.isSome_map.trans h.tracked, h.mirrored.without ks, h.quiet⟩

theorem actAll (h : c.InLine) (now : Int64) (es : List (Effect κ α)) :
    (c.actAll now es).InLine where
  tracked := (actAll_tracks now es c).trans h.tracked
  mirrored := h.mirrored.actAll now es
  quiet := by
    obtain ⟨-, -, -, hj⟩ := actAll_frame now es c
    rw [hj]
    exact h.quiet

-- ---------------------------------------------------------------------------
-- Passes
-- ---------------------------------------------------------------------------

theorem sweep (h : c.InLine) (test : RemovalTest κ α σ) (now : Int64) (ks : List κ) :
    (c.sweep test now ks).2.InLine := by
  obtain ⟨ds, notes, stats, -, heq⟩ := sweep_snd test now ks c
  rw [heq]
  exact (h.without ds).congr rfl rfl rfl

theorem shrink (h : c.InLine) (s : Setup κ α σ) (now : Int64) : (c.shrink s now).2.InLine := by
  obtain ⟨vs, notes, heq, -⟩ := shrink_snd s now c
  have hnotes : ({ c with notes } : Core κ α σ).InLine := h.congr rfl rfl rfl
  rw [heq]
  exact hnotes.without vs

omit [DecidableEq κ] in
theorem conclude (h : c.InLine) (s : Setup κ α σ) (expired evicted : Nat) :
    (c.conclude s expired evicted).2.InLine := by
  obtain ⟨journal, heq, hj⟩ := conclude_eq s expired evicted c
  rw [heq]
  rcases hj with rfl | rfl
  · exact h.congr rfl rfl rfl
  · exact (h.log [.leftAboveMax c.store.size s.config.maxCapacity] (by simp)).congr
      rfl rfl rfl

theorem pass (h : c.InLine) (s : Setup κ α σ) (now : Int64) : (c.pass s now).2.InLine := by
  have hsweep := h.sweep s.test now (s.walk.arrange c.store.keys)
  rcases hx : c.sweep s.test now (s.walk.arrange c.store.keys) with ⟨_ | n, x⟩
  all_goals rw [hx] at hsweep
  · rw [pass_of_sweep_error hx]
    exact hsweep
  · -- nothing to prune or adopt: the sweep dropped records with their entries
    have hrec : x.reconcile s.walk now = x := reconcile_of_mirrored _ _ _ hsweep.mirrored
    have hshrink := hsweep.shrink s now
    rcases hy : x.shrink s now with ⟨_ | m, y⟩
    all_goals rw [hy] at hshrink
    · rw [pass_of_shrink_error hx (hrec.symm ▸ hy)]
      exact hshrink
    · rw [pass_of_ok hx (hrec.symm ▸ hy)]
      exact hshrink.conclude s n m

theorem attempt (h : c.InLine) (s : Setup κ α σ) (who : Origin) (now : Int64) :
    (c.attempt s who now).2.InLine := by
  unfold Core.attempt
  split
  · exact h.congr rfl rfl rfl
  · rename_i slot _
    have hclaimed : ({ c with slot } : Core κ α σ).InLine := h.congr rfl rfl rfl
    exact (hclaimed.pass s now).congr rfl rfl rfl

theorem trigger (h : c.InLine) (s : Setup κ α σ) (t : Trigger) (now : Int64) :
    (Scheduler.trigger (Cache.target s) t now c).InLine := by
  refine (h.attempt s (.trigger t) now).log [.ofAttempt t _] fun p a hmem => ?_
  rw [List.mem_singleton] at hmem
  unfold Event.ofAttempt at hmem
  split at hmem
  · split at hmem <;> cases hmem
  · cases hmem
  · cases hmem

end InLine

end Core

namespace Cache

variable {κ α σ : Type} [DecidableEq κ] [DecidableEq α] [Expirable α]

theorem step_inLine {c : Cache κ α σ} (h : c.core.InLine) {call : Call κ α}
    (hp : call.IsPrivate) : (c.step call).2.core.InLine := by
  have hdirect : call.IsDirect → (c.step call).2.core.InLine := by
    intro hd
    have hperform : (c.perform call).core.InLine :=
      (h.congr rfl rfl rfl :
        ({ c.core with stats := c.tally call c.core.stats } : Core κ α σ).InLine).actAll _ _
    rw [step_snd c hd]
    split
    · obtain ⟨scheduler, events, heq, he⟩ := checkCapacity_eq (c.perform call)
      rw [heq]
      refine hperform.log events fun p a hmem => ?_
      rcases he _ hmem with hc | hc <;> cases hc
    · exact hperform
  cases call with
  | forceCleanup => exact h.attempt c.setup .caller c.now
  | sleep ms =>
    show (c.sleep ms).core.InLine
    rw [sleep_core]
    generalize c.scheduler.firings _ = fs
    generalize c.core = x at h
    induction fs generalizing x with
    | nil => exact h
    | cons f fs ih => exact ih _ (h.trigger c.setup f.timer.kind _)
  | setClock now => exact h
  | editTracker f => cases hp
  | _ => exact hdirect rfl

theorem run_inLine {c : Cache κ α σ} (h : c.core.InLine) {calls : List (Call κ α)}
    (hp : ∀ call ∈ calls, call.IsPrivate) : (c.run calls).core.InLine := by
  induction calls generalizing c with
  | nil => exact h
  | cons call calls ih =>
    exact ih (step_inLine h (hp call (by simp))) fun x hx => hp x (List.mem_cons_of_mem _ hx)

omit [DecidableEq κ] [DecidableEq α] [Expirable α] in
theorem built_inLine {b : Builder κ α σ} {r : Recency κ} (ht : b.tracker = some r)
    (hr : r.keys = []) {now : Int64} {notes : σ} {c : Cache κ α σ}
    (hc : b.build now notes = .ok c) : c.core.InLine := by
  obtain ⟨hv, scheduler, events, hstart, rfl⟩ := Builder.build_ok hc
  obtain ⟨-, -, -, hevents⟩ := Scheduler.startPeriodic_ok hstart
  refine ⟨?_, ?_, ?_⟩
  · exact Option.isSome_of_eq_some ht
  · intro r' hr' k
    have he : r' = r := Option.some.inj (hr'.symm.trans ht)
    rw [he, hr]
    rfl
  · intro pruned adopted hmem
    rcases List.mem_cons.mp hmem with h | h
    · cases h
    · cases hevents _ h

/-- After any calls on a cache with a tracker of its own, with failing closures,
tests and selectors among them, exactly the stored keys are tracked. A call whose
closure fails leaves the whole cache as it was, and reconciliation had nothing to
do in any pass of the run and has nothing to do in a next one. -/
theorem run_records_mirror_store {b : Builder κ α σ} {r : Recency κ} (ht : b.tracker = some r)
    (hr : r.keys = []) {now : Int64} {notes : σ} {c : Cache κ α σ}
    (hc : b.build now notes = .ok c) {calls : List (Call κ α)}
    (hp : ∀ call ∈ calls, call.IsPrivate) :
    let d := c.run calls
    (∃ r', d.core.tracker = some r' ∧ ∀ k, k ∈ r'.keys ↔ k ∈ d.store.keys) ∧
    (∀ call e, d.closure? call = some (.error e) → d.step call = (.failed e, d)) ∧
    (∀ pruned adopted, .reconciled pruned adopted ∉ d.core.journal) ∧
    (∀ who now n x, (d.core.claimed who).sweep d.setup.test now
        (d.setup.walk.arrange d.store.keys) = (.ok n, x) →
      x.reconcile d.setup.walk now = x) := by
  intro d
  have hd : d.core.InLine := run_inLine (built_inLine ht hr hc) hp
  refine ⟨?_, fun call e => step_of_closure_error, hd.quiet, ?_⟩
  · obtain ⟨r', hr'⟩ := Option.isSome_iff_exists.mp hd.tracked
    exact ⟨r', hr', hd.mirrored r' hr'⟩
  · intro who now n x hx
    have hclaimed : (d.core.claimed who).InLine := hd.congr rfl rfl rfl
    have hsweep := hclaimed.sweep d.setup.test now (d.setup.walk.arrange d.store.keys)
    rw [hx] at hsweep
    exact Core.reconcile_of_mirrored _ _ _ hsweep.mirrored

def failingBuilder : Builder Nat (Timed Nat) Unit :=
  ((Builder.start ⟨16, 3, 1, 1⟩ true).removalTest fun notes _ k _ =>
    if k = 2 then .fail ⟨"policy failure"⟩ notes else .remove notes).leastRecentlyTouched

def failingCalls : List (Call Nat (Timed Nat)) :=
  [.put 1 (.permanent 7 0), .put 2 (.permanent 8 0), .forceCleanup, .put 3 (.permanent 9 0),
    .compute 3 fun _ _ => .error ⟨"closure failure"⟩, .sleep 1000, .getLive 2]

theorem run_records_mirror_store_failing :
    ∃ c, failingBuilder.build 0 () = .ok c ∧ (∀ call ∈ failingCalls, call.IsPrivate) ∧
      ∃ r, (c.run failingCalls).core.tracker = some r ∧
        ∀ k, k ∈ r.keys ↔ k ∈ (c.run failingCalls).store.keys := by
  have hprivate : ∀ call ∈ failingCalls, call.IsPrivate := by simp [failingCalls, Call.IsPrivate]
  refine ⟨_, rfl, hprivate, ?_⟩
  exact (run_records_mirror_store (b := failingBuilder) (r := {}) rfl rfl rfl hprivate).1

end Cache

end SizedCache
