import SizedCache.Proofs.RulePasses
import SizedCache.Proofs.WriteTrigger

/-!
# The log of background attempts

Which attempts the timers of a cache make in the course of a run: when, for which
trigger and with what result, whatever callers and other threads do in between.
The journal tells of the same attempts in the same order.
-/

namespace SizedCache

-- ---------------------------------------------------------------------------
-- Attempts and events
-- ---------------------------------------------------------------------------

structure LoggedAttempt where
  /-- On the timers' clock. -/
  due : Nat
  trigger : Trigger
  result : Except Failure Outcome

def LoggedAttempt.event (a : LoggedAttempt) : Event := .ofAttempt a.trigger a.result

def dues (t : Trigger) (log : List LoggedAttempt) : List Nat :=
  (log.filter (·.trigger = t)).map LoggedAttempt.due

@[simp] theorem dues_append (t : Trigger) (xs ys : List LoggedAttempt) :
    dues t (xs ++ ys) = dues t xs ++ dues t ys := by
  simp [dues]

namespace Event

def trigger? : Event → Option Trigger
  | .removed t _ | .nothingToRemove t _ | .skipped t | .failed t => some t
  | _ => none

def IsOfPass : Event → Bool
  | .reconciled .. | .leftAboveMax .. => true
  | _ => false

theorem trigger?_ofAttempt (t : Trigger) (r : Except Failure Outcome) :
    (ofAttempt t r).trigger? = some t := by
  unfold ofAttempt
  split
  · split <;> rfl
  · rfl
  · rfl

theorem trigger?_of_isOfPass {e : Event} (h : e.IsOfPass = true) : e.trigger? = none := by
  cases e with
  | reconciled pruned adopted | leftAboveMax remaining maxCapacity => rfl
  | _ => cases h

end Event

namespace Core

variable {κ α σ : Type} [DecidableEq κ]

theorem pass_journal (s : Setup κ α σ) (now : Int64) (c : Core κ α σ) :
    ∃ events, (c.pass s now).2.journal = c.journal ++ events ∧
      ∀ e ∈ events, e.IsOfPass = true := by
  obtain ⟨ds, notes, stats, -, hsweep⟩ :=
    sweep_snd s.test now (s.walk.arrange c.store.keys) c
  rcases hx : c.sweep s.test now (s.walk.arrange c.store.keys) with ⟨_ | n, x⟩
  all_goals rw [hx] at hsweep
  · rw [pass_of_sweep_error hx]
    exact ⟨[], by rw [show x = _ from hsweep]; simp [without], by simp⟩
  · obtain ⟨found, hfound, hreconciled⟩ := reconcile_journal s.walk now x
    have hx' : x.journal = c.journal := by rw [show x = _ from hsweep]; rfl
    have hof : ∀ e ∈ found, e.IsOfPass = true := by
      intro e he
      obtain ⟨pruned, adopted, rfl⟩ := hreconciled e he
      rfl
    obtain ⟨vs, notes', hshrink, -⟩ := shrink_snd s now (x.reconcile s.walk now)
    rcases hy : (x.reconcile s.walk now).shrink s now with ⟨_ | m, y⟩
    all_goals
      rw [hy] at hshrink
      have hy' : y.journal = c.journal ++ found := by
        rw [show y = _ from hshrink, ← hx', ← hfound]
        rfl
    · rw [pass_of_shrink_error hx hy]
      exact ⟨found, hy', hof⟩
    · rw [pass_of_ok hx hy]
      refine ⟨found ++ _, ((conclude_journal s n m y).trans (by rw [hy'])).trans
        (List.append_assoc ..), fun e he => ?_⟩
      rcases List.mem_append.mp he with he | he
      · exact hof e he
      · split at he
        · rw [List.mem_singleton.mp he]
          rfl
        · cases he

theorem attempt_journal (s : Setup κ α σ) (who : Origin) (now : Int64) (c : Core κ α σ) :
    ∃ events, (c.attempt s who now).2.journal = c.journal ++ events ∧
      ∀ e ∈ events, e.IsOfPass = true := by
  unfold attempt
  split
  · exact ⟨[], by simp, by simp⟩
  · exact pass_journal s now _

/-- The attempts for which timers fire, each on the core that those before it left. -/
def attemptLog (s : Setup κ α σ) (wall : Nat → Int64) : List Firing → Core κ α σ → List LoggedAttempt
  | [], _ => []
  | f :: fs, c =>
    ⟨f.due, f.timer.kind, (c.attempt s (.trigger f.timer.kind) (wall f.due)).1⟩ ::
      attemptLog s wall fs (Scheduler.trigger (Cache.target s) f.timer.kind (wall f.due) c)

/-- Every timer that fires is one attempt, in the order in which they fire. -/
theorem dues_attemptLog (s : Setup κ α σ) (wall : Nat → Int64) (fs : List Firing)
    (c : Core κ α σ) (t : Trigger) :
    dues t (c.attemptLog s wall fs) = (fs.filter (·.timer.kind = t)).map Firing.due := by
  induction fs generalizing c with
  | nil => rfl
  | cons f fs ih =>
    have ih := ih (Scheduler.trigger (Cache.target s) f.timer.kind (wall f.due) c)
    unfold dues at ih ⊢
    by_cases h : f.timer.kind = t
    · rw [attemptLog, List.filter_cons_of_pos (by simp [h]), List.filter_cons_of_pos (by simp [h]),
        List.map_cons, List.map_cons, ih]
    · rw [attemptLog, List.filter_cons_of_neg (by simp [h]), List.filter_cons_of_neg (by simp [h]),
        ih]

theorem attempts_journal (s : Setup κ α σ) (wall : Nat → Int64) (fs : List Firing)
    (c : Core κ α σ) {p : Event → Bool} (hp : ∀ e, e.IsOfPass = true → p e = false) :
    (c.attempts s wall fs).journal.filter p =
      c.journal.filter p ++ ((c.attemptLog s wall fs).map LoggedAttempt.event).filter p := by
  induction fs generalizing c with
  | nil => simp [attempts, attemptLog]
  | cons f fs ih =>
    obtain ⟨events, hjournal, hof⟩ :=
      attempt_journal s (.trigger f.timer.kind) (wall f.due) c
    have hnone : events.filter p = [] :=
      List.filter_eq_nil_iff.mpr fun e he => by simp [hp e (hof e he)]
    have htrigger : (Scheduler.trigger (Cache.target s) f.timer.kind (wall f.due) c).journal =
        c.journal ++ events ++
          [.ofAttempt f.timer.kind (c.attempt s (.trigger f.timer.kind) (wall f.due)).1] :=
      congrArg (· ++ _) hjournal
    refine (ih (Scheduler.trigger (Cache.target s) f.timer.kind (wall f.due) c)).trans ?_
    rw [htrigger, List.filter_append, List.filter_append, hnone, List.append_nil,
      List.append_assoc, ← List.filter_append]
    rfl

end Core

-- ---------------------------------------------------------------------------
-- Which timers fire
-- ---------------------------------------------------------------------------

theorem filter_mergeSort {ε : Type} {le : ε → ε → Bool}
    (htrans : ∀ a b c, le a b = true → le b c = true → le a c = true)
    (htotal : ∀ a b, (le a b || le b a) = true) {p : ε → Bool} {l : List ε}
    (h : (l.filter p).Pairwise fun a b => le a b = true) :
    (l.mergeSort le).filter p = l.filter p := by
  have hsub : (l.filter p).Sublist ((l.mergeSort le).filter p) := by
    have hsorted := (List.sublist_mergeSort htrans htotal h List.filter_sublist).filter p
    simpa using hsorted
  exact (hsub.eq_of_length ((List.mergeSort_perm l le).filter p).length_eq.symm).symm

namespace Scheduler

theorem filter_firings (s : Scheduler) (limit : Nat) {p : Firing → Bool}
    (h : ((s.tickFirings limit ++ s.oneShotFirings limit).filter p).Pairwise
      fun a b => a.due ≤ b.due) :
    (s.firings limit).filter p = (s.tickFirings limit ++ s.oneShotFirings limit).filter p := by
  refine filter_mergeSort (fun a b c hab hbc => ?_) (fun a b => ?_) (h.imp decide_eq_true)
  · exact decide_eq_true (Nat.le_trans (of_decide_eq_true hab) (of_decide_eq_true hbc))
  · rcases Nat.le_total a.due b.due with h | h <;> simp [h]

theorem kind_of_mem_tickFirings {s : Scheduler} {limit : Nat} {f : Firing}
    (h : f ∈ s.tickFirings limit) : f.timer.kind = .periodic := by
  obtain ⟨id, t, -, -, htimer⟩ := mem_tickFirings.mp h
  rw [htimer]
  rfl

theorem kind_of_mem_oneShotFirings {s : Scheduler} {limit : Nat} {f : Firing}
    (h : f ∈ s.oneShotFirings limit) : f.timer.kind = .onWrite := by
  obtain ⟨due, -, -, rfl⟩ := mem_oneShotFirings.mp h
  rfl

/-- On-write attempts in a stretch of time: the one that is pending, if it is due. -/
theorem firings_onWrite (s : Scheduler) (limit : Nat) :
    ((s.firings limit).filter (·.timer.kind = .onWrite)).map Firing.due =
      s.oneShot.toList.filter (· ≤ limit) := by
  have hticks : (s.tickFirings limit).filter (·.timer.kind = .onWrite) = [] :=
    List.filter_eq_nil_iff.mpr fun f hf => by simp [kind_of_mem_tickFirings hf]
  have hone : (s.oneShotFirings limit).filter (·.timer.kind = .onWrite) =
      s.oneShotFirings limit :=
    List.filter_eq_self.mpr fun f hf => by simp [kind_of_mem_oneShotFirings hf]
  have hboth : (s.tickFirings limit ++ s.oneShotFirings limit).filter
      (·.timer.kind = .onWrite) = s.oneShotFirings limit := by
    rw [List.filter_append, hticks, hone, List.nil_append]
  have hdues : (s.oneShotFirings limit).map Firing.due = s.oneShot.toList.filter (· ≤ limit) := by
    unfold oneShotFirings
    cases s.oneShot with
    | none => rfl
    | some due => by_cases h : due ≤ limit <;> simp [h]
  rw [filter_firings, hboth, hdues]
  -- at most one is pending
  rw [hboth]
  unfold oneShotFirings
  split
  · split <;> simp
  · exact .nil

theorem firings_periodic {s : Scheduler} {t : SweepTask} (h : s.tasks = [t]) (limit : Nat) :
    ((s.firings limit).filter (·.timer.kind = .periodic)).map Firing.due = t.ticks limit := by
  have hticks : (s.tickFirings limit).filter (·.timer.kind = .periodic) = s.tickFirings limit :=
    List.filter_eq_self.mpr fun f hf => by simp [kind_of_mem_tickFirings hf]
  have hone : (s.oneShotFirings limit).filter (·.timer.kind = .periodic) = [] :=
    List.filter_eq_nil_iff.mpr fun f hf => by simp [kind_of_mem_oneShotFirings hf]
  have hboth : (s.tickFirings limit ++ s.oneShotFirings limit).filter
      (·.timer.kind = .periodic) = (t.ticks limit).map (⟨·, .tick 0⟩) := by
    rw [List.filter_append, hticks, hone, List.append_nil, tickFirings_eq, h]
    simp
  rw [filter_firings, hboth, List.map_map]
  · exact List.map_id _
  · rw [hboth, List.pairwise_map]
    exact t.ticks_sorted limit

end Scheduler

end SizedCache
