import SizedCache.Proofs.BuildLaws
import SizedCache.Proofs.CallLaws
import SizedCache.Proofs.TimerLaws

/-!
# Writes ask for an attempt

Where timers run, a write that returns and leaves the cache above its target
size leaves an attempt pending, whatever it did to its key. A removal on a
condition is the exception: it does not look at the size, so it leaves pending
what was pending before it and nothing else.
-/

namespace SizedCache.Cache

variable {κ α σ : Type}

def Call.IsWrite : Call κ α → Bool
  | .put .. | .putAll _ | .putIfAbsent .. | .remove _ | .removeIfEq .. | .replace ..
  | .replaceIfEq .. | .computeIfAbsent .. | .computeIfPresent .. | .compute .. | .merge .. => true
  | _ => false

def Call.IsConditionalRemoval : Call κ α → Bool
  | .removeIfEq .. => true
  | _ => false

def Reply.IsFailure : Reply α → Bool
  | .failed _ => true
  | _ => false

theorem Call.isDirect_of_isWrite {call : Call κ α} (h : call.IsWrite) : call.IsDirect := by
  cases call with
  | forceCleanup | sleep ms | setClock now | editTracker f => cases h
  | _ => rfl

variable [DecidableEq κ] [DecidableEq α] [Expirable α]

theorem checks_of_returned {c : Cache κ α σ} {call : Call κ α} (hw : call.IsWrite)
    (hc : call.IsConditionalRemoval = false) (hr : (c.step call).1.IsFailure = false) :
    c.checks call = true := by
  -- only a closure that fails prevents the check, and then the call fails too
  have hclosure : ∀ e, c.closure? call ≠ some (.error e) := by
    intro e he
    rw [step_of_closure_error he] at hr
    cases hr
  cases call with
  | computeIfAbsent k f | computeIfPresent k f | compute k f | merge k v f =>
    simp only [checks]
  | removeIfEq k v => cases hc
  | put k v | putAll es | putIfAbsent k v | remove k | replace k v | replaceIfEq k old new => rfl
  | _ => cases hw

omit [DecidableEq κ] [DecidableEq α] [Expirable α] in
theorem checkCapacity_pending {c : Cache κ α σ} (hr : c.scheduler.runtime = true)
    (h : c.config.evictTo < c.checkCapacity.size) : c.checkCapacity.scheduler.oneShot.isSome := by
  rcases Nat.lt_or_ge c.config.evictTo c.size with hlt | hle
  · rw [checkCapacity_of_lt hlt, Scheduler.requestOneShot_fst hr]
    rfl
  · rw [checkCapacity_of_le hle] at h
    omega

-- ---------------------------------------------------------------------------
-- Timers stay on
-- ---------------------------------------------------------------------------

theorem step_frame (c : Cache κ α σ) (call : Call κ α) :
    (c.step call).2.scheduler.runtime = c.scheduler.runtime ∧ (c.step call).2.setup = c.setup := by
  have hdirect : call.IsDirect → (c.step call).2.scheduler.runtime = c.scheduler.runtime ∧
      (c.step call).2.setup = c.setup := by
    intro hd
    obtain ⟨oneShot, journal, heq⟩ := step_frame_of_direct c hd
    rw [heq]
    exact ⟨rfl, rfl⟩
  cases call with
  | forceCleanup => exact ⟨rfl, rfl⟩
  | sleep ms =>
    obtain ⟨tasks, hsched⟩ := c.sleep_scheduler ms
    refine ⟨?_, rfl⟩
    show (c.sleep ms).scheduler.runtime = _
    rw [hsched]
  | setClock now => exact ⟨rfl, rfl⟩
  | editTracker f => exact ⟨rfl, rfl⟩
  | _ => exact hdirect rfl

theorem run_frame (c : Cache κ α σ) (calls : List (Call κ α)) :
    (c.run calls).scheduler.runtime = c.scheduler.runtime ∧ (c.run calls).setup = c.setup := by
  induction calls generalizing c with
  | nil => exact ⟨rfl, rfl⟩
  | cons call calls ih =>
    obtain ⟨hruntime, hsetup⟩ := ih (c.step call).2
    obtain ⟨hruntime', hsetup'⟩ := step_frame c call
    exact ⟨hruntime.trans hruntime', hsetup.trans hsetup'⟩

-- ---------------------------------------------------------------------------
-- Requests
-- ---------------------------------------------------------------------------

def asks (c : Cache κ α σ) (call : Call κ α) : Bool :=
  c.checks call && decide (c.config.evictTo < (c.perform call).size)

def asksIn (c : Cache κ α σ) : List (Call κ α) → Bool
  | [] => false
  | call :: calls => c.asks call || (c.step call).2.asksIn calls

theorem isDirect_of_asks {c : Cache κ α σ} {call : Call κ α} (h : c.asks call = true) :
    call.IsDirect = true := by
  cases call with
  | forceCleanup | sleep ms | setClock now | editTracker f => cases h
  | _ => rfl

theorem step_oneShot_of_asks {c : Cache κ α σ} (hr : c.scheduler.runtime = true)
    {call : Call κ α} (h : c.asks call = true) :
    (c.step call).2.scheduler.oneShot =
      some (c.scheduler.oneShot.getD (c.scheduler.clock + oneShotDelay)) := by
  obtain ⟨hchecks, hover⟩ := Bool.and_eq_true_iff.mp h
  have hover : (c.perform call).config.evictTo < (c.perform call).size := of_decide_eq_true hover
  rw [step_snd c (isDirect_of_asks h), if_pos hchecks, checkCapacity_of_lt hover]
  exact congrArg Scheduler.oneShot (Scheduler.requestOneShot_fst hr)

theorem step_oneShot_of_not_asks {c : Cache κ α σ} (hnone : c.scheduler.oneShot = none)
    {call : Call κ α} (h : c.asks call = false) : (c.step call).2.scheduler.oneShot = none := by
  have hdirect : call.IsDirect → (c.step call).2.scheduler.oneShot = none := by
    intro hd
    rw [step_snd c hd]
    split
    · rename_i hchecks
      have hle : (c.perform call).size ≤ c.config.evictTo := by simpa [asks, hchecks] using h
      have hsame : (c.perform call).checkCapacity = c.perform call := checkCapacity_of_le hle
      rw [hsame]
      exact hnone
    · exact hnone
  cases call with
  | forceCleanup => exact hnone
  | sleep ms =>
    obtain ⟨tasks, hsched⟩ := c.sleep_scheduler ms
    show (c.sleep ms).scheduler.oneShot = none
    rw [hsched, hnone]
    rfl
  | setClock now => exact hnone
  | editTracker f => exact hnone
  | _ => exact hdirect rfl

theorem run_oneShot_of_not_asks {c : Cache κ α σ} (hnone : c.scheduler.oneShot = none)
    {calls : List (Call κ α)} (h : c.asksIn calls = false) :
    (c.run calls).scheduler.oneShot = none := by
  induction calls generalizing c with
  | nil => exact hnone
  | cons call calls ih =>
    obtain ⟨hcall, hcalls⟩ := Bool.or_eq_false_iff.mp h
    exact ih (step_oneShot_of_not_asks hnone hcall) hcalls

-- ---------------------------------------------------------------------------
-- The trigger
-- ---------------------------------------------------------------------------

/-- After any calls, a write that returns and leaves the cache above its target
size leaves an attempt pending. After a removal on a condition one is pending iff
one was before it, as such a removal leaves the timers alone. -/
theorem write_leaves_attempt_pending {b : Builder κ α σ} (hr : b.runtime = true) {now : Int64}
    {notes : σ} {c : Cache κ α σ} (hc : b.build now notes = .ok c) (calls : List (Call κ α)) :
    let d := c.run calls
    ∀ call : Call κ α, call.IsWrite → (d.step call).1.IsFailure = false →
      if call.IsConditionalRemoval then (d.step call).2.scheduler = d.scheduler
      else (d.step call).2.config.evictTo < (d.step call).2.size →
        (d.step call).2.scheduler.oneShot.isSome := by
  intro d call hw hok
  have hruntime : d.scheduler.runtime = true := by
    obtain ⟨hv, scheduler, events, hstart, rfl⟩ := Builder.build_ok hc
    obtain ⟨hstarted, -⟩ := Scheduler.startPeriodic_ok hstart
    exact (run_frame _ calls).1.trans (hstarted.trans hr)
  rw [step_snd d (Call.isDirect_of_isWrite hw)]
  split
  · -- a removal on a condition
    rename_i hcond
    cases call with
    | removeIfEq k v => rfl
    | _ => cases hcond
  · -- any other write checks the size
    rename_i hcond
    have hchecks := checks_of_returned hw (Bool.not_eq_true _ ▸ hcond) hok
    rw [hchecks]
    intro hover
    rw [if_pos rfl] at hover ⊢
    obtain ⟨oneShot, journal, heq⟩ := checkCapacity_frame (d.perform call)
    have hconfig : (d.perform call).checkCapacity.config = (d.perform call).config := by rw [heq]; rfl
    exact checkCapacity_pending hruntime (hconfig ▸ hover)

def roomyBuilder : Builder Nat (Timed Nat) Unit :=
  (Builder.start ⟨16, 5, 2, 0⟩ true).leastRecentlyTouched

/-- Four writes, and a sleep in which their attempt finds no more than fits. -/
def fourWrites : List (Call Nat (Timed Nat)) :=
  (List.range 4).map (fun k => .put k (.permanent k 0)) ++ [.sleep 50]

theorem write_leaves_attempt_pending_again :
    ∃ c, roomyBuilder.build 0 () = .ok c ∧ (c.run fourWrites).scheduler.oneShot = none ∧
      ((c.run fourWrites).step (.remove 0)).2.scheduler.oneShot.isSome := by
  obtain ⟨c, hc⟩ : ∃ c, roomyBuilder.build 0 () = .ok c := ⟨_, rfl⟩
  have hnone : (c.run fourWrites).scheduler.oneShot = none := by
    cases hc
    decide +kernel
  have hover : ((c.run fourWrites).step (.remove 0)).2.config.evictTo <
      ((c.run fourWrites).step (.remove 0)).2.size := by
    cases hc
    decide +kernel
  exact ⟨c, hc, hnone, write_leaves_attempt_pending (b := roomyBuilder) rfl hc fourWrites
    (.remove 0) rfl rfl hover⟩

/-- A removal on a condition can leave three entries where two are the target,
with nothing pending. -/
theorem conditional_removal_leaves_nothing_pending :
    ∃ c, roomyBuilder.build 0 () = .ok c ∧
      let (reply, d) := (c.run fourWrites).step (.removeIfEq 0 (.permanent 0 0))
      reply.IsFailure = false ∧ d.config.evictTo < d.size ∧ d.size = 3 ∧
        d.scheduler.oneShot = none := by
  refine ⟨_, rfl, ?_⟩
  decide +kernel

end SizedCache.Cache
