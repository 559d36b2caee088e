import SizedCache.Cache.Builder

/-!
# Laws of building

A built cache is empty and has what its builder ended with: the limits, the
test, the selector and the tracker that came with the selector chosen last. No
attempt is pending.
-/

namespace SizedCache

theorem Scheduler.startPeriodic_ok {runtime : Bool} {secs : Nat} {s : Scheduler}
    {events : List Event}
    (h : ({ runtime } : Scheduler).startPeriodic secs = .ok (s, events)) :
    s.runtime = runtime ∧ s.clock = 0 ∧ s.oneShot = none ∧
      ∀ e ∈ events, e = .sweepsStarted secs := by
  unfold startPeriodic at h
  split at h
  · cases h
    exact ⟨rfl, rfl, rfl, by simp⟩
  · split at h
    · cases h
      exact ⟨rfl, rfl, rfl, by simp⟩
    · cases h

theorem Scheduler.startPeriodic_eq_error_iff {runtime : Bool} {secs : Nat} {e : CacheError} :
    ({ runtime } : Scheduler).startPeriodic secs = .error e ↔
      e = .missingRuntime ∧ secs ≠ 0 ∧ runtime = false := by
  unfold startPeriodic
  by_cases hsecs : secs = 0
  · simp [hsecs]
  · cases runtime <;> simp [hsecs, eq_comm]

theorem Scheduler.startPeriodic_tasks {runtime : Bool} {secs : Nat} {s : Scheduler}
    {events : List Event}
    (h : ({ runtime } : Scheduler).startPeriodic secs = .ok (s, events)) (hsecs : 0 < secs) :
    ∃ t : SweepTask, s.tasks = [t] ∧ t.period = secs * 1000 ∧ t.next = secs * 1000 ∧
      (t.ended = true → UInt64.size / 2 ≤ secs) := by
  unfold startPeriodic at h
  split at h
  · omega
  · split at h
    · cases h
      refine ⟨_, rfl, rfl, Nat.zero_add _, fun hended => ?_⟩
      rcases of_decide_eq_true hended with hzero | hlong
      · omega
      · exact hlong
    · cases h

namespace Builder

variable {κ α σ : Type}

theorem build_ok {b : Builder κ α σ} {now : Int64} {notes : σ} {c : Cache κ α σ}
    (h : b.build now notes = .ok c) :
    ∃ hv scheduler events,
      ({ runtime := b.runtime } : Scheduler).startPeriodic b.config.sweepSecs =
        .ok (scheduler, events) ∧
      c = {
        setup := ⟨b.config, hv, b.test, b.selector, b.walk⟩
        core := { tracker := b.tracker, notes, journal := .created b.config :: events }
        scheduler
        now } := by
  unfold build at h
  split at h
  · cases h
  · rename_i hfault
    split at h
    · cases h
    · rename_i scheduler events hstart
      exact ⟨Config.fault?_eq_none_iff.mp hfault, scheduler, events, hstart, (Except.ok.inj h).symm⟩

/-- Limits are looked at before timers are. -/
theorem build_eq_error_iff {b : Builder κ α σ} {now : Int64} {notes : σ} {e : CacheError} :
    b.build now notes = .error e ↔
      (∃ fault, b.config.fault? = some fault ∧ e = .invalidConfig fault.message) ∨
      (b.config.Valid ∧ e = .missingRuntime ∧ b.config.sweepSecs ≠ 0 ∧ b.runtime = false) := by
  rw [← Scheduler.startPeriodic_eq_error_iff, ← Config.fault?_eq_none_iff]
  unfold build
  split
  · rename_i fault hfault
    simp [hfault, eq_comm]
  · rename_i hfault
    split
    · rename_i e' hstart
      simp [hfault, hstart]
    · rename_i hstart
      simp [hfault, hstart]

-- ---------------------------------------------------------------------------
-- Builder calls
-- ---------------------------------------------------------------------------

/-- The calls of a builder. A test and a selector override those before them. -/
inductive Call (κ α σ : Type) where
  | removalTest (test : RemovalTest κ α σ)
  | victimSelector (selector : Selector κ α σ) (tracker : Option (Recency κ))
  | leastRecentlyTouched
  | onRuntime

def Call.ChoosesSelector : Call κ α σ → Prop
  | .victimSelector .. | .leastRecentlyTouched => True
  | .removalTest _ | .onRuntime => False

def apply (b : Builder κ α σ) : Call κ α σ → Builder κ α σ
  | .removalTest test => b.removalTest test
  | .victimSelector selector tracker => b.victimSelector selector tracker
  | .leastRecentlyTouched => b.leastRecentlyTouched
  | .onRuntime => b.onRuntime

def applyAll (b : Builder κ α σ) (calls : List (Call κ α σ)) : Builder κ α σ :=
  calls.foldl apply b

theorem applyAll_append (b : Builder κ α σ) (xs ys : List (Call κ α σ)) :
    b.applyAll (xs ++ ys) = (b.applyAll xs).applyAll ys :=
  List.foldl_append

theorem applyAll_config (b : Builder κ α σ) (calls : List (Call κ α σ)) :
    (b.applyAll calls).config = b.config := by
  induction calls generalizing b with
  | nil => rfl
  | cons call calls ih => exact (ih (b.apply call)).trans (by cases call <;> rfl)

theorem applyAll_selector {calls : List (Call κ α σ)} (b : Builder κ α σ)
    (h : ∀ call ∈ calls, ¬ call.ChoosesSelector) :
    (b.applyAll calls).selector = b.selector ∧ (b.applyAll calls).tracker = b.tracker := by
  induction calls generalizing b with
  | nil => exact ⟨rfl, rfl⟩
  | cons call calls ih =>
    have hrest := ih (b.apply call) fun x hx => h x (List.mem_cons_of_mem _ hx)
    have hcall : ¬ call.ChoosesSelector := h call (by simp)
    cases call with
    | removalTest test => exact hrest
    | victimSelector selector tracker => exact absurd trivial hcall
    | leastRecentlyTouched => exact absurd trivial hcall
    | onRuntime => exact hrest

theorem applyAll_leastRecentlyTouched (b : Builder κ α σ) (before after : List (Call κ α σ))
    (h : ∀ call ∈ after, ¬ call.ChoosesSelector) :
    (b.applyAll (before ++ .leastRecentlyTouched :: after)).selector = .leastRecent ∧
      (b.applyAll (before ++ .leastRecentlyTouched :: after)).tracker = some {} := by
  rw [applyAll_append]
  exact applyAll_selector _ h

end Builder

end SizedCache
