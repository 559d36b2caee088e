import SizedCache.Proofs.AttemptLog

/-!
# Runs among other threads

A run of a cache in which other threads may do anything to its core between two
calls: they write and remove, and they hold the slot while time passes, so that
attempts are skipped. Still a turn can do three things to the timers: ask for an
attempt, let time pass, or leave them alone.
-/

namespace SizedCache

def Scheduler.elapse (s : Scheduler) (ms : Nat) : Scheduler :=
  { s with
    clock := s.clock + ms
    tasks := s.tasks.map (·.after (s.clock + ms))
    oneShot := s.oneShot.filter fun due => decide (s.clock + ms < due) }

namespace Cache

section Calls

variable {κ α σ : Type} [DecidableEq κ]

theorem sleep_scheduler_eq (c : Cache κ α σ) (ms : Nat) :
    (c.sleep ms).scheduler = c.scheduler.elapse ms := by
  obtain ⟨tasks, hsched⟩ := c.sleep_scheduler ms
  have htasks := c.sleep_tasks ms
  rw [hsched] at htasks
  rw [hsched, Scheduler.elapse, ← htasks]

variable [DecidableEq α] [Expirable α]

theorem step_of_direct (c : Cache κ α σ) {call : Call κ α} (h : call.IsDirect) :
    (c.step call).2 =
      if c.asks call then
        { c.perform call with
          scheduler := c.scheduler.requestOneShot.1
          core := { (c.perform call).core with
            journal := c.core.journal ++ c.scheduler.requestOneShot.2 } }
      else c.perform call := by
  have hjournal : (c.perform call).core.journal = c.core.journal := (Core.actAll_frame ..).2.2.2
  rw [step_snd c h, asks]
  cases c.checks call with
  | false => rfl
  | true =>
    rcases Nat.lt_or_ge c.config.evictTo (c.perform call).size with hover | hwithin
    · have hcheck : (c.perform call).checkCapacity = _ := checkCapacity_of_lt hover
      simp only [hover, decide_true, Bool.and_true, if_true, hcheck, hjournal]
      rfl
    · have hcheck : (c.perform call).checkCapacity = _ := checkCapacity_of_le hwithin
      simp only [Nat.not_lt.mpr hwithin, decide_false, Bool.and_false, if_true, hcheck,
        Bool.false_eq_true, if_false]

end Calls

-- ---------------------------------------------------------------------------
-- Turns
-- ---------------------------------------------------------------------------

inductive Turn (κ α σ : Type) where
  | call (call : Call κ α)
  /-- What other threads do to the core before the next call, passes that they are
  in the middle of included. What they log is left out. -/
  | others (change : Core κ α σ → Core κ α σ)

variable {κ α σ : Type}

def Turn.slept : Turn κ α σ → Nat
  | .call (.sleep ms) => ms
  | _ => 0

def slept : List (Turn κ α σ) → Nat
  | [] => 0
  | t :: turns => t.slept + slept turns

variable [DecidableEq κ] [DecidableEq α] [Expirable α]

def takeTurn (c : Cache κ α σ) : Turn κ α σ → Cache κ α σ
  | .call call => (c.step call).2
  | .others change => { c with core := { change c.core with journal := c.core.journal } }

def takeTurns (c : Cache κ α σ) (turns : List (Turn κ α σ)) : Cache κ α σ := turns.foldl takeTurn c

def asksAt (c : Cache κ α σ) : Turn κ α σ → Bool
  | .call call => c.asks call
  | .others _ => false

omit [DecidableEq α] [Expirable α] in
def attemptsAt (c : Cache κ α σ) : Turn κ α σ → List LoggedAttempt
  | .call (.sleep ms) => c.core.attemptLog c.setup c.wallAt (c.firingsIn ms)
  | _ => []

def attemptsIn (c : Cache κ α σ) : List (Turn κ α σ) → List LoggedAttempt
  | [] => []
  | t :: turns => c.attemptsAt t ++ (c.takeTurn t).attemptsIn turns

/-- A turn that does not sleep makes no background attempt and leaves the timers
alone, unless it asks for an attempt. -/
theorem takeTurn_cases (c : Cache κ α σ) (t : Turn κ α σ) :
    (∃ ms, t = .call (.sleep ms)) ∨
    (∀ ms, t ≠ .call (.sleep ms)) ∧ t.slept = 0 ∧ c.attemptsAt t = [] ∧
      if c.asksAt t then
        (c.takeTurn t).scheduler = c.scheduler.requestOneShot.1 ∧
          (c.takeTurn t).core.journal = c.core.journal ++ c.scheduler.requestOneShot.2
      else (c.takeTurn t).scheduler = c.scheduler ∧
        ∃ events, (c.takeTurn t).core.journal = c.core.journal ++ events ∧
          ∀ e ∈ events, e.IsOfPass = true := by
  have hdirect : ∀ call : Call κ α, call.IsDirect →
      if c.asksAt (.call call : Turn κ α σ) then
        (c.step call).2.scheduler = c.scheduler.requestOneShot.1 ∧
          (c.step call).2.core.journal = c.core.journal ++ c.scheduler.requestOneShot.2
      else (c.step call).2.scheduler = c.scheduler ∧
        ∃ events, (c.step call).2.core.journal = c.core.journal ++ events ∧
          ∀ e ∈ events, e.IsOfPass = true := by
    intro call hd
    show if c.asks call = true then _ else _
    rw [c.step_of_direct hd]
    split
    · exact ⟨rfl, rfl⟩
    · have hjournal : (c.perform call).core.journal = c.core.journal := (Core.actAll_frame ..).2.2.2
      exact ⟨rfl, [], by rw [hjournal, List.append_nil], by simp⟩
  cases t with
  | others change => exact .inr ⟨nofun, rfl, rfl, rfl, [], (List.append_nil _).symm, by simp⟩
  | call call =>
    cases call with
    | sleep ms => exact .inl ⟨ms, rfl⟩
    | forceCleanup =>
      exact .inr ⟨nofun, rfl, rfl, rfl, Core.attempt_journal c.setup .caller c.now c.core⟩
    | setClock now | editTracker f =>
      exact .inr ⟨nofun, rfl, rfl, rfl, [], (List.append_nil _).symm, by simp⟩
    | _ => exact .inr ⟨nofun, rfl, rfl, hdirect _ rfl⟩

theorem requestOneShot_frame (s : Scheduler) :
    s.requestOneShot.1.clock = s.clock ∧ s.requestOneShot.1.tasks = s.tasks ∧
      s.requestOneShot.1.runtime = s.runtime := by
  unfold Scheduler.requestOneShot
  split
  · split <;> exact ⟨rfl, rfl, rfl⟩
  · exact ⟨rfl, rfl, rfl⟩

theorem takeTurn_clock (c : Cache κ α σ) (t : Turn κ α σ) :
    (c.takeTurn t).scheduler.clock = c.scheduler.clock + t.slept := by
  rcases c.takeTurn_cases t with ⟨ms, rfl⟩ | ⟨-, hslept, -, h⟩
  · exact congrArg Scheduler.clock (c.sleep_scheduler_eq ms)
  · rw [hslept]
    split at h
    · rw [h.1, (requestOneShot_frame c.scheduler).1]
      rfl
    · rw [h.1]
      rfl

theorem takeTurns_clock (c : Cache κ α σ) (turns : List (Turn κ α σ)) :
    (c.takeTurns turns).scheduler.clock = c.scheduler.clock + slept turns := by
  induction turns generalizing c with
  | nil => rfl
  | cons t turns ih =>
    refine (ih (c.takeTurn t)).trans ?_
    rw [takeTurn_clock, slept, Nat.add_assoc]

-- ---------------------------------------------------------------------------
-- The journal
-- ---------------------------------------------------------------------------

theorem takeTurn_journal (c : Cache κ α σ) (t : Turn κ α σ) :
    (c.takeTurn t).core.journal.filter (·.trigger?.isSome) =
      c.core.journal.filter (·.trigger?.isSome) ++
        (c.attemptsAt t).map LoggedAttempt.event := by
  have hpass : ∀ events : List Event, (∀ e ∈ events, e.IsOfPass = true) →
      events.filter (·.trigger?.isSome) = [] := fun events h =>
    List.filter_eq_nil_iff.mpr fun e he => by simp [Event.trigger?_of_isOfPass (h e he)]
  rcases c.takeTurn_cases t with ⟨ms, rfl⟩ | ⟨-, -, hnone, h⟩
  · have htold : ((c.attemptsAt (.call (.sleep ms))).map LoggedAttempt.event).filter
        (·.trigger?.isSome) = (c.attemptsAt (.call (.sleep ms))).map LoggedAttempt.event := by
      refine List.filter_eq_self.mpr fun e he => ?_
      obtain ⟨a, -, rfl⟩ := List.mem_map.mp he
      simp [LoggedAttempt.event, Event.trigger?_ofAttempt]
    have hjournal := Core.attempts_journal c.setup c.wallAt (c.firingsIn ms) c.core
      (p := (·.trigger?.isSome)) fun e he => by simp [Event.trigger?_of_isOfPass he]
    rw [← htold]
    exact (congrArg (fun x : Core κ α σ => x.journal.filter _) (sleep_attempts rfl ms)).trans hjournal
  · rw [hnone, List.map_nil, List.append_nil]
    split at h
    · have hrequest : c.scheduler.requestOneShot.2.filter (·.trigger?.isSome) = [] := by
        unfold Scheduler.requestOneShot
        split
        · split <;> rfl
        · rfl
      rw [h.2, List.filter_append, hrequest, List.append_nil]
    · obtain ⟨-, events, hjournal, hof⟩ := h
      rw [hjournal, List.filter_append, hpass events hof, List.append_nil]

/-- The journal tells the end of every background attempt of a run, in order. -/
theorem takeTurns_journal (c : Cache κ α σ) (turns : List (Turn κ α σ)) :
    (c.takeTurns turns).core.journal.filter (·.trigger?.isSome) =
      c.core.journal.filter (·.trigger?.isSome) ++
        (c.attemptsIn turns).map LoggedAttempt.event := by
  induction turns generalizing c with
  | nil => exact (List.append_nil _).symm
  | cons t turns ih =>
    refine (ih (c.takeTurn t)).trans ?_
    rw [takeTurn_journal, attemptsIn, List.map_append, List.append_assoc]

omit [DecidableEq κ] [DecidableEq α] [Expirable α] in
theorem built_journal {b : Builder κ α σ} {now : Int64} {notes : σ} {c : Cache κ α σ}
    (hc : b.build now notes = .ok c) : c.core.journal.filter (·.trigger?.isSome) = [] := by
  obtain ⟨hv, scheduler, events, hstart, rfl⟩ := Builder.build_ok hc
  obtain ⟨-, -, -, hevents⟩ := Scheduler.startPeriodic_ok hstart
  refine List.filter_eq_nil_iff.mpr fun e he => ?_
  rcases List.mem_cons.mp he with rfl | he
  · simp [Event.trigger?]
  · simp [hevents e he, Event.trigger?]

theorem journal_of_trigger {b : Builder κ α σ} {now : Int64} {notes : σ} {c : Cache κ α σ}
    (hc : b.build now notes = .ok c) (turns : List (Turn κ α σ)) (t : Trigger) :
    (c.takeTurns turns).core.journal.filter (·.trigger? = some t) =
      ((c.attemptsIn turns).filter (·.trigger = t)).map LoggedAttempt.event := by
  have hjournal := congrArg (List.filter (·.trigger? = some t)) (c.takeTurns_journal turns)
  rw [built_journal hc, List.nil_append, List.filter_filter, List.filter_map] at hjournal
  calc
    _ = (c.takeTurns turns).core.journal.filter
        fun e => decide (e.trigger? = some t) && e.trigger?.isSome :=
      List.filter_congr fun e _ => by cases h : e.trigger? <;> simp
    _ = _ := hjournal
    _ = _ := by simp [Function.comp_def, LoggedAttempt.event, Event.trigger?_ofAttempt]

end Cache

end SizedCache
