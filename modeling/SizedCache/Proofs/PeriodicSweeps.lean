import SizedCache.Proofs.SharedRuns

/-!
# Periodic sweeps keep their schedule

With a sweep every `p` seconds there is an attempt at every multiple of `p` seconds
on the timers' clock, and no other. However the time is divided into sleeps, what
is called in between, and however the attempts end, none is left out or late, and
the next one is due.
-/

namespace SizedCache

namespace SweepTask

variable {t : SweepTask}

theorem tickCount_of_fresh (hnext : t.next = t.period) (hperiod : 0 < t.period) (limit : Nat) :
    t.tickCount limit = limit / t.period := by
  rw [tickCount, hnext]
  split
  · rename_i hlt
    exact (Nat.div_eq_of_lt hlt).symm
  · rename_i hle
    exact (Nat.div_eq_sub_div hperiod (Nat.not_lt.mp hle)).symm

theorem ticks_of_fresh (hended : t.ended = false) (hnext : t.next = t.period)
    (hperiod : 0 < t.period) (limit : Nat) :
    t.ticks limit = (List.range (limit / t.period)).map fun j => (j + 1) * t.period := by
  rw [ticks_eq hended, tickCount_of_fresh hnext hperiod, hnext]
  apply List.map_congr_left
  intro j _
  rw [Nat.add_mul, Nat.one_mul, Nat.mul_comm, Nat.add_comm]

end SweepTask

namespace Cache

variable {κ α σ : Type} [DecidableEq κ] [DecidableEq α] [Expirable α]

theorem takeTurn_ticks {c : Cache κ α σ} {t : SweepTask} (hperiod : 0 < t.period)
    (htasks : c.scheduler.tasks = [t.after c.scheduler.clock]) (x : Turn κ α σ) :
    (c.takeTurn x).scheduler.tasks = [t.after (c.takeTurn x).scheduler.clock] ∧
      t.ticks (c.takeTurn x).scheduler.clock =
        t.ticks c.scheduler.clock ++ dues .periodic (c.attemptsAt x) := by
  have hclock := c.takeTurn_clock x
  rcases c.takeTurn_cases x with ⟨ms, rfl⟩ | ⟨-, hslept, hnone, h⟩
  · have hle : c.scheduler.clock ≤ c.scheduler.clock + ms := Nat.le_add_right ..
    have hlimit : (c.takeTurn (.call (.sleep ms))).scheduler.clock = c.scheduler.clock + ms := hclock
    have hdues : dues .periodic (c.attemptsAt (.call (.sleep ms))) =
        (t.after c.scheduler.clock).ticks (c.scheduler.clock + ms) :=
      (Core.dues_attemptLog ..).trans (Scheduler.firings_periodic htasks _)
    rw [hlimit, hdues]
    refine ⟨?_, SweepTask.ticks_append hperiod hle⟩
    refine (congrArg Scheduler.tasks (c.sleep_scheduler_eq ms)).trans ?_
    rw [Scheduler.elapse, htasks, List.map_singleton, SweepTask.after_after hperiod hle]
  · -- no time passes, and a request leaves the tasks alone
    rw [hclock, hslept, hnone, Nat.add_zero]
    refine ⟨?_, (List.append_nil _).symm⟩
    split at h
    · rw [h.1, (requestOneShot_frame c.scheduler).2.1, htasks]
    · rw [h.1, htasks]

theorem takeTurns_ticks {c : Cache κ α σ} {t : SweepTask} (hperiod : 0 < t.period)
    (htasks : c.scheduler.tasks = [t.after c.scheduler.clock]) (turns : List (Turn κ α σ)) :
    (c.takeTurns turns).scheduler.tasks = [t.after (c.takeTurns turns).scheduler.clock] ∧
      t.ticks (c.takeTurns turns).scheduler.clock =
        t.ticks c.scheduler.clock ++ dues .periodic (c.attemptsIn turns) := by
  induction turns generalizing c with
  | nil => exact ⟨htasks, (List.append_nil _).symm⟩
  | cons x turns ih =>
    obtain ⟨htasks', hticks⟩ := takeTurn_ticks hperiod htasks x
    obtain ⟨hend, hrest⟩ := ih htasks'
    refine ⟨hend, hrest.trans ?_⟩
    rw [hticks, attemptsIn, dues_append, List.append_assoc]

omit [DecidableEq κ] [DecidableEq α] [Expirable α] in
theorem built_sweep {b : Builder κ α σ} (hp : 0 < b.config.sweepSecs) {now : Int64} {notes : σ}
    {c : Cache κ α σ} (hc : b.build now notes = .ok c) :
    ∃ t : SweepTask, t.period = 1000 * b.config.sweepSecs ∧ t.next = t.period ∧
      (t.ended = true → 2 ^ 63 ≤ b.config.sweepSecs) ∧ c.scheduler.clock = 0 ∧
      c.scheduler.tasks = [t.after c.scheduler.clock] ∧ t.ticks c.scheduler.clock = [] := by
  obtain ⟨hv, scheduler, events, hstart, rfl⟩ := Builder.build_ok hc
  obtain ⟨-, hclock, -, -⟩ := Scheduler.startPeriodic_ok hstart
  obtain ⟨t, htasks, hperiod, hnext, hended⟩ := Scheduler.startPeriodic_tasks hstart hp
  have hlater : scheduler.clock < t.next := by omega
  refine ⟨t, by omega, by omega, hended, hclock, ?_, by simp [SweepTask.ticks, hlater]⟩
  rw [SweepTask.after_of_lt hlater]
  exact htasks

/-- After any turns there was a periodic attempt at every multiple of the period up
to the time slept, and no other. Each is in the journal, with its end: it ran, it
was skipped, or it failed. The task goes on, due at the next multiple. (A clock of
signed 64-bit seconds ends before a period of 2^63 seconds does, and the task of
such a period ends as it starts.) -/
theorem ticks_keep_schedule {b : Builder κ α σ} (hp : 0 < b.config.sweepSecs) {now : Int64}
    {notes : σ} {c : Cache κ α σ} (hc : b.build now notes = .ok c) (turns : List (Turn κ α σ))
    (hroom : b.config.sweepSecs < 2 ^ 63 ∨ slept turns < 1000 * 2 ^ 63) :
    let d := c.takeTurns turns
    let p := 1000 * b.config.sweepSecs
    let made := (c.attemptsIn turns).filter (·.trigger = .periodic)
    made.map LoggedAttempt.due = (List.range (slept turns / p)).map (fun j => (j + 1) * p) ∧
      d.core.journal.filter (·.trigger? = some .periodic) = made.map LoggedAttempt.event ∧
      (∀ a ∈ made, (∃ report, a.result = .ok (.completed report)) ∨ a.result = .ok .skipped ∨
        (∃ e, a.result = .error e) ∧ Event.failed .periodic ∈ d.core.journal) ∧
      (b.config.sweepSecs < 2 ^ 63 →
        d.scheduler.tasks = [⟨p, (slept turns / p + 1) * p, false⟩]) := by
  intro d p made
  obtain ⟨t, hperiod, hnext, hended, hclock, htasks, hnone⟩ := built_sweep hp hc
  have hpos : 0 < t.period := by omega
  have hend : d.scheduler.clock = slept turns := by
    rw [takeTurns_clock, hclock, Nat.zero_add]
  obtain ⟨halive, hticks⟩ := takeTurns_ticks hpos htasks turns
  rw [hend] at halive hticks
  rw [hnone, List.nil_append] at hticks
  have hjournal := journal_of_trigger hc turns .periodic
  refine ⟨?_, hjournal, fun a ha => ?_, fun hshort => ?_⟩
  · refine Eq.trans hticks.symm ?_
    cases hlive : t.ended with
    | false => rw [SweepTask.ticks_of_fresh hlive hnext hpos, hperiod]
    | true =>
      -- the period is too long for any tick
      have hlong := hended hlive
      have hshort : slept turns < p := by omega
      simp [SweepTask.ticks, hlive, Nat.div_eq_of_lt hshort]
  · rcases hresult : a.result with e | (report | _)
    · refine .inr (.inr ⟨⟨e, rfl⟩, ?_⟩)
      have htrigger : a.trigger = .periodic := of_decide_eq_true (List.mem_filter.mp ha).2
      have hlogged : a.event ∈ d.core.journal.filter (·.trigger? = some .periodic) :=
        hjournal ▸ List.mem_map_of_mem ha
      have hevent : a.event = .failed .periodic := by
        rw [LoggedAttempt.event, hresult, htrigger]
        rfl
      exact hevent ▸ (List.mem_filter.mp hlogged).1
    · exact .inl ⟨report, rfl⟩
    · exact .inr (.inl rfl)
  · have hlive : t.ended = false := by
      by_contra hne
      exact Nat.not_le.mpr hshort (hended (Bool.not_eq_false _ ▸ hne))
    have hlast : p + p * (slept turns / p) = (slept turns / p + 1) * p := by
      rw [Nat.add_mul, Nat.one_mul, Nat.add_comm, Nat.mul_comm p]
    refine halive.trans ?_
    rw [SweepTask.after_eq hlive, SweepTask.tickCount_of_fresh hnext hpos, hnext, hperiod, hlast,
      hlive]

def moodyBuilder : Builder Nat (Timed Nat) Nat :=
  (Builder.start ⟨16, 3, 1, 1⟩ true).removalTest fun met _ _ _ =>
    if met % 2 = 0 then .fail ⟨"policy failure"⟩ (met + 1) else .keep (met + 1)

/-- The wall clock goes back before the first tick; another thread holds the slot
at the second and the third. -/
def disturbedTurns : List (Turn Nat (Timed Nat) Nat) :=
  [.call (.put 0 (.permanent 7 0)), .call (.sleep 700), .call (.setClock (-5)),
    .call (.sleep 300), .others fun core => { core with slot := ⟨some .caller⟩ },
    .call (.sleep 1500), .call (.sleep 1000), .others fun core => { core with slot := {} },
    .call (.sleep 500)]

theorem ticks_keep_schedule_disturbed :
    ∃ c, moodyBuilder.build 0 0 = .ok c ∧
      ((c.attemptsIn disturbedTurns).filter (·.trigger = .periodic)).map LoggedAttempt.due =
        [1000, 2000, 3000, 4000] ∧
      (c.takeTurns disturbedTurns).core.journal.filter (·.trigger? = some .periodic) =
        [.failed .periodic, .skipped .periodic, .skipped .periodic,
          .nothingToRemove .periodic 1] ∧
      (c.takeTurns disturbedTurns).scheduler.tasks = [⟨1000, 5000, false⟩] := by
  obtain ⟨c, hc⟩ : ∃ c, moodyBuilder.build 0 0 = .ok c := ⟨_, rfl⟩
  obtain ⟨hdues, -, -, hnext⟩ :=
    ticks_keep_schedule (b := moodyBuilder) (by decide) hc disturbedTurns (.inl (by decide))
  refine ⟨c, hc, hdues, ?_, hnext (by decide)⟩
  cases hc
  decide +kernel

end Cache

end SizedCache
