import SizedCache.Proofs.SharedRuns

/-!
# Requests for an attempt are folded together

Callers set a flag and start a timer, and the timer clears the flag when it goes
off. The two are set and cleared apart, yet at the end of every turn the flag is set
iff one timer is outstanding, and none otherwise. So a flag cannot stay behind and
switch the trigger off, attempts keep their distance, and none is asked for in vain.
-/

namespace SizedCache

-- ---------------------------------------------------------------------------
-- The flag and the timers
-- ---------------------------------------------------------------------------

/-- The flag of a pending attempt and the timers, kept apart. -/
structure Alarm where
  flag : Bool := false
  timers : List Nat := []
  /-- The times of the requests that found the flag clear. -/
  asked : List Nat := []
  gone : List Nat := []
deriving DecidableEq, Repr

namespace Alarm

def request (a : Alarm) (clock : Nat) : Alarm :=
  if a.flag then a
  else { a with
    flag := true
    timers := a.timers ++ [clock + oneShotDelay]
    asked := a.asked ++ [clock] }

@[simp] theorem request_gone (a : Alarm) (clock : Nat) : (a.request clock).gone = a.gone := by
  unfold request
  split <;> rfl

def goOff (a : Alarm) (due : Nat) : Alarm :=
  { a with flag := false, timers := a.timers.erase due, gone := a.gone ++ [due] }

def elapse (a : Alarm) (limit : Nat) : Alarm :=
  (a.timers.filter fun due => due ≤ limit).foldl goOff a

structure Tracks (a : Alarm) (s : Scheduler) : Prop where
  flag : a.flag = s.oneShot.isSome
  timers : a.timers = s.oneShot.toList
  ahead : ∀ due ∈ a.timers, s.clock < due ∧ due ≤ s.clock + oneShotDelay
  past : ∀ due ∈ a.gone, due ≤ s.clock
  kept : a.asked.map (· + oneShotDelay) = a.gone ++ a.timers
  apart : (a.gone ++ a.timers).Pairwise (· + oneShotDelay ≤ ·)

namespace Tracks

variable {a : Alarm} {s : Scheduler}

theorem flag_iff (h : a.Tracks s) : a.flag = true ↔ a.timers.length = 1 := by
  rw [h.flag, h.timers]
  cases s.oneShot <;> simp

theorem timers_eq_nil_iff (h : a.Tracks s) : a.flag = false ↔ a.timers = [] := by
  rw [h.flag, h.timers]
  cases s.oneShot <;> simp

theorem flag_of_mem (h : a.Tracks s) {due : Nat} (hdue : due ∈ a.timers) : a.flag = true := by
  by_contra hclear
  rw [h.timers_eq_nil_iff.mp (Bool.not_eq_true _ ▸ hclear)] at hdue
  cases hdue

theorem empty (h : s.oneShot = none) : Tracks {} s where
  flag := by rw [h]; rfl
  timers := by rw [h]; rfl
  ahead := by simp
  past := by simp
  kept := rfl
  apart := .nil

theorem request (h : a.Tracks s) (hr : s.runtime = true) :
    (a.request s.clock).Tracks s.requestOneShot.1 := by
  rw [Scheduler.requestOneShot_fst hr]
  cases hs : s.oneShot with
  | some due =>
    -- the request is folded into the one before it
    have hset : a.flag = true := by rw [h.flag, hs]; rfl
    have hsame : { s with oneShot := some ((some due).getD (s.clock + oneShotDelay)) } = s := by
      rw [Option.getD_some, ← hs]
    rw [Alarm.request, if_pos hset, hsame]
    exact h
  | none =>
    have hclear : ¬ a.flag = true := by rw [h.flag, hs]; simp
    have hnone : a.timers = [] := by rw [h.timers, hs]; rfl
    have hkept : a.asked.map (· + oneShotDelay) = a.gone := by
      rw [h.kept, hnone, List.append_nil]
    rw [Alarm.request, if_neg hclear, hnone]
    refine ⟨rfl, rfl, ?_, h.past, ?_, ?_⟩
    · intro due hdue
      rw [List.mem_singleton.mp hdue]
      exact ⟨Nat.lt_add_of_pos_right (by decide), Nat.le_refl _⟩
    · rw [List.map_append, hkept]
      rfl
    · have hgone := h.apart
      rw [hnone, List.append_nil] at hgone
      refine List.pairwise_append.mpr ⟨hgone, List.pairwise_singleton .., fun x hx y hy => ?_⟩
      rw [List.mem_singleton.mp hy]
      exact Nat.add_le_add_right (h.past x hx) _

theorem request_asked (h : a.Tracks s) (hr : s.runtime = true) :
    a.asked.length + s.requestOneShot.2.count .scheduled = (a.request s.clock).asked.length := by
  cases hs : s.oneShot <;> simp [Alarm.request, Scheduler.requestOneShot, h.flag, hs, hr]

theorem wait (h : a.Tracks s) {ms : Nat} (hlater : ∀ due ∈ a.timers, s.clock + ms < due) :
    a.Tracks (s.elapse ms) := by
  have hsame : (s.elapse ms).oneShot = s.oneShot := by
    rw [h.timers] at hlater
    cases hs : s.oneShot with
    | none => simp [Scheduler.elapse, hs]
    | some due => simpa [Scheduler.elapse, hs] using hlater
  refine ⟨hsame ▸ h.flag, hsame ▸ h.timers, fun due hdue => ⟨hlater due hdue, ?_⟩,
    fun due hdue => ?_, h.kept, h.apart⟩
  · show due ≤ s.clock + ms + oneShotDelay
    have := (h.ahead due hdue).2
    omega
  · exact Nat.le_trans (h.past due hdue) (Nat.le_add_right ..)

theorem goOff (h : a.Tracks s) {due ms : Nat} (hone : a.timers = [due])
    (hle : due ≤ s.clock + ms) : (a.goOff due).Tracks (s.elapse ms) := by
  have hnone : (s.elapse ms).oneShot = none := by
    rw [Scheduler.elapse, Option.filter_eq_none_iff]
    intro x hx
    have hmem : x ∈ a.timers := by rw [h.timers, hx]; simp
    rw [hone, List.mem_singleton] at hmem
    simpa [hmem] using hle
  have hempty : (a.goOff due).timers = [] := by simp [Alarm.goOff, hone]
  have hsame : (a.goOff due).gone ++ (a.goOff due).timers = a.gone ++ a.timers := by
    rw [hempty, hone, List.append_nil]
    rfl
  refine ⟨by rw [hnone]; rfl, by rw [hnone, hempty]; rfl, by simp [hempty], fun x hx => ?_,
    hsame ▸ h.kept, hsame ▸ h.apart⟩
  rcases List.mem_append.mp hx with hx | hx
  · exact Nat.le_trans (h.past x hx) (Nat.le_add_right ..)
  · exact List.mem_singleton.mp hx ▸ hle

/-- A stretch of time clears the flag iff the timer goes off in it. -/
theorem elapse (h : a.Tracks s) (ms : Nat) :
    (a.elapse (s.clock + ms)).Tracks (s.elapse ms) ∧
      (a.elapse (s.clock + ms)).asked = a.asked ∧
      (a.elapse (s.clock + ms)).gone =
        a.gone ++ s.oneShot.toList.filter fun due => due ≤ s.clock + ms := by
  rw [← h.timers]
  by_cases hlater : ∀ due ∈ a.timers, s.clock + ms < due
  · have hnone : a.timers.filter (fun due => due ≤ s.clock + ms) = [] :=
      List.filter_eq_nil_iff.mpr fun due hdue => by simpa using hlater due hdue
    rw [Alarm.elapse, hnone]
    exact ⟨h.wait hlater, rfl, (List.append_nil _).symm⟩
  · obtain ⟨due, hdue, hle⟩ : ∃ due ∈ a.timers, due ≤ s.clock + ms := by simpa using hlater
    obtain ⟨x, hone⟩ := List.length_eq_one_iff.mp (h.flag_iff.mp (h.flag_of_mem hdue))
    rw [hone, List.mem_singleton] at hdue
    subst hdue
    have hall : a.timers.filter (fun x => x ≤ s.clock + ms) = [due] := by simp [hone, hle]
    rw [Alarm.elapse, hall]
    exact ⟨h.goOff hone hle, rfl, rfl⟩

/-- The requests that found the flag clear tell which timers went off: those whose
time is over. -/
theorem gone_eq (h : a.Tracks s) :
    a.gone = (a.asked.map (· + oneShotDelay)).filter (fun due => due ≤ s.clock) := by
  have hgone : a.gone.filter (fun due => due ≤ s.clock) = a.gone :=
    List.filter_eq_self.mpr fun due hdue => decide_eq_true (h.past due hdue)
  have htimers : a.timers.filter (fun due => due ≤ s.clock) = [] :=
    List.filter_eq_nil_iff.mpr fun due hdue => by simpa using (h.ahead due hdue).1
  rw [h.kept, List.filter_append, hgone, htimers, List.append_nil]

end Tracks

end Alarm

-- ---------------------------------------------------------------------------
-- Runs
-- ---------------------------------------------------------------------------

namespace Cache

variable {κ α σ : Type} [DecidableEq κ] [DecidableEq α] [Expirable α]

def alarmAt (c : Cache κ α σ) (a : Alarm) : Turn κ α σ → Alarm
  | .call (.sleep ms) => a.elapse (c.scheduler.clock + ms)
  | t => if c.scheduler.runtime && c.asksAt t then a.request c.scheduler.clock else a

def alarmIn (c : Cache κ α σ) (a : Alarm) : List (Turn κ α σ) → Alarm
  | [] => a
  | t :: turns => (c.takeTurn t).alarmIn (c.alarmAt a t) turns

theorem alarmAt_of_awake (c : Cache κ α σ) (a : Alarm) {t : Turn κ α σ}
    (h : ∀ ms, t ≠ .call (.sleep ms)) :
    c.alarmAt a t =
      if c.scheduler.runtime && c.asksAt t then a.request c.scheduler.clock else a := by
  unfold alarmAt
  split
  · exact absurd rfl (h _)
  · rfl

def scheduled (c : Cache κ α σ) : Nat := c.core.journal.count .scheduled

omit [DecidableEq κ] [DecidableEq α] [Expirable α] in
theorem scheduled_of_journal {c d : Cache κ α σ} {events : List Event}
    (hjournal : d.core.journal = c.core.journal ++ events)
    (hof : ∀ e ∈ events, e.IsOfPass = true) : d.scheduled = c.scheduled := by
  have hnone : events.count .scheduled = 0 :=
    List.count_eq_zero.mpr fun hmem => by cases hof _ hmem
  rw [scheduled, hjournal, List.count_append, hnone, Nat.add_zero, scheduled]

omit [DecidableEq α] [Expirable α] in
theorem sleep_scheduled (c : Cache κ α σ) (ms : Nat) : (c.sleep ms).scheduled = c.scheduled := by
  have hjournal := Core.attempts_journal c.setup c.wallAt (c.firingsIn ms) c.core
    (p := (· == .scheduled)) fun e he => by cases e <;> first | rfl | cases he
  have hnone : ((c.core.attemptLog c.setup c.wallAt (c.firingsIn ms)).map
      LoggedAttempt.event).filter (· == .scheduled) = [] := by
    refine List.filter_eq_nil_iff.mpr fun e he hscheduled => ?_
    obtain ⟨a, -, rfl⟩ := List.mem_map.mp he
    have htrigger := Event.trigger?_ofAttempt a.trigger a.result
    rw [← LoggedAttempt.event, eq_of_beq hscheduled] at htrigger
    cases htrigger
  rw [hnone, List.append_nil] at hjournal
  have hcore : (c.sleep ms).core = c.core.attempts c.setup c.wallAt (c.firingsIn ms) :=
    sleep_attempts rfl ms
  rw [scheduled, scheduled, List.count_eq_length_filter, List.count_eq_length_filter, hcore,
    hjournal]

/-- Every turn keeps flag and timers together with the scheduler, and the timers
that go off in it are the on-write attempts that are made. -/
theorem takeTurn_tracks {c : Cache κ α σ} {a : Alarm} (hr : c.scheduler.runtime = true)
    (h : a.Tracks c.scheduler) (hlog : c.scheduled = a.asked.length) (t : Turn κ α σ) :
    (c.alarmAt a t).Tracks (c.takeTurn t).scheduler ∧
      (c.takeTurn t).scheduler.runtime = true ∧
      (c.takeTurn t).scheduled = (c.alarmAt a t).asked.length ∧
      (c.alarmAt a t).gone = a.gone ++ dues .onWrite (c.attemptsAt t) := by
  rcases c.takeTurn_cases t with ⟨ms, rfl⟩ | ⟨hawake, -, hnone, hturn⟩
  · obtain ⟨htracks, hasked, hgone⟩ := h.elapse ms
    have hsched := c.sleep_scheduler_eq ms
    have hdues : dues .onWrite (c.attemptsAt (.call (.sleep ms))) =
        c.scheduler.oneShot.toList.filter fun due => due ≤ c.scheduler.clock + ms :=
      (Core.dues_attemptLog ..).trans (Scheduler.firings_onWrite ..)
    refine ⟨?_, ?_, ?_, ?_⟩
    · exact hsched ▸ htracks
    · exact (congrArg Scheduler.runtime hsched).trans hr
    · exact (c.sleep_scheduled ms).trans (hlog.trans (congrArg List.length hasked.symm))
    · rw [hdues]
      exact hgone
  · rw [c.alarmAt_of_awake a hawake, hr, Bool.true_and, hnone]
    cases hasks : c.asksAt t with
    | false =>
      rw [hasks] at hturn
      obtain ⟨hsched, events, hjournal, hof⟩ := hturn
      exact ⟨hsched ▸ h, hsched ▸ hr, (scheduled_of_journal hjournal hof).trans hlog,
        (List.append_nil _).symm⟩
    | true =>
      rw [hasks] at hturn
      obtain ⟨hsched, hjournal⟩ := hturn
      refine ⟨hsched ▸ h.request hr, ?_, ?_, ?_⟩
      · rw [hsched, (requestOneShot_frame _).2.2, hr]
      · rw [scheduled, hjournal, List.count_append, ← scheduled, hlog, if_pos rfl]
        exact h.request_asked hr
      · rw [if_pos rfl, Alarm.request_gone, dues]
        exact (List.append_nil _).symm

theorem takeTurns_tracks {c : Cache κ α σ} {a : Alarm} (hr : c.scheduler.runtime = true)
    (h : a.Tracks c.scheduler) (hlog : c.scheduled = a.asked.length)
    (turns : List (Turn κ α σ)) :
    (c.alarmIn a turns).Tracks (c.takeTurns turns).scheduler ∧
      (c.takeTurns turns).scheduler.runtime = true ∧
      (c.takeTurns turns).scheduled = (c.alarmIn a turns).asked.length ∧
      (c.alarmIn a turns).gone = a.gone ++ dues .onWrite (c.attemptsIn turns) := by
  induction turns generalizing c a with
  | nil => exact ⟨h, hr, hlog, (List.append_nil _).symm⟩
  | cons t turns ih =>
    obtain ⟨htracks, hr', hlog', hgone⟩ := takeTurn_tracks hr h hlog t
    obtain ⟨hend, hon, hcount, hall⟩ := ih hr' htracks hlog'
    refine ⟨hend, hon, hcount, hall.trans ?_⟩
    rw [hgone, attemptsIn, dues_append, List.append_assoc]

theorem step_request {c : Cache κ α σ} {a : Alarm} (hr : c.scheduler.runtime = true)
    (h : a.Tracks c.scheduler) {call : Call κ α} (hasks : c.asks call = true) :
    if a.flag then
      c.alarmAt a (.call call) = a ∧ (c.step call).2.scheduler = c.scheduler
    else
      c.alarmAt a (.call call) =
        { a with
          flag := true
          timers := [c.scheduler.clock + oneShotDelay]
          asked := a.asked ++ [c.scheduler.clock] } ∧
      (c.step call).2.scheduler =
        { c.scheduler with oneShot := some (c.scheduler.clock + oneShotDelay) } := by
  have hdirect := isDirect_of_asks hasks
  have hawake : ∀ ms, (.call call : Turn κ α σ) ≠ .call (.sleep ms) := by
    rintro ms ⟨⟩
    cases hdirect
  have halarm : c.alarmAt a (.call call) = a.request c.scheduler.clock := by
    rw [c.alarmAt_of_awake a hawake, hr, Bool.true_and]
    exact if_pos hasks
  have hsched : (c.step call).2.scheduler =
      { c.scheduler with
        oneShot := some (c.scheduler.oneShot.getD (c.scheduler.clock + oneShotDelay)) } := by
    rw [c.step_of_direct hdirect, if_pos hasks]
    exact Scheduler.requestOneShot_fst hr
  rw [halarm, hsched, Alarm.request]
  split
  · rename_i hset
    obtain ⟨due, hdue⟩ := Option.isSome_iff_exists.mp (h.flag ▸ hset)
    refine ⟨rfl, ?_⟩
    rw [hdue, Option.getD_some, ← hdue]
  · rename_i hclear
    have hnone := h.timers_eq_nil_iff.mp (Bool.not_eq_true _ ▸ hclear)
    have hpending : c.scheduler.oneShot = none := by
      rw [← Option.toList_eq_nil_iff, ← h.timers, hnone]
    rw [hnone, hpending]
    exact ⟨rfl, rfl⟩

-- ---------------------------------------------------------------------------
-- Without timers
-- ---------------------------------------------------------------------------

theorem takeTurn_idle {c : Cache κ α σ} {clock : Nat}
    (h : c.scheduler = { runtime := false, clock }) (t : Turn κ α σ) :
    (c.takeTurn t).scheduler = { runtime := false, clock := clock + t.slept } ∧
      c.attemptsAt t = [] := by
  rcases c.takeTurn_cases t with ⟨ms, rfl⟩ | ⟨-, hslept, hnone, hturn⟩
  · refine ⟨(c.sleep_scheduler_eq ms).trans (by rw [h]; rfl), ?_⟩
    have hfirings : c.firingsIn ms = [] := by
      rw [firingsIn, h]
      exact List.mergeSort_nil
    show c.core.attemptLog c.setup c.wallAt (c.firingsIn ms) = []
    rw [hfirings]
    rfl
  · rw [hslept, hnone, Nat.add_zero, ← h]
    refine ⟨?_, rfl⟩
    split at hturn
    · rw [hturn.1, h]
      rfl
    · exact hturn.1

theorem takeTurns_idle {c : Cache κ α σ} {clock : Nat}
    (h : c.scheduler = { runtime := false, clock }) (turns : List (Turn κ α σ)) :
    (c.takeTurns turns).scheduler = { runtime := false, clock := clock + slept turns } ∧
      c.attemptsIn turns = [] := by
  induction turns generalizing c clock with
  | nil => exact ⟨h, rfl⟩
  | cons t turns ih =>
    obtain ⟨hsched, hnone⟩ := takeTurn_idle h t
    obtain ⟨hend, hall⟩ := ih hsched
    refine ⟨hend.trans ?_, ?_⟩
    · rw [slept, Nat.add_assoc]
    · rw [attemptsIn, hnone, hall]
      rfl

-- ---------------------------------------------------------------------------
-- New caches
-- ---------------------------------------------------------------------------

section Built

omit [DecidableEq κ] [DecidableEq α] [Expirable α]

variable {b : Builder κ α σ} {now : Int64} {notes : σ} {c : Cache κ α σ}

theorem built_quiet (hc : b.build now notes = .ok c) :
    c.scheduler.runtime = b.runtime ∧ c.scheduler.oneShot = none ∧ c.scheduled = 0 := by
  obtain ⟨hv, scheduler, events, hstart, rfl⟩ := Builder.build_ok hc
  obtain ⟨hruntime, -, hnone, hevents⟩ := Scheduler.startPeriodic_ok hstart
  refine ⟨hruntime, hnone, List.count_eq_zero.mpr fun hmem => ?_⟩
  rcases List.mem_cons.mp hmem with h | h
  · cases h
  · cases hevents _ h

theorem built_idle (hr : b.runtime = false) (hc : b.build now notes = .ok c) :
    c.scheduler = { runtime := false, clock := 0 } := by
  obtain ⟨hv, scheduler, events, hstart, rfl⟩ := Builder.build_ok hc
  rw [hr] at hstart
  unfold Scheduler.startPeriodic at hstart
  split at hstart
  · cases hstart
    rfl
  · cases hstart

end Built

-- ---------------------------------------------------------------------------
-- The trigger
-- ---------------------------------------------------------------------------

/-- Whatever happened before, flag and timers agree. A request that finds the flag
set changes neither, and one that finds it clear starts the timer of one attempt, 50
milliseconds later, so attempts are that far apart. Where no timers run, a request
leaves but a line in the journal. -/
theorem one_shots_coalesce {b : Builder κ α σ} {now : Int64} {notes : σ} {c : Cache κ α σ}
    (hc : b.build now notes = .ok c) (turns : List (Turn κ α σ)) :
    let d := c.takeTurns turns
    let a := c.alarmIn {} turns
    let made := (c.attemptsIn turns).filter (·.trigger = .onWrite)
    (b.runtime = true →
      -- what is pending
      (a.flag = true ↔ a.timers.length = 1) ∧ (a.flag = false ↔ a.timers = []) ∧
      (∀ due ∈ a.timers, d.scheduler.clock < due ∧ due ≤ d.scheduler.clock + 50) ∧
      a.flag = d.scheduler.oneShot.isSome ∧ a.timers = d.scheduler.oneShot.toList ∧
      -- the next request
      (∀ call : Call κ α, d.asks call = true →
        if a.flag then
          d.alarmAt a (.call call) = a ∧ (d.step call).2.scheduler = d.scheduler
        else
          d.alarmAt a (.call call) =
            { a with
              flag := true
              timers := [d.scheduler.clock + 50]
              asked := a.asked ++ [d.scheduler.clock] } ∧
          (d.step call).2.scheduler =
            { d.scheduler with oneShot := some (d.scheduler.clock + 50) }) ∧
      -- the attempts that were made
      made.map LoggedAttempt.due =
        (a.asked.map (· + 50)).filter (fun due => due ≤ d.scheduler.clock) ∧
      (made.map LoggedAttempt.due).Pairwise (· + 50 ≤ ·) ∧
      made.length + (if a.flag then 1 else 0) = a.asked.length ∧
      d.core.journal.filter (·.trigger? = some .onWrite) = made.map LoggedAttempt.event ∧
      d.core.journal.count .scheduled = a.asked.length) ∧
    (b.runtime = false →
      d.scheduler = { runtime := false, clock := slept turns } ∧ c.attemptsIn turns = [] ∧
      ∀ call : Call κ α, d.asks call = true →
        (d.step call).2 =
          { d.perform call with
            core := { (d.perform call).core with
              journal := d.core.journal ++ [.deferred] } }) := by
  intro d a made
  refine ⟨fun hr => ?_, fun hr => ?_⟩
  · obtain ⟨hruntime, hnone, hquiet⟩ := built_quiet hc
    obtain ⟨htracks, hstill, hcount, hgone⟩ :=
      takeTurns_tracks (hruntime.trans hr) (Alarm.Tracks.empty hnone) hquiet turns
    have hmade : made.map LoggedAttempt.due = a.gone := (hgone.trans (List.nil_append _)).symm
    have hapart := (List.pairwise_append.mp htracks.apart).1
    have hlength : made.length + a.timers.length = a.asked.length := by
      rw [← List.length_map (f := LoggedAttempt.due), hmade, ← List.length_append, ← htracks.kept,
        List.length_map]
    refine ⟨htracks.flag_iff, htracks.timers_eq_nil_iff, htracks.ahead, htracks.flag,
      htracks.timers, fun call hasks => step_request hstill htracks hasks,
      hmade.trans htracks.gone_eq, hmade ▸ hapart, ?_, journal_of_trigger hc turns .onWrite,
      hcount⟩
    rw [← hlength, htracks.timers, htracks.flag]
    cases d.scheduler.oneShot <;> rfl
  · obtain ⟨hend, hnever⟩ := takeTurns_idle (built_idle hr hc) turns
    have hstay : d.scheduler = { runtime := false, clock := slept turns } :=
      hend.trans (by rw [Nat.zero_add])
    refine ⟨hstay, hnever, fun call hasks => ?_⟩
    have hrequest : d.scheduler.requestOneShot = (d.scheduler, [.deferred]) := by
      rw [hstay]
      rfl
    rw [d.step_of_direct (isDirect_of_asks hasks), if_pos hasks, hrequest]
    rfl

def stubbornBuilder (ambient : Bool) : Builder Nat (Timed Nat) Unit :=
  (Builder.start ⟨16, 2, 1, 0⟩ ambient).removalTest fun notes _ _ _ =>
    .fail ⟨"policy failure"⟩ notes

/-- The third write comes while an attempt is pending, the fourth in the millisecond
in which that attempt failed, and the fifth after one that was skipped. -/
def burstTurns : List (Turn Nat (Timed Nat) Unit) :=
  [.call (.put 1 (.permanent 7 0)), .call (.put 2 (.permanent 7 0)), .call (.sleep 30),
    .call (.put 3 (.permanent 7 0)), .call (.sleep 20), .call (.put 4 (.permanent 7 0)),
    .others fun core => { core with slot := ⟨some .caller⟩ }, .call (.sleep 60),
    .call (.put 5 (.permanent 7 0))]

theorem one_shots_coalesce_burst :
    (∃ c, (stubbornBuilder true).build 0 () = .ok c ∧
      (c.alarmIn {} burstTurns).asked = [0, 50, 110] ∧
      dues .onWrite (c.attemptsIn burstTurns) = [50, 100] ∧
      (c.takeTurns burstTurns).core.journal.filter (·.trigger? = some .onWrite) =
        [.failed .onWrite, .skipped .onWrite] ∧
      (c.takeTurns burstTurns).scheduler.oneShot = some 160) ∧
    ∃ c, (stubbornBuilder false).build 0 () = .ok c ∧ c.attemptsIn burstTurns = [] ∧
      (c.takeTurns burstTurns).scheduler = { runtime := false, clock := 110 } := by
  obtain ⟨c, hc⟩ : ∃ c, (stubbornBuilder true).build 0 () = .ok c := ⟨_, rfl⟩
  obtain ⟨x, hx⟩ : ∃ c, (stubbornBuilder false).build 0 () = .ok c := ⟨_, rfl⟩
  obtain ⟨-, -, -, -, htimers, -, hmade, -⟩ := (one_shots_coalesce hc burstTurns).1 rfl
  obtain ⟨hidle, hnever, -⟩ := (one_shots_coalesce hx burstTurns).2 rfl
  have halarm : c.alarmIn {} burstTurns = ⟨true, [160], [0, 50, 110], [50, 100]⟩ := by
    cases hc
    decide +kernel
  have hjournal : (c.takeTurns burstTurns).core.journal.filter (·.trigger? = some .onWrite) =
      [.failed .onWrite, .skipped .onWrite] := by
    cases hc
    decide +kernel
  have hclock : (c.takeTurns burstTurns).scheduler.clock = 110 := by
    cases hc
    decide +kernel
  rw [halarm] at htimers hmade
  rw [hclock] at hmade
  exact ⟨⟨c, hc, by rw [halarm], hmade, hjournal, Option.toList_eq_singleton_iff.mp htimers.symm⟩,
    x, hx, hnever, hidle⟩

end Cache

end SizedCache
