import SizedCache.Proofs.TimerLaws

/-!
# Laws of ticks

Of the timers that fire in a stretch of time, those of a periodic task are its
ticks up to the end of the stretch, and they leave the task due within one
period.
-/

namespace SizedCache

namespace SweepTask

def ticked (t : SweepTask) (n : Nat) : SweepTask :=
  if t.ended then t else { t with next := t.next + t.period * n }

def after (t : SweepTask) (limit : Nat) : SweepTask := t.ticked (t.ticks limit).length

@[simp] theorem ticked_zero (t : SweepTask) : t.ticked 0 = t := by
  unfold ticked
  split <;> rfl

@[simp] theorem ticked_ended (t : SweepTask) (n : Nat) : (t.ticked n).ended = t.ended := by
  unfold ticked
  split <;> rfl

@[simp] theorem ticked_period (t : SweepTask) (n : Nat) : (t.ticked n).period = t.period := by
  unfold ticked
  split <;> rfl

theorem ticked_ticked (t : SweepTask) (m n : Nat) :
    (t.ticked m).ticked n = t.ticked (m + n) := by
  cases h : t.ended <;> simp [ticked, h, Nat.mul_add, Nat.add_assoc]

variable {t : SweepTask} {limit : Nat}

theorem mem_ticks (h : t.ended = false) {due : Nat} :
    due ∈ t.ticks limit ↔
      t.next ≤ limit ∧ ∃ n ≤ (limit - t.next) / t.period, due = t.next + t.period * n := by
  by_cases hle : t.next ≤ limit
  · have hticks : t.ticks limit =
        (List.range ((limit - t.next) / t.period + 1)).map (t.next + t.period * ·) := by
      simp [ticks, h, hle]
    rw [hticks, List.mem_map]
    simp only [List.mem_range, Nat.lt_add_one_iff, hle, true_and]
    exact exists_congr fun n => and_congr_right fun _ => eq_comm
  · simp [ticks, hle, Nat.not_le.mp hle]

theorem le_of_mem_ticks {due : Nat} (h : due ∈ t.ticks limit) : due ≤ limit := by
  have hended : t.ended = false := by
    by_contra hne
    simp [ticks, hne] at h
  obtain ⟨hle, n, hn, rfl⟩ := (mem_ticks hended).mp h
  have hmul : t.period * n ≤ limit - t.next :=
    Nat.le_trans (Nat.mul_le_mul_left _ hn) (Nat.mul_div_le _ _)
  omega

theorem next_le_of_mem_ticks {due : Nat} (h : due ∈ t.ticks limit) : t.next ≤ due := by
  have hended : t.ended = false := by
    by_contra hne
    simp [ticks, hne] at h
  obtain ⟨-, n, -, rfl⟩ := (mem_ticks hended).mp h
  exact Nat.le_add_right _ _

theorem after_of_lt (h : limit < t.next) : t.after limit = t := by
  simp [after, ticks, h]

theorem after_of_le (hended : t.ended = false) (hperiod : 0 < t.period) (hle : t.next ≤ limit) :
    limit < (t.after limit).next ∧
      ∃ due ∈ t.ticks limit, due + t.period = (t.after limit).next := by
  let n := (limit - t.next) / t.period
  have hlength : (t.ticks limit).length = n + 1 := by simp [ticks, hended, Nat.not_lt.mpr hle, n]
  have hnext : (t.after limit).next = t.next + t.period * n + t.period := by
    simp [after, ticked, hended, hlength, Nat.mul_add, Nat.add_assoc]
  have hlast : limit - t.next < t.period * n + t.period := by
    have := Nat.lt_mul_div_succ (limit - t.next) hperiod
    rwa [Nat.mul_add, Nat.mul_one] at this
  refine ⟨by omega, t.next + t.period * n, ?_, hnext.symm⟩
  exact (mem_ticks hended).mpr ⟨hle, n, Nat.le_refl _, rfl⟩

theorem ticks_sorted (t : SweepTask) (limit : Nat) : (t.ticks limit).Pairwise (· ≤ ·) := by
  unfold ticks
  split
  · exact .nil
  · refine List.pairwise_map.mpr (List.pairwise_lt_range.imp fun hlt => ?_)
    exact Nat.add_le_add_left (Nat.mul_le_mul_left _ (Nat.le_of_lt hlt)) _

def tickCount (t : SweepTask) (limit : Nat) : Nat :=
  if limit < t.next then 0 else (limit - t.next) / t.period + 1

theorem ticks_eq (h : t.ended = false) (limit : Nat) :
    t.ticks limit = (List.range (t.tickCount limit)).map (t.next + t.period * ·) := by
  by_cases hlt : limit < t.next <;> simp [ticks, tickCount, h, hlt]

theorem after_eq (h : t.ended = false) (limit : Nat) :
    t.after limit = { t with next := t.next + t.period * t.tickCount limit } := by
  rw [after, ticks_eq h, List.length_map, List.length_range, ticked, h]
  rfl

theorem tickCount_add (hperiod : 0 < t.period) {m n : Nat} (h : m ≤ n) :
    t.tickCount n = t.tickCount m +
      { t with next := t.next + t.period * t.tickCount m }.tickCount n := by
  rcases Nat.lt_or_ge m t.next with hlt | hle
  · simp [tickCount, hlt]
  · have hm : t.tickCount m = (m - t.next) / t.period + 1 := if_neg (Nat.not_lt.mpr hle)
    have hn : t.tickCount n = (n - t.next) / t.period + 1 := if_neg (by omega)
    have hmono : (m - t.next) / t.period ≤ (n - t.next) / t.period :=
      Nat.div_le_div_right (by omega)
    rw [hn]
    generalize t.tickCount m = k at hm ⊢
    simp only [tickCount]
    split
    · -- no tick after `m`
      rename_i hlast
      have hlast' : (n - t.next) / t.period < k :=
        (Nat.div_lt_iff_lt_mul hperiod).mpr (by rw [Nat.mul_comm]; omega)
      omega
    · rename_i hmore
      have hsum : n - t.next = t.period * k + (n - (t.next + t.period * k)) := by omega
      rw [hsum, Nat.mul_add_div hperiod]
      exact Nat.add_assoc ..

/-- The ticks of a stretch of time are those of its parts: it does not matter
whether time passes in one go or in several. -/
theorem ticks_append (hperiod : 0 < t.period) {m n : Nat} (h : m ≤ n) :
    t.ticks n = t.ticks m ++ (t.after m).ticks n := by
  cases hended : t.ended with
  | true => simp [ticks, hended, after, ticked]
  | false =>
    rw [after_eq hended, ticks_eq hended, ticks_eq hended,
      ticks_eq (t := { t with next := t.next + t.period * t.tickCount m }) hended,
      tickCount_add hperiod h, List.range_add, List.map_append, List.map_map]
    congr 1
    apply List.map_congr_left
    intro i _
    simp [Nat.mul_add, Nat.add_assoc]

theorem after_after (hperiod : 0 < t.period) {m n : Nat} (h : m ≤ n) :
    (t.after m).after n = t.after n := by
  rw [after, after, after, ticked_ticked, ticks_append hperiod h, List.length_append]
  rfl

end SweepTask

namespace Scheduler

variable {S : Type}

theorem mem_tickFirings {s : Scheduler} {limit : Nat} {f : Firing} :
    f ∈ s.tickFirings limit ↔
      ∃ id t, s.tasks[id]? = some t ∧ f.due ∈ t.ticks limit ∧ f.timer = .tick id := by
  rw [tickFirings, List.mem_flatMap]
  constructor
  · rintro ⟨⟨t, id⟩, hmem, hf⟩
    obtain ⟨due, hdue, rfl⟩ := List.mem_map.mp hf
    exact ⟨id, t, List.mem_zipIdx_iff_getElem?.mp hmem, hdue, rfl⟩
  · rintro ⟨id, t, ht, hdue, htimer⟩
    refine ⟨⟨t, id⟩, List.mem_zipIdx_iff_getElem?.mpr ht, List.mem_map.mpr ⟨f.due, hdue, ?_⟩⟩
    rw [← htimer]

theorem mem_firings {s : Scheduler} {limit : Nat} {f : Firing} :
    f ∈ s.firings limit ↔ f ∈ s.tickFirings limit ∨ f ∈ s.oneShotFirings limit := by
  rw [firings, List.mem_mergeSort, List.mem_append]

theorem due_le_of_mem_firings {s : Scheduler} {limit : Nat} {f : Firing}
    (h : f ∈ s.firings limit) : f.due ≤ limit := by
  rcases mem_firings.mp h with h | h
  · obtain ⟨id, t, -, hdue, -⟩ := mem_tickFirings.mp h
    exact SweepTask.le_of_mem_ticks hdue
  · obtain ⟨due, -, hle, rfl⟩ := mem_oneShotFirings.mp h
    exact hle

theorem tickFirings_eq (s : Scheduler) (limit : Nat) :
    s.tickFirings limit =
      s.tasks.zipIdx.flatMap fun e => (e.1.ticks limit).map (⟨·, .tick e.2⟩) :=
  rfl

theorem countP_firings (s : Scheduler) (limit id : Nat) :
    (s.firings limit).countP (·.timer = .tick id) =
      (s.tasks[id]?.map fun t => (t.ticks limit).length).getD 0 := by
  have hone : (s.oneShotFirings limit).countP (·.timer = .tick id) = 0 := by
    rw [List.countP_eq_zero]
    intro f hf
    obtain ⟨due, -, -, rfl⟩ := mem_oneShotFirings.mp hf
    simp
  -- along the tasks, those numbered from `n` on
  have htask : ∀ (tasks : List SweepTask) (n : Nat),
      ((tasks.zipIdx n).flatMap fun e => (e.1.ticks limit).map (⟨·, .tick e.2⟩)).countP
          (fun f : Firing => f.timer = .tick id) =
        if n ≤ id then (tasks[id - n]?.map fun t => (t.ticks limit).length).getD 0 else 0 := by
    intro tasks
    induction tasks with
    | nil => simp
    | cons t tasks ih =>
      intro n
      rw [List.zipIdx_cons, List.flatMap_cons, List.countP_append, ih]
      rcases Nat.lt_trichotomy n id with hlt | rfl | hgt
      · have hsucc : id - n = (id - (n + 1)) + 1 := by omega
        simp [hsucc, Nat.le_of_lt hlt, Nat.succ_le_of_lt hlt, Nat.ne_of_lt hlt, Function.comp_def]
      · rw [if_pos (Nat.le_refl n), if_neg (Nat.not_succ_le_self n)]
        simp [Function.comp_def]
      · simp [Nat.not_le.mpr hgt, Nat.ne_of_gt hgt, Function.comp_def,
          Nat.not_le.mpr (Nat.lt_succ_of_lt hgt)]
  rw [firings, (List.mergeSort_perm _ _).countP_eq, List.countP_append, hone, tickFirings_eq, htask]
  simp

section Alive

variable {target : Target S} (halive : ∀ x, target.alive x = true)

include halive

theorem fire_tasks (now : Int64) (timer : Timer) (s : Scheduler) (x : S) (id : Nat) :
    (fire target now timer s x).1.tasks[id]? =
      s.tasks[id]?.map (·.ticked (if timer = .tick id then 1 else 0)) := by
  cases timer with
  | oneShot => cases h : s.tasks[id]? <;> simp [fire, h]
  | tick j =>
    cases hended : s.hasEnded j with
    | true =>
      -- a task that has ended, or is not there, does not tick
      cases h : s.tasks[id]? with
      | none => simp [fire, hended, h]
      | some t =>
        by_cases hj : j = id
        · subst hj
          have ht : t.ended = true := by simpa [hasEnded, h] using hended
          simp [fire, hended, h, SweepTask.ticked, ht]
        · simp [fire, hended, h, hj]
    | false =>
      simp only [fire, hended, halive, Bool.false_eq_true, if_false, if_true, setTask,
        List.getElem?_modify]
      cases h : s.tasks[id]? with
      | none => simp
      | some t =>
        by_cases hj : j = id
        · subst hj
          have ht : t.ended = false := by simpa [hasEnded, h] using hended
          simp [SweepTask.ticked, ht]
        · simp [hj]

theorem fireAll_tasks (wall : Nat → Int64) (fs : List Firing) (s : Scheduler) (x : S) (id : Nat) :
    (fireAll target wall fs s x).1.tasks[id]? =
      s.tasks[id]?.map (·.ticked (fs.countP (·.timer = .tick id))) := by
  induction fs generalizing s x with
  | nil => cases h : s.tasks[id]? <;> simp [fireAll, h]
  | cons f fs ih =>
    rw [fireAll, ih, fire_tasks halive, Option.map_map, List.countP_cons]
    congr 1
    funext t
    rw [Function.comp_apply, SweepTask.ticked_ticked, Nat.add_comm]
    simp

theorem advance_tasks (now : Int64) (ms : Nat) (s : Scheduler) (x : S) :
    (advance target now ms s x).1.tasks = s.tasks.map (·.after (s.clock + ms)) := by
  apply List.ext_getElem?
  intro id
  rw [List.getElem?_map]
  refine (fireAll_tasks halive _ _ s x id).trans ?_
  rw [countP_firings]
  cases s.tasks[id]? <;> rfl

end Alive

end Scheduler

namespace Cache

variable {κ α σ : Type} [DecidableEq κ]

theorem sleep_tasks (c : Cache κ α σ) (ms : Nat) :
    (c.sleep ms).scheduler.tasks =
      c.scheduler.tasks.map (·.after (c.scheduler.clock + ms)) :=
  Scheduler.advance_tasks (fun _ => rfl) c.now ms c.scheduler c.core

end Cache

end SizedCache
