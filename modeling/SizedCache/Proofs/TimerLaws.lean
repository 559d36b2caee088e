import SizedCache.Cache
import Mathlib.Data.List.Nodup

/-!
# Laws of timers

On a target that stays alive, letting time pass is one attempt for each timer
that is due, in order of time, and afterwards no timer that was due is left.
-/

namespace SizedCache

def Timer.kind : Timer → Trigger
  | .oneShot => .onWrite
  | .tick _ => .periodic

namespace Scheduler

variable {S : Type}

theorem requestOneShot_fst {s : Scheduler} (h : s.runtime = true) :
    s.requestOneShot.1 = { s with oneShot := some (s.oneShot.getD (s.clock + oneShotDelay)) } := by
  obtain ⟨runtime, clock, oneShot, tasks, periodic⟩ := s
  subst h
  cases oneShot <;> rfl

/-- Whether a timer will make an attempt: a tick of an ended task will not. -/
def Live (s : Scheduler) : Timer → Prop
  | .oneShot => True
  | .tick id => s.hasEnded id = false

theorem live_of_mem_firings {s : Scheduler} {limit : Nat} {f : Firing}
    (h : f ∈ s.firings limit) : s.Live f.timer := by
  rw [firings, List.mem_mergeSort, List.mem_append] at h
  rcases h with h | h
  · obtain ⟨⟨t, id⟩, hmem, hf⟩ := List.mem_flatMap.mp h
    obtain ⟨due, hdue, rfl⟩ := List.mem_map.mp hf
    have htask : s.tasks[id]? = some t := List.mem_zipIdx_iff_getElem?.mp hmem
    have hended : t.ended = false := by
      by_contra hne
      simp [SweepTask.ticks, hne] at hdue
    show s.hasEnded id = false
    simp only [hasEnded, htask, hended]
  · unfold oneShotFirings at h
    split at h
    · split at h
      · rw [List.mem_singleton] at h
        subst h
        trivial
      · simp at h
    · simp at h

theorem mem_oneShotFirings {s : Scheduler} {limit : Nat} {f : Firing} :
    f ∈ s.oneShotFirings limit ↔
      ∃ due, s.oneShot = some due ∧ due ≤ limit ∧ f = ⟨due, .oneShot⟩ := by
  unfold oneShotFirings
  cases h : s.oneShot with
  | none => simp
  | some due => by_cases hle : due ≤ limit <;> simp [hle]

theorem oneShot_mem_firings {s : Scheduler} {limit : Nat} :
    (∃ f ∈ s.firings limit, f.timer = .oneShot) ↔ ∃ due, s.oneShot = some due ∧ due ≤ limit := by
  simp only [firings, List.mem_mergeSort, List.mem_append, mem_oneShotFirings]
  constructor
  · rintro ⟨f, hf | ⟨due, hs, hle, -⟩, ht⟩
    · obtain ⟨⟨t, id⟩, -, hf⟩ := List.mem_flatMap.mp hf
      obtain ⟨due, -, rfl⟩ := List.mem_map.mp hf
      cases ht
    · exact ⟨due, hs, hle⟩
  · rintro ⟨due, hs, hle⟩
    exact ⟨⟨due, .oneShot⟩, .inr ⟨due, hs, hle, rfl⟩, rfl⟩

theorem fireAll_append (target : Target S) (wall : Nat → Int64) (fs gs : List Firing)
    (s : Scheduler) (x : S) :
    fireAll target wall (fs ++ gs) s x =
      fireAll target wall gs (fireAll target wall fs s x).1 (fireAll target wall fs s x).2 := by
  induction fs generalizing s x with
  | nil => rfl
  | cons f fs ih => exact ih _ _

section Alive

variable {target : Target S} (halive : ∀ x, target.alive x = true)

include halive

theorem fire_snd {s : Scheduler} {t : Timer} (h : s.Live t) (now : Int64) (x : S) :
    (fire target now t s x).2 = trigger target t.kind now x := by
  cases t with
  | oneShot => simp [fire, halive, Timer.kind]
  | tick id =>
    have hlive : s.hasEnded id = false := h
    simp [fire, hlive, halive, Timer.kind]

theorem fire_fst (now : Int64) (t : Timer) (s : Scheduler) (x : S) :
    ∃ tasks, (fire target now t s x).1 =
      { s with tasks, oneShot := if t = .oneShot then none else s.oneShot } ∧
      ∀ id, hasEnded { s with tasks } id = s.hasEnded id := by
  cases t with
  | oneShot => exact ⟨s.tasks, rfl, fun _ => rfl⟩
  | tick id =>
    cases h : s.hasEnded id with
    | true => exact ⟨s.tasks, by simp [fire, h], fun _ => rfl⟩
    | false =>
      refine ⟨_, by simp [fire, h, halive, setTask]; rfl, fun j => ?_⟩
      simp only [hasEnded, List.getElem?_modify]
      cases s.tasks[j]? with
      | none => rfl
      | some t => by_cases hj : id = j <;> simp [hj]

theorem live_fire {s : Scheduler} {t u : Timer} (h : s.Live u) (now : Int64) (x : S) :
    (fire target now t s x).1.Live u := by
  obtain ⟨tasks, heq, hended⟩ := fire_fst halive now t s x
  cases u with
  | oneShot => trivial
  | tick id =>
    show hasEnded _ id = false
    rw [heq]
    exact (hended id).trans h

theorem live_fireAll {s : Scheduler} {t : Timer} (h : s.Live t) (wall : Nat → Int64)
    (fs : List Firing) (x : S) : (fireAll target wall fs s x).1.Live t := by
  induction fs generalizing s x with
  | nil => exact h
  | cons f fs ih => exact ih (live_fire halive h (wall f.due) x) _

theorem fireAll_snd {s : Scheduler} {fs : List Firing} (h : ∀ f ∈ fs, s.Live f.timer)
    (wall : Nat → Int64) (x : S) :
    (fireAll target wall fs s x).2 =
      fs.foldl (fun x f => trigger target f.timer.kind (wall f.due) x) x := by
  induction fs generalizing s x with
  | nil => rfl
  | cons f fs ih =>
    have hf : s.Live f.timer := h f (by simp)
    -- a timer that fires leaves the others live
    have hrest : ∀ g ∈ fs, (fire target (wall f.due) f.timer s x).1.Live g.timer := fun g hg =>
      live_fire halive (h g (List.mem_cons_of_mem _ hg)) _ x
    rw [fireAll, List.foldl_cons, ← fire_snd halive hf]
    exact ih hrest _

theorem fireAll_fst (wall : Nat → Int64) (fs : List Firing) (s : Scheduler) (x : S) :
    ∃ tasks, (fireAll target wall fs s x).1 =
      { s with tasks, oneShot := if ∃ f ∈ fs, f.timer = .oneShot then none else s.oneShot } := by
  induction fs generalizing s x with
  | nil => exact ⟨s.tasks, by simp [fireAll]⟩
  | cons f fs ih =>
    obtain ⟨tasks, heq, -⟩ := fire_fst halive (wall f.due) f.timer s x
    obtain ⟨tasks', heq'⟩ := ih (fire target (wall f.due) f.timer s x).1
      (fire target (wall f.due) f.timer s x).2
    refine ⟨tasks', heq'.trans ?_⟩
    rw [heq]
    by_cases hf : f.timer = .oneShot <;> simp [hf]

theorem advance_snd (now : Int64) (ms : Nat) (s : Scheduler) (x : S) :
    (advance target now ms s x).2 =
      (s.firings (s.clock + ms)).foldl
        (fun x f => trigger target f.timer.kind (now + Int64.ofNat (f.due - s.clock)) x) x :=
  fireAll_snd halive (fun _ hf => live_of_mem_firings hf) _ x

/-- A pending attempt that is due is made, and any other stays pending. -/
theorem advance_fst (now : Int64) (ms : Nat) (s : Scheduler) (x : S) :
    ∃ tasks, (advance target now ms s x).1 =
      { s with
        tasks
        clock := s.clock + ms
        oneShot := s.oneShot.filter fun due => decide (s.clock + ms < due) } := by
  obtain ⟨tasks, heq⟩ := fireAll_fst halive
    (fun due => now + Int64.ofNat (due - s.clock)) (s.firings (s.clock + ms)) s x
  refine ⟨tasks, ?_⟩
  simp only [advance, heq, oneShot_mem_firings]
  cases s.oneShot with
  | none => simp
  | some due =>
    by_cases hle : due ≤ s.clock + ms <;> simp [Option.filter, hle]

end Alive

end Scheduler

namespace Cache

variable {κ α σ : Type} [DecidableEq κ]

theorem sleep_core (c : Cache κ α σ) (ms : Nat) :
    (c.sleep ms).core =
      (c.scheduler.firings (c.scheduler.clock + ms)).foldl
        (fun x f => Scheduler.trigger (target c.setup) f.timer.kind
          (c.now + Int64.ofNat (f.due - c.scheduler.clock)) x) c.core :=
  Scheduler.advance_snd (fun _ => rfl) c.now ms c.scheduler c.core

theorem sleep_scheduler (c : Cache κ α σ) (ms : Nat) :
    ∃ tasks, (c.sleep ms).scheduler =
      { c.scheduler with
        tasks
        clock := c.scheduler.clock + ms
        oneShot := c.scheduler.oneShot.filter fun due =>
          decide (c.scheduler.clock + ms < due) } :=
  Scheduler.advance_fst (fun _ => rfl) c.now ms c.scheduler c.core

end Cache

end SizedCache
