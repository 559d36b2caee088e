import SizedCache.Proofs.CallLaws
import SizedCache.Proofs.TimerLaws

/-!
# Storing pairs at once and one by one

To store pairs at once checks the size at the end, and to store them one by one
checks it after each. The size never falls on the way, so an early check that asks
for an attempt is followed by a last one that asks too, and requests are folded into
the first. What is left is the same but for the log, in which a cache without timers
notes every check above the target (`putAll_eq_puts`).
-/

namespace SizedCache

namespace Scheduler

theorem requestOneShot_again (s : Scheduler) :
    s.requestOneShot.1.requestOneShot.1 = s.requestOneShot.1 := by
  obtain ⟨runtime, clock, oneShot, tasks, periodic⟩ := s
  cases runtime <;> cases oneShot <;> rfl

theorem requestOneShot_runtime (s : Scheduler) : s.requestOneShot.1.runtime = s.runtime := by
  obtain ⟨runtime, clock, oneShot, tasks, periodic⟩ := s
  cases runtime <;> cases oneShot <;> rfl

theorem requestOneShot_again_quiet {s : Scheduler} (h : s.runtime = true) :
    s.requestOneShot.1.requestOneShot.2 = [] := by
  obtain ⟨runtime, clock, oneShot, tasks, periodic⟩ := s
  subst h
  cases oneShot <;> rfl

end Scheduler

namespace Cache

variable {κ α σ : Type}

/-- `d` is `c` but for its journal, and where timers run it is `c`. -/
structure Alike (c d : Cache κ α σ) : Prop where
  frame : ∃ journal, d = { c with core := { c.core with journal } }
  same : c.scheduler.runtime = true → d = c

theorem Alike.refl (c : Cache κ α σ) : Alike c c := ⟨⟨c.core.journal, rfl⟩, fun _ => rfl⟩

theorem Alike.trans {c d e : Cache κ α σ} (hd : Alike c d) (he : Alike d e) : Alike c e where
  frame := by
    obtain ⟨_, rfl⟩ := hd.frame
    obtain ⟨journal, rfl⟩ := he.frame
    exact ⟨journal, rfl⟩
  same hr := by
    obtain rfl := hd.same hr
    exact he.same hr

def noting (c : Cache κ α σ) (r : Scheduler × List Event) : Cache κ α σ :=
  { c with scheduler := r.1, core := { c.core with journal := c.core.journal ++ r.2 } }

theorem noting_noting (c : Cache κ α σ) (r r' : Scheduler × List Event) :
    (c.noting r).noting r' = c.noting (r'.1, r.2 ++ r'.2) := by
  simp only [noting, List.append_assoc]

theorem checkCapacity_noting {c : Cache κ α σ} (h : c.config.evictTo < c.size) :
    c.checkCapacity = c.noting c.scheduler.requestOneShot :=
  checkCapacity_of_lt h

variable [DecidableEq κ]

def stow (c : Cache κ α σ) (es : List (κ × α)) : Cache κ α σ :=
  { c with core := c.core.actAll c.now (es.map fun e => .keep e.1 e.2) }

theorem put_snd (c : Cache κ α σ) (k : κ) (v : α) :
    (c.put k v).2 = (c.stow [(k, v)]).checkCapacity := rfl

theorem putAll_stow (c : Cache κ α σ) (es : List (κ × α)) :
    c.putAll es = (c.stow es).checkCapacity := by
  have hfold : ∀ (es : List (κ × α)) (d : Cache κ α σ),
      es.foldl (fun d e => (d.withStore (d.store.insert e.1 e.2).2).touch e.1) d = d.stow es := by
    intro es
    induction es with
    | nil => exact fun d => rfl
    | cons e es ih => exact fun d => ih (d.stow [e])
  rw [putAll, hfold]

theorem size_le_stow (c : Cache κ α σ) (es : List (κ × α)) : c.size ≤ (c.stow es).size := by
  induction es generalizing c with
  | nil => exact Nat.le_refl _
  | cons e es ih =>
    refine Nat.le_trans ?_ (ih (c.stow [e]))
    show c.store.size ≤ (c.store.set e.1 e.2).size
    rw [Table.size_set_contains]
    exact Nat.le_add_right ..

theorem stow_noting (c : Cache κ α σ) (r : Scheduler × List Event) (es : List (κ × α)) :
    (c.noting r).stow es = (c.stow es).noting r := by
  induction es generalizing c with
  | nil => rfl
  | cons e es ih => exact ih (c.stow [e])

/-- A check before more pairs come is absorbed by the check after them. -/
theorem checkCapacity_stow (c : Cache κ α σ) (es : List (κ × α)) :
    Alike (c.stow es).checkCapacity (c.checkCapacity.stow es).checkCapacity := by
  rcases Nat.lt_or_ge c.config.evictTo c.size with hlt | hle
  · -- both ask, and the second request is folded into the first
    have hover : c.config.evictTo < (c.stow es).size :=
      Nat.lt_of_lt_of_le hlt (c.size_le_stow es)
    let asked := c.scheduler.requestOneShot
    have honce : (c.stow es).checkCapacity = (c.stow es).noting asked :=
      checkCapacity_noting hover
    have htwice : (c.checkCapacity.stow es).checkCapacity =
        (c.stow es).noting (asked.1, asked.2 ++ asked.1.requestOneShot.2) := by
      calc (c.checkCapacity.stow es).checkCapacity
          = ((c.stow es).noting asked).checkCapacity := by
            rw [checkCapacity_noting hlt, stow_noting]
        _ = ((c.stow es).noting asked).noting asked.1.requestOneShot := checkCapacity_noting hover
        _ = _ := by rw [noting_noting, Scheduler.requestOneShot_again]
    rw [honce, htwice]
    refine ⟨⟨_, rfl⟩, fun hr => ?_⟩
    have hruntime : c.scheduler.runtime = true := by
      rw [← Scheduler.requestOneShot_runtime]
      exact hr
    rw [Scheduler.requestOneShot_again_quiet hruntime, List.append_nil]
  · rw [checkCapacity_of_le hle]
    exact .refl _

theorem putAll_alike_puts (c : Cache κ α σ) (e : κ × α) (es : List (κ × α)) :
    Alike (c.putAll (e :: es)) ((e :: es).foldl (fun c e => (c.put e.1 e.2).2) c) := by
  induction es generalizing c e with
  | nil =>
    rw [putAll_stow]
    exact .refl _
  | cons e' es ih =>
    have hrest : Alike ((c.put e.1 e.2).2.putAll (e' :: es))
        ((e :: e' :: es).foldl (fun c e => (c.put e.1 e.2).2) c) := ih _ e'
    refine .trans ?_ hrest
    rw [putAll_stow, putAll_stow, put_snd]
    exact checkCapacity_stow (c.stow [e]) (e' :: es)

/-- Storing a list of pairs at once leaves what storing them one by one leaves: the
entries, the records with their counter, the statistics and the timers, and so the
pending attempt and when it is due. Only the journals may differ, and not where
timers run. -/
theorem putAll_eq_puts (c : Cache κ α σ) {es : List (κ × α)} (hes : es ≠ []) :
    let d := es.foldl (fun c e => (c.put e.1 e.2).2) c
    (∃ journal, d = { c.putAll es with core := { (c.putAll es).core with journal } }) ∧
      (c.scheduler.runtime = true → d = c.putAll es) := by
  obtain ⟨e, es, rfl⟩ := List.exists_cons_of_ne_nil hes
  have halike := c.putAll_alike_puts e es
  refine ⟨halike.frame, fun hr => halike.same ?_⟩
  obtain ⟨oneShot, journal, hcheck⟩ := (c.stow (e :: es)).checkCapacity_frame
  rw [putAll_stow, hcheck]
  exact hr

def atTarget : Cache Nat Nat Unit where
  setup := ⟨⟨12, 5, 2, 0⟩, ⟨by decide, by decide⟩, Rule.toTest Rule.never, .leastRecent, .stored⟩
  core := {
    store := ⟨[(1, 10), (2, 20)], by decide⟩
    tracker := some { stamps := ⟨[(1, ⟨3, 0⟩), (2, ⟨5, 1⟩)], by decide⟩, next := 2 }
    notes := () }
  scheduler := { runtime := true, clock := 40 }
  now := 7

theorem putAll_eq_puts_repeated :
    [(3, 30), (1, 11), (3, 31)] ≠ [] ∧
    [(3, 30), (1, 11), (3, 31)].foldl (fun c e => (c.put e.1 e.2).2) atTarget =
      atTarget.putAll [(3, 30), (1, 11), (3, 31)] ∧
    (atTarget.putAll [(3, 30), (1, 11), (3, 31)]).scheduler.oneShot = some 90 ∧
    (atTarget.putAll [(3, 30), (1, 11), (3, 31)]).store.entries =
      [(1, 11), (2, 20), (3, 31)] := by
  have hes : [(3, 30), (1, 11), (3, 31)] ≠ [] := by decide
  obtain ⟨-, hsame⟩ := putAll_eq_puts atTarget hes
  exact ⟨hes, hsame rfl, rfl, rfl⟩

end Cache

end SizedCache
