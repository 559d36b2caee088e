import SizedCache.Proofs.Interleaving
import SizedCache.Proofs.PassLaws

/-!
# An attempt on its own

When no other thread takes a step, the steps of an attempt come to what
`Core.attempt` says: the same core is left, and the attempt ends with the same
result. Attempts that its test makes are all skipped.
-/

namespace SizedCache

variable {τ κ α σ : Type} [DecidableEq τ] [DecidableEq κ]

/-- The core as threads share it, which leaves its own slot alone. -/
def Core.vacant (c : Core κ α σ) : Core κ α σ := { c with slot := {} }

namespace World

theorem run_append (s : Setup κ α σ) (w : World τ κ α σ) (xs ys : List (Move τ κ α σ)) :
    w.run s (xs ++ ys) = (w.run s xs).run s ys :=
  List.foldl_append

def alone (t : τ) (core : Core κ α σ) (phase : Phase κ α σ) (begun : Nat)
    (ended : List (Ending τ)) : World τ κ α σ :=
  { core, slot := ⟨some t⟩, live := [{ thread := t, phase }], begun, ended }

/-- Steps of its own lead an attempt from one phase to another, with nothing but
skipped attempts made on the way. -/
def Leads (s : Setup κ α σ) (t : τ) (now : Int64) (c : Core κ α σ) (phase : Phase κ α σ)
    (d : Core κ α σ) (phase' : Phase κ α σ) : Prop :=
  ∀ begun ended, ∃ n nested, (∀ e ∈ nested, e.result = .ok .skipped) ∧
    (alone t c phase begun ended).run s (List.replicate n (.advance t now)) =
      alone t d phase' (begun + nested.length) (nested ++ ended)

namespace Leads

variable {s : Setup κ α σ} {t : τ} {now : Int64} {c d x : Core κ α σ}
  {phase phase' phase'' : Phase κ α σ} {stage stage' : Stage κ α σ}

theorem refl (c : Core κ α σ) (phase : Phase κ α σ) : Leads s t now c phase c phase :=
  fun _ _ => ⟨0, [], by simp, rfl⟩

theorem trans (h : Leads s t now c phase d phase') (h' : Leads s t now d phase' x phase'') :
    Leads s t now c phase x phase'' := by
  intro begun ended
  obtain ⟨n, nested, hskipped, hrun⟩ := h begun ended
  obtain ⟨m, nested', hskipped', hrun'⟩ := h' (begun + nested.length) (nested ++ ended)
  refine ⟨n + m, nested' ++ nested, fun e he => ?_, ?_⟩
  · rcases List.mem_append.mp he with he | he
    · exact hskipped' e he
    · exact hskipped e he
  · rw [List.replicate_add, run_append, hrun, hrun', List.length_append, List.append_assoc,
      Nat.add_assoc, Nat.add_comm nested.length]

theorem go (h : stage.step s true now c = (.go stage', d)) :
    Leads s t now c (.pass stage) d (.pass stage') := by
  intro begun ended
  refine ⟨1, [], by simp, ?_⟩
  simp [alone, run, step, advance, innermost?, work, RunSlot.isRunning, h, put, splice]

theorem stop {r : Except Failure Report} (h : stage.step s true now c = (.stop r, d)) :
    Leads s t now c (.pass stage) d (.leaving r) := by
  intro begun ended
  refine ⟨1, [], by simp, ?_⟩
  simp [alone, run, step, advance, innermost?, work, RunSlot.isRunning, h, put, splice]

theorem nest {resume : Outcome → Stage κ α σ} (h : stage.step s true now c = (.nest resume, d)) :
    Leads s t now c (.pass stage) { d with stats := d.stats.skip }
      (.pass (resume .skipped)) := by
  intro begun ended
  refine ⟨3, [⟨t, some t, .ok .skipped⟩], by simp, ?_⟩
  simp [alone, run, step, advance, innermost?, work, RunSlot.isRunning, h, splice, claim,
    RunSlot.claim?, skip, finish, Attempt.answered, List.replicate]

end Leads

-- ---------------------------------------------------------------------------
-- The pieces of a pass
-- ---------------------------------------------------------------------------

variable (s : Setup κ α σ) (t : τ) (now : Int64)

def judged (k : κ) (ks : List κ) (n : Nat) :
    Except Failure Bool × Core κ α σ → Core κ α σ × Phase κ α σ
  | (.ok false, d) => (d.vacant, .pass (.sweep ks n))
  | (.ok true, d) => ((d.drop k).vacant, .pass (.sweep ks (n + 1)))
  | (.error e, d) => (d.vacant, .leaving (.error e))

theorem judge_leads (k : κ) (j : Judgement σ) (ks : List κ) (n : Nat) {c : Core κ α σ}
    (h : c.slot.isRunning = true) :
    Leads s t now c.vacant (.pass (.judge k j ks n)) (judged k ks n (c.settle j)).1
      (judged k ks n (c.settle j)).2 := by
  induction j generalizing c with
  | keep notes => exact Leads.go rfl
  | remove notes => exact Leads.go rfl
  | fail e notes => exact Leads.stop rfl
  | askRunning resume ih =>
    have hask : (Stage.judge k (.askRunning resume) ks n).step s true now c.vacant =
        (.go (.judge k (resume true) ks n), c.vacant) := rfl
    have hsettle : c.settle (.askRunning resume) = c.settle (resume true) := by
      rw [Core.settle, h]
    rw [hsettle]
    exact (Leads.go hask).trans (ih true h)
  | attempt resume ih =>
    have hnest : (Stage.judge k (.attempt resume) ks n).step s true now c.vacant =
        (.nest fun o => .judge k (resume o) ks n, c.vacant) := rfl
    exact (Leads.nest hnest).trans (ih .skipped (c := { c with stats := c.stats.skip }) h)

def swept (n : Nat) : Except Failure Nat × Core κ α σ → Core κ α σ × Phase κ α σ
  | (.ok m, d) => (d.vacant, .pass (.reconcile (n + m)))
  | (.error e, d) => (d.vacant, .leaving (.error e))

theorem sweep_leads (ks : List κ) (n : Nat) {c : Core κ α σ} (h : c.slot.isRunning = true) :
    Leads s t now c.vacant (.pass (.sweep ks n)) (swept n (c.sweep s.test now ks)).1
      (swept n (c.sweep s.test now ks)).2 := by
  induction ks generalizing c n with
  | nil => exact Leads.go rfl
  | cons k ks ih =>
    cases hk : c.store.get? k with
    | none =>
      have hstep : (Stage.sweep (k :: ks) n).step s true now c.vacant =
          (.go (.sweep ks n), c.vacant) := by
        simp only [Stage.step, show c.vacant.store.get? k = none from hk]
      rw [Core.sweep_absent hk]
      exact (Leads.go hstep).trans (ih n h)
    | some v =>
      have hstep : (Stage.sweep (k :: ks) n).step s true now c.vacant =
          (.go (.judge k (s.test c.notes now k v) ks n), c.vacant) := by
        simp only [Stage.step, show c.vacant.store.get? k = some v from hk]
        rfl
      have hjudge := judge_leads s t now k (s.test c.notes now k v) ks n h
      obtain ⟨notes, stats, hsettled⟩ := Core.settle_snd (s.test c.notes now k v) c
      rcases hsettle : c.settle (s.test c.notes now k v) with ⟨r, d⟩
      rw [hsettle] at hjudge hsettled
      have hd : d.slot.isRunning = true := by rw [show d = _ from hsettled]; exact h
      rcases r with e | (_ | _)
      · rw [Core.sweep_fail hk hsettle]
        exact (Leads.go hstep).trans hjudge
      · rw [Core.sweep_keep hk hsettle]
        exact (Leads.go hstep).trans (hjudge.trans (ih n hd))
      · have hrest := ih (n + 1) (c := d.drop k) hd
        rw [Core.sweep_remove hk hsettle]
        generalize (d.drop k).sweep s.test now ks = out at hrest ⊢
        obtain ⟨e | m, x⟩ := out
        · exact (Leads.go hstep).trans (hjudge.trans hrest)
        · have hcount : n + 1 + m = n + (m + 1) := by omega
          simp only [swept, hcount] at hrest
          exact (Leads.go hstep).trans (hjudge.trans hrest)

theorem evict_leads (vs : List κ) (n m : Nat) (c : Core κ α σ) :
    Leads s t now c.vacant (.pass (.evict vs n m)) (c.evict s.config.evictTo vs).2.vacant
      (.pass (.conclude n (m + (c.evict s.config.evictTo vs).1))) := by
  induction vs generalizing c m with
  | nil => exact Leads.go rfl
  | cons k ks ih =>
    by_cases hsize : c.store.size ≤ s.config.evictTo
    · rw [Core.evict, if_pos hsize]
      exact Leads.go (if_pos hsize)
    · cases hk : c.store.contains k with
      | true =>
        have hstep : (Stage.evict (k :: ks) n m).step s true now c.vacant =
            (.go (.evict ks n (m + 1)), (c.drop k).vacant) :=
          (if_neg hsize).trans (if_pos hk)
        have hevict : c.evict s.config.evictTo (k :: ks) =
            (((c.drop k).evict s.config.evictTo ks).1 + 1,
              ((c.drop k).evict s.config.evictTo ks).2) := by
          rw [Core.evict, if_neg hsize, if_pos hk]
        have hrest := ih (m + 1) (c.drop k)
        rw [Nat.add_right_comm, Nat.add_assoc] at hrest
        rw [hevict]
        exact (Leads.go hstep).trans hrest
      | false =>
        have hnot : ¬ c.store.contains k = true := by simp [hk]
        have hstep : (Stage.evict (k :: ks) n m).step s true now c.vacant =
            (.go (.evict ks n m), c.vacant) :=
          (if_neg hsize).trans (if_neg hnot)
        rw [Core.evict, if_neg hsize, if_neg hnot]
        exact (Leads.go hstep).trans (ih m c)

omit [DecidableEq τ] in
theorem reconcile_vacant (walk : Walk κ) (now : Int64) (c : Core κ α σ) :
    c.vacant.reconcile walk now = (c.reconcile walk now).vacant := by
  cases h : c.tracker with
  | none => simp [Core.reconcile, Core.vacant, h]
  | some r =>
    simp only [Core.reconcile, Core.vacant, h]
    split <;> rfl

omit [DecidableEq τ] [DecidableEq κ] in
theorem conclude_vacant (n m : Nat) (c : Core κ α σ) :
    c.vacant.conclude s n m = ((c.conclude s n m).1, (c.conclude s n m).2.vacant) := by
  by_cases hmax : s.config.maxCapacity < c.store.size
  · simp [Core.conclude, Core.vacant, Core.record, hmax]
  · simp [Core.conclude, Core.vacant, hmax]

def shrunk (n : Nat) : Except Failure Nat × Core κ α σ → Core κ α σ × Phase κ α σ
  | (.ok m, d) => (d.vacant, .pass (.conclude n m))
  | (.error e, d) => (d.vacant, .leaving (.error e))

theorem shrink_leads (n : Nat) (c : Core κ α σ) :
    Leads s t now c.vacant (.pass (.choose n)) (shrunk n (c.shrink s now)).1
      (shrunk n (c.shrink s now)).2 := by
  by_cases hmax : s.config.maxCapacity < c.store.size
  · rcases hchoose : s.selector.choose s.walk c.tracker c.notes now c.store.size s.config.evictTo
        c.store with ⟨keys, notes⟩ | ⟨e, notes⟩
    · have hstep : (Stage.choose n).step s true now c.vacant =
          (.go (.evict keys n 0), { c with notes }.vacant) :=
        (if_pos hmax).trans (by simp only [Core.vacant, hchoose])
      have hshrink : c.shrink s now =
          (.ok ({ c with notes }.evict s.config.evictTo keys).1,
            ({ c with notes }.evict s.config.evictTo keys).2) := by
        simp only [Core.shrink, if_pos hmax, hchoose]
      have hevict := evict_leads s t now keys n 0 { c with notes }
      rw [Nat.zero_add] at hevict
      rw [hshrink]
      exact (Leads.go hstep).trans hevict
    · have hstep : (Stage.choose n).step s true now c.vacant =
          (.stop (.error e), { c with notes }.vacant) :=
        (if_pos hmax).trans (by simp only [Core.vacant, hchoose])
      have hshrink : c.shrink s now = (.error e, { c with notes }) := by
        simp only [Core.shrink, if_pos hmax, hchoose]
      rw [hshrink]
      exact Leads.stop hstep
  · rw [Core.shrink_of_le now (Nat.not_lt.mp hmax)]
    exact Leads.go (if_neg hmax)

theorem pass_leads {c : Core κ α σ} (h : c.slot.isRunning = true) :
    Leads s t now c.vacant (.pass .list) (c.pass s now).2.vacant (.leaving (c.pass s now).1) := by
  have hsweep := sweep_leads s t now (s.walk.arrange c.store.keys) 0 h
  have hlist : Stage.list.step s true now c.vacant =
      (.go (.sweep (s.walk.arrange c.store.keys) 0), c.vacant) := rfl
  refine (Leads.go hlist).trans ?_
  rcases hswept : c.sweep s.test now (s.walk.arrange c.store.keys) with ⟨e | n, d⟩
  · rw [hswept] at hsweep
    rw [Core.pass_of_sweep_error hswept]
    exact hsweep
  · rw [hswept] at hsweep
    simp only [swept, Nat.zero_add] at hsweep
    have hreconcile : (Stage.reconcile n).step s true now d.vacant =
        (.go (.choose n), (d.reconcile s.walk now).vacant) := by
      simp only [Stage.step, reconcile_vacant]
    have hshrink := shrink_leads s t now n (d.reconcile s.walk now)
    refine hsweep.trans ((Leads.go hreconcile).trans ?_)
    rcases hshrunk : (d.reconcile s.walk now).shrink s now with ⟨e | m, x⟩
    · rw [hshrunk] at hshrink
      rw [Core.pass_of_shrink_error hswept hshrunk]
      exact hshrink
    · rw [hshrunk] at hshrink
      rw [Core.pass_of_ok hswept hshrunk]
      have hconclude : (Stage.conclude n m).step s true now x.vacant =
          (.stop (.ok (x.conclude s n m).1), (x.conclude s n m).2.vacant) := by
        simp only [Stage.step, conclude_vacant]
      exact hshrink.trans (Leads.stop hconclude)

theorem run_start_claim (c : Core κ α σ) :
    ({ core := c } : World τ κ α σ).run s [.start t, .advance t now] =
      alone t c (.pass .list) 1 [] := by
  simp [run, step, advance, innermost?, claim, RunSlot.claim?, splice, alone]

theorem run_release (c : Core κ α σ) (r : Except Failure Report) (begun : Nat)
    (ended : List (Ending τ)) :
    (alone t c (.leaving r) begun ended).run s [.advance t now] =
      { core := c, begun, ended := ⟨t, none, r.map .completed⟩ :: ended } := by
  simp [run, step, advance, innermost?, release, RunSlot.release, finish, splice, alone]

/-- An attempt that no other thread interrupts leaves the core that
`Core.attempt` leaves, with the slot free, and ends with its result. -/
theorem run_alone {c : Core κ α σ} (hfree : c.slot = {}) (who : Origin) :
    ∃ n nested, (∀ e ∈ nested, e.result = .ok .skipped) ∧
      ({ core := c } : World τ κ α σ).run s (.start t :: List.replicate n (.advance t now)) =
        { core := (c.attempt s who now).2
          begun := nested.length + 1
          ended := ⟨t, none, (c.attempt s who now).1⟩ :: nested } := by
  have hheld : (c.claimed who).vacant = c := by
    cases c
    cases hfree
    rfl
  obtain ⟨n, nested, hskipped, hrun⟩ := pass_leads s t now (c := c.claimed who) rfl 1 []
  rw [hheld, List.append_nil, Nat.add_comm] at hrun
  refine ⟨n + 1 + 1, nested, hskipped, ?_⟩
  rw [List.replicate_succ, List.replicate_succ', ← List.cons_append, ← List.cons_append]
  show World.run s _ ([.start t, .advance t now] ++ List.replicate n (.advance t now) ++
    [.advance t now]) = _
  rw [run_append, run_append, run_start_claim, hrun, run_release, Core.attempt_of_free hfree]
  rfl

end World

end SizedCache
