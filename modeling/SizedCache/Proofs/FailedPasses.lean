import SizedCache.Proofs.PassBooks
import SizedCache.Proofs.Verdicts
import SizedCache.Proofs.WriteTrigger

/-!
# Failed passes

A pass fails where its test fails at an entry, or where its selector fails. Either
way the failure goes no further than the attempt: it is the caller's answer or a
line in the journal, the slot is free, nothing is counted, and no more is gone than
the test had given up by then. An on-write attempt that fails is no longer pending,
so that a write may ask for another.
-/

namespace SizedCache

-- ---------------------------------------------------------------------------
-- Tests that make no attempts
-- ---------------------------------------------------------------------------

def Judgement.NeverAttempts {σ : Type} : Judgement σ → Prop
  | .keep _ | .remove _ | .fail _ _ => True
  | .askRunning resume => ∀ b, (resume b).NeverAttempts
  | .attempt _ => False

def RemovalTest.NeverAttempts {κ α σ : Type} (test : RemovalTest κ α σ) : Prop :=
  ∀ notes now k v, (test notes now k v).NeverAttempts

theorem Judgement.NeverAttempts.attempts_eq_zero {σ : Type} {j : Judgement σ}
    (h : j.NeverAttempts) (running : Bool) : j.attempts running = 0 := by
  induction j with
  | keep notes | remove notes | fail e notes => rfl
  | askRunning resume ih => exact ih _ (h _)
  | attempt resume ih => exact h.elim

namespace Core

variable {κ α σ : Type} [DecidableEq κ]

theorem nested_eq_zero {test : RemovalTest κ α σ} (h : test.NeverAttempts) (now : Int64)
    (ks : List κ) (c : Core κ α σ) : c.nested test now ks = 0 := by
  induction ks generalizing c with
  | nil => rfl
  | cons k ks ih =>
    unfold nested
    split
    · exact ih c
    · simp only [(h _ _ _ _).attempts_eq_zero, Nat.zero_add]
      split
      · rfl
      · exact ih _
      · exact ih _

-- ---------------------------------------------------------------------------
-- Passes that fail
-- ---------------------------------------------------------------------------

/-- In a pass the test is asked about the key `k` with the value `v`, and `answer`
is what it says. -/
def PassJudges (s : Setup κ α σ) (now : Int64) (c : Core κ α σ) (k : κ) (v : α)
    (answer : Except Failure Bool) : Prop :=
  Judges s.test now (s.walk.arrange c.store.keys) c k v answer

/-- What can fail in a pass: the test at an entry, or the selector, which is asked
above the ceiling. -/
inductive PassFails (s : Setup κ α σ) (now : Int64) (c : Core κ α σ) (e : Failure) : Prop where
  | test (k : κ) (v : α) (h : PassJudges s now c k v (.error e))
  | selector (n : Nat) (notes : σ)
    (hswept : (c.sweep s.test now (s.walk.arrange c.store.keys)).1 = .ok n)
    (hover : s.config.maxCapacity < (c.sifted s now).store.size)
    (hchoice : s.selector.choose s.walk (c.sifted s now).tracker (c.sifted s now).notes now
      (c.sifted s now).store.size s.config.evictTo (c.sifted s now).store = .fail e notes)

variable {s : Setup κ α σ} {now : Int64} {c : Core κ α σ} {e : Failure}

/-- The core of a pass that fails is the one that its sweep leaves, or the same with
its records in line and other notes. -/
theorem pass_of_fails (h : PassFails s now c e) :
    (c.pass s now).1 = .error e ∧
      ((c.pass s now).2 = (c.sweep s.test now (s.walk.arrange c.store.keys)).2 ∨
        ∃ notes, (c.pass s now).2 = { c.sifted s now with notes }) := by
  cases h with
  | test k v h =>
    rw [pass_of_sweep_error (Prod.ext (sweep_fails_iff.mpr ⟨k, v, h⟩) rfl)]
    exact ⟨rfl, .inl rfl⟩
  | selector n notes hswept hover hchoice =>
    rw [pass_of_sifted_error hswept (shrink_of_fail hover hchoice)]
    exact ⟨rfl, .inr ⟨notes, rfl⟩⟩

theorem pass_fails_iff : (c.pass s now).1 = .error e ↔ PassFails s now c e := by
  refine ⟨fun hpass => ?_, fun h => (pass_of_fails h).1⟩
  rcases hswept : (c.sweep s.test now (s.walk.arrange c.store.keys)).1 with e' | n
  · rw [pass_of_sweep_error (Prod.ext hswept rfl)] at hpass
    obtain rfl := Except.error.inj hpass
    obtain ⟨k, v, hjudged⟩ := sweep_fails_iff.mp hswept
    exact .test k v hjudged
  · have hended : ∀ m y, (c.sifted s now).shrink s now ≠ (.ok m, y) := by
      intro m y hy
      rw [pass_of_sifted_ok hswept hy] at hpass
      cases hpass
    rcases Nat.lt_or_ge s.config.maxCapacity (c.sifted s now).store.size with hover | hwithin
    · rcases hchoice : s.selector.choose s.walk (c.sifted s now).tracker (c.sifted s now).notes now
          (c.sifted s now).store.size s.config.evictTo (c.sifted s now).store with
        ⟨named, notes⟩ | ⟨e', notes⟩
      · exact absurd (shrink_of_victims hover hchoice) (hended _ _)
      · rw [pass_of_sifted_error hswept (shrink_of_fail hover hchoice)] at hpass
        obtain rfl := Except.error.inj hpass
        exact .selector n notes hswept hover hchoice
    · exact absurd (shrink_of_le now hwithin) (hended _ _)

theorem pass_store_of_fails (h : PassFails s now c e) :
    (c.pass s now).2.store = (c.sweep s.test now (s.walk.arrange c.store.keys)).2.store := by
  obtain ⟨-, heq | ⟨notes, heq⟩⟩ := pass_of_fails h
  · rw [heq]
  · rw [heq]
    exact reconcile_store s.walk now _

theorem pass_untracks_of_fails (h : PassFails s now c e) {k : κ} (hk : k ∈ c.store.keys)
    (hgone : k ∉ (c.pass s now).2.store.keys) {r : Recency κ}
    (hr : (c.pass s now).2.tracker = some r) : k ∉ r.keys := by
  obtain ⟨-, heq | ⟨notes, heq⟩⟩ := pass_of_fails h
  · rw [heq] at hgone hr
    exact sweep_untracks hk hgone hr
  · -- the records are those of the stored keys
    have hmirrored : (c.sifted s now).Mirrored := reconcile_mirrored s.walk now _
    rw [heq] at hgone hr
    exact fun hmem => hgone ((hmirrored r hr k).mp hmem)

theorem pass_stats_of_fails (htest : s.test.NeverAttempts) (h : PassFails s now c e) :
    (c.pass s now).2.stats = c.stats := by
  have hposted := (pass_posted s now c).stats
  rw [(pass_of_fails h).1, nested_eq_zero htest] at hposted
  rw [hposted]
  simp [Stats.post, Books.add_def, Books.add, Books.ofAttempt, Except.map]

-- ---------------------------------------------------------------------------
-- Attempts that fail
-- ---------------------------------------------------------------------------

structure Contained (s : Setup κ α σ) (who : Origin) (now : Int64) (c x : Core κ α σ) : Prop where
  free : x.slot = {}
  next : ∀ who' now', (x.attempt s who' now').1 ≠ .ok .skipped
  left : ∀ k v, x.store.get? k = some v ↔
    c.store.get? k = some v ∧ ¬ PassJudges s now (c.claimed who) k v (.ok true)
  judged : ∀ k v e, PassJudges s now (c.claimed who) k v (.error e) → x.store.get? k = some v
  untracked : ∀ k ∈ c.store.keys, k ∉ x.store.keys → ∀ r, x.tracker = some r → k ∉ r.keys
  stats : x.stats = c.stats

theorem attempt_free (hfree : c.slot = {}) (who : Origin) : (c.attempt s who now).2.slot = {} := by
  rw [attempt_of_free hfree]

theorem attempts_free (hfree : c.slot = {}) (wall : Nat → Int64) (fs : List Firing) :
    (attempts s wall fs c).slot = {} := by
  induction fs generalizing c with
  | nil => exact hfree
  | cons f fs ih => exact ih (attempt_free hfree (.trigger f.timer.kind))

theorem attempt_ne_skipped (hfree : c.slot = {}) (who : Origin) :
    (c.attempt s who now).1 ≠ .ok .skipped := by
  rw [attempt_of_free hfree]
  intro hskipped
  obtain ⟨report, -, hreport⟩ := Except.map_eq_ok.mp hskipped
  cases hreport

theorem attempt_of_fails (htest : s.test.NeverAttempts) (hfree : c.slot = {}) {who : Origin}
    (h : PassFails s now (c.claimed who) e) :
    ∃ x, c.attempt s who now = (.error e, x) ∧ c.Contained s who now x := by
  have hstore := pass_store_of_fails h
  have hattempt := attempt_of_free hfree s who now
  rw [(pass_of_fails h).1] at hattempt
  refine ⟨_, hattempt, rfl, fun who' now' => attempt_ne_skipped rfl who', ?_, ?_, ?_, ?_⟩
  · intro k v
    show ((c.claimed who).pass s now).2.store.get? k = some v ↔ _
    rw [hstore, sweep_leaves_iff]
    rfl
  · intro k v e' hjudged
    show ((c.claimed who).pass s now).2.store.get? k = some v
    rw [hstore]
    exact sweep_leaves_of_fail hjudged
  · intro k hk hgone r hr
    exact pass_untracks_of_fails h hk hgone hr
  · exact pass_stats_of_fails htest h

end Core

namespace Cache

variable {κ α σ : Type} [DecidableEq κ] [DecidableEq α] [Expirable α]

-- ---------------------------------------------------------------------------
-- Between calls
-- ---------------------------------------------------------------------------

structure AtRest (c : Cache κ α σ) : Prop where
  free : c.core.slot = {}
  timed : c.scheduler.oneShot.isSome → c.scheduler.runtime = true

omit [DecidableEq κ] [DecidableEq α] [Expirable α] in
theorem checkCapacity_atRest {c : Cache κ α σ} (h : c.AtRest) : c.checkCapacity.AtRest := by
  rcases Nat.lt_or_ge c.config.evictTo c.size with hover | hwithin
  · rw [checkCapacity_of_lt hover]
    refine ⟨h.free, fun hsome => ?_⟩
    cases hr : c.scheduler.runtime with
    | true =>
      rw [Scheduler.requestOneShot_fst hr]
      exact hr
    | false =>
      -- a request where no timers run changes nothing
      have hsame : c.scheduler.requestOneShot.1 = c.scheduler := by
        simp [Scheduler.requestOneShot, hr]
      rw [hsame] at hsome ⊢
      exact h.timed hsome
  · rw [checkCapacity_of_le hwithin]
    exact h

theorem step_atRest {c : Cache κ α σ} (h : c.AtRest) (call : Call κ α) :
    (c.step call).2.AtRest := by
  have hdirect : call.IsDirect → (c.step call).2.AtRest := by
    intro hd
    obtain ⟨-, hslot, -, -⟩ := Core.actAll_frame c.now (c.effects call)
      { c.core with stats := c.tally call c.core.stats }
    have hperform : (c.perform call).AtRest := ⟨hslot.trans h.free, h.timed⟩
    rw [step_snd c hd]
    split
    · exact checkCapacity_atRest hperform
    · exact hperform
  cases call with
  | forceCleanup => exact ⟨Core.attempt_free h.free .caller, h.timed⟩
  | sleep ms =>
    obtain ⟨tasks, hsched⟩ := c.sleep_scheduler ms
    refine ⟨?_, fun hsome => ?_⟩
    · show (c.sleep ms).core.slot = {}
      rw [sleep_attempts rfl]
      exact Core.attempts_free h.free _ _
    · have hsome : (c.sleep ms).scheduler.oneShot.isSome := hsome
      show (c.sleep ms).scheduler.runtime = true
      rw [hsched] at hsome ⊢
      obtain ⟨due, hdue⟩ := Option.isSome_iff_exists.mp hsome
      exact h.timed (Option.isSome_of_eq_some (Option.filter_eq_some_iff.mp hdue).1)
  | setClock now => exact ⟨h.free, h.timed⟩
  | editTracker f => exact ⟨h.free, h.timed⟩
  | _ => exact hdirect rfl

theorem run_atRest {c : Cache κ α σ} (h : c.AtRest) (calls : List (Call κ α)) :
    (c.run calls).AtRest := by
  induction calls generalizing c with
  | nil => exact h
  | cons call calls ih => exact ih (step_atRest h call)

omit [DecidableEq κ] [DecidableEq α] [Expirable α] in
theorem built_atRest {b : Builder κ α σ} {now : Int64} {notes : σ} {c : Cache κ α σ}
    (hc : b.build now notes = .ok c) : c.AtRest ∧ c.setup.test = b.test := by
  obtain ⟨hv, scheduler, events, hstart, rfl⟩ := Builder.build_ok hc
  obtain ⟨-, -, hnone, -⟩ := Scheduler.startPeriodic_ok hstart
  refine ⟨⟨rfl, fun hsome => ?_⟩, rfl⟩
  rw [hnone] at hsome
  cases hsome

-- ---------------------------------------------------------------------------
-- Triggers
-- ---------------------------------------------------------------------------

omit [DecidableEq α] [Expirable α] in
/-- A timer that fires in a sleep makes an attempt on a core whose slot is free. The
sleep goes on from there with the timers that follow. -/
theorem AtRest.fire_in_sleep {c : Cache κ α σ} (h : c.AtRest) {ms : Nat}
    {earlier later : List Firing} {f : Firing} (hf : c.firingsIn ms = earlier ++ f :: later)
    {timers : Scheduler} {core : Core κ α σ}
    (hcore : Scheduler.fireAll (target c.setup) c.wallAt earlier c.scheduler c.core =
      (timers, core)) :
    core.slot = {} ∧ ∃ timers',
      Scheduler.fire (target c.setup) (c.wallAt f.due) f.timer timers core =
        (timers', Scheduler.trigger (target c.setup) f.timer.kind (c.wallAt f.due) core) ∧
      (f.timer = .oneShot → timers'.oneShot = none) ∧
      (c.sleep ms).core = (Scheduler.fireAll (target c.setup) c.wallAt later timers'
        (Scheduler.trigger (target c.setup) f.timer.kind (c.wallAt f.due) core)).2 := by
  have halive : ∀ x : Core κ α σ, (target c.setup).alive x = true := fun _ => rfl
  have hlive : ∀ g ∈ earlier ++ f :: later, c.scheduler.Live g.timer := fun g hg =>
    Scheduler.live_of_mem_firings (hf ▸ hg)
  have hattempts : core = c.core.attempts c.setup c.wallAt earlier := by
    have hsnd := Scheduler.fireAll_snd halive
      (fun g hg => hlive g (List.mem_append_left _ hg)) c.wallAt c.core
    rw [hcore] at hsnd
    exact hsnd
  have hf_live : timers.Live f.timer := by
    have hstill := Scheduler.live_fireAll halive (hlive f (by simp)) c.wallAt earlier c.core
    rwa [hcore] at hstill
  have hfire : Scheduler.fire (target c.setup) (c.wallAt f.due) f.timer timers core =
      (_, Scheduler.trigger (target c.setup) f.timer.kind (c.wallAt f.due) core) :=
    Prod.ext rfl (Scheduler.fire_snd halive hf_live (c.wallAt f.due) core)
  refine ⟨hattempts ▸ Core.attempts_free h.free c.wallAt earlier, _, hfire, fun ht => ?_, ?_⟩
  · rw [ht]
    rfl
  · have hsleep : (c.sleep ms).core =
        (Scheduler.fireAll (target c.setup) c.wallAt (c.firingsIn ms) c.scheduler c.core).2 := rfl
    rw [hsleep, hf, Scheduler.fireAll_append, hcore, Scheduler.fireAll, hfire]

omit [DecidableEq α] [Expirable α] in
/-- After a sleep in which the pending attempt is made none is pending. -/
theorem sleep_oneShot_of_fired {c : Cache κ α σ} {ms : Nat} {f : Firing}
    (hf : f ∈ c.firingsIn ms) (ht : f.timer = .oneShot) :
    c.scheduler.oneShot.isSome ∧ (c.sleep ms).scheduler.oneShot = none := by
  obtain ⟨due, hdue, hle⟩ := Scheduler.oneShot_mem_firings.mp ⟨f, hf, ht⟩
  obtain ⟨tasks, hsched⟩ := c.sleep_scheduler ms
  refine ⟨Option.isSome_of_eq_some hdue, ?_⟩
  rw [hsched, hdue]
  simp [Option.filter, hle]

/-- Take a cache after any calls, and a test that makes no attempts but may fail.
An attempt by a caller fails iff the test or the selector does, and the caller is
told. An attempt by a timer that fails in a sleep is logged, and the sleep goes on.
Either way the failure is contained. If the attempt was the one that a write asked
for, nothing is pending after it, and the next call that finds the size above the
target asks for another. -/
theorem failed_pass_contained {b : Builder κ α σ} (htest : b.test.NeverAttempts) {now : Int64}
    {notes : σ} {c : Cache κ α σ} (hc : b.build now notes = .ok c) (calls : List (Call κ α)) :
    let d := c.run calls
    (∀ e, d.forceCleanup.1 = .error e ↔ (d.core.claimed .caller).PassFails d.setup d.now e) ∧
    (∀ e, (d.core.claimed .caller).PassFails d.setup d.now e →
      ∃ x, d.forceCleanup = (.error e, { d with core := x }) ∧
        d.core.Contained d.setup .caller d.now x) ∧
    ∀ ms earlier f later timers core, d.firingsIn ms = earlier ++ f :: later →
      Scheduler.fireAll (target d.setup) d.wallAt earlier d.scheduler d.core = (timers, core) →
      ∀ e, (core.claimed (.trigger f.timer.kind)).PassFails d.setup (d.wallAt f.due) e →
        ∃ x timers', core.attempt d.setup (.trigger f.timer.kind) (d.wallAt f.due) = (.error e, x) ∧
          core.Contained d.setup (.trigger f.timer.kind) (d.wallAt f.due) x ∧
          Scheduler.fire (target d.setup) (d.wallAt f.due) f.timer timers core =
            (timers', x.record (.failed f.timer.kind)) ∧
          (d.sleep ms).core = (Scheduler.fireAll (target d.setup) d.wallAt later timers'
            (x.record (.failed f.timer.kind))).2 ∧
          (f.timer = .oneShot →
            timers'.oneShot = none ∧ (d.sleep ms).scheduler.oneShot = none ∧
            ∀ between call, (d.sleep ms).asksIn between = false →
              ((d.sleep ms).run between).asks call = true →
              (((d.sleep ms).run between).step call).2.scheduler.oneShot =
                some (((d.sleep ms).run between).scheduler.clock + 50)) := by
  intro d
  obtain ⟨hbuilt, hsetup⟩ := built_atRest hc
  have hd : d.AtRest := run_atRest hbuilt calls
  have htest : d.setup.test.NeverAttempts := by
    rw [(run_frame c calls).2, hsetup]
    exact htest
  refine ⟨fun e => ?_, fun e hfails => ?_, ?_⟩
  · rw [← Core.pass_fails_iff]
    show (d.core.attempt d.setup .caller d.now).1 = .error e ↔ _
    rw [Core.attempt_of_free hd.free]
    cases ((d.core.claimed .caller).pass d.setup d.now).1 <;> simp [Except.map]
  · obtain ⟨x, hattempt, hcontained⟩ := Core.attempt_of_fails htest hd.free hfails
    refine ⟨x, ?_, hcontained⟩
    simp only [forceCleanup, hattempt]
  · intro ms earlier f later timers core hf hcore e hfails
    obtain ⟨hfree, timers', hfire, hcleared, hrest⟩ := hd.fire_in_sleep hf hcore
    obtain ⟨x, hattempt, hcontained⟩ := Core.attempt_of_fails htest hfree hfails
    have htrigger : Scheduler.trigger (target d.setup) f.timer.kind (d.wallAt f.due) core =
        x.record (.failed f.timer.kind) := by
      simp only [Scheduler.trigger, target, hattempt, Event.ofAttempt]
    rw [htrigger] at hfire hrest
    refine ⟨x, timers', hattempt, hcontained, hfire, hrest, fun ht => ?_⟩
    have hmem : f ∈ d.firingsIn ms := hf ▸ List.mem_append_right _ (List.mem_cons_self ..)
    obtain ⟨hpending, hnone⟩ := sleep_oneShot_of_fired hmem ht
    refine ⟨hcleared ht, hnone, fun between call hquiet hasks => ?_⟩
    -- timers run, as one was pending, and nothing asks between the sleep and the call
    have hruntime : ((d.sleep ms).run between).scheduler.runtime = true := by
      obtain ⟨tasks, hsched⟩ := d.sleep_scheduler ms
      rw [(run_frame (d.sleep ms) between).1, hsched]
      exact hd.timed hpending
    rw [step_oneShot_of_asks hruntime hasks, run_oneShot_of_not_asks hnone hquiet]
    rfl

def brittleBuilder : Builder Nat (Timed Nat) Unit :=
  ((Builder.start ⟨16, 3, 1, 0⟩ true).removalTest fun notes _ k _ =>
    if k = 2 then .fail ⟨"policy failure"⟩ notes else .remove notes).leastRecentlyTouched

/-- Three writes, the second of which asks for an attempt. -/
def threeWrites : List (Call Nat (Timed Nat)) :=
  [.put 1 (.permanent 7 0), .put 2 (.permanent 8 0), .put 3 (.permanent 9 0)]

theorem failed_pass_contained_brittle :
    brittleBuilder.test.NeverAttempts ∧ ∃ c, brittleBuilder.build 0 () = .ok c ∧
      (∃ x, (c.run threeWrites).forceCleanup =
          (.error ⟨"policy failure"⟩, { c.run threeWrites with core := x }) ∧
        x.store.get? 1 = none ∧ x.store.get? 2 = some (.permanent 8 0)) ∧
      ((c.run threeWrites).sleep 50).scheduler.oneShot = none ∧
      (((c.run threeWrites).sleep 50).step (.put 4 (.permanent 10 0))).2.scheduler.oneShot =
        some 100 := by
  have htest : brittleBuilder.test.NeverAttempts := by
    intro notes now k v
    show Judgement.NeverAttempts (if k = 2 then _ else _)
    split <;> exact trivial
  obtain ⟨c, hc⟩ : ∃ c, brittleBuilder.build 0 () = .ok c := ⟨_, rfl⟩
  obtain ⟨-, hforce, hsleep⟩ := failed_pass_contained htest hc threeWrites
  refine ⟨htest, c, hc, ?_, ?_⟩
  · have hgone : ((c.run threeWrites).core.claimed .caller).PassJudges (c.run threeWrites).setup
        (c.run threeWrites).now 1 (.permanent 7 0) (.ok true) := by
      cases hc
      exact ⟨[], [2, 3], 0, _, rfl, rfl, rfl, rfl⟩
    have hfailed : ((c.run threeWrites).core.claimed .caller).PassJudges (c.run threeWrites).setup
        (c.run threeWrites).now 2 (.permanent 8 0) (.error ⟨"policy failure"⟩) := by
      cases hc
      exact ⟨[1], [3], 1, _, rfl, rfl, rfl, rfl⟩
    obtain ⟨x, hx, hcontained⟩ := hforce _ (.test 2 _ hfailed)
    refine ⟨x, hx, ?_, hcontained.judged _ _ _ hfailed⟩
    have hone : (c.run threeWrites).store.get? 1 = some (.permanent 7 0) := by
      cases hc
      rfl
    cases hget : x.store.get? 1 with
    | none => rfl
    | some v =>
      obtain ⟨hv, hkept⟩ := (hcontained.left 1 v).mp hget
      obtain rfl := Option.some.inj (hone.symm.trans hv)
      exact absurd hgone hkept
  · have hdue : (c.run threeWrites).firingsIn 50 = [] ++ ⟨50, .oneShot⟩ :: [] := by
      cases hc
      decide +kernel
    have hfailed : ((c.run threeWrites).core.claimed (.trigger .onWrite)).PassJudges
        (c.run threeWrites).setup ((c.run threeWrites).wallAt 50) 2 (.permanent 8 0)
        (.error ⟨"policy failure"⟩) := by
      cases hc
      exact ⟨[1], [3], 1, _, rfl, rfl, rfl, rfl⟩
    obtain ⟨x, timers, -, -, -, -, hagain⟩ := hsleep 50 [] ⟨50, .oneShot⟩ [] _ _ hdue rfl
      ⟨"policy failure"⟩ (.test 2 _ hfailed)
    obtain ⟨-, hnone, hasked⟩ := hagain rfl
    have hasks : ((c.run threeWrites).sleep 50).asks (.put 4 (.permanent 10 0)) = true := by
      cases hc
      decide +kernel
    have hclock : ((c.run threeWrites).sleep 50).scheduler.clock = 50 := by
      cases hc
      rfl
    refine ⟨hnone, (hasked [] _ rfl hasks).trans ?_⟩
    exact congrArg (fun clock => some (clock + 50)) hclock

end Cache

end SizedCache
