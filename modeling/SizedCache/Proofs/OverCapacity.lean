import SizedCache.Proofs.BuildLaws
import SizedCache.Proofs.CallLaws
import SizedCache.Proofs.PassLaws
import SizedCache.Proofs.TimerLaws

/-!
# Over capacity

A cache with timers, a stock selector and a test that never fails is never left
above its ceiling without a pending attempt. Calls that do not check the size do
not make the store grow, those that check it ask for an attempt above the target
size, and each attempt that is made brings the store below the ceiling.
-/

namespace SizedCache

namespace Core

variable {κ α σ : Type} [DecidableEq κ]

/-- Between calls the slot is free, and the selector has what it reads. -/
structure Ready (s : Setup κ α σ) (c : Core κ α σ) : Prop where
  free : c.slot = {}
  stock : s.selector.Stock c.tracker

variable {s : Setup κ α σ} {c : Core κ α σ}

theorem Ready.attempt (h : Ready s c) (hf : s.test.NeverFails) (who : Origin) (now : Int64) :
    Ready s (c.attempt s who now).2 ∧
      (c.attempt s who now).2.store.size ≤ s.config.maxCapacity ∧
      (s.test.NeverRemoves →
        (c.attempt s who now).2.store.size = c.store.size - s.config.excess c.store.size) := by
  obtain ⟨n, x, vs, hsweep, hvs, hkeys, hlen, -, hstore, htracks, hslot⟩ :=
    attempt_stock hf h.stock h.free who now
  have hadd := Table.size_without hvs hkeys
  have hsize : (c.attempt s who now).2.store.size =
      x.store.size - s.config.excess x.store.size := by
    rw [hstore, ← hlen]
    omega
  refine ⟨⟨hslot, h.stock.congr htracks⟩, ?_, fun hr => ?_⟩
  · rw [hsize]
    exact Config.sub_excess_le s.valid _
  · have hx := sweep_store_of_neverRemoves hr now (s.walk.arrange c.store.keys) (c.claimed who)
    rw [hsweep] at hx
    rw [hsize, show x.store = c.store from hx]

theorem Ready.triggers (h : Ready s c) (hf : s.test.NeverFails) (wall : Nat → Int64)
    (fs : List Firing) :
    let x := fs.foldl (fun x f =>
      Scheduler.trigger (Cache.target s) f.timer.kind (wall f.due) x) c
    Ready s x ∧ (fs ≠ [] → x.store.size ≤ s.config.maxCapacity) ∧
      (fs ≠ [] → s.test.NeverRemoves →
        x.store.size = c.store.size - s.config.excess c.store.size) := by
  induction fs generalizing c with
  | nil => exact ⟨h, fun hne => absurd rfl hne, fun hne => absurd rfl hne⟩
  | cons f fs ih =>
    obtain ⟨hready, hmax, hsize⟩ := h.attempt hf (.trigger f.timer.kind) (wall f.due)
    let y := Scheduler.trigger (Cache.target s) f.timer.kind (wall f.due) c
    have hy : Ready s y := ⟨hready.free, hready.stock⟩
    obtain ⟨hx, hxmax, hxsize⟩ := ih hy
    refine ⟨hx, fun _ => ?_, fun _ hr => ?_⟩
    · cases fs with
      | nil => exact hmax
      | cons g gs => exact hxmax (by simp)
    · have hysize : y.store.size = c.store.size - s.config.excess c.store.size := hsize hr
      cases fs with
      | nil => exact hysize
      | cons g gs =>
        have hnone : s.config.excess y.store.size = 0 := Config.excess_of_le hmax
        exact (hxsize (by simp) hr).trans (by rw [hnone, Nat.sub_zero, hysize])

theorem size_act_le {now : Int64} {e : Effect κ α}
    (h : ∀ k v, e = .keep k v → c.store.get? k = some v) :
    (c.act now e).store.size ≤ c.store.size := by
  cases e with
  | keep k v => exact Nat.le_of_eq (by rw [act_keep_self (h k v rfl)]; rfl)
  | drop k => exact c.store.size_erase_le k
  | clear => exact Nat.zero_le _

end Core

namespace Cache

variable {κ α σ : Type} [DecidableEq κ] [DecidableEq α] [Expirable α]

theorem effects_of_unchecked {c : Cache κ α σ} {call : Call κ α} (h : c.checks call = false) :
    c.effects call = [] ∨ ∃ e, c.effects call = [e] ∧
      ∀ k v, e = .keep k v → c.store.get? k = some v := by
  cases call with
  | put k v => cases h
  | putAll es => cases h
  | putIfAbsent k v => cases h
  | remove k => cases h
  | replace k v => cases h
  | replaceIfEq k old new => cases h
  | removeIfEq k v =>
    by_cases hk : c.store.get? k = some v
    · exact .inr ⟨.drop k, by simp [effects, hk], by simp⟩
    · exact .inl (by simp [effects, hk])
  | get k | getOrDefault k v =>
    cases hk : c.store.get? k with
    | none => exact .inl (by simp [effects, hk])
    | some w =>
      refine .inr ⟨.keep k w, by simp [effects, hk], fun j v he => ?_⟩
      cases he
      exact hk
  | getLive k =>
    cases hk : c.store.get? k with
    | none => exact .inl (by simp [effects, hk])
    | some w =>
      cases he : Expirable.expired w c.now with
      | true => exact .inr ⟨.drop k, by simp [effects, hk, he], by simp⟩
      | false =>
        refine .inr ⟨.keep k w, by simp [effects, hk, he], fun j v he => ?_⟩
        cases he
        exact hk
  | clear => exact .inr ⟨.clear, rfl, by simp⟩
  | computeIfAbsent k f | computeIfPresent k f | compute k f | merge k v f =>
    simp only [checks] at h
    split at h
    · rename_i hfail
      exact .inl (effects_of_closure_error hfail)
    · cases h
  | contains k => exact .inl rfl
  | forceCleanup => exact .inl rfl
  | sleep ms => exact .inl rfl
  | setClock now => exact .inl rfl
  | editTracker f => exact .inl rfl

theorem size_perform_le {c : Cache κ α σ} {call : Call κ α} (h : c.checks call = false) :
    (c.perform call).size ≤ c.size := by
  rw [size, perform]
  rcases effects_of_unchecked h with he | ⟨e, he, hk⟩
  · rw [he]
    exact Nat.le_refl _
  · rw [he]
    exact Core.size_act_le hk

theorem perform_ready {s : Setup κ α σ} {c : Cache κ α σ} (h : Core.Ready s c.core)
    (call : Call κ α) : Core.Ready s (c.perform call).core := by
  obtain ⟨-, hslot, -, -⟩ := Core.actAll_frame c.now (c.effects call)
    { c.core with stats := c.tally call c.core.stats }
  have htracks := Core.actAll_tracks c.now (c.effects call)
    { c.core with stats := c.tally call c.core.stats }
  exact ⟨hslot.trans h.free, h.stock.congr htracks⟩

structure Watched (s : Setup κ α σ) (c : Cache κ α σ) : Prop where
  setup : c.setup = s
  ready : Core.Ready s c.core
  runtime : c.scheduler.runtime = true
  due : ∀ due, c.scheduler.oneShot = some due →
    c.scheduler.clock < due ∧ due ≤ c.scheduler.clock + oneShotDelay
  pending : s.config.maxCapacity < c.size → c.scheduler.oneShot.isSome

namespace Watched

variable {s : Setup κ α σ} {c : Cache κ α σ}

omit [DecidableEq κ] [DecidableEq α] [Expirable α] in
theorem checkCapacity (hs : c.setup = s) (hready : Core.Ready s c.core)
    (hr : c.scheduler.runtime = true)
    (hdue : ∀ due, c.scheduler.oneShot = some due →
      c.scheduler.clock < due ∧ due ≤ c.scheduler.clock + oneShotDelay) :
    Watched s c.checkCapacity := by
  rcases Nat.lt_or_ge c.config.evictTo c.size with h | h
  · rw [checkCapacity_of_lt h, Scheduler.requestOneShot_fst hr]
    refine ⟨hs, ⟨hready.free, hready.stock⟩, hr, fun due he => ?_, fun _ => rfl⟩
    rw [← Option.some.inj he]
    cases ho : c.scheduler.oneShot with
    | none => exact ⟨Nat.lt_add_of_pos_right (by decide), Nat.le_refl _⟩
    | some old => exact hdue old ho
  · rw [checkCapacity_of_le h]
    refine ⟨hs, hready, hr, hdue, fun hover => ?_⟩
    have hle : c.config.evictTo ≤ s.config.maxCapacity := hs ▸ c.setup.valid.evictTo_le
    omega

theorem direct (h : Watched s c) {call : Call κ α} (hd : call.IsDirect) :
    Watched s (c.step call).2 := by
  have hready : Core.Ready s (c.perform call).core := perform_ready h.ready call
  rw [step_snd c hd]
  split
  · exact checkCapacity h.setup hready h.runtime h.due
  · -- without a check the store has not grown, so what was pending is enough
    rename_i hunchecked
    have hsize := size_perform_le (Bool.not_eq_true _ ▸ hunchecked)
    exact ⟨h.setup, hready, h.runtime, h.due,
      fun hover => h.pending (Nat.lt_of_lt_of_le hover hsize)⟩

omit [DecidableEq α] [Expirable α] in
theorem forceCleanup (h : Watched s c) (hf : s.test.NeverFails) :
    Watched s c.forceCleanup.2 := by
  obtain ⟨hready, hmax, -⟩ := h.ready.attempt hf .caller c.now
  have hcore : c.forceCleanup.2.core = (c.core.attempt s .caller c.now).2 := by
    rw [← h.setup]
    rfl
  exact ⟨h.setup, hcore ▸ hready, h.runtime, h.due,
    fun hover => absurd hmax (Nat.not_le.mpr (by rwa [size, hcore] at hover))⟩

omit [DecidableEq α] [Expirable α] in
theorem sleep_ready (h : Watched s c) (hf : s.test.NeverFails) (ms : Nat) :
    let fs := c.scheduler.firings (c.scheduler.clock + ms)
    Core.Ready s (c.sleep ms).core ∧ (fs ≠ [] → (c.sleep ms).size ≤ s.config.maxCapacity) ∧
      (fs ≠ [] → s.test.NeverRemoves →
        (c.sleep ms).size = c.size - s.config.excess c.size) := by
  have hcore := c.sleep_core ms
  rw [h.setup] at hcore
  unfold size
  rw [hcore]
  exact h.ready.triggers hf (fun due => c.now + Int64.ofNat (due - c.scheduler.clock)) _

omit [DecidableEq α] [Expirable α] in
theorem sleep (h : Watched s c) (hf : s.test.NeverFails) (ms : Nat) :
    Watched s (c.sleep ms) := by
  obtain ⟨tasks, hsched⟩ := c.sleep_scheduler ms
  obtain ⟨hready, hmax, -⟩ := h.sleep_ready hf ms
  refine ⟨h.setup, hready, by rw [hsched]; exact h.runtime, fun due he => ?_, fun hover => ?_⟩
  · rw [hsched] at he ⊢
    obtain ⟨he, hlt⟩ := Option.filter_eq_some_iff.mp he
    have hle := (h.due due he).2
    exact ⟨of_decide_eq_true hlt, by show due ≤ c.scheduler.clock + ms + oneShotDelay; omega⟩
  · -- an attempt would have left the store below its ceiling, so no timer was
    -- due, and the pending attempt of before is still pending
    have hnone : c.scheduler.firings (c.scheduler.clock + ms) = [] := by
      by_contra hne
      exact absurd (hmax hne) (Nat.not_le.mpr hover)
    have hcore := c.sleep_core ms
    rw [hnone] at hcore
    obtain ⟨due, hdue⟩ := Option.isSome_iff_exists.mp
      (h.pending (by rwa [size, hcore] at hover))
    have hlater : c.scheduler.clock + ms < due := by
      by_contra hle
      obtain ⟨f, hf, -⟩ := Scheduler.oneShot_mem_firings.mpr ⟨due, hdue, Nat.not_lt.mp hle⟩
      simp [hnone] at hf
    rw [hsched]
    show (c.scheduler.oneShot.filter _).isSome
    rw [hdue]
    simp [Option.filter, hlater]

omit [DecidableEq α] [Expirable α] in
theorem sleep_oneShot (h : Watched s c) {ms : Nat} (hms : oneShotDelay ≤ ms) :
    (c.sleep ms).scheduler.oneShot = none := by
  obtain ⟨tasks, hsched⟩ := c.sleep_scheduler ms
  rw [hsched, Option.filter_eq_none_iff]
  intro due hdue hlater
  have hle := (h.due due hdue).2
  have hlt := of_decide_eq_true hlater
  omega

omit [DecidableEq α] [Expirable α] in
theorem sleep_size (h : Watched s c) (hf : s.test.NeverFails) (hr : s.test.NeverRemoves)
    {ms : Nat} (hms : oneShotDelay ≤ ms) (hover : s.config.maxCapacity < c.size) :
    (c.sleep ms).size = s.config.evictTo := by
  obtain ⟨due, hdue⟩ := Option.isSome_iff_exists.mp (h.pending hover)
  have hle : due ≤ c.scheduler.clock + ms :=
    Nat.le_trans (h.due due hdue).2 (Nat.add_le_add_left hms _)
  obtain ⟨f, hmem, -⟩ := Scheduler.oneShot_mem_firings.mpr ⟨due, hdue, hle⟩
  obtain ⟨-, -, hsize⟩ := h.sleep_ready hf ms
  exact (hsize (List.ne_nil_of_mem hmem) hr).trans (Config.sub_excess_of_lt s.valid hover)

theorem step (h : Watched s c) (hf : s.test.NeverFails) (call : Call κ α) :
    Watched s (c.step call).2 := by
  cases call with
  | forceCleanup => exact h.forceCleanup hf
  | sleep ms => exact h.sleep hf ms
  | setClock now => exact ⟨h.setup, h.ready, h.runtime, h.due, h.pending⟩
  | editTracker f =>
    have hready : Core.Ready s (c.editTracker f).core :=
      ⟨h.ready.free, h.ready.stock.congr Option.isSome_map⟩
    exact ⟨h.setup, hready, h.runtime, h.due, h.pending⟩
  | _ => exact h.direct rfl

theorem run (h : Watched s c) (hf : s.test.NeverFails) (calls : List (Call κ α)) :
    Watched s (c.run calls) := by
  induction calls generalizing c with
  | nil => exact h
  | cons call calls ih => exact ih (h.step hf call)

omit [DecidableEq κ] [DecidableEq α] [Expirable α] in
theorem built {b : Builder κ α σ} (hr : b.runtime = true) (hs : b.selector.Stock b.tracker)
    {now : Int64} {notes : σ} {c : Cache κ α σ} (hc : b.build now notes = .ok c) :
    Watched c.setup c ∧ c.setup.test = b.test := by
  obtain ⟨hv, scheduler, events, hstart, rfl⟩ := Builder.build_ok hc
  obtain ⟨hruntime, -, hnone, -⟩ := Scheduler.startPeriodic_ok hstart
  refine ⟨⟨rfl, ⟨rfl, hs⟩, hruntime.trans hr, ?_, ?_⟩, rfl⟩
  · intro due hdue
    cases hnone.symm.trans hdue
  · intro hover
    exact absurd hover (Nat.not_lt_zero _)

end Watched

/-- Whatever the calls, a cache above its ceiling has an attempt pending that is
due within the delay of a request. So after a sleep of that delay it is not above
its ceiling and nothing is pending; if the test removes nothing, a cache that was
above its ceiling is left at its target size. -/
theorem over_capacity_pending {b : Builder κ α σ} (hr : b.runtime = true)
    (hs : b.selector.Stock b.tracker) (hf : b.test.NeverFails) {now : Int64} {notes : σ}
    {c : Cache κ α σ} (hc : b.build now notes = .ok c) (calls : List (Call κ α)) :
    let d := c.run calls
    (d.config.maxCapacity < d.size → ∃ due, d.scheduler.oneShot = some due ∧
      d.scheduler.clock < due ∧ due ≤ d.scheduler.clock + 50) ∧
    ∀ ms, 50 ≤ ms →
      (d.sleep ms).size ≤ d.config.maxCapacity ∧ (d.sleep ms).scheduler.oneShot = none ∧
      (d.config.maxCapacity < d.size → b.test.NeverRemoves →
        (d.sleep ms).size = d.config.evictTo) := by
  intro d
  obtain ⟨hbuilt, htest⟩ := Watched.built hr hs hc
  have hfail : c.setup.test.NeverFails := htest ▸ hf
  have hd : Watched c.setup d := hbuilt.run hfail calls
  have hpending : d.config.maxCapacity < d.size → ∃ due, d.scheduler.oneShot = some due ∧
      d.scheduler.clock < due ∧ due ≤ d.scheduler.clock + 50 := by
    intro hover
    obtain ⟨due, hdue⟩ := Option.isSome_iff_exists.mp (hd.pending (by rwa [← hd.setup]))
    exact ⟨due, hdue, hd.due due hdue⟩
  refine ⟨hpending, fun ms hms => ?_⟩
  have hnone := hd.sleep_oneShot hms
  refine ⟨?_, hnone, fun hover hremove => ?_⟩
  · -- nothing is pending any more, so the cache cannot be above its ceiling
    by_contra hover
    have hsome := (hd.sleep hfail ms).pending (by rw [← hd.setup]; exact Nat.not_le.mp hover)
    rw [hnone] at hsome
    cases hsome
  · have hsize := hd.sleep_size hfail (htest ▸ hremove) hms (by rwa [← hd.setup])
    rw [hsize, ← hd.setup]
    rfl

def burst : List (Call Nat (Timed Nat)) :=
  [.putAll ((List.range 6).map fun k => (k, .permanent k 0)), .sleep 20, .setClock 86400000, .get 0]

def burstBuilder : Builder Nat (Timed Nat) Unit :=
  (Builder.start ⟨16, 5, 3, 1⟩ true).leastRecentlyTouched

theorem over_capacity_pending_burst :
    ∃ c, burstBuilder.build 0 () = .ok c ∧ 5 < (c.run burst).size ∧
      ((c.run burst).sleep 50).size = 3 := by
  obtain ⟨c, hc⟩ : ∃ c, burstBuilder.build 0 () = .ok c := ⟨_, rfl⟩
  have hover : 5 < (c.run burst).size := by
    cases hc
    decide +kernel
  have hconfig : (c.run burst).config = ⟨16, 5, 3, 1⟩ := by
    cases hc
    decide +kernel
  obtain ⟨-, hsleep⟩ := over_capacity_pending (b := burstBuilder) rfl rfl
    (Rule.never.toTest_neverFails) hc burst
  have hsize := (hsleep 50 (Nat.le_refl _)).2.2
  rw [hconfig] at hsize
  exact ⟨c, hc, hover, hsize hover Rule.never_neverRemoves⟩

end Cache

end SizedCache
