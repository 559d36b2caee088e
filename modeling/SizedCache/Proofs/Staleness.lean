import SizedCache.Proofs.BuildLaws
import SizedCache.Proofs.CallLaws
import SizedCache.Proofs.RulePasses

/-!
# Bounded staleness

A cache that sweeps expired values every `p` seconds holds none for `p` seconds
after it expired, or after it was stored if it was stored expired, as long as
the wall clock moves by sleeping alone. What ties a value to the clock is the
last tick of the sweep: either the value was there at that tick, and had not
expired, or it was stored since. A value that goes while time passes goes in a
pass, because it had expired or because too much was left.
-/

namespace SizedCache

-- ---------------------------------------------------------------------------
-- When values are stored
-- ---------------------------------------------------------------------------

theorem Core.actAll_left {κ α σ : Type} [DecidableEq κ] {now : Int64} {es : List (Effect κ α)}
    {c : Core κ α σ} {t : Table κ α} {k : κ}
    (hkeep : ∀ v, Effect.keep k v ∈ es → t.get? k = some v)
    (hc : ∀ v, c.store.get? k = some v → t.get? k = some v) {v : α}
    (h : (c.actAll now es).store.get? k = some v) : t.get? k = some v := by
  induction es generalizing c with
  | nil => exact hc v h
  | cons e es ih =>
    refine ih (fun w hw => hkeep w (List.mem_cons_of_mem _ hw)) (fun w hw => ?_) h
    cases e with
    | keep j u =>
      have hget : (c.store.set j u).get? k = some w := hw
      rw [Table.get?_set] at hget
      split at hget
      · rename_i hj
        obtain rfl : u = w := Option.some.inj hget
        exact hkeep u (by simp [hj])
      · exact hc w hget
    | drop j =>
      have hget : (c.store.erase j).get? k = some w := hw
      rw [Table.get?_erase, Option.ite_none_left_eq_some] at hget
      exact hc w hget.2
    | clear => cases hw

namespace Cache

section StoreTimes

variable {κ α σ : Type} [DecidableEq κ] [DecidableEq α] [Expirable α]

omit [Expirable α] in
def stores (c : Cache κ α σ) : Call κ α → List κ
  | .put k _ => [k]
  | .putAll es => es.map Prod.fst
  | .putIfAbsent k _ => if c.contains k then [] else [k]
  | .replace k _ => if c.contains k then [k] else []
  | .replaceIfEq k old _ => if c.store.get? k = some old then [k] else []
  | call@(.computeIfAbsent k _) | call@(.computeIfPresent k _) | call@(.compute k _) =>
    match c.closure? call with
    | some (.ok (some _)) => [k]
    | _ => []
  | call@(.merge k _ _) =>
    match c.closure? call with
    | none | some (.ok (some _)) => [k]
    | _ => []
  | _ => []

/-- The wall clock at the last call that stored a value under each key, after
calls that follow those of `times`. -/
def storeTimes (c : Cache κ α σ) (times : κ → Option Int64) :
    List (Call κ α) → κ → Option Int64
  | [] => times
  | call :: calls =>
    (c.step call).2.storeTimes (fun k => if k ∈ c.stores call then some c.now else times k) calls

theorem keep_stored {c : Cache κ α σ} {call : Call κ α} {k : κ} {v : α}
    (h : .keep k v ∈ c.effects call) : k ∈ c.stores call ∨ c.store.get? k = some v := by
  cases call with
  | put j w => exact .inl (by simp_all [effects, stores])
  | putAll es =>
    obtain ⟨e, he, heq⟩ := List.mem_map.mp h
    cases heq
    exact .inl (List.mem_map_of_mem he)
  | putIfAbsent j w =>
    cases hj : c.store.get? j <;> simp_all [effects, stores, contains, Table.contains]
  | replace j w =>
    cases hj : c.contains j <;> simp_all [effects, stores]
  | replaceIfEq j old new =>
    by_cases hj : c.store.get? j = some old <;> simp_all [effects, stores]
  | get j | getOrDefault j w =>
    cases hj : c.store.get? j <;> simp_all [effects]
  | getLive j =>
    cases hj : c.store.get? j with
    | none => simp_all [effects]
    | some w => cases he : Expirable.expired w c.now <;> simp_all [effects]
  | computeIfAbsent j f =>
    cases hj : c.store.get? j with
    | some w => simp_all [effects]
    | none =>
      rcases hf : f j with e | _ | w <;>
        simp_all [effects, stores, closure?, contains, Table.contains]
  | computeIfPresent j f =>
    cases hj : c.store.get? j with
    | none => simp_all [effects]
    | some old =>
      rcases hf : f j old with e | _ | w <;> simp_all [effects, stores, closure?, Effect.settle]
  | compute j f =>
    rcases hf : f j (c.store.get? j) with e | _ | w <;>
      simp_all [effects, stores, closure?, Effect.settle]
  | merge j w f =>
    cases hj : c.store.get? j with
    | none => simp_all [effects, stores, closure?]
    | some old =>
      rcases hf : f old w with e | _ | u <;> simp_all [effects, stores, closure?, Effect.settle]
  | remove j => by_cases hj : c.contains j <;> simp_all [effects]
  | removeIfEq j w => by_cases hj : c.store.get? j = some w <;> simp_all [effects]
  | clear => simp_all [effects]
  | contains j | forceCleanup | sleep ms | setClock now | editTracker f => cases h

theorem get?_of_not_stored {c : Cache κ α σ} {call : Call κ α} {k : κ} {v : α}
    (hk : k ∉ c.stores call) (h : (c.perform call).store.get? k = some v) :
    c.store.get? k = some v :=
  Core.actAll_left (c := { c.core with stats := c.tally call c.core.stats })
    (fun _ hw => (keep_stored hw).resolve_left hk) (fun _ hw => hw) h

end StoreTimes

-- ---------------------------------------------------------------------------
-- Values since the last tick
-- ---------------------------------------------------------------------------

variable {κ β σ : Type} [DecidableEq κ] [DecidableEq β]

/-- Whether a call moves the wall clock otherwise than by letting time pass. -/
def Call.SetsClock {α : Type} : Call κ α → Bool
  | .setClock _ => true
  | _ => false

/-- `t` is the sweep of the cache, and its last tick was less than a period ago.
Since then no more time has passed than since the value under a key was stored,
or than since it was still good. -/
structure Swept (s : Setup κ (Timed β) σ) (t : SweepTask) (c : Cache κ (Timed β) σ)
    (times : κ → Option Int64) : Prop where
  setup : c.setup = s
  ready : Core.Ready s c.core
  tasks : c.scheduler.tasks = [t]
  due : t.ended = false →
    c.scheduler.clock < t.next ∧ t.next ≤ c.scheduler.clock + t.period
  fresh : ∀ k v, c.store.get? k = some v → ∃ since, times k = some since ∧
    (t.ended = false → ∀ e, v.expires = some e →
      c.now.toInt + t.next ≤ max (e.toInt - 1) since.toInt + c.scheduler.clock + t.period)

namespace Swept

variable {s : Setup κ (Timed β) σ} {t : SweepTask} {c : Cache κ (Timed β) σ}
  {times : κ → Option Int64}

theorem direct (h : Swept s t c times) {call : Call κ (Timed β)} (hd : call.IsDirect) :
    Swept s t (c.step call).2 fun k => if k ∈ c.stores call then some c.now else times k := by
  have hready := perform_ready h.ready call
  obtain ⟨oneShot, journal, heq⟩ := step_frame_of_direct c hd
  rw [heq]
  refine ⟨h.setup, ⟨hready.free, hready.stock⟩, h.tasks, h.due, fun k v hk => ?_⟩
  by_cases hstored : k ∈ c.stores call
  · -- stored just now
    refine ⟨c.now, if_pos hstored, fun hended e _ => ?_⟩
    have hdue := (h.due hended).2
    show c.now.toInt + t.next ≤ max (e.toInt - 1) c.now.toInt + c.scheduler.clock + t.period
    omega
  · obtain ⟨since, htime, hbound⟩ := h.fresh k v (get?_of_not_stored hstored hk)
    exact ⟨since, (if_neg hstored).trans htime, hbound⟩

omit [DecidableEq β] in
theorem forceCleanup (h : Swept s t c times) (htest : s.test = Rule.whenExpired.toTest) :
    Swept s t c.forceCleanup.2 times := by
  obtain ⟨hready, -, -⟩ := h.ready.attempt (htest ▸ Rule.whenExpired.toTest_neverFails) .caller c.now
  have hcore := forceCleanup_core h.setup
  refine ⟨h.setup, hcore ▸ hready, h.tasks, h.due, fun k v hk => ?_⟩
  have hget : c.forceCleanup.2.core.store.get? k = some v := hk
  rw [hcore] at hget
  exact h.fresh k v (h.ready.attempt_left htest .caller c.now hget).1

omit [DecidableEq β] in
theorem sleep (h : Swept s t c times) (htest : s.test = Rule.whenExpired.toTest)
    (hperiod : 0 < t.period) (ms : Nat) :
    Swept s (t.after (c.scheduler.clock + ms)) (c.sleep ms) times := by
  let limit := c.scheduler.clock + ms
  have hcore := sleep_attempts h.setup ms
  have hended : (t.after limit).ended = t.ended := t.ticked_ended _
  have hsame : (t.after limit).period = t.period := t.ticked_period _
  have htasks : (c.sleep ms).scheduler.tasks = [t.after limit] := by
    rw [sleep_tasks, h.tasks]
    rfl
  refine ⟨h.setup, hcore ▸ h.ready.attempts_ready htest _ _, htasks, fun hlive => ?_,
    fun k v hk => ?_⟩
  · show limit < (t.after limit).next ∧ (t.after limit).next ≤ limit + (t.after limit).period
    rw [hsame]
    rw [hended] at hlive
    have hdue := h.due hlive
    rcases Nat.lt_or_ge limit t.next with hlt | hle
    · rw [SweepTask.after_of_lt hlt]
      omega
    · obtain ⟨hlt, due, hmem, hnext⟩ := SweepTask.after_of_le hlive hperiod hle
      have hdue := SweepTask.le_of_mem_ticks hmem
      omega
  · have hget : (c.sleep ms).core.store.get? k = some v := hk
    rw [hcore] at hget
    obtain ⟨hbefore, hkept⟩ := h.ready.attempts_left htest hget
    obtain ⟨since, htime, hbound⟩ := h.fresh k v hbefore
    refine ⟨since, htime, fun hlive e he => ?_⟩
    show (c.now + Int64.ofNat ms).toInt + (t.after limit).next ≤
      max (e.toInt - 1) since.toInt + limit + (t.after limit).period
    rw [hsame]
    rw [hended] at hlive
    rcases Nat.lt_or_ge limit t.next with hlt | hle
    · -- no tick: the clock has moved on by the time that passed
      have hnow := Clock.toInt_add_le c.now ms
      have hbefore := hbound hlive e he
      rw [SweepTask.after_of_lt hlt]
      generalize (c.now + Int64.ofNat ms).toInt = now' at hnow ⊢
      omega
    · -- the value was good at the last tick
      obtain ⟨-, due, hmem, hnext⟩ := SweepTask.after_of_le hlive hperiod hle
      have hgood : c.wallAt due < e := by
        have hfiring : (⟨due, .tick 0⟩ : Firing) ∈ c.firingsIn ms :=
          Scheduler.mem_firings.mpr (.inl (Scheduler.mem_tickFirings.mpr
            ⟨0, t, by rw [h.tasks]; rfl, hmem, rfl⟩))
        exact (Timed.isExpired_eq_false_iff he).mp (hkept ⟨due, .tick 0⟩ hfiring)
      have hlater : t.next ≤ due := SweepTask.next_le_of_mem_ticks hmem
      have hclock := (h.due hlive).1
      have hlimit := SweepTask.le_of_mem_ticks hmem
      have hnow := c.now_sleep_le (Nat.le_trans (Nat.le_of_lt hclock) hlater) hlimit
      have hgood := Int64.lt_iff_toInt_lt.mp hgood
      generalize (c.now + Int64.ofNat ms).toInt = now' at hnow ⊢
      generalize (c.wallAt due).toInt = tick at hnow hgood
      generalize (t.after limit).next = next at hnext ⊢
      omega

theorem step (h : Swept s t c times) (htest : s.test = Rule.whenExpired.toTest)
    (hperiod : 0 < t.period) {call : Call κ (Timed β)} (hclock : call.SetsClock = false) :
    ∃ n, Swept s (t.ticked n) (c.step call).2
      fun k => if k ∈ c.stores call then some c.now else times k := by
  have hdirect : call.IsDirect → ∃ n, Swept s (t.ticked n) (c.step call).2
      fun k => if k ∈ c.stores call then some c.now else times k := by
    intro hd
    exact ⟨0, by rw [SweepTask.ticked_zero]; exact h.direct hd⟩
  -- no other call stores anything
  have hnone : (fun k => if k ∈ ([] : List κ) then some c.now else times k) = times := by simp
  cases call with
  | forceCleanup =>
    refine ⟨0, ?_⟩
    show Swept s (t.ticked 0) c.forceCleanup.2 fun k => if k ∈ [] then some c.now else times k
    rw [hnone, SweepTask.ticked_zero]
    exact h.forceCleanup htest
  | sleep ms =>
    refine ⟨(t.ticks (c.scheduler.clock + ms)).length, ?_⟩
    show Swept s (t.after (c.scheduler.clock + ms)) (c.sleep ms)
      fun k => if k ∈ [] then some c.now else times k
    rw [hnone]
    exact h.sleep htest hperiod ms
  | setClock now => cases hclock
  | editTracker f =>
    have hready : Core.Ready s (c.editTracker f).core :=
      ⟨h.ready.free, h.ready.stock.congr Option.isSome_map⟩
    refine ⟨0, ?_⟩
    show Swept s (t.ticked 0) (c.editTracker f) fun k => if k ∈ [] then some c.now else times k
    rw [hnone, SweepTask.ticked_zero]
    exact ⟨h.setup, hready, h.tasks, h.due, h.fresh⟩
  | _ => exact hdirect rfl

theorem run (h : Swept s t c times) (htest : s.test = Rule.whenExpired.toTest)
    (hperiod : 0 < t.period) {calls : List (Call κ (Timed β))}
    (hclock : ∀ call ∈ calls, call.SetsClock = false) :
    ∃ n, Swept s (t.ticked n) (c.run calls) (c.storeTimes times calls) := by
  induction calls generalizing c t times with
  | nil => exact ⟨0, by rw [SweepTask.ticked_zero]; exact h⟩
  | cons call calls ih =>
    obtain ⟨m, hm⟩ := h.step htest hperiod (hclock call (by simp))
    obtain ⟨n, hn⟩ := ih hm ((t.ticked_period m).symm ▸ hperiod)
      fun x hx => hclock x (List.mem_cons_of_mem _ hx)
    exact ⟨m + n, by rw [← SweepTask.ticked_ticked]; exact hn⟩

omit [DecidableEq β] in
theorem built {b : Builder κ (Timed β) σ} (hs : b.selector.Stock b.tracker)
    (hp : 0 < b.config.sweepSecs) {now : Int64} {notes : σ} {c : Cache κ (Timed β) σ}
    (hc : b.build now notes = .ok c) :
    c.setup.config = b.config ∧ c.setup.test = b.test ∧
      ∃ t : SweepTask, t.period = b.config.sweepSecs * 1000 ∧
        (t.ended = true → UInt64.size / 2 ≤ b.config.sweepSecs) ∧
        Swept c.setup t c fun _ => none := by
  obtain ⟨hv, scheduler, events, hstart, rfl⟩ := Builder.build_ok hc
  obtain ⟨-, hclock, -, -⟩ := Scheduler.startPeriodic_ok hstart
  obtain ⟨t, htasks, hperiod, hnext, hended⟩ := Scheduler.startPeriodic_tasks hstart hp
  refine ⟨rfl, rfl, t, hperiod, hended, rfl, ⟨rfl, hs⟩, htasks, fun _ => ?_, ?_⟩
  · show scheduler.clock < t.next ∧ t.next ≤ scheduler.clock + t.period
    omega
  · intro k v hk
    cases hk

omit [DecidableEq β] in
/-- Less than a period has passed since a value was good or was stored. A sweep
that ended as it started has a period longer than any clock can tell. -/
theorem lt_period (h : Swept s t c times) {p : Nat} (hperiod : t.period = p * 1000)
    (hended : t.ended = true → UInt64.size / 2 ≤ p) {k : κ} {v : Timed β}
    (hk : c.store.get? k = some v) {e : Int64} (he : v.expires = some e) :
    ∃ since, times k = some since ∧ c.now.toInt < max e.toInt since.toInt + 1000 * p := by
  obtain ⟨since, htime, hbound⟩ := h.fresh k v hk
  refine ⟨since, htime, ?_⟩
  cases hlive : t.ended with
  | false =>
    have hfresh := hbound hlive e he
    have hdue := (h.due hlive).1
    omega
  | true =>
    have hlong : 2 ^ 63 ≤ p := hended hlive
    have hnow := c.now.toInt_lt
    have hsince := since.le_toInt
    omega

end Swept

/-- With a sweep of expired values every `p` seconds, and a wall clock that moves
by sleeping alone, no stored value is `p` seconds past the later of its
expiration and the time it was stored. What goes while the cache sleeps goes in a
pass that found it expired, or found more live entries than fit. -/
theorem stale_within_period {b : Builder κ (Timed β) σ}
    (htest : b.test = Rule.whenExpired.toTest) (hs : b.selector.Stock b.tracker)
    (hp : 0 < b.config.sweepSecs) {now : Int64} {notes : σ} {c : Cache κ (Timed β) σ}
    (hc : b.build now notes = .ok c) (calls : List (Call κ (Timed β)))
    (hclock : ∀ call ∈ calls, call.SetsClock = false) :
    let d := c.run calls
    (∀ k v e, d.store.get? k = some v → v.expires = some e →
      ∃ since, c.storeTimes (fun _ => none) calls k = some since ∧
        d.now.toInt < max e.toInt since.toInt + 1000 * b.config.sweepSecs) ∧
    ∀ ms k v, d.store.get? k = some v → (d.sleep ms).store.get? k ≠ some v →
      ∃ earlier pass later, d.firingsIn ms = earlier ++ pass :: later ∧
        let found := d.core.attempts d.setup d.wallAt earlier
        let left := d.core.attempts d.setup d.wallAt (earlier ++ [pass])
        found.store.get? k = some v ∧ left.store.get? k = none ∧
          (v.isExpired (d.wallAt pass.due) = true ∨
            b.config.maxCapacity < found.survivors Rule.whenExpired (d.wallAt pass.due)) := by
  intro d
  obtain ⟨hconfig, hsame, t, hperiod, hended, hbuilt⟩ := Swept.built hs hp hc
  have hrule : c.setup.test = Rule.whenExpired.toTest := hsame.trans htest
  have hpos : 0 < t.period := by omega
  obtain ⟨n, hd⟩ := hbuilt.run hrule hpos hclock
  refine ⟨fun k v e hk he => ?_, fun ms k v hk hgone => ?_⟩
  · exact hd.lt_period ((t.ticked_period n).trans hperiod) (t.ticked_ended n ▸ hended) hk he
  · rw [store, sleep_attempts rfl] at hgone
    have hready : Core.Ready d.setup d.core := hd.setup ▸ hd.ready
    have hdrule : d.setup.test = Rule.whenExpired.toTest := hd.setup ▸ hrule
    have hmax : d.setup.config.maxCapacity = b.config.maxCapacity := by rw [hd.setup, hconfig]
    rw [← hmax]
    exact hready.attempts_gone hdrule hk hgone

def secondBuilder : Builder Nat (Timed Nat) Unit :=
  (Builder.start ⟨16, 2, 1, 1⟩ true).expireEntries.leastRecentlyTouched

def spent : Timed Nat := .expiringAt 70 1000 700

/-- A value that has expired when it is stored, in the millisecond of a tick, and
all but one of the milliseconds to the next. -/
def lateWrite : List (Call Nat (Timed Nat)) := [.sleep 1000, .put 7 spent, .sleep 999]

theorem stale_within_period_late_write :
    ∃ c, secondBuilder.build 0 () = .ok c ∧
      let d := c.run lateWrite
      d.store.get? 7 = some spent ∧ d.now.toInt < 2000 ∧
        (d.sleep 1).store.get? 7 = none ∧
        ∃ earlier pass later, d.firingsIn 1 = earlier ++ pass :: later ∧
          let found := d.core.attempts d.setup d.wallAt earlier
          let left := d.core.attempts d.setup d.wallAt (earlier ++ [pass])
          found.store.get? 7 = some spent ∧ left.store.get? 7 = none ∧
            (spent.isExpired (d.wallAt pass.due) = true ∨
              2 < found.survivors Rule.whenExpired (d.wallAt pass.due)) := by
  obtain ⟨c, hc⟩ : ∃ c, secondBuilder.build 0 () = .ok c := ⟨_, rfl⟩
  have hthere : (c.run lateWrite).store.get? 7 = some spent := by
    cases hc
    decide +kernel
  have hgone : ((c.run lateWrite).sleep 1).store.get? 7 = none := by
    cases hc
    decide +kernel
  have hsince : c.storeTimes (fun _ => none) lateWrite 7 = some 1000 := by
    cases hc
    decide +kernel
  obtain ⟨hstale, hwhy⟩ := stale_within_period (b := secondBuilder) rfl rfl (by decide) hc
    lateWrite (by decide)
  obtain ⟨since, htime, hbound⟩ := hstale 7 _ 700 hthere rfl
  obtain rfl : 1000 = since := Option.some.inj (hsince.symm.trans htime)
  exact ⟨c, hc, hthere, hbound, hgone, hwhy 1 7 _ hthere (by rw [hgone]; simp)⟩

end Cache

end SizedCache
