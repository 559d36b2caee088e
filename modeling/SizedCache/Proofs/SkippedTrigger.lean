import SizedCache.Proofs.Threads
import SizedCache.Proofs.WriteTrigger

/-!
# Skipped on-write attempts

A write above the target size sets a timer, unless one is set already, and the
attempt that the timer brings gives up if a pass is in progress. That loses
nothing as long as the pass has not looked at the size yet. A pass that has does
not see what was written since, and the attempt is not made up for: this is the
one way in which threads can all be done with the cache above its ceiling and no
attempt pending.
-/

namespace SizedCache

variable {κ α σ : Type}

-- ---------------------------------------------------------------------------
-- Logs
-- ---------------------------------------------------------------------------

namespace Deed

def Looks : Deed κ α → Prop
  | .chore .check | .pass .. => True
  | _ => False

def Claims : Deed κ α → Prop
  | .claim _ => True
  | _ => False

end Deed

namespace Log

/-- The pass for which the slot was last claimed has been made. -/
def Passed (log : Log κ α) : Prop :=
  ∃ before i who r after, log = before ++ (i, Deed.pass who r) :: after ∧
    ∀ e ∈ after, ¬ e.2.Claims

/-- Since the size was last looked at an on-write attempt was skipped, and the
pass for which it was skipped had looked at the size before. -/
def Missed (log : Log κ α) : Prop :=
  ∃ before i after, log = before ++ (i, Deed.skip (.trigger .onWrite)) :: after ∧
    Passed before ∧ ∀ e ∈ after, ¬ e.2.Looks

theorem passed_pass (log : Log κ α) (i : Nat) (who : Origin) (r : Except Failure Report) :
    Passed (log ++ [(i, .pass who r)]) :=
  ⟨log, i, who, r, [], rfl, by simp⟩

theorem Passed.concat {log : Log κ α} (h : log.Passed) (i : Nat) {d : Deed κ α}
    (hd : ¬ d.Claims) : Passed (log ++ [(i, d)]) := by
  obtain ⟨before, j, who, r, after, rfl, hafter⟩ := h
  refine ⟨before, j, who, r, after ++ [(i, d)], by simp, ?_⟩
  simpa [or_imp, forall_and, hd] using hafter

theorem missed_skip {log : Log κ α} (h : log.Passed) (i : Nat) :
    Missed (log ++ [(i, .skip (.trigger .onWrite))]) :=
  ⟨log, i, [], rfl, h, by simp⟩

theorem Missed.concat {log : Log κ α} (h : log.Missed) (i : Nat) {d : Deed κ α}
    (hd : ¬ d.Looks) : Missed (log ++ [(i, d)]) := by
  obtain ⟨before, j, after, rfl, hbefore, hafter⟩ := h
  refine ⟨before, j, after ++ [(i, d)], by simp, hbefore, ?_⟩
  simpa [or_imp, forall_and, hd] using hafter

end Log

-- ---------------------------------------------------------------------------
-- The invariant
-- ---------------------------------------------------------------------------

namespace Hand

def Passing (h : Hand κ α) : Prop := ∃ who, h.stance = .passing who

/-- Has a check of the size to make, an attempt that a write asked for, or a pass. -/
def WillLook (h : Hand κ α) : Prop :=
  .attempt (.trigger .onWrite) ∈ h.todo ∨ h.Passing ∨ ∃ xs, h.stance = .chores xs ∧ .check ∈ xs

end Hand

theorem KeyCall.size_act_le [DecidableEq κ] (a : KeyCall κ α) (t : Table κ α) :
    (a.act t).2.size ≤ t.size ∨ .check ∈ a.chores (a.act t).1 := by
  cases a with
  | put k v => exact .inr (by simp [chores])
  | putIfAbsent k v => exact .inr (by simp [chores])
  | remove k => exact .inr (by simp only [chores]; split <;> simp)
  | get k => exact .inl (Nat.le_refl _)
  | merge k v f =>
    simp only [act]
    rcases hm : t.merge k v f with e | ⟨_ | w, u⟩
    · exact .inl (Nat.le_refl _)
    · exact .inr (by simp [chores])
    · exact .inr (by simp [chores])

namespace Crew

def Held (w : Crew κ α σ) : Prop :=
  w.cache.core.slot.isRunning →
    w.log.Passed ∨ ∃ (i : Nat) (h : Hand κ α), w.hands[i]? = some h ∧ h.Passing

def Minded (max : Nat) (w : Crew κ α σ) : Prop :=
  max < w.cache.size → w.cache.scheduler.oneShot.isSome ∨ w.log.Missed ∨
    ∃ (i : Nat) (h : Hand κ α), w.hands[i]? = some h ∧ h.WillLook

structure Covered (s : Setup κ α σ) (w : Crew κ α σ) : Prop where
  setup : w.cache.setup = s
  runtime : w.cache.scheduler.runtime = true
  stock : s.selector.Stock w.cache.core.tracker
  held : w.Held
  minded : w.Minded s.config.maxCapacity

-- ---------------------------------------------------------------------------
-- Actions
-- ---------------------------------------------------------------------------

section Did

variable {w : Crew κ α σ} {i : Nat} {g g' : Hand κ α} (hi : w.hands[i]? = some g)

include hi

theorem exists_did {P : Hand κ α → Prop}
    (h : ∃ (j : Nat) (f : Hand κ α), w.hands[j]? = some f ∧ P f) (hg : P g → P g')
    (d : Deed κ α) (c : Cache κ α σ) :
    ∃ (j : Nat) (f : Hand κ α), (w.did i d g' c).hands[j]? = some f ∧ P f := by
  obtain ⟨j, f, hj, hf⟩ := h
  by_cases hij : i = j
  · subst hij
    obtain rfl : g = f := Option.some.inj (hi.symm.trans hj)
    exact ⟨i, g', by rw [did_hand hi, if_pos rfl], hg hf⟩
  · exact ⟨j, f, by rw [did_hand hi, if_neg hij, hj], hf⟩

theorem minded_of_hand (h : g'.WillLook) (max : Nat) (d : Deed κ α) (c : Cache κ α σ) :
    (w.did i d g' c).Minded max :=
  fun _ => .inr (.inr ⟨i, g', by rw [did_hand hi, if_pos rfl], h⟩)

theorem Held.did (h : w.Held) {c : Cache κ α σ} (hc : c.core.slot = w.cache.core.slot)
    (hg : g.Passing → g'.Passing) {d : Deed κ α} (hd : ¬ d.Claims) : (w.did i d g' c).Held := by
  intro hrunning
  rcases h (hc ▸ hrunning) with hpassed | hpassing
  · exact .inl (hpassed.concat i hd)
  · exact .inr (exists_did hi hpassing hg d c)

theorem Minded.did {max : Nat} (h : w.Minded max) {c : Cache κ α σ} (hsize : c.size ≤ w.cache.size)
    (hpending : c.scheduler.oneShot = w.cache.scheduler.oneShot) (hg : g.WillLook → g'.WillLook)
    {d : Deed κ α} (hd : ¬ d.Looks) : (w.did i d g' c).Minded max := by
  intro hlarge
  rcases h (Nat.lt_of_lt_of_le hlarge hsize) with hshot | hmissed | hlook
  · exact .inl (hpending ▸ hshot)
  · exact .inr (.inl (hmissed.concat i hd))
  · exact .inr (.inr (exists_did hi hlook hg d c))

end Did

variable [DecidableEq κ] {s : Setup κ α σ} {w : Crew κ α σ} {i : Nat} {todo : List (Job κ α)}
  {who : Origin}

namespace Covered

theorem act (h : w.Covered s) {a : KeyCall κ α}
    (hi : w.hands[i]? = some ⟨.call a :: todo, .chores []⟩) (now : Int64) :
    (w.did i (.act a (w.cache.store.get? a.key) (a.act w.cache.store).1)
      ⟨todo, .chores (a.chores (a.act w.cache.store).1)⟩
      ({ w.cache with now }.withStore (a.act w.cache.store).2)).Covered s where
  setup := h.setup
  runtime := h.runtime
  stock := h.stock
  held := h.held.did hi rfl (by rintro ⟨_, ⟨⟩⟩) id
  minded := by
    rcases a.size_act_le w.cache.store with hle | hcheck
    · apply h.minded.did hi
      · exact hle
      · rfl
      · rintro (htodo | ⟨_, ⟨⟩⟩ | ⟨_, ⟨⟩, ⟨⟩⟩)
        exact .inl (by simpa using htodo)
      · exact id
    · exact minded_of_hand hi (.inr (.inr ⟨_, rfl, hcheck⟩)) _ _ _

theorem chore (h : w.Covered s) {x : Chore κ} {xs : List (Chore κ)}
    (hi : w.hands[i]? = some ⟨todo, .chores (x :: xs)⟩) (now : Int64) :
    (w.did i (.chore x) ⟨todo, .chores xs⟩ ({ w.cache with now }.chore x)).Covered s := by
  obtain ⟨hsetup, hstore, hslot, -, hruntime⟩ := Cache.chore_frame { w.cache with now } x
  have hsize : ({ w.cache with now }.chore x).size = w.cache.size := congrArg Table.size hstore
  refine ⟨hsetup.trans h.setup, hruntime.trans h.runtime,
    h.stock.congr (Cache.chore_tracker { w.cache with now } x),
    h.held.did hi hslot (by rintro ⟨_, ⟨⟩⟩) id, ?_⟩
  by_cases hx : x = .check
  · -- a size above the ceiling is above the target, so the check leaves the timer set
    subst hx
    intro hlarge
    have hconfig : w.cache.config = s.config := congrArg Setup.config h.setup
    have hle : w.cache.config.evictTo ≤ s.config.maxCapacity := hconfig ▸ s.valid.evictTo_le
    exact .inl (Cache.checkCapacity_pending h.runtime (Nat.lt_of_le_of_lt hle hlarge))
  · refine h.minded.did hi (Nat.le_of_eq hsize) ?_ ?_ ?_
    · cases x with
      | check => exact absurd rfl hx
      | _ => rfl
    · rintro (htodo | ⟨_, ⟨⟩⟩ | ⟨_, hstance, hcheck⟩)
      · exact .inl htodo
      · cases hstance
        exact .inr (.inr ⟨xs, rfl, (List.mem_cons.mp hcheck).resolve_left (Ne.symm hx)⟩)
    · cases x with
      | check => exact absurd rfl hx
      | _ => exact id

omit [DecidableEq κ] in
theorem claim (h : w.Covered s) (hi : w.hands[i]? = some ⟨.attempt who :: todo, .chores []⟩)
    (now : Int64) :
    (w.did i (.claim who) ⟨todo, .passing who⟩
      { w.cache with now, core := w.cache.core.claimed who }).Covered s where
  setup := h.setup
  runtime := h.runtime
  stock := h.stock
  held _ := .inr ⟨i, _, by rw [did_hand hi, if_pos rfl], who, rfl⟩
  minded := minded_of_hand hi (.inr (.inl ⟨who, rfl⟩)) _ _ _

omit [DecidableEq κ] in
theorem skip (h : w.Covered s) (hi : w.hands[i]? = some ⟨.attempt who :: todo, .chores []⟩)
    (hrunning : w.cache.core.slot.isRunning) (now : Int64) :
    (w.did i (.skip who) ⟨todo, .chores []⟩
      { w.cache with now, core := { w.cache.core with
          stats := w.cache.core.stats.skip }.account (.ok .skipped) who }).Covered s := by
  obtain ⟨hstore, htracker, hslot⟩ := Core.account_frame
    { w.cache.core with stats := w.cache.core.stats.skip } (.ok .skipped) who
  refine ⟨h.setup, h.runtime, h.stock.congr (congrArg Option.isSome htracker),
    h.held.did hi hslot (by rintro ⟨_, ⟨⟩⟩) id, ?_⟩
  by_cases hwho : who = .trigger .onWrite
  · -- what this attempt was to look at, the pass that holds the slot does, if it has not yet
    subst hwho
    rcases h.held hrunning with hpassed | ⟨j, f, hj, hf⟩
    · exact fun _ => .inr (.inl (Log.missed_skip hpassed i))
    · obtain ⟨j, f, hj, hf⟩ := exists_did hi ⟨j, f, hj, hf⟩ (by rintro ⟨_, ⟨⟩⟩) _ _
      exact fun _ => .inr (.inr ⟨j, f, hj, .inr (.inl hf)⟩)
  · apply h.minded.did hi
    · exact Nat.le_of_eq (congrArg Table.size hstore)
    · rfl
    · rintro (htodo | ⟨_, ⟨⟩⟩ | ⟨_, ⟨⟩, ⟨⟩⟩)
      refine .inl ((List.mem_cons.mp htodo).resolve_left fun he => hwho ?_)
      exact (Job.attempt.inj he).symm
    · exact id

theorem pass (h : w.Covered s) (hf : s.test.NeverFails)
    (now : Int64) :
    (w.did i (.pass who (w.cache.core.pass w.cache.setup now).1)
      ⟨todo, .leaving who (w.cache.core.pass w.cache.setup now).1⟩
      { w.cache with now, core := (w.cache.core.pass w.cache.setup now).2 }).Covered s := by
  obtain ⟨n, x, vs, -, hnodup, hkeys, hlen, -, hstore, htracks, -⟩ :=
    Core.pass_stock hf h.stock now
  rw [h.setup]
  refine ⟨h.setup, h.runtime, h.stock.congr htracks,
    fun _ => .inl (Log.passed_pass w.log i who _), fun hlarge => ?_⟩
  -- whatever was missed before, a pass does not leave more than the ceiling
  have hsize : (x.store.without vs).size + vs.length = x.store.size :=
    Table.size_without hnodup hkeys
  have hle := Config.sub_excess_le s.valid x.store.size
  have hlarge' : s.config.maxCapacity < (x.store.without vs).size := hstore ▸ hlarge
  omega

omit [DecidableEq κ] in
theorem release (h : w.Covered s) {r : Except Failure Report}
    (hi : w.hands[i]? = some ⟨todo, .leaving who r⟩) (now : Int64) :
    (w.did i (.release who) ⟨todo, .chores []⟩
      { w.cache with now, core := { w.cache.core with
          slot := {} }.account (r.map .completed) who }).Covered s := by
  obtain ⟨hstore, htracker, hslot⟩ := Core.account_frame
    { w.cache.core with slot := {} } (r.map .completed) who
  refine ⟨h.setup, h.runtime, h.stock.congr (congrArg Option.isSome htracker), ?_, ?_⟩
  · intro hrunning
    have hfree := congrArg RunSlot.isRunning hslot
    exact absurd (hfree.symm.trans hrunning) Bool.false_ne_true
  · apply h.minded.did hi
    · exact Nat.le_of_eq (congrArg Table.size hstore)
    · rfl
    · rintro (htodo | ⟨_, ⟨⟩⟩ | ⟨_, ⟨⟩, -⟩)
      exact .inl htodo
    · exact id

omit [DecidableEq κ] in
theorem fired (h : w.Covered s) : w.fired.Covered s where
  setup := h.setup
  runtime := h.runtime
  stock := h.stock
  held hrunning := by
    refine (h.held hrunning).imp id ?_
    rintro ⟨j, f, hj, hf⟩
    obtain ⟨hlt, -⟩ := List.getElem?_eq_some_iff.mp hj
    exact ⟨j, f, by rw [Crew.fired, List.getElem?_append_left hlt, hj], hf⟩
  minded _ := .inr (.inr ⟨w.hands.length, _, List.getElem?_concat_length, .inl (by simp)⟩)

end Covered

theorem covered_did (h : w.Covered s) (hf : s.test.NeverFails) {now : Int64}
    {g g' : Hand κ α} {d : Deed κ α} {c' : Cache κ α σ} (hi : w.hands[i]? = some g)
    (hs : g.Steps { w.cache with now } d g' c') : (w.did i d g' c').Covered s := by
  cases hs with
  | act a todo => exact h.act hi now
  | chore x xs todo => exact h.chore hi now
  | claim who todo hfree => exact h.claim hi now
  | skip who todo hrunning => exact h.skip hi hrunning now
  | pass who todo => exact h.pass hf now
  | release who todo r => exact h.release hi now

-- ---------------------------------------------------------------------------
-- Runs
-- ---------------------------------------------------------------------------

omit [DecidableEq κ] in
theorem covered_start {b : Builder κ α σ} (hruntime : b.runtime = true)
    (hselector : b.selector.Stock b.tracker) {now : Int64} {notes : σ} {c : Cache κ α σ}
    (hc : b.build now notes = .ok c) (programs : List (List (Job κ α))) :
    (start c programs).Covered c.setup := by
  obtain ⟨hv, scheduler, events, hstart, rfl⟩ := Builder.build_ok hc
  obtain ⟨hr, -, -, -⟩ := Scheduler.startPeriodic_ok hstart
  refine ⟨rfl, hr.trans hruntime, hselector, ?_, ?_⟩
  · rintro ⟨⟩
  · rintro ⟨⟩

/-- Threads make calls and attempts on a cache with a stock selector and a test that
never fails, and the timers that they set may go off at any time. When all of them
are at rest with the cache above its ceiling, an attempt is pending, unless since
the size was last looked at an on-write attempt was skipped for a pass that had
looked at the size before. -/
theorem pending_or_missed {b : Builder κ α σ} (hruntime : b.runtime = true)
    (htest : b.test.NeverFails) (hselector : b.selector.Stock b.tracker) {now : Int64} {notes : σ}
    {c : Cache κ α σ} (hc : b.build now notes = .ok c) (programs : List (List (Job κ α)))
    (moves : List Move) :
    let w := (start c programs).run moves
    w.Quiet → c.config.maxCapacity < w.cache.size →
      w.cache.scheduler.oneShot.isSome ∨ w.log.Missed := by
  intro w hquiet hlarge
  have hf : c.setup.test.NeverFails := by
    obtain ⟨_, _, _, -, rfl⟩ := Builder.build_ok hc
    exact htest
  have hcovered : w.Covered c.setup :=
    run_keeps (covered_start hruntime hselector hc programs)
      (fun _ _ _ _ _ _ _ h hi hs => covered_did h hf hi hs) (fun _ h _ => h.fired) moves
  rcases hcovered.minded hlarge with hpending | hmissed | ⟨i, h, hi, hlook⟩
  · exact .inl hpending
  · exact .inr hmissed
  · obtain ⟨htodo, hstance⟩ := hquiet h (List.mem_of_getElem? hi)
    rcases hlook with hattempt | ⟨who, hpassing⟩ | ⟨xs, hchores, hcheck⟩
    · rw [htodo] at hattempt
      cases hattempt
    · rw [hstance] at hpassing
      cases hpassing
    · cases hstance.symm.trans hchores
      cases hcheck

-- ---------------------------------------------------------------------------
-- A missed write
-- ---------------------------------------------------------------------------

def crowdedBuilder : Builder Nat Nat Unit := .start ⟨16, 2, 1, 0⟩ true

def crowdedPrograms : List (List (Job Nat Nat)) :=
  [[.call (.put 1 0), .call (.put 2 0), .call (.put 3 0)], [.attempt .caller]]

/-- The second write sets the timer. The pass of the other thread finds two entries,
which is not too many. The third write finds the timer set. The timer goes off while
the pass is not quite over, so its attempt is skipped. -/
def crowdedMoves : List Move :=
  [0, 0, 0, 0, 0, 0, 1, 1, 0, 0, 0].map (.act · 0) ++ [.fire, .act 2 0, .act 1 0]

theorem quiet_above_max_without_pending : ∃ c, crowdedBuilder.build 0 () = .ok c ∧
    let w := (start c crowdedPrograms).run crowdedMoves
    w.Quiet ∧ c.config.maxCapacity < w.cache.size ∧ w.cache.scheduler.oneShot = none := by
  refine ⟨_, rfl, ?_⟩
  intro w
  have hhands : w.hands = [{ todo := [] }, { todo := [] }, { todo := [] }] := rfl
  exact ⟨by simp [Quiet, hhands], by decide, rfl⟩

theorem pending_or_missed_crowded : ∃ c, crowdedBuilder.build 0 () = .ok c ∧
    let w := (start c crowdedPrograms).run crowdedMoves
    w.Quiet ∧ c.config.maxCapacity < w.cache.size ∧ w.log.Missed := by
  refine ⟨_, rfl, ?_⟩
  intro w
  have hhands : w.hands = [{ todo := [] }, { todo := [] }, { todo := [] }] := rfl
  have hquiet : w.Quiet := by simp [Quiet, hhands]
  have hlarge : 2 < w.cache.size := by decide
  refine ⟨hquiet, hlarge, ?_⟩
  have hresult := pending_or_missed (b := crowdedBuilder) rfl Rule.never.toTest_neverFails trivial
    rfl crowdedPrograms crowdedMoves hquiet hlarge
  exact hresult.resolve_left Bool.false_ne_true

end Crew

end SizedCache
