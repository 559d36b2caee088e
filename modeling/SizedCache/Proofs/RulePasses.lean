import SizedCache.Proofs.ClockLaws
import SizedCache.Proofs.Convergence
import SizedCache.Proofs.OverCapacity
import SizedCache.Proofs.TickLaws

/-!
# What passes of a rule take out

With a rule for a test and a stock selector, an entry that is left by a pass is
one the rule rejects, and an entry that is gone was accepted by the rule or was
one of too many. The same is told of all the passes that are made while time
passes, each judged by the wall clock and the store that it found.
-/

namespace SizedCache

namespace Table

variable {κ α : Type}

theorem size_filter_le (t : Table κ α) (p : κ → α → Bool) : (t.filter p).size ≤ t.size :=
  List.length_filter_le _ _

end Table

namespace Core

variable {κ α σ : Type} [DecidableEq κ] {s : Setup κ α σ} {rule : Rule κ α} {c : Core κ α σ}

/-- How many entries the rule rejects: those that a sweep leaves. -/
def survivors (c : Core κ α σ) (rule : Rule κ α) (now : Int64) : Nat :=
  (c.store.filter fun k v => !rule now k v).size

def attempts (s : Setup κ α σ) (wall : Nat → Int64) (fs : List Firing) (c : Core κ α σ) :
    Core κ α σ :=
  fs.foldl (fun x f => Scheduler.trigger (Cache.target s) f.timer.kind (wall f.due) x) c

-- ---------------------------------------------------------------------------
-- One pass
-- ---------------------------------------------------------------------------

theorem Ready.attempt_left (h : Ready s c) (htest : s.test = rule.toTest) (who : Origin)
    (now : Int64) {k : κ} {v : α} (hk : (c.attempt s who now).2.store.get? k = some v) :
    c.store.get? k = some v ∧ rule now k v = false := by
  obtain ⟨vs, -, -, -, -, hstore, -, -⟩ := attempt_rule htest h.stock h.free who now
  rw [hstore, Table.get?_without, Option.ite_none_left_eq_some, Table.get?_filter,
    Option.filter_eq_some_iff] at hk
  exact ⟨hk.2.1, by simpa using hk.2.2⟩

theorem Ready.attempt_gone (h : Ready s c) (htest : s.test = rule.toTest) (who : Origin)
    (now : Int64) {k : κ} {v : α} (hk : c.store.get? k = some v)
    (hgone : (c.attempt s who now).2.store.get? k ≠ some v) :
    rule now k v = true ∨ s.config.maxCapacity < c.survivors rule now := by
  obtain ⟨vs, -, -, hlen, -, hstore, -, -⟩ := attempt_rule htest h.stock h.free who now
  by_contra hneither
  obtain ⟨hreject, hroom⟩ := not_or.mp hneither
  -- within the ceiling there are no victims, so the store is what the sweep left
  have hnil : vs = [] := by
    apply List.eq_nil_of_length_eq_zero
    rw [hlen]
    exact Config.excess_of_le (Nat.not_lt.mp hroom)
  apply hgone
  rw [hstore, hnil, Table.without_nil, Table.get?_filter, hk]
  simp [Option.filter, hreject]

theorem Ready.attempt_size (h : Ready s c) (htest : s.test = rule.toTest) (who : Origin)
    (now : Int64) : (c.attempt s who now).2.store.size ≤ c.store.size := by
  obtain ⟨vs, hvs, hkeys, -, -, hstore, -, -⟩ := attempt_rule htest h.stock h.free who now
  have hadd := Table.size_without hvs hkeys
  have hlive := c.store.size_filter_le fun k v => !rule now k v
  rw [hstore]
  omega

theorem Ready.trigger (h : Ready s c) (htest : s.test = rule.toTest) (t : Trigger) (now : Int64) :
    Ready s (Scheduler.trigger (Cache.target s) t now c) := by
  obtain ⟨hready, -, -⟩ := h.attempt (htest ▸ rule.toTest_neverFails) (.trigger t) now
  exact ⟨hready.free, hready.stock⟩

-- ---------------------------------------------------------------------------
-- Passes while time passes
-- ---------------------------------------------------------------------------

theorem Ready.attempts_ready (h : Ready s c) (htest : s.test = rule.toTest) (wall : Nat → Int64)
    (fs : List Firing) : Ready s (attempts s wall fs c) := by
  induction fs generalizing c with
  | nil => exact h
  | cons f fs ih => exact ih (h.trigger htest f.timer.kind (wall f.due))

theorem Ready.attempts_left (h : Ready s c) (htest : s.test = rule.toTest) {wall : Nat → Int64}
    {fs : List Firing} {k : κ} {v : α} (hk : (attempts s wall fs c).store.get? k = some v) :
    c.store.get? k = some v ∧ ∀ f ∈ fs, rule (wall f.due) k v = false := by
  induction fs generalizing c with
  | nil => exact ⟨hk, by simp⟩
  | cons f fs ih =>
    obtain ⟨hx, hrest⟩ := ih (h.trigger htest f.timer.kind (wall f.due)) hk
    obtain ⟨hc, hf⟩ := h.attempt_left htest (.trigger f.timer.kind) (wall f.due) hx
    refine ⟨hc, fun g hg => ?_⟩
    rcases List.mem_cons.mp hg with rfl | hg
    · exact hf
    · exact hrest g hg

/-- What is gone after several passes was there when one of them began and gone when
it ended, and was accepted by the rule then, unless that pass found too much. -/
theorem Ready.attempts_gone (h : Ready s c) (htest : s.test = rule.toTest) {wall : Nat → Int64}
    {fs : List Firing} {k : κ} {v : α} (hk : c.store.get? k = some v)
    (hgone : (attempts s wall fs c).store.get? k ≠ some v) :
    ∃ earlier f later, fs = earlier ++ f :: later ∧
      (attempts s wall earlier c).store.get? k = some v ∧
      (attempts s wall (earlier ++ [f]) c).store.get? k = none ∧
      (rule (wall f.due) k v = true ∨
        s.config.maxCapacity < (attempts s wall earlier c).survivors rule (wall f.due)) := by
  induction fs generalizing c with
  | nil => exact absurd hk hgone
  | cons f fs ih =>
    let x := Scheduler.trigger (Cache.target s) f.timer.kind (wall f.due) c
    cases hx : x.store.get? k with
    | some w =>
      -- a pass brings in nothing
      obtain ⟨hw, -⟩ := h.attempt_left htest (.trigger f.timer.kind) (wall f.due) hx
      cases hk.symm.trans hw
      obtain ⟨earlier, g, later, rfl, hthere, hleft, hwhy⟩ :=
        ih (h.trigger htest f.timer.kind (wall f.due)) hx hgone
      exact ⟨f :: earlier, g, later, rfl, hthere, hleft, hwhy⟩
    | none =>
      have hwhy := h.attempt_gone htest (.trigger f.timer.kind) (wall f.due) hk
        (ne_of_eq_of_ne hx (by simp))
      exact ⟨[], f, fs, rfl, hk, hx, hwhy⟩

theorem Ready.attempts_size (h : Ready s c) (htest : s.test = rule.toTest) (wall : Nat → Int64)
    (fs : List Firing) : (attempts s wall fs c).store.size ≤ c.store.size := by
  induction fs generalizing c with
  | nil => exact Nat.le_refl _
  | cons f fs ih =>
    exact Nat.le_trans (ih (h.trigger htest f.timer.kind (wall f.due)))
      (h.attempt_size htest (.trigger f.timer.kind) (wall f.due))

end Core

namespace Cache

variable {κ α σ : Type} [DecidableEq κ]

/-- The wall clock at a time of the timers in a sleep that begins now. -/
def wallAt (c : Cache κ α σ) (due : Nat) : Int64 :=
  c.now + Int64.ofNat (due - c.scheduler.clock)

def firingsIn (c : Cache κ α σ) (ms : Nat) : List Firing :=
  c.scheduler.firings (c.scheduler.clock + ms)

omit [DecidableEq κ] in
theorem now_sleep_le (c : Cache κ α σ) {ms due : Nat} (hstart : c.scheduler.clock ≤ due)
    (hend : due ≤ c.scheduler.clock + ms) :
    (c.now + Int64.ofNat ms).toInt ≤
      (c.wallAt due).toInt + (c.scheduler.clock + ms - due : Nat) := by
  have hsum : ms = (due - c.scheduler.clock) + (c.scheduler.clock + ms - due) := by omega
  have hadd : c.now + Int64.ofNat ms =
      c.wallAt due + Int64.ofNat (c.scheduler.clock + ms - due) := by
    rw [wallAt, ← Clock.add_add, ← hsum]
  rw [hadd]
  exact Clock.toInt_add_le _ _

theorem sleep_attempts {s : Setup κ α σ} {c : Cache κ α σ} (hs : c.setup = s) (ms : Nat) :
    (c.sleep ms).core = c.core.attempts s c.wallAt (c.firingsIn ms) :=
  hs ▸ c.sleep_core ms

theorem forceCleanup_core {s : Setup κ α σ} {c : Cache κ α σ} (hs : c.setup = s) :
    c.forceCleanup.2.core = (c.core.attempt s .caller c.now).2 := by
  rw [← hs]
  rfl

end Cache

end SizedCache
