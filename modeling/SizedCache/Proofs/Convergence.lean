import SizedCache.Proofs.PassLaws

/-!
# Convergence

From any store and any records, equal and wrapped touches and records of absent
keys included, one attempt brings a cache with a rule and a stock selector to
its limits, and a second one at the same time finds nothing to do.
-/

namespace SizedCache

theorem RunSlot.eq_free {τ : Type} {s : RunSlot τ} (h : s.isRunning = false) : s = {} := by
  obtain ⟨runner⟩ := s
  cases runner with
  | none => rfl
  | some who => cases h

namespace Core

variable {κ α σ : Type} [DecidableEq κ]

theorem attempt_rule {s : Setup κ α σ} {rule : Rule κ α} (htest : s.test = rule.toTest)
    {c : Core κ α σ} (hs : s.selector.Stock c.tracker) (hfree : c.slot = {}) (who : Origin)
    (now : Int64) :
    let live := c.store.filter fun k v => !rule now k v
    ∃ vs, vs.Nodup ∧ (∀ k ∈ vs, k ∈ live.keys) ∧ vs.length = s.config.excess live.size ∧
      (c.attempt s who now).1 =
        .ok (.completed ⟨(c.store.filter (rule now)).size, vs.length, live.size - vs.length⟩) ∧
      (c.attempt s who now).2.store = live.without vs ∧
      (c.attempt s who now).2.tracker.isSome = c.tracker.isSome ∧
      (c.attempt s who now).2.slot = {} := by
  intro live
  obtain ⟨n, x, vs, hsweep, hvs, hkeys, hlen, hreport, hrest⟩ :=
    attempt_stock (htest ▸ rule.toTest_neverFails) hs hfree who now
  have hlive : x.store = live :=
    (congrArg (·.2.store) hsweep).symm.trans (sweep_store_of_rule htest now (c.claimed who))
  have hswept := (congrArg Prod.fst hsweep).symm.trans
    (congrArg Prod.fst (sweep_of_rule htest now (c.claimed who)))
  have hexpired : n = (c.store.filter (rule now)).size := Except.ok.inj hswept
  rw [hlive] at hkeys hlen hreport hrest
  rw [hexpired] at hreport
  exact ⟨vs, hvs, hkeys, hlen, hreport, hrest⟩

theorem attempt_settled {s : Setup κ α σ} {rule : Rule κ α} (htest : s.test = rule.toTest)
    {c : Core κ α σ} (hs : s.selector.Stock c.tracker) (hfree : c.slot = {}) {now : Int64}
    (hmax : c.store.size ≤ s.config.maxCapacity)
    (hrule : ∀ k v, c.store.get? k = some v → rule now k v = false) (who : Origin) :
    ∃ y, c.attempt s who now = (.ok (.completed ⟨0, 0, c.store.size⟩), y) ∧
      y.store = c.store := by
  have hall : (c.store.filter fun k v => !rule now k v) = c.store :=
    Table.filter_eq_self fun e he => by simp [hrule e.1 e.2 (Table.get?_eq_some_iff.mpr he)]
  obtain ⟨vs, -, -, hlen, hreport, hstore, -, -⟩ := attempt_rule htest hs hfree who now
  have hexpired := c.store.size_filter_add (rule now)
  rw [hall] at hlen hreport hstore hexpired
  rw [Config.excess_of_le hmax] at hlen
  have hzero : (c.store.filter (rule now)).size = 0 := by omega
  have hnil : vs = [] := List.eq_nil_of_length_eq_zero hlen
  rw [hzero, hnil, List.length_nil, Nat.sub_zero] at hreport
  exact ⟨_, Prod.ext hreport rfl, by rw [hstore, hnil, Table.without_nil]⟩

/-- An attempt on a free slot completes. It sweeps the entries that the rule
accepts; if more than the ceiling are left it evicts down to the target size,
and otherwise it evicts nothing. The entries it leaves have their values. A
second attempt at the same time removes nothing. -/
theorem attempt_converges (s : Setup κ α σ) (rule : Rule κ α) (htest : s.test = rule.toTest)
    (c : Core κ α σ) (hstock : s.selector.Stock c.tracker) (hfree : c.slot.isRunning = false)
    (who : Origin) (now : Int64) :
    let live := c.store.filter fun k v => !rule now k v
    ∃ report x, c.attempt s who now = (.ok (.completed report), x) ∧
      report.expired = (c.store.filter (rule now)).size ∧
      (s.config.maxCapacity < live.size →
        report.evicted = live.size - s.config.evictTo ∧ report.remaining = s.config.evictTo) ∧
      (live.size ≤ s.config.maxCapacity →
        report.evicted = 0 ∧ report.remaining = live.size ∧ x.store = live) ∧
      (∀ k v, x.store.get? k = some v → c.store.get? k = some v ∧ rule now k v = false) ∧
      report.remaining = x.store.size ∧ report.remaining ≤ s.config.maxCapacity ∧
      ∀ who', ∃ y, x.attempt s who' now = (.ok (.completed ⟨0, 0, x.store.size⟩), y) ∧
        y.store = x.store := by
  intro live
  obtain ⟨vs, hvs, hkeys, hlen, hreport, hstore, htracks, hslot⟩ :=
    attempt_rule htest hstock (RunSlot.eq_free hfree) who now
  let x := (c.attempt s who now).2
  have hx : x.store = live.without vs := hstore
  have hsize : x.store.size = live.size - vs.length := by
    have hadd : (live.without vs).size + vs.length = live.size := Table.size_without hvs hkeys
    rw [hx]
    omega
  have hmax : x.store.size ≤ s.config.maxCapacity := by
    rw [hsize, hlen]
    exact Config.sub_excess_le s.valid _
  have hkept : ∀ k v, x.store.get? k = some v → c.store.get? k = some v ∧ rule now k v = false := by
    intro k v hget
    rw [hx, Table.get?_without, Option.ite_none_left_eq_some, Table.get?_filter,
      Option.filter_eq_some_iff] at hget
    exact ⟨hget.2.1, by simpa using hget.2.2⟩
  refine ⟨_, x, Prod.ext hreport rfl, rfl, ?_, ?_, hkept, hsize.symm, hsize ▸ hmax, ?_⟩
  · -- over the ceiling
    intro hover
    rw [hlen]
    exact ⟨Config.excess_of_lt hover, Config.sub_excess_of_lt s.valid hover⟩
  · -- within it
    intro hwithin
    rw [Config.excess_of_le hwithin] at hlen
    have hnil : vs = [] := List.eq_nil_of_length_eq_zero hlen
    exact ⟨hlen, by show live.size - vs.length = _; omega, by rw [hx, hnil, Table.without_nil]⟩
  · exact attempt_settled htest (hstock.congr htracks) hslot hmax fun k v hget => (hkept k v hget).2

/-- Five entries beside records that do not fit them: key 5 has none, key 9 is
not stored, and all touches are equal, with the counter about to wrap. -/
def diverged : Core Nat Nat Unit where
  store := ⟨[(1, 10), (2, 20), (3, 30), (4, 40), (5, 50)], by decide⟩
  tracker := some {
    stamps := ⟨[1, 2, 3, 4, 9].map (·, Touch.upperBound 0), by decide⟩
    next := UInt64.ofNat (UInt64.size - 1) }
  notes := ()

def divergedSetup : Setup Nat Nat Unit where
  config := ⟨16, 3, 1, 0⟩
  valid := ⟨by decide, by decide⟩
  test := Rule.toTest fun _ k _ => decide (k = 1)
  selector := .leastRecent
  walk := .stored

theorem attempt_converges_diverged :
    divergedSetup.selector.Stock diverged.tracker ∧ diverged.slot.isRunning = false ∧
    ∃ x, diverged.attempt divergedSetup .caller 0 = (.ok (.completed ⟨1, 3, 1⟩), x) ∧
      x.store.size = 1 := by
  refine ⟨rfl, rfl, ?_⟩
  obtain ⟨report, x, hattempt, hexpired, hover, -, -, hremaining, -⟩ :=
    attempt_converges divergedSetup (fun _ k _ => decide (k = 1)) rfl diverged rfl rfl .caller 0
  obtain ⟨hevicted, hone⟩ := hover (by decide)
  have hreport : report = ⟨1, 3, 1⟩ := by
    obtain ⟨expired, evicted, remaining⟩ := report
    simp only [Report.mk.injEq]
    exact ⟨hexpired, hevicted, hone⟩
  subst hreport
  exact ⟨x, hattempt, hremaining.symm⟩

end Core

end SizedCache
