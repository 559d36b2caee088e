import SizedCache.Proofs.PassLaws

/-!
# What a selector can do

A selector may name any keys: absent ones, some of them more than once, too few
or too many. A pass asks it at most once, and only above the ceiling. Of the keys
that it names those go that are present, in the order in which they are named,
until the target size is reached, and a pass that leaves more than the ceiling
says so.
-/

namespace SizedCache

-- ---------------------------------------------------------------------------
-- Selectors that answer
-- ---------------------------------------------------------------------------

namespace Selector

variable {κ α σ : Type}

def NeverFails : Selector κ α σ → Prop
  | .anyOrder | .leastRecent => True
  | .custom choose =>
    ∀ notes current target t, ∃ ks notes', choose notes current target t = .victims ks notes'

theorem NeverFails.choose [DecidableEq κ] {s : Selector κ α σ} (h : s.NeverFails) (walk : Walk κ)
    (tracker : Option (Recency κ)) (notes : σ) (now : Int64) (current target : Nat)
    (t : Table κ α) :
    ∃ ks notes', s.choose walk tracker notes now current target t = .victims ks notes' := by
  cases s with
  | anyOrder => exact ⟨_, _, rfl⟩
  | leastRecent => exact ⟨_, _, rfl⟩
  | custom choose => exact h notes current target t

end Selector

namespace Core

variable {κ α σ : Type}

variable [DecidableEq κ]

/-- With a selector that answers, the phase that looks at the size ends. What it
takes out is `vs`, and it leaves the notes of the selector if it asked it. -/
theorem shrink_of_neverFails {s : Setup κ α σ} (hs : s.selector.NeverFails) (now : Int64)
    (c : Core κ α σ) :
    ∃ vs notes, c.shrink s now = (.ok vs.length, { c with notes }.without vs) ∧
      vs.Nodup ∧ (∀ k ∈ vs, k ∈ c.store.keys) ∧
      (c.store.size ≤ s.config.maxCapacity → vs = [] ∧ notes = c.notes) ∧
      (s.config.maxCapacity < c.store.size → ∃ named,
        s.selector.choose s.walk c.tracker c.notes now c.store.size s.config.evictTo c.store =
          .victims named notes ∧
        vs = (c.store.present named).take (c.store.size - s.config.evictTo)) := by
  rcases Nat.lt_or_ge s.config.maxCapacity c.store.size with h | h
  · obtain ⟨named, notes, hc⟩ := hs.choose s.walk c.tracker c.notes now c.store.size
      s.config.evictTo c.store
    refine ⟨_, notes, shrink_of_victims h hc,
      (c.store.present_nodup named).sublist (List.take_sublist _ _),
      fun k hk => (Table.mem_present.mp (List.mem_of_mem_take hk)).2,
      fun hle => absurd h (Nat.not_lt.mpr hle), fun _ => ⟨named, hc, rfl⟩⟩
  · exact ⟨[], c.notes, by simp [shrink_of_le now h], .nil, by simp, fun _ => ⟨rfl, rfl⟩,
      fun hlt => absurd hlt (Nat.not_lt.mpr h)⟩

/-- A pass of a rule and a selector that answers. The sweep leaves what the rule
rejects. Within the ceiling the selector is not asked, so that its notes stay, and
nothing is evicted. Above it the selector is asked once, about the number of the
entries and the target size, and its notes are those that this one answer leaves;
of the distinct keys that it names and that are there the first ones go, as many
as are above the target size or as there are. The pass warns iff more than the
ceiling is left. -/
theorem evicts_first_named (s : Setup κ α σ) (rule : Rule κ α) (htest : s.test = rule.toTest)
    (hs : s.selector.NeverFails) (c : Core κ α σ) (now : Int64) :
    let live := c.store.filter fun k v => !rule now k v
    ∃ report x, c.pass s now = (.ok report, x) ∧
      report.expired = (c.store.filter (rule now)).size ∧
      (live.size ≤ s.config.maxCapacity →
        report.evicted = 0 ∧ x.store = live ∧ x.notes = c.notes) ∧
      (s.config.maxCapacity < live.size → ∃ named,
        s.selector.choose s.walk (c.sifted s now).tracker c.notes now live.size s.config.evictTo
          live = .victims named x.notes ∧
        report.evicted = min (live.size - s.config.evictTo) (live.present named).length ∧
        x.store = live.without ((live.present named).take report.evicted) ∧
        s.config.evictTo ≤ report.remaining) ∧
      report.remaining = live.size - report.evicted ∧ report.remaining = x.store.size ∧
      ∃ events, x.journal = c.journal ++ events ∧ ∀ r m, .leftAboveMax r m ∈ events ↔
        s.config.maxCapacity < report.remaining ∧ r = report.remaining ∧
          m = s.config.maxCapacity := by
  intro live
  have hlive : (c.sifted s now).store = live := sifted_store htest now c
  obtain ⟨found, hfound, hreconciled⟩ := sifted_journal htest now c
  obtain ⟨vs, notes, hshrink, hvs, hkeys, hwithin, hover⟩ :=
    shrink_of_neverFails hs now (c.sifted s now)
  rw [hlive] at hkeys hwithin hover
  rw [sifted_notes htest] at hwithin hover
  -- `y` is what the phase that looks at the size leaves
  let y := { c.sifted s now with notes }.without vs
  have hy : y.store = live.without vs := congrArg (Table.without · vs) hlive
  have hsize : y.store.size = live.size - vs.length := by
    have hadd := Table.size_without hvs hkeys
    rw [hy]
    omega
  have hswept := congrArg Prod.fst (sweep_of_rule htest now c)
  have hpass := pass_of_sifted_ok hswept hshrink
  obtain ⟨_, hconclude, -⟩ := conclude_eq s (c.store.filter (rule now)).size vs.length y
  have hwarn := conclude_journal s (c.store.filter (rule now)).size vs.length y
  rw [hconclude] at hpass hwarn
  refine ⟨_, _, hpass, rfl, fun hle => ?_, fun hlt => ?_, hsize, rfl, ?_⟩
  · -- within the ceiling
    obtain ⟨rfl, rfl⟩ := hwithin hle
    exact ⟨rfl, by rw [← live.without_nil]; exact hy, rfl⟩
  · -- above it
    obtain ⟨named, hchoose, rfl⟩ := hover hlt
    have hcount : ((live.present named).take (live.size - s.config.evictTo)).length =
        min (live.size - s.config.evictTo) (live.present named).length := List.length_take
    refine ⟨named, hchoose, hcount, ?_, ?_⟩
    · show y.store = _
      rw [hy, hcount, ← List.take_eq_take_min]
    · have htarget := s.valid.evictTo_le
      show s.config.evictTo ≤ y.store.size
      omega
  · -- the warning is the only event but those of the records
    have hjournal : y.journal = c.journal ++ found := hfound
    refine ⟨_, hwarn.trans ((congrArg (· ++ _) hjournal).trans (List.append_assoc ..)), ?_⟩
    intro r m
    have hnot : .leftAboveMax r m ∉ found := by
      intro hmem
      obtain ⟨_, _, he⟩ := hreconciled _ hmem
      cases he
    by_cases habove : s.config.maxCapacity < y.store.size <;> simp [hnot, habove]

/-- Names an absent key, some keys twice and more keys than are too many, and
notes what it is asked. -/
def insistent : Selector Nat Nat (List (Nat × Nat)) :=
  .custom fun asked current target _ =>
    .victims [9, 4, 4, 1, 2, 4, 6, 5] (asked ++ [(current, target)])

def insistentSetup : Setup Nat Nat (List (Nat × Nat)) where
  config := ⟨16, 3, 2, 0⟩
  valid := ⟨by decide, by decide⟩
  test := Rule.toTest fun _ k _ => decide (k = 1)
  selector := insistent
  walk := .stored

def sixEntries : Core Nat Nat (List (Nat × Nat)) where
  store := ⟨[(1, 10), (2, 20), (3, 30), (4, 40), (5, 50), (6, 60)], by decide⟩
  tracker := none
  notes := []

theorem evicts_first_named_insistent :
    insistentSetup.selector.NeverFails ∧
    ∃ x, sixEntries.pass insistentSetup 0 = (.ok ⟨1, 3, 2⟩, x) ∧ x.notes = [(5, 2)] ∧
      x.store.keys = [3, 5] := by
  have hs : insistentSetup.selector.NeverFails := fun _ _ _ _ => ⟨_, _, rfl⟩
  obtain ⟨report, x, hpass, hexpired, -, hover, hremaining, -, -⟩ :=
    evicts_first_named insistentSetup (fun _ k _ => decide (k = 1)) rfl hs sixEntries 0
  obtain ⟨named, hchoose, hevicted, hstore, -⟩ := hover (by decide)
  obtain ⟨rfl, hnotes⟩ := Choice.victims.inj hchoose
  have hthree : report.evicted = 3 := hevicted
  have hreport : report = ⟨1, 3, 2⟩ := by
    obtain ⟨expired, evicted, remaining⟩ := report
    simp only [Report.mk.injEq]
    subst hthree
    exact ⟨hexpired, rfl, hremaining⟩
  subst hreport
  exact ⟨hs, x, hpass, hnotes.symm, by rw [hstore]; rfl⟩

end Core

end SizedCache
