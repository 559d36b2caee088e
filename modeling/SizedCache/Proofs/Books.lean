import SizedCache.Proofs.PassBooks

/-!
# The books balance

The books of a run, and that they agree with what the cache counts and holds:
every lookup is a hit or a miss, every attempt is counted by its outcome, and
what came in and was not taken out, given up or evicted is still there.
-/

namespace SizedCache

namespace Table

variable {κ α : Type} [DecidableEq κ]

/-- How many vacant keys become present when pairs are stored in turn. -/
def entering : List (κ × α) → Table κ α → Nat
  | [], _ => 0
  | e :: es, t => (if t.contains e.1 then 0 else 1) + entering es (t.set e.1 e.2)

theorem size_foldl_set (es : List (κ × α)) (t : Table κ α) :
    (es.foldl (fun t e => t.set e.1 e.2) t).size = t.size + t.entering es := by
  induction es generalizing t with
  | nil => rfl
  | cons e es ih => rw [List.foldl_cons, ih, size_set_contains, entering, Nat.add_assoc]

end Table

namespace Cache

variable {κ α σ : Type}

-- ---------------------------------------------------------------------------
-- The books of a call
-- ---------------------------------------------------------------------------

def Call.key? : Call κ α → Option κ
  | .put k _ | .putIfAbsent k _ | .remove k | .removeIfEq k _ | .replace k _
  | .replaceIfEq k _ _ | .get k | .getOrDefault k _ | .getLive k | .contains k
  | .computeIfAbsent k _ | .computeIfPresent k _ | .compute k _ | .merge k _ _ => some k
  | .putAll _ | .clear | .forceCleanup | .sleep _ | .setClock _ | .editTracker _ => none

variable [DecidableEq κ] [DecidableEq α] [Expirable α]

def found? (c : Cache κ α σ) : Call κ α → Option Bool
  | .get k | .getOrDefault k _ => some (c.contains k)
  | .getLive k =>
    match (c.getLive k).1 with
    | .live _ => some true
    | .expired | .absent => some false
  | _ => none

def entered (c : Cache κ α σ) (call : Call κ α) : Nat :=
  match call with
  | .putAll es => c.store.entering es
  | call =>
    match call.key? with
    | some k => if (c.step call).2.contains k && !c.contains k then 1 else 0
    | none => 0

/-- How many entries a call says that it took out. A closure that answers `none`
takes out the entry that it found. -/
def taken (c : Cache κ α σ) (call : Call κ α) : Nat :=
  match call, (c.step call).1 with
  | .remove _, .value (some _) => 1
  | .removeIfEq .., .flag true => 1
  | .getLive _, .lookup .expired => 1
  | .computeIfPresent k _, .value none | .compute k _, .value none | .merge k .., .value none =>
    if c.contains k then 1 else 0
  | .clear, _ => c.size
  | _, _ => 0

omit [DecidableEq α] [Expirable α] in
theorem contains_eq (c : Cache κ α σ) (k : κ) : c.contains k = (c.store.get? k).isSome :=
  rfl

omit [Expirable α] in
theorem removeIfEq_fst (c : Cache κ α σ) (k : κ) (v : α) :
    (c.removeIfEq k v).1 = decide (c.store.get? k = some v) := by
  unfold removeIfEq Table.removeIf
  cases hk : c.store.get? k with
  | none => simp
  | some w => by_cases hw : w = v <;> simp [hw]

/-- What a call does to the store, and that it tells what it takes out. -/
inductive Does (c : Cache κ α σ) (call : Call κ α) (k : κ) : Prop
  | nothing (heffects : c.effects call = []) (htaken : c.taken call = 0)
  | keeps (v : α) (heffects : c.effects call = [.keep k v]) (htaken : c.taken call = 0)
  | drops (heffects : c.effects call = [.drop k])
    (htaken : c.taken call = if c.contains k then 1 else 0)

def answerEffects (k : κ) : Except Failure (Option α) → List (Effect κ α)
  | .ok w => [.settle k w]
  | .error _ => []

def answerTaken (c : Cache κ α σ) (k : κ) : Except Failure (Option α) → Nat
  | .ok none => if c.contains k then 1 else 0
  | _ => 0

theorem Does.of_answer {c : Cache κ α σ} {call : Call κ α} {k : κ}
    {r : Except Failure (Option α)} (heffects : c.effects call = answerEffects k r)
    (htaken : c.taken call = c.answerTaken k r) : c.Does call k := by
  rcases r with e | _ | v
  · exact .nothing heffects htaken
  · exact .drops heffects htaken
  · exact .keeps v heffects htaken

theorem does_of_key (c : Cache κ α σ) {call : Call κ α} {k : κ} (h : call.key? = some k) :
    c.Does call k := by
  cases call with
  | put j v | putIfAbsent j v =>
    cases h
    exact .keeps _ rfl rfl
  | remove j =>
    cases h
    cases hk : c.store.get? k with
    | none =>
      apply Does.nothing
      · simp [effects, contains_eq, hk]
      · simp [taken, step, remove, Table.remove, hk]
    | some v =>
      apply Does.drops
      · simp [effects, contains_eq, hk]
      · simp [taken, contains_eq, step, remove, Table.remove, hk]
  | removeIfEq j v =>
    cases h
    by_cases hk : c.store.get? k = some v
    · apply Does.drops
      · simp [effects, hk]
      · simp [taken, contains_eq, step, removeIfEq_fst, hk]
    · apply Does.nothing
      · simp [effects, hk]
      · simp [taken, step, removeIfEq_fst, hk]
  | replace j v =>
    cases h
    cases hk : c.contains k with
    | false => exact .nothing (by simp [effects, hk]) rfl
    | true => exact .keeps v (by simp [effects, hk]) rfl
  | replaceIfEq j old new =>
    cases h
    by_cases hk : c.store.get? k = some old
    · exact .keeps new (by simp [effects, hk]) rfl
    · exact .nothing (by simp [effects, hk]) rfl
  | get j | getOrDefault j v =>
    cases h
    cases hk : c.store.get? k with
    | none => exact .nothing (by simp [effects, hk]) rfl
    | some w => exact .keeps w (by simp [effects, hk]) rfl
  | getLive j =>
    cases h
    cases hk : c.store.get? k with
    | none => exact .nothing (by simp [effects, hk]) (by simp [taken, step, getLive, hk])
    | some v =>
      cases hv : Expirable.expired v c.now with
      | false =>
        apply Does.keeps v
        · simp [effects, hk, hv]
        · simp [taken, step, getLive, hk, hv]
      | true =>
        apply Does.drops
        · simp [effects, hk, hv]
        · simp [taken, contains_eq, step, getLive, hk, hv]
  | contains j =>
    cases h
    exact .nothing rfl rfl
  | computeIfAbsent j f =>
    cases h
    cases hk : c.store.get? k with
    | some v => exact .keeps v (by simp [effects, hk]) rfl
    | none =>
      rcases hf : f k with e | _ | v
      · exact .nothing (by simp [effects, hk, hf]) rfl
      · exact .nothing (by simp [effects, hk, hf]) rfl
      · exact .keeps v (by simp [effects, hk, hf]) rfl
  | computeIfPresent j f =>
    cases h
    cases hk : c.store.get? k with
    | none =>
      apply Does.of_answer (r := .ok none)
      · simp only [effects, hk, answerEffects, Effect.settle]
      · simp only [taken, step, computeIfPresent, Table.computeIfPresent, hk]
        rfl
    | some old =>
      apply Does.of_answer (r := f k old)
      · simp only [effects, hk]
        cases f k old <;> rfl
      · simp only [taken, step, computeIfPresent, Table.computeIfPresent, hk]
        rcases f k old with e | _ | v <;> rfl
  | compute j f =>
    cases h
    apply Does.of_answer (r := f k (c.store.get? k))
    · simp only [effects]
      cases f k (c.store.get? k) <;> rfl
    · simp only [taken, step, compute, Table.compute]
      rcases f k (c.store.get? k) with e | _ | v <;> rfl
  | merge j v f =>
    cases h
    cases hk : c.store.get? k with
    | none =>
      apply Does.of_answer (r := .ok (some v))
      · simp only [effects, hk, answerEffects, Effect.settle]
      · simp only [taken, step, merge, Table.merge, hk]
        rfl
    | some old =>
      apply Does.of_answer (r := f old v)
      · simp only [effects, hk]
        cases f old v <;> rfl
      · simp only [taken, step, merge, Table.merge, hk]
        rcases f old v with e | _ | w <;> rfl
  | putAll es | clear | forceCleanup | sleep ms | setClock now | editTracker f => cases h

omit [DecidableEq κ] [DecidableEq α] [Expirable α] in
theorem Call.isDirect_of_key {call : Call κ α} {k : κ} (h : call.key? = some k) :
    call.IsDirect := by
  cases call <;> first | rfl | cases h

theorem step_store_stats (c : Cache κ α σ) {call : Call κ α} (h : call.IsDirect) :
    (c.step call).2.store = (c.perform call).store ∧
      (c.step call).2.stats = c.tally call c.stats := by
  obtain ⟨oneShot, journal, heq⟩ := c.step_frame_of_direct h
  rw [heq]
  exact ⟨rfl, (Core.actAll_frame ..).1⟩

theorem size_of_key (c : Cache κ α σ) {call : Call κ α} {k : κ} (h : call.key? = some k) :
    (c.step call).2.size + c.taken call = c.size + c.entered call := by
  have hentered : c.entered call =
      if (c.step call).2.contains k && !c.contains k then 1 else 0 := by
    cases call <;> cases h <;> rfl
  have hperform := (c.step_store_stats (Call.isDirect_of_key h)).1
  cases c.does_of_key h with
  | nothing heffects htaken =>
    have hstore : (c.step call).2.core.store = c.core.store := by
      rw [← store, hperform, perform, heffects]
      rfl
    simp [hentered, htaken, size, contains, store, hstore]
  | keeps v heffects htaken =>
    have hstore : (c.step call).2.core.store = c.core.store.set k v := by
      rw [← store, hperform, perform, heffects]
      rfl
    simp only [hentered, htaken, size, contains, store, hstore, Table.size_set_contains]
    cases c.core.store.contains k <;> simp
  | drops heffects htaken =>
    have hstore : (c.step call).2.core.store = c.core.store.erase k := by
      rw [← store, hperform, perform, heffects]
      rfl
    simp only [hentered, htaken, size, contains, store, hstore, Table.contains_erase_self]
    exact c.core.store.size_erase_contains k

theorem size_of_direct (c : Cache κ α σ) {call : Call κ α} (h : call.IsDirect) :
    (c.step call).2.size + c.taken call = c.size + c.entered call := by
  cases hk : call.key? with
  | some k => exact c.size_of_key hk
  | none =>
    cases call with
    | putAll es =>
      have hfold : ∀ (es : List (κ × α)) (x : Core κ α σ),
          (x.actAll c.now (es.map fun e => .keep e.1 e.2)).store =
            es.foldl (fun t e => t.set e.1 e.2) x.store := by
        intro es
        induction es with
        | nil => intro x; rfl
        | cons e es ih => intro x; exact ih _
      have hstore := (c.step_store_stats h).1.trans (hfold es c.core)
      exact (congrArg Table.size hstore).trans (Table.size_foldl_set es c.store)
    | clear => exact Nat.zero_add c.size
    | forceCleanup | sleep ms | setClock now | editTracker f => cases h
    | _ => cases hk

-- ---------------------------------------------------------------------------
-- The books of a run
-- ---------------------------------------------------------------------------

/-- The books of a call: of the lookup that it is and the entries that it brings in
or takes out, or of the attempts that it makes. -/
def callBooks (c : Cache κ α σ) (call : Call κ α) : Books :=
  match call with
  | .forceCleanup => c.core.attemptBooks c.setup .caller c.now
  | .sleep ms => c.core.firingBooks c.setup c.wallAt (c.firingsIn ms)
  | call =>
    { hits := if c.found? call = some true then 1 else 0
      misses := if c.found? call = some false then 1 else 0
      entered := c.entered call
      taken := c.taken call }

def books (c : Cache κ α σ) : List (Call κ α) → Books
  | [] => {}
  | call :: calls => c.callBooks call + books (c.step call).2 calls

theorem tally_eq (c : Cache κ α σ) (call : Call κ α) (s : Stats) :
    c.tally call s = s.post
      { hits := if c.found? call = some true then 1 else 0
        misses := if c.found? call = some false then 1 else 0
        entered := c.entered call
        taken := c.taken call } := by
  cases call with
  | get k | getOrDefault k v =>
    cases hk : c.contains k <;> simp [tally, found?, hk, Stats.post, Stats.hit, Stats.miss]
  | getLive k =>
    cases hk : c.store.get? k with
    | none => simp [tally, found?, getLive, hk, Stats.post, Stats.miss]
    | some v =>
      cases hv : Expirable.expired v c.now <;>
        simp [tally, found?, getLive, hk, hv, Stats.post, Stats.hit, Stats.miss]
  | _ => simp [tally, found?, Stats.post]

theorem step_posted (c : Cache κ α σ) (call : Call κ α) :
    c.core.Posted (c.callBooks call) (c.step call).2.core := by
  cases call with
  | forceCleanup => exact c.core.attempt_posted c.setup .caller c.now
  | sleep ms =>
    have hcore : (c.step (.sleep ms)).2.core = _ := sleep_attempts rfl ms
    rw [hcore]
    exact c.core.attempts_posted c.setup c.wallAt (c.firingsIn ms)
  | setClock now | editTracker f => exact ⟨(Stats.post_empty _).symm, fun _ => rfl⟩
  | _ =>
    refine ⟨((c.step_store_stats rfl).2).trans (c.tally_eq _ _), fun _ => ?_⟩
    exact c.size_of_direct rfl

theorem run_posted (c : Cache κ α σ) (calls : List (Call κ α)) :
    c.core.Posted (c.books calls) (c.run calls).core := by
  induction calls generalizing c with
  | nil => exact .refl c.core
  | cons call calls ih => exact (c.step_posted call).trans (ih (c.step call).2)

/-- The counters say what is in the books, up to the size of a counter, and what
came in and did not go out is there, unless a test or a selector failed. -/
theorem books_balance {b : Builder κ α σ} {now : Int64} {notes : σ} {c : Cache κ α σ}
    (hc : b.build now notes = .ok c) (calls : List (Call κ α))
    (hfailed : (c.books calls).failed = 0)
    (hcounts : ∀ n ∈ (c.books calls).counts, n < UInt64.size) :
    let d := c.run calls
    let books := c.books calls
    d.stats.hits.toNat = books.hits ∧ d.stats.misses.toNat = books.misses ∧
      d.stats.runs.toNat = books.completed ∧ d.stats.skipped.toNat = books.skipped ∧
      d.stats.expirations.toNat = books.expired ∧ d.stats.evictions.toNat = books.evicted ∧
      d.size + books.taken + d.stats.expirations.toNat + d.stats.evictions.toNat =
        books.entered := by
  intro d books
  obtain ⟨hstats, hsize⟩ := c.run_posted calls
  have hempty : c.core.stats = {} ∧ c.core.store = .empty := by
    obtain ⟨_, _, _, -, rfl⟩ := Builder.build_ok hc
    exact ⟨rfl, rfl⟩
  rw [hempty.1] at hstats
  have hend : d.size + books.taken + books.expired + books.evicted = books.entered := by
    have hsum := hsize hfailed
    rw [hempty.2] at hsum
    exact hsum.trans (Nat.zero_add _)
  obtain ⟨hhits, hmisses, hcompleted, hskipped, hexpired, hevicted⟩ := Stats.toNat_post hcounts
  rw [stats, hstats, hexpired, hevicted]
  exact ⟨hhits, hmisses, hcompleted, hskipped, rfl, rfl, hend⟩

/-- Attempts a cleanup before it answers, and gives up zeros. -/
def restlessTest : RemovalTest Nat (Timed Nat) Unit := fun _ _ _ v =>
  .attempt fun _ => if v.value = 0 then .remove () else .keep ()

/-- The victims are one key that is absent, one that is named twice, and one more. -/
def restlessBuilder : Builder Nat (Timed Nat) Unit :=
  ((Builder.start ⟨16, 3, 1, 1⟩ true).removalTest restlessTest).victimSelector
    (.custom fun _ _ _ _ => .victims [9, 4, 4, 5] ()) none

def restlessCalls : List (Call Nat (Timed Nat)) :=
  [.putAll ((List.range 6).map fun k => (k, .permanent k 0)), .get 1,
    .getOrDefault 9 (.permanent 9 0), .sleep 50, .compute 2 fun _ _ => .ok none,
    .put 6 (.expiringAt 6 0 40), .getLive 6, .getLive 3, .sleep 50, .sleep 900,
    .put 7 (.permanent 0 0), .forceCleanup, .remove 3, .remove 3, .clear, .put 8 (.permanent 8 0)]

theorem books_balance_restless : ∃ c, restlessBuilder.build 0 () = .ok c ∧
    (c.books restlessCalls).failed = 0 ∧ (c.run restlessCalls).stats.runs.toNat = 4 ∧
      (c.run restlessCalls).stats.skipped.toNat = 13 ∧ (c.run restlessCalls).size = 1 := by
  obtain ⟨c, hc⟩ : ∃ c, restlessBuilder.build 0 () = .ok c := ⟨_, rfl⟩
  have hbooks : c.books restlessCalls = {
      hits := 2, misses := 2, completed := 4, expired := 2, evicted := 2, skipped := 13,
      entered := 9, taken := 4 } := by
    cases hc
    decide +kernel
  have hfailed : (c.books restlessCalls).failed = 0 := by rw [hbooks]
  have hcounts : ∀ n ∈ (c.books restlessCalls).counts, n < UInt64.size := by
    rw [hbooks]
    decide
  obtain ⟨-, -, hruns, hskipped, hexpired, hevicted, hsize⟩ :=
    books_balance hc restlessCalls hfailed hcounts
  rw [hexpired, hevicted, hbooks] at hsize
  rw [hbooks] at hruns hskipped
  exact ⟨c, hc, hfailed, hruns, hskipped, by simpa using hsize⟩

end Cache

end SizedCache
