import SizedCache.Proofs.RulePasses

/-!
# The books of attempts

What a cache counts, and what it does not but a reader could: lookups, attempts
by their outcome, and the entries that came in and went out. Every attempt is in
the books with its outcome, also one that a removal test makes inside a pass.
Whatever the test and the selector do, the counters say what the books say, and
an attempt that ends takes out as many entries as it reports.
-/

namespace SizedCache

structure Books where
  hits : Nat := 0
  misses : Nat := 0
  completed : Nat := 0
  expired : Nat := 0
  evicted : Nat := 0
  skipped : Nat := 0
  /-- Attempts whose test or selector failed. -/
  failed : Nat := 0
  entered : Nat := 0
  taken : Nat := 0
deriving DecidableEq, Repr

namespace Books

def add (a b : Books) : Books where
  hits := a.hits + b.hits
  misses := a.misses + b.misses
  completed := a.completed + b.completed
  expired := a.expired + b.expired
  evicted := a.evicted + b.evicted
  skipped := a.skipped + b.skipped
  failed := a.failed + b.failed
  entered := a.entered + b.entered
  taken := a.taken + b.taken

instance : Add Books := ⟨add⟩

def counts (b : Books) : List Nat :=
  [b.hits, b.misses, b.completed, b.expired, b.evicted, b.skipped]

theorem add_def (a b : Books) : a + b = a.add b := rfl

def ofAttempt : Except Failure Outcome → Books
  | .ok (.completed report) =>
    { completed := 1, expired := report.expired, evicted := report.evicted }
  | .ok .skipped => { skipped := 1 }
  | .error _ => { failed := 1 }

end Books

def Stats.post (s : Stats) (b : Books) : Stats where
  hits := s.hits + UInt64.ofNat b.hits
  misses := s.misses + UInt64.ofNat b.misses
  expirations := s.expirations + UInt64.ofNat b.expired
  evictions := s.evictions + UInt64.ofNat b.evicted
  runs := s.runs + UInt64.ofNat b.completed
  skipped := s.skipped + UInt64.ofNat b.skipped

@[simp] theorem Stats.post_empty (s : Stats) : s.post {} = s := by
  simp [post]

theorem Stats.post_add (s : Stats) (a b : Books) : s.post (a + b) = (s.post a).post b := by
  simp [post, Books.add_def, Books.add, UInt64.ofNat_add, UInt64.add_assoc]

theorem Stats.post_skipped_add (s : Stats) (m n : Nat) :
    s.post { skipped := m + n } = (s.post { skipped := m }).post { skipped := n } :=
  s.post_add { skipped := m } { skipped := n }

theorem Stats.toNat_post {b : Books} (h : ∀ n ∈ b.counts, n < UInt64.size) :
    let s := ({} : Stats).post b
    s.hits.toNat = b.hits ∧ s.misses.toNat = b.misses ∧ s.runs.toNat = b.completed ∧
      s.skipped.toNat = b.skipped ∧ s.expirations.toNat = b.expired ∧
      s.evictions.toNat = b.evicted := by
  have hword : ∀ n ∈ b.counts, (0 + UInt64.ofNat n).toNat = n := by
    intro n hn
    rw [UInt64.zero_add, UInt64.toNat_ofNat_of_lt' (h n hn)]
  simp only [Books.counts, List.forall_mem_cons] at hword
  obtain ⟨hhits, hmisses, hcompleted, hexpired, hevicted, hskipped, -⟩ := hword
  exact ⟨hhits, hmisses, hcompleted, hskipped, hexpired, hevicted⟩

/-- How many attempts a test makes on the way to its answer. -/
def Judgement.attempts {σ : Type} (running : Bool) : Judgement σ → Nat
  | .keep _ | .remove _ | .fail _ _ => 0
  | .askRunning resume => (resume running).attempts running
  | .attempt resume => 1 + (resume .skipped).attempts running

theorem Except.map_eq_ok {ε α β : Type} {x : Except ε α} {f : α → β} {b : β} :
    x.map f = .ok b ↔ ∃ a, x = .ok a ∧ f a = b := by
  cases x <;> simp [Except.map]

namespace Core

variable {κ α σ : Type}

/-- What the books say of a core `c` that became `x`. The entries add up if no
attempt failed. -/
structure Posted (c : Core κ α σ) (b : Books) (x : Core κ α σ) : Prop where
  stats : x.stats = c.stats.post b
  size : b.failed = 0 → x.store.size + b.taken + b.expired + b.evicted = c.store.size + b.entered

theorem Posted.refl (c : Core κ α σ) : c.Posted {} c :=
  ⟨c.stats.post_empty.symm, fun _ => rfl⟩

theorem Posted.trans {c x y : Core κ α σ} {a b : Books} (hx : c.Posted a x) (hy : x.Posted b y) :
    c.Posted (a + b) y where
  stats := by rw [hy.stats, hx.stats, Stats.post_add]
  size hfailed := by
    have hsum : a.failed + b.failed = 0 := hfailed
    have hx := hx.size (by omega)
    have hy := hy.size (by omega)
    show y.store.size + (a.taken + b.taken) + (a.expired + b.expired) + (a.evicted + b.evicted) =
      c.store.size + (a.entered + b.entered)
    omega

-- ---------------------------------------------------------------------------
-- Sweep
-- ---------------------------------------------------------------------------

theorem settle_attempts (j : Judgement σ) (c : Core κ α σ) :
    ∃ notes, (settle j c).2 =
      { c with notes, stats := c.stats.post { skipped := j.attempts c.slot.isRunning } } := by
  induction j generalizing c with
  | keep notes => exact ⟨notes, by simp [settle, Judgement.attempts]⟩
  | remove notes => exact ⟨notes, by simp [settle, Judgement.attempts]⟩
  | fail e notes => exact ⟨notes, by simp [settle, Judgement.attempts]⟩
  | askRunning resume ih => exact ih _ c
  | attempt resume ih =>
    obtain ⟨notes, heq⟩ := ih .skipped { c with stats := c.stats.skip }
    refine ⟨notes, heq.trans ?_⟩
    simp [Judgement.attempts, Stats.post, Stats.skip, UInt64.ofNat_add, UInt64.add_assoc]

variable [DecidableEq κ]

theorem size_drop {c : Core κ α σ} {k : κ} (h : k ∈ c.store.keys) :
    (c.drop k).store.size + 1 = c.store.size := by
  have herase := c.store.size_erase_contains k
  rwa [if_pos (Table.contains_iff.mpr h)] at herase

def nested (test : RemovalTest κ α σ) (now : Int64) : List κ → Core κ α σ → Nat
  | [], _ => 0
  | k :: ks, c =>
    match c.store.get? k with
    | none => nested test now ks c
    | some v =>
      let j := test c.notes now k v
      j.attempts c.slot.isRunning +
        match c.settle j with
        | (.error _, _) => 0
        | (.ok false, c) => nested test now ks c
        | (.ok true, c) => nested test now ks (c.drop k)

/-- Whatever the test does, a sweep that ends takes out as many entries as it
counts, and every attempt on the way is counted as skipped. -/
theorem sweep_books (test : RemovalTest κ α σ) (now : Int64) (ks : List κ) (c : Core κ α σ) :
    (c.sweep test now ks).2.stats = c.stats.post { skipped := c.nested test now ks } ∧
      ∀ n, (c.sweep test now ks).1 = .ok n →
        (c.sweep test now ks).2.store.size + n = c.store.size := by
  induction ks generalizing c with
  | nil => exact ⟨c.stats.post_empty.symm, by rintro _ ⟨⟩; rfl⟩
  | cons k ks ih =>
    cases hk : c.store.get? k with
    | none =>
      rw [sweep_absent hk, nested, hk]
      exact ih c
    | some v =>
      obtain ⟨notes, hsettle⟩ := settle_attempts (test c.notes now k v) c
      rcases hj : c.settle (test c.notes now k v) with ⟨answer, x⟩
      obtain rfl : x = _ := (congrArg Prod.snd hj).symm.trans hsettle
      simp only [nested, hk, hj]
      rw [Stats.post_skipped_add]
      -- the attempts of this test come before those of the tests that follow
      match answer with
      | .error e =>
        rw [sweep_fail hk hj]
        exact ⟨(Stats.post_empty _).symm, by rintro _ ⟨⟩⟩
      | .ok false =>
        rw [sweep_keep hk hj]
        exact ih _
      | .ok true =>
        obtain ⟨hstats, hsize⟩ := ih (Core.drop _ k)
        rw [sweep_remove hk hj]
        refine ⟨hstats, fun n hn => ?_⟩
        obtain ⟨m, hm, rfl⟩ := Except.map_eq_ok.mp hn
        exact (congrArg (· + 1) (hsize m hm)).trans (size_drop (Table.mem_keys_of_get? hk))

-- ---------------------------------------------------------------------------
-- Eviction
-- ---------------------------------------------------------------------------

theorem evict_books (target : Nat) (ks : List κ) (c : Core κ α σ) :
    (c.evict target ks).2.stats = c.stats ∧
      (c.evict target ks).2.store.size + (c.evict target ks).1 = c.store.size := by
  have hdistinct := (c.store.present_nodup ks).sublist
    (List.take_sublist (c.store.size - target) (c.store.present ks))
  rw [evict_eq]
  exact ⟨rfl, Table.size_without hdistinct fun k hk =>
    (Table.mem_present.mp (List.mem_of_mem_take hk)).2⟩

theorem shrink_books (s : Setup κ α σ) (now : Int64) (c : Core κ α σ) :
    (c.shrink s now).2.stats = c.stats ∧
      ∀ n, (c.shrink s now).1 = .ok n → (c.shrink s now).2.store.size + n = c.store.size := by
  unfold shrink
  simp only
  split
  · split
    · rename_i keys notes _
      obtain ⟨hstats, hsize⟩ := evict_books s.config.evictTo keys { c with notes }
      exact ⟨hstats, by rintro _ ⟨⟩; exact hsize⟩
    · exact ⟨rfl, by rintro _ ⟨⟩⟩
  · exact ⟨rfl, by rintro _ ⟨⟩; rfl⟩

-- ---------------------------------------------------------------------------
-- Attempts
-- ---------------------------------------------------------------------------

omit [DecidableEq κ] in
theorem Posted.of_failed {c x : Core κ α σ} {n : Nat}
    (h : x.stats = c.stats.post { skipped := n }) (e : Failure) :
    c.Posted ({ skipped := n } + .ofAttempt (.error e)) x := by
  refine ⟨?_, by rintro ⟨⟩⟩
  rw [Stats.post_add, ← h]
  simp [Stats.post, Books.ofAttempt]

omit [DecidableEq κ] in
theorem Posted.of_completed {c x : Core κ α σ} {n : Nat} {report : Report}
    (h : x.stats = (c.stats.post { skipped := n }).pass report.expired report.evicted)
    (hsize : x.store.size + report.expired + report.evicted = c.store.size) :
    c.Posted ({ skipped := n } + .ofAttempt (.ok (.completed report))) x := by
  constructor
  · rw [Stats.post_add, h]
    simp [Stats.post, Stats.pass, Books.ofAttempt]
  · intro _
    simpa [Books.add_def, Books.add, Books.ofAttempt] using hsize

theorem pass_posted (s : Setup κ α σ) (now : Int64) (c : Core κ α σ) :
    c.Posted ({ skipped := c.nested s.test now (s.walk.arrange c.store.keys) } +
      .ofAttempt ((c.pass s now).1.map .completed)) (c.pass s now).2 := by
  obtain ⟨hstats, hsize⟩ := sweep_books s.test now (s.walk.arrange c.store.keys) c
  rcases hx : c.sweep s.test now (s.walk.arrange c.store.keys) with ⟨e | n, x⟩
  all_goals rw [hx] at hstats hsize
  · rw [pass_of_sweep_error hx]
    exact .of_failed hstats e
  · obtain ⟨_, _, -, hrec⟩ := reconcile_eq s.walk now x
    obtain ⟨hstats', hsize'⟩ := shrink_books s now (x.reconcile s.walk now)
    rcases hy : (x.reconcile s.walk now).shrink s now with ⟨e | m, y⟩
    all_goals rw [hy, hrec] at hstats' hsize'
    · rw [pass_of_shrink_error hx hy]
      exact .of_failed (hstats'.trans hstats) e
    · obtain ⟨journal, hconclude, -⟩ := conclude_eq s n m y
      rw [pass_of_ok hx hy, hconclude]
      refine .of_completed (congrArg (Stats.pass · n m) (hstats'.trans hstats)) ?_
      have hswept : x.store.size + n = c.store.size := hsize n rfl
      have hshrunk : y.store.size + m = x.store.size := hsize' m rfl
      show y.store.size + n + m = c.store.size
      omega

def attemptBooks (s : Setup κ α σ) (who : Origin) (now : Int64) (c : Core κ α σ) : Books :=
  match c.slot.claim? who with
  | none => .ofAttempt (.ok .skipped)
  | some slot =>
    { skipped := { c with slot }.nested s.test now (s.walk.arrange c.store.keys) } +
      .ofAttempt (c.attempt s who now).1

theorem attempt_posted (s : Setup κ α σ) (who : Origin) (now : Int64) (c : Core κ α σ) :
    c.Posted (c.attemptBooks s who now) (c.attempt s who now).2 := by
  unfold attemptBooks
  cases h : c.slot.claim? who with
  | none =>
    simp only [attempt, h]
    exact ⟨by simp [Stats.post, Stats.skip, Books.ofAttempt], fun _ => rfl⟩
  | some slot =>
    have hpass := pass_posted s now { c with slot }
    simp only [attempt, h]
    exact ⟨hpass.stats, hpass.size⟩

-- ---------------------------------------------------------------------------
-- Attempts while time passes
-- ---------------------------------------------------------------------------

def firingBooks (s : Setup κ α σ) (wall : Nat → Int64) : List Firing → Core κ α σ → Books
  | [], _ => {}
  | f :: fs, c =>
    c.attemptBooks s (.trigger f.timer.kind) (wall f.due) +
      firingBooks s wall fs (Scheduler.trigger (Cache.target s) f.timer.kind (wall f.due) c)

theorem attempts_posted (s : Setup κ α σ) (wall : Nat → Int64) (fs : List Firing)
    (c : Core κ α σ) : c.Posted (firingBooks s wall fs c) (attempts s wall fs c) := by
  induction fs generalizing c with
  | nil => exact .refl c
  | cons f fs ih =>
    have hattempt := attempt_posted s (.trigger f.timer.kind) (wall f.due) c
    refine .trans ?_ (ih _)
    exact ⟨hattempt.stats, hattempt.size⟩

end Core

end SizedCache
