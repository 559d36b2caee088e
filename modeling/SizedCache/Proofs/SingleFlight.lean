import SizedCache.Proofs.Interleaving
import SizedCache.Proofs.PassLaws
import Mathlib.Algebra.Group.Int.Defs
import Mathlib.Algebra.Group.Nat.Defs
import Mathlib.Data.List.Count

/-!
# Single flight

However attempts are interleaved, nested ones and those whose pass fails
included, at most one is in its body, and the slot names its thread. An attempt
is skipped iff its claim found a runner, and then it changes nothing but the
count of such attempts. Every attempt that has ended was counted as a run or as
skipped, or has failed.
-/

namespace SizedCache

variable {τ κ α σ : Type}

-- ---------------------------------------------------------------------------
-- Replacing the innermost attempt
-- ---------------------------------------------------------------------------

section Splice

variable [DecidableEq τ] {t : τ} {live : List (Attempt τ κ α σ)} {a : Attempt τ κ α σ}

theorem countP_splice {f : Attempt τ κ α σ → List (Attempt τ κ α σ)}
    (h : live.find? (·.thread = t) = some a) (p : Attempt τ κ α σ → Bool) :
    (splice t f live).countP p + [a].countP p = live.countP p + (f a).countP p := by
  induction live with
  | nil => cases h
  | cons x xs ih =>
    by_cases hx : x.thread = t
    · obtain rfl : x = a := by simpa [hx] using h
      rw [splice, if_pos hx, List.countP_append, List.countP_cons, List.countP_cons]
      simp only [List.countP_nil]
      omega
    · have hrest := ih (by simpa [hx] using h)
      rw [splice, if_neg hx]
      simp only [List.countP_cons] at hrest ⊢
      omega

theorem length_splice {f : Attempt τ κ α σ → List (Attempt τ κ α σ)}
    (h : live.find? (·.thread = t) = some a) :
    (splice t f live).length + 1 = live.length + (f a).length := by
  simpa using countP_splice h fun _ => true

theorem find?_splice {b : Attempt τ κ α σ} {f : Attempt τ κ α σ → List (Attempt τ κ α σ)}
    (h : live.find? (·.thread = t) = some a) (hf : f a = [b]) (hb : b.thread = t) :
    (splice t f live).find? (·.thread = t) = some b := by
  induction live with
  | nil => cases h
  | cons x xs ih =>
    by_cases hx : x.thread = t
    · obtain rfl : x = a := by simpa [hx] using h
      simp [splice, hx, hf, hb]
    · rw [splice, if_neg hx, List.find?_cons_of_neg (by simpa using hx)]
      exact ih (by simpa [hx] using h)

theorem countP_splice_same {f : Attempt τ κ α σ → Attempt τ κ α σ} {p : Attempt τ κ α σ → Bool}
    (h : ∀ x, p (f x) = p x) : (splice t (fun x => [f x]) live).countP p = live.countP p := by
  induction live with
  | nil => rfl
  | cons x xs ih =>
    rw [splice]
    split
    · simp [List.countP_cons, h]
    · rw [List.countP_cons, List.countP_cons, ih]

theorem mem_splice {f : Attempt τ κ α σ → List (Attempt τ κ α σ)} {x : Attempt τ κ α σ}
    (hx : x ∈ splice t f live) :
    x ∈ live ∨ ∃ a, live.find? (·.thread = t) = some a ∧ x ∈ f a := by
  induction live with
  | nil => cases hx
  | cons y ys ih =>
    by_cases hy : y.thread = t
    · rw [splice, if_pos hy] at hx
      rcases List.mem_append.mp hx with hx | hx
      · exact .inr ⟨y, by simp [hy], hx⟩
      · exact .inl (List.mem_cons_of_mem _ hx)
    · rw [splice, if_neg hy] at hx
      rcases List.mem_cons.mp hx with rfl | hx
      · exact .inl (by simp)
      · rcases ih hx with hx | ⟨a, ha, hx⟩
        · exact .inl (List.mem_cons_of_mem _ hx)
        · exact .inr ⟨a, by simpa [hy] using ha, hx⟩

end Splice

-- ---------------------------------------------------------------------------
-- Counts
-- ---------------------------------------------------------------------------

/-- Whether an attempt has counted its pass and still holds the slot. -/
def Attempt.Concluded (a : Attempt τ κ α σ) : Bool :=
  match a.phase with
  | .leaving (.ok _) => true
  | _ => false

/-- Whether an attempt goes on as its claim told it to. -/
def Attempt.Heeds (a : Attempt τ κ α σ) : Prop :=
  match a.phase with
  | .claiming => True
  | .skipping => a.found.isSome = true
  | .pass _ | .nesting _ | .leaving _ => a.found = none

namespace Ending

def Completed (e : Ending τ) : Bool :=
  match e.result with
  | .ok (.completed _) => true
  | _ => false

def Skipped (e : Ending τ) : Bool :=
  match e.result with
  | .ok .skipped => true
  | _ => false

def Failed (e : Ending τ) : Bool :=
  match e.result with
  | .error _ => true
  | .ok _ => false

theorem length_eq (es : List (Ending τ)) :
    es.length = es.countP Completed + es.countP Skipped + es.countP Failed := by
  induction es with
  | nil => rfl
  | cons e es ih =>
    rw [List.length_cons, List.countP_cons, List.countP_cons, List.countP_cons, ih]
    rcases h : e.result with f | _ | _ <;> simp [Completed, Skipped, Failed, h] <;> omega

end Ending

def Next.Finishes : Next κ α σ → Bool
  | .stop (.ok _) => true
  | .go _ | .nest _ | .stop (.error _) => false

/-- A pass counts itself at its end. Before that it counts no attempt. -/
theorem Stage.step_stats [DecidableEq κ] (s : Setup κ α σ) (running : Bool) (now : Int64)
    (c : Core κ α σ) (stage : Stage κ α σ) :
    ((stage.step s running now c).1.Finishes = false ∧
        (stage.step s running now c).2.stats = c.stats) ∨
      ((stage.step s running now c).1.Finishes = true ∧
        ∃ n m, (stage.step s running now c).2.stats = c.stats.pass n m) := by
  cases stage with
  | list => exact .inl ⟨rfl, rfl⟩
  | sweep ks n =>
    cases ks with
    | nil => exact .inl ⟨rfl, rfl⟩
    | cons k ks => cases h : c.store.get? k <;> exact .inl (by simp [Stage.step, h, Next.Finishes])
  | judge k j ks n => cases j <;> exact .inl ⟨rfl, rfl⟩
  | reconcile n =>
    obtain ⟨tracker, journal, -, h⟩ := Core.reconcile_eq s.walk now c
    exact .inl (by simp [Stage.step, h, Next.Finishes])
  | choose n =>
    refine .inl ?_
    simp only [Stage.step]
    split
    · split <;> exact ⟨rfl, rfl⟩
    · exact ⟨rfl, rfl⟩
  | evict vs n m =>
    refine .inl ?_
    cases vs with
    | nil => exact ⟨rfl, rfl⟩
    | cons k ks =>
      simp only [Stage.step]
      split
      · exact ⟨rfl, rfl⟩
      · split <;> exact ⟨rfl, rfl⟩
  | conclude n m =>
    obtain ⟨journal, h, -⟩ := Core.conclude_eq s n m c
    exact .inr (by simp [Stage.step, h, Next.Finishes])

namespace Attempt

variable (a : Attempt τ κ α σ) (r : Except Failure Outcome)

@[simp] theorem answered_thread : (a.answered r).thread = a.thread := by
  unfold answered
  split <;> rfl

@[simp] theorem answered_inBody : (a.answered r).InBody = a.InBody := by
  unfold answered
  split <;> simp_all [InBody, Phase.InBody]

@[simp] theorem answered_concluded : (a.answered r).Concluded = a.Concluded := by
  unfold answered
  split <;> simp_all [Concluded]

theorem Heeds.answered {a : Attempt τ κ α σ} (h : a.Heeds) (r : Except Failure Outcome) :
    (a.answered r).Heeds := by
  unfold Attempt.answered
  split <;> simp_all [Heeds]

end Attempt

-- ---------------------------------------------------------------------------
-- The invariant
-- ---------------------------------------------------------------------------

namespace World

variable [DecidableEq τ] {c : Core κ α σ} {w : World τ κ α σ} {t : τ} {a : Attempt τ κ α σ}

/-- What holds between any two steps after the core `c`: the slot names the one
thread with an attempt in its body, or none, every attempt heeds what its claim
found, and the counts of attempts add up. -/
structure Orderly (c : Core κ α σ) (w : World τ κ α σ) : Prop where
  body : w.live.countP Attempt.InBody = w.slot.runner.toList.length
  named : ∀ a ∈ w.live, a.InBody = true → w.slot.runner = some a.thread
  heeds : ∀ a ∈ w.live, a.Heeds
  ends : ∀ e ∈ w.ended, e.Skipped = e.found.isSome
  begun : w.begun = w.live.length + w.ended.length
  runs : w.core.stats.runs = c.stats.runs +
    UInt64.ofNat (w.ended.countP Ending.Completed + w.live.countP Attempt.Concluded)
  skipped : w.core.stats.skipped =
    c.stats.skipped + UInt64.ofNat (w.ended.countP Ending.Skipped)

namespace Orderly

omit [DecidableEq τ] in
theorem initial (c : Core κ α σ) : Orderly c ({ core := c } : World τ κ α σ) where
  body := rfl
  named _ h := nomatch h
  heeds _ h := nomatch h
  ends _ h := nomatch h
  begun := rfl
  runs := (UInt64.add_zero _).symm
  skipped := (UInt64.add_zero _).symm

theorem mem_of_innermost? (h : w.innermost? t = some a) : a ∈ w.live ∧ a.thread = t :=
  ⟨List.mem_of_find?_eq_some h, by simpa using List.find?_some h⟩

theorem replace (h : Orderly c w) (ha : w.innermost? t = some a) (core : Core κ α σ)
    (hopen : a.Concluded = false) {f : Attempt τ κ α σ → List (Attempt τ κ α σ)} {begun : Nat}
    (hbody : (f a).countP Attempt.InBody = [a].countP Attempt.InBody)
    (hthread : ∀ x ∈ f a, x.thread = t) (hheeds : ∀ x ∈ f a, x.Heeds)
    (hbegun : begun + 1 = w.begun + (f a).length)
    (hruns : core.stats.runs =
      w.core.stats.runs + UInt64.ofNat ((f a).countP Attempt.Concluded))
    (hskipped : core.stats.skipped = w.core.stats.skipped) :
    Orderly c { w with core, live := splice t f w.live, begun } := by
  obtain ⟨hmem, rfl⟩ := mem_of_innermost? ha
  have hcount := countP_splice (f := f) ha Attempt.InBody
  have hlength := length_splice (f := f) ha
  have hconcluded := countP_splice (f := f) ha Attempt.Concluded
  have hnone : [a].countP Attempt.Concluded = 0 := by simp [hopen]
  refine ⟨?_, fun x hx hin => ?_, fun x hx => ?_, h.ends, ?_, ?_, hskipped.trans h.skipped⟩
  · show (splice a.thread f w.live).countP Attempt.InBody = w.slot.runner.toList.length
    have hbefore := h.body
    omega
  · rcases mem_splice hx with hold | ⟨b, hb, hnew⟩
    · exact h.named x hold hin
    · -- a new attempt is in its body only if the old one was
      cases ha.symm.trans hb
      have hpos : 0 < [a].countP Attempt.InBody := hbody ▸ List.countP_pos_iff.mpr ⟨x, hnew, hin⟩
      obtain ⟨b, hb, hbin⟩ := List.countP_pos_iff.mp hpos
      cases List.mem_singleton.mp hb
      rw [hthread x hnew]
      exact h.named a hmem hbin
  · rcases mem_splice hx with hold | ⟨b, hb, hnew⟩
    · exact h.heeds x hold
    · cases ha.symm.trans hb
      exact hheeds x hnew
  · show begun = (splice a.thread f w.live).length + w.ended.length
    have hbefore := h.begun
    omega
  · show core.stats.runs = c.stats.runs + UInt64.ofNat
      (w.ended.countP Ending.Completed + (splice a.thread f w.live).countP Attempt.Concluded)
    have hsum : w.ended.countP Ending.Completed +
          (splice a.thread f w.live).countP Attempt.Concluded =
        w.ended.countP Ending.Completed + w.live.countP Attempt.Concluded +
          (f a).countP Attempt.Concluded := by omega
    rw [hsum, UInt64.ofNat_add, ← UInt64.add_assoc, ← h.runs, hruns]

theorem finish (h : Orderly c w) (ha : w.innermost? t = some a) (core : Core κ α σ)
    (slot : RunSlot τ) {r : Except Failure Outcome} (hslot : slot = if a.InBody then {} else w.slot)
    (hcompleted : Ending.Completed ⟨a.thread, a.found, r⟩ = a.Concluded)
    (hends : Ending.Skipped ⟨a.thread, a.found, r⟩ = a.found.isSome)
    (hruns : core.stats.runs = w.core.stats.runs)
    (hskipped : core.stats.skipped =
      w.core.stats.skipped + UInt64.ofNat ([Ending.mk a.thread a.found r].countP Ending.Skipped)) :
    Orderly c ({ w with core, slot }.finish a r) := by
  obtain ⟨hmem, rfl⟩ := mem_of_innermost? ha
  let rest := splice a.thread (fun _ => []) w.live
  have hcount : ∀ p, rest.countP p + [a].countP p = w.live.countP p :=
    countP_splice (f := fun _ => []) ha
  have hlength : rest.length + 1 = w.live.length := length_splice (f := fun _ => []) ha
  have hsame : ∀ p, (∀ x : Attempt τ κ α σ, p (x.answered r) = p x) →
      (splice a.thread (fun outer => [outer.answered r]) rest).countP p = rest.countP p :=
    fun p hp => countP_splice_same hp
  -- whoever is left was there before, and is as much in its body as it was
  have hleft : ∀ x ∈ splice a.thread (fun outer => [outer.answered r]) rest,
      ∃ y ∈ w.live, x = y ∨ x = y.answered r := by
    intro x hx
    have hrest : ∀ y ∈ rest, y ∈ w.live := by
      intro y hy
      rcases mem_splice hy with hy | ⟨b, -, hb⟩
      · exact hy
      · cases hb
    rcases mem_splice hx with hx | ⟨b, hb, hx⟩
    · exact ⟨x, hrest x hx, .inl rfl⟩
    · exact ⟨b, hrest b (List.mem_of_find?_eq_some hb), .inr (List.mem_singleton.mp hx)⟩
  have hbody : (splice a.thread (fun outer => [outer.answered r]) rest).countP Attempt.InBody =
      slot.runner.toList.length := by
    rw [hsame _ fun x => x.answered_inBody r, hslot]
    have hbefore := h.body
    have hone := hcount Attempt.InBody
    simp only [List.countP_cons, List.countP_nil] at hone
    cases hin : a.InBody with
    | true =>
      rw [h.named a hmem hin, Option.toList_some, List.length_singleton] at hbefore
      rw [if_pos rfl]
      rw [if_pos hin] at hone
      show rest.countP Attempt.InBody = 0
      omega
    | false =>
      rw [if_neg (by simp)]
      rw [if_neg (by simp [hin])] at hone
      omega
  refine ⟨hbody, fun x hx hin => ?_, fun x hx => ?_, fun e he => ?_, ?_, ?_, ?_⟩
  · have hpos : 0 < slot.runner.toList.length := hbody ▸ List.countP_pos_iff.mpr ⟨x, hx, hin⟩
    cases hbusy : a.InBody with
    | true => simp [hslot, hbusy] at hpos
    | false =>
      show slot.runner = some x.thread
      obtain ⟨y, hy, rfl | rfl⟩ := hleft x hx
      · simpa [hslot, hbusy] using h.named x hy hin
      · simpa [hslot, hbusy] using h.named y hy (by simpa using hin)
  · obtain ⟨y, hy, rfl | rfl⟩ := hleft x hx
    · exact h.heeds x hy
    · exact (h.heeds y hy).answered r
  · rcases List.mem_cons.mp he with rfl | he
    · exact hends
    · exact h.ends e he
  · show w.begun = (splice a.thread (fun outer => [outer.answered r]) rest).length +
      (w.ended.length + 1)
    have hbefore := h.begun
    have hkept := hsame (fun _ => true) fun _ => rfl
    simp only [List.countP_true] at hkept
    omega
  · show core.stats.runs = c.stats.runs + UInt64.ofNat
      ((⟨a.thread, a.found, r⟩ :: w.ended).countP Ending.Completed +
        (splice a.thread (fun outer => [outer.answered r]) rest).countP Attempt.Concluded)
    rw [hruns, h.runs, hsame _ fun x => x.answered_concluded r, List.countP_cons, hcompleted]
    have hone := hcount Attempt.Concluded
    simp only [List.countP_cons, List.countP_nil] at hone
    congr 2
    omega
  · show core.stats.skipped = c.stats.skipped +
      UInt64.ofNat ((⟨a.thread, a.found, r⟩ :: w.ended).countP Ending.Skipped)
    rw [← List.singleton_append, List.countP_append, Nat.add_comm, UInt64.ofNat_add,
      ← UInt64.add_assoc, ← h.skipped, hskipped]

theorem claim (h : Orderly c w) (ha : w.innermost? t = some a) (hphase : a.phase = .claiming) :
    Orderly c (w.claim t) := by
  have hout : a.InBody = false := by simp [Attempt.InBody, hphase, Phase.InBody]
  have hopen : a.Concluded = false := by simp [Attempt.Concluded, hphase]
  obtain ⟨hmem, hthread⟩ := mem_of_innermost? ha
  cases hrunner : w.slot.runner with
  | some who =>
    have hblocked : w.slot.claim? t = none := by simp [RunSlot.claim?, hrunner]
    simp only [World.claim, hblocked]
    refine h.replace ha w.core hopen ?_ ?_ ?_ rfl ?_ rfl
    · rw [List.countP_cons, List.countP_cons, hout]
      rfl
    · simpa using hthread
    · simp [Attempt.Heeds, hrunner]
    · simp [Attempt.Concluded]
  | none =>
    have hfree : w.slot.claim? t = some ⟨some t⟩ := by simp [RunSlot.claim?, hrunner]
    simp only [World.claim, hfree, hrunner]
    let b : Attempt τ κ α σ := { a with found := none, phase := .pass .list }
    let f : Attempt τ κ α σ → List (Attempt τ κ α σ) :=
      fun x => [{ x with found := none, phase := .pass .list }]
    have hcount := countP_splice (f := f) ha
    have hlength : (splice t f w.live).length + 1 = w.live.length + 1 := length_splice ha
    -- whoever is not new was there before, when the slot was free
    have hsplit : ∀ x ∈ splice t f w.live, x ∈ w.live ∨ x = b := by
      intro x hx
      rcases mem_splice hx with hold | ⟨y, hy, hnew⟩
      · exact .inl hold
      · cases ha.symm.trans hy
        exact .inr (List.mem_singleton.mp hnew)
    refine ⟨?_, fun x hx hin => ?_, fun x hx => ?_, h.ends, ?_, ?_, h.skipped⟩
    · show (splice t f w.live).countP Attempt.InBody = 1
      have hone := hcount Attempt.InBody
      rw [h.body, hrunner, List.countP_cons, hout] at hone
      exact hone
    · rcases hsplit x hx with hold | rfl
      · cases hrunner.symm.trans (h.named x hold hin)
      · exact congrArg some hthread.symm
    · rcases hsplit x hx with hold | rfl
      · exact h.heeds x hold
      · rfl
    · show w.begun = (splice t f w.live).length + w.ended.length
      rw [Nat.add_right_cancel hlength]
      exact h.begun
    · show w.core.stats.runs = c.stats.runs + UInt64.ofNat
        (w.ended.countP Ending.Completed + (splice t f w.live).countP Attempt.Concluded)
      have hsame := hcount Attempt.Concluded
      rw [List.countP_cons, hopen] at hsame
      rw [show (splice t f w.live).countP Attempt.Concluded = w.live.countP Attempt.Concluded
        from hsame]
      exact h.runs

theorem skip (h : Orderly c w) (ha : w.innermost? t = some a) (hphase : a.phase = .skipping) :
    Orderly c (w.skip a) := by
  obtain ⟨hmem, -⟩ := mem_of_innermost? ha
  have hfound : a.found.isSome = true := by simpa [Attempt.Heeds, hphase] using h.heeds a hmem
  refine h.finish ha { w.core with stats := w.core.stats.skip } w.slot ?_ ?_ ?_ rfl rfl
  · simp [Attempt.InBody, hphase, Phase.InBody]
  · simp [Ending.Completed, Attempt.Concluded, hphase]
  · simp [Ending.Skipped, hfound]

theorem release (h : Orderly c w) (ha : w.innermost? t = some a) {r : Except Failure Report}
    (hphase : a.phase = .leaving r) : Orderly c (w.release a r) := by
  obtain ⟨hmem, -⟩ := mem_of_innermost? ha
  have hfound : a.found = none := by simpa [Attempt.Heeds, hphase] using h.heeds a hmem
  refine h.finish ha w.core w.slot.release ?_ ?_ ?_ rfl ?_
  · simp [Attempt.InBody, hphase, Phase.InBody, RunSlot.release]
  · cases r <;> simp [Ending.Completed, Attempt.Concluded, hphase, Except.map]
  · cases r <;> simp [Ending.Skipped, hfound, Except.map]
  · cases r <;> simp [Ending.Skipped, Except.map]

theorem put (h : Orderly c w) (ha : w.innermost? t = some a) {stage : Stage κ α σ}
    (hphase : a.phase = .pass stage) (core : Core κ α σ) {phase : Phase κ α σ}
    (hbody : phase.InBody = true)
    (hruns : core.stats.runs =
      w.core.stats.runs + UInt64.ofNat ([{ a with phase }].countP Attempt.Concluded))
    (hskipped : core.stats.skipped = w.core.stats.skipped) :
    Orderly c ({ w with core }.put t phase) := by
  obtain ⟨hmem, hthread⟩ := mem_of_innermost? ha
  have hfound : a.found = none := by simpa [Attempt.Heeds, hphase] using h.heeds a hmem
  have hin : a.InBody = true := by simp [Attempt.InBody, hphase, Phase.InBody]
  have hstays : Attempt.InBody { a with phase } = true := hbody
  refine h.replace ha core ?_ ?_ ?_ ?_ rfl hruns hskipped
  · simp [Attempt.Concluded, hphase]
  · simp only [List.countP_cons, hin, hstays]
  · simpa using hthread
  · intro x hx
    cases List.mem_singleton.mp hx
    cases phase <;> simp_all [Attempt.Heeds, Phase.InBody]

theorem work [DecidableEq κ] (h : Orderly c w) (ha : w.innermost? t = some a)
    {stage : Stage κ α σ} (hphase : a.phase = .pass stage) (s : Setup κ α σ) (now : Int64) :
    Orderly c (w.work s t now stage) := by
  obtain ⟨hmem, hthread⟩ := mem_of_innermost? ha
  have hfound : a.found = none := by simpa [Attempt.Heeds, hphase] using h.heeds a hmem
  have hopen : a.Concluded = false := by simp [Attempt.Concluded, hphase]
  have hstats := stage.step_stats s w.slot.isRunning now w.core
  unfold World.work
  generalize stage.step s w.slot.isRunning now w.core = out at hstats ⊢
  obtain ⟨next, core⟩ := out
  dsimp only at hstats
  cases next with
  | go stage' =>
    obtain ⟨-, hsame⟩ | ⟨hend, -⟩ := hstats
    · exact h.put ha hphase core rfl (by simp [hsame, Attempt.Concluded]) (by rw [hsame])
    · cases hend
  | nest resume =>
    obtain ⟨-, hsame⟩ | ⟨hend, -⟩ := hstats
    · have hin : a.InBody = true := by simp [Attempt.InBody, hphase, Phase.InBody]
      refine h.replace ha core hopen ?_ ?_ ?_ rfl ?_ (by rw [hsame])
      · rw [List.countP_cons, List.countP_cons, List.countP_cons, hin]
        rfl
      · simp [hthread]
      · simp [Attempt.Heeds, hfound]
      · simp [hsame, Attempt.Concluded]
    · cases hend
  | stop r =>
    refine h.put ha hphase core rfl ?_ ?_
    · obtain ⟨hend, hsame⟩ | ⟨hend, n, m, hpass⟩ := hstats
      · cases r with
        | error e => simp [hsame, Attempt.Concluded]
        | ok report => cases hend
      · cases r with
        | error e => cases hend
        | ok report => simp [hpass, Attempt.Concluded, Stats.pass]
    · obtain ⟨-, hsame⟩ | ⟨-, n, m, hpass⟩ := hstats
      · rw [hsame]
      · rw [hpass]
        rfl

theorem step [DecidableEq κ] (h : Orderly c w) (s : Setup κ α σ) (move : Move τ κ α σ) :
    Orderly c (w.step s move) := by
  cases move with
  | start t =>
    simp only [World.step]
    cases ha : w.innermost? t with
    | some a => exact h
    | none =>
      refine ⟨h.body, fun x hx hin => ?_, fun x hx => ?_, h.ends, ?_, h.runs, h.skipped⟩
      · rcases List.mem_cons.mp hx with rfl | hx
        · cases hin
        · exact h.named x hx hin
      · rcases List.mem_cons.mp hx with rfl | hx
        · trivial
        · exact h.heeds x hx
      · show w.begun + 1 = w.live.length + 1 + w.ended.length
        have hbefore := h.begun
        omega
  | advance t now =>
    simp only [World.step, World.advance]
    cases ha : w.innermost? t with
    | none => exact h
    | some a =>
      simp only
      cases hphase : a.phase with
      | claiming => exact h.claim ha hphase
      | skipping => exact h.skip ha hphase
      | pass stage => exact h.work ha hphase s now
      | nesting resume => exact h
      | leaving r => exact h.release ha hphase
  | unwind t e =>
    simp only [World.step]
    cases ha : w.innermost? t with
    | none => exact h
    | some a =>
      simp only [Option.map_some]
      cases hphase : a.phase with
      | pass stage => exact h.put ha hphase w.core rfl (by simp [Attempt.Concluded]) rfl
      | _ => exact h
  | meddle core => exact ⟨h.body, h.named, h.heeds, h.ends, h.begun, h.runs, h.skipped⟩

theorem run [DecidableEq κ] (h : Orderly c w) (s : Setup κ α σ) (moves : List (Move τ κ α σ)) :
    Orderly c (w.run s moves) := by
  induction moves generalizing w with
  | nil => exact h
  | cons move moves ih => exact ih (h.step s move)

-- ---------------------------------------------------------------------------
-- What the invariant says
-- ---------------------------------------------------------------------------

omit [DecidableEq τ] in
theorem runner_eq_some_iff (h : Orderly c w) (t : τ) :
    w.slot.runner = some t ↔ ∃ a ∈ w.live, a.InBody = true ∧ a.thread = t := by
  constructor
  · intro hrunner
    have hpos : 0 < w.live.countP Attempt.InBody := by simp [h.body, hrunner]
    obtain ⟨a, ha, hin⟩ := List.countP_pos_iff.mp hpos
    exact ⟨a, ha, hin, Option.some.inj ((h.named a ha hin).symm.trans hrunner)⟩
  · rintro ⟨a, ha, hin, rfl⟩
    exact h.named a ha hin

omit [DecidableEq τ] in
theorem result_eq_skipped_iff (h : Orderly c w) {e : Ending τ} (he : e ∈ w.ended) :
    e.result = .ok .skipped ↔ e.found.isSome = true := by
  rw [← h.ends e he]
  unfold Ending.Skipped
  split <;> simp_all

omit [DecidableEq τ] in
theorem settled (h : Orderly c w) (hnone : w.live = []) :
    w.slot = {} ∧
      w.core.stats.runs - c.stats.runs = UInt64.ofNat (w.ended.countP Ending.Completed) ∧
      w.core.stats.skipped - c.stats.skipped = UInt64.ofNat (w.ended.countP Ending.Skipped) ∧
      w.begun = w.ended.countP Ending.Completed + w.ended.countP Ending.Skipped +
        w.ended.countP Ending.Failed := by
  refine ⟨?_, ?_, ?_, ?_⟩
  · have hbody := h.body
    rw [hnone] at hbody
    exact congrArg RunSlot.mk (Option.toList_eq_nil_iff.mp (List.length_eq_zero_iff.mp hbody.symm))
  · rw [h.runs, hnone, UInt64.add_comm, UInt64.add_sub_cancel]
    rfl
  · rw [h.skipped, UInt64.add_comm, UInt64.add_sub_cancel]
  · rw [← Ending.length_eq, h.begun, hnone, List.length_nil, Nat.zero_add]

end Orderly

-- ---------------------------------------------------------------------------
-- Skipped attempts
-- ---------------------------------------------------------------------------

def Skips (w : World τ κ α σ) (a : Attempt τ κ α σ) : Bool :=
  match a.phase with
  | .claiming => w.slot.isRunning
  | .skipping => true
  | .pass _ | .nesting _ | .leaving _ => false

/-- Up to its end an attempt that is bound to be skipped changes nothing, and its
end is counted and told. -/
theorem advance_of_skips [DecidableEq κ] (s : Setup κ α σ) (ha : w.innermost? t = some a)
    (hskips : w.Skips a = true) (now : Int64) :
    let d := w.step s (.advance t now)
    d.slot = w.slot ∧
      ((d.core = w.core ∧ d.ended = w.ended ∧
          ∃ b, d.innermost? t = some b ∧ d.Skips b = true) ∨
        (d.core = { w.core with stats := w.core.stats.skip } ∧
          d.ended = ⟨t, a.found, .ok .skipped⟩ :: w.ended)) := by
  obtain ⟨-, hthread⟩ := Orderly.mem_of_innermost? ha
  intro d
  cases hphase : a.phase with
  | claiming =>
    have hrunning : w.slot.isRunning = true := by simpa [Skips, hphase] using hskips
    obtain ⟨who, hwho⟩ := Option.isSome_iff_exists.mp hrunning
    have hblocked : w.slot.claim? t = none := by simp [RunSlot.claim?, hwho]
    have hd : d = w.claim t := by simp only [d, World.step, advance, ha, hphase]
    rw [hd]
    simp only [claim, hblocked]
    exact ⟨trivial, .inl ⟨trivial, trivial, _, find?_splice ha rfl hthread, rfl⟩⟩
  | skipping =>
    have hd : d = w.skip a := by simp only [d, World.step, advance, ha, hphase]
    rw [hd, ← hthread]
    exact ⟨rfl, .inr ⟨rfl, rfl⟩⟩
  | _ => simp [Skips, hphase] at hskips

-- ---------------------------------------------------------------------------
-- Any interleaving
-- ---------------------------------------------------------------------------

/-- After any steps of any threads, in any order, at most one attempt is in its
body, and the slot names its thread, or none. An attempt was skipped iff its claim
found a runner; an attempt that is bound to be skipped leaves the slot, and
changes nothing but the count of such attempts. Once all have ended the slot is
free, and runs, skipped attempts and failed ones add up to the attempts made. -/
theorem single_flight [DecidableEq κ] (s : Setup κ α σ) (c : Core κ α σ)
    (moves : List (Move τ κ α σ)) :
    let w := ({ core := c } : World τ κ α σ).run s moves
    w.live.countP Attempt.InBody ≤ 1 ∧
    (∀ t, w.slot.runner = some t ↔ ∃ a ∈ w.live, a.InBody = true ∧ a.thread = t) ∧
    (∀ e ∈ w.ended, e.result = .ok .skipped ↔ e.found.isSome = true) ∧
    (∀ t a, w.innermost? t = some a → w.Skips a = true → ∀ now,
      let d := w.step s (.advance t now)
      d.slot = w.slot ∧
        ((d.core = w.core ∧ d.ended = w.ended ∧
            ∃ b, d.innermost? t = some b ∧ d.Skips b = true) ∨
          (d.core = { w.core with stats := w.core.stats.skip } ∧
            d.ended = ⟨t, a.found, .ok .skipped⟩ :: w.ended))) ∧
    (w.live = [] → w.slot = {} ∧
      w.core.stats.runs - c.stats.runs + (w.core.stats.skipped - c.stats.skipped) +
        UInt64.ofNat (w.ended.countP Ending.Failed) = UInt64.ofNat w.begun ∧
      (w.begun < 2 ^ 64 →
        (w.core.stats.runs - c.stats.runs).toNat + (w.core.stats.skipped - c.stats.skipped).toNat +
          w.ended.countP Ending.Failed = w.begun)) := by
  intro w
  have h : Orderly c w := (Orderly.initial c).run s moves
  have hone : w.live.countP Attempt.InBody ≤ 1 := by
    rw [h.body]
    cases w.slot.runner <;> simp
  refine ⟨hone, h.runner_eq_some_iff, fun e he => h.result_eq_skipped_iff he,
    fun t a ha hskips now => advance_of_skips s ha hskips now, fun hnone => ?_⟩
  obtain ⟨hslot, hruns, hskipped, hbegun⟩ := h.settled hnone
  refine ⟨hslot, ?_, fun hfew => ?_⟩
  · rw [hruns, hskipped, hbegun, UInt64.ofNat_add, UInt64.ofNat_add]
  · rw [hruns, hskipped, UInt64.toNat_ofNat_of_lt' (by show _ < 2 ^ 64; omega),
      UInt64.toNat_ofNat_of_lt' (by show _ < 2 ^ 64; omega), ← hbegun]

theorem nestingLimits_valid : Config.Valid ⟨16, 3, 1, 0⟩ :=
  ⟨by decide, by decide⟩

def nestingSetup : Setup Nat Nat Unit where
  config := ⟨16, 3, 1, 0⟩
  valid := nestingLimits_valid
  test _ _ _ _ := .attempt fun _ => .keep ()
  selector := .anyOrder
  walk := .stored

def oneEntry : Core Nat Nat Unit where
  store := ⟨[(7, 70)], by decide⟩
  tracker := none
  notes := ()

/-- A pass, during which another thread attempts one, then a pass that fails. -/
def contested : List (Move Bool Nat Nat Unit) :=
  [.start true, .advance true 0, .start false, .advance false 0] ++
    List.replicate 11 (.advance true 0) ++
    [.advance false 0, .start false, .advance false 0, .unwind false ⟨"no"⟩, .advance false 0]

theorem single_flight_contested :
    let w := ({ core := oneEntry } : World Bool Nat Nat Unit).run nestingSetup contested
    w.live = [] ∧ w.slot = {} ∧ w.begun = 4 ∧
      (w.core.stats.runs - 0).toNat + (w.core.stats.skipped - 0).toNat +
        w.ended.countP Ending.Failed = 4 := by
  intro w
  have hnone : w.live = [] := List.eq_nil_of_length_eq_zero (by decide +kernel)
  have hbegun : w.begun = 4 := by decide +kernel
  obtain ⟨-, -, -, -, hended⟩ := single_flight nestingSetup oneEntry contested
  obtain ⟨hslot, -, hsum⟩ := hended hnone
  exact ⟨hnone, hslot, hbegun, (hsum (by rw [show _ = 4 from hbegun]; decide)).trans hbegun⟩

end World

end SizedCache
