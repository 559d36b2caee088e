import SizedCache.Cache.Run
import SizedCache.Proofs.SweepLaws

/-!
# Calls as effects

Every call but those for cleanup and time comes down to a list of effects, each
of which changes the store and the records together, then a count of the lookup,
then the check of the size. What a call does to a cache is read off this form.
-/

namespace SizedCache

/-- A change of the entry and the record of a key. A touched key that keeps its
value is kept with that value. -/
inductive Effect (κ α : Type) where
  | keep (k : κ) (v : α)
  | drop (k : κ)
  | clear

def Effect.settle {κ α : Type} (k : κ) : Option α → Effect κ α
  | some v => .keep k v
  | none => .drop k

def Effect.touches {κ α : Type} : Effect κ α → Bool
  | .keep _ _ => true
  | .drop _ | .clear => false

namespace Table

variable {κ α : Type} [DecidableEq κ]

theorem set_of_get? {t : Table κ α} {k : κ} {v : α} (h : t.get? k = some v) : t.set k v = t := by
  have hset : ∀ es : List (κ × α), valueIn k es = some v → setIn k v es = es := by
    intro es hes
    induction es with
    | nil => cases hes
    | cons e rest ih =>
      by_cases he : e.1 = k
      · simp only [valueIn, if_pos he, Option.some.injEq] at hes
        rw [setIn, if_pos he, ← hes, ← he]
      · simp only [valueIn, if_neg he] at hes
        simp only [setIn, if_neg he, ih hes]
  exact ext (hset t.entries h)

theorem erase_of_get? {t : Table κ α} {k : κ} (h : t.get? k = none) : t.erase k = t :=
  erase_of_notMem (get?_eq_none_iff.mp h)

end Table

namespace Core

variable {κ α σ : Type} [DecidableEq κ]

def act (now : Int64) : Effect κ α → Core κ α σ → Core κ α σ
  | .keep k v, c => { c with store := c.store.set k v }.touch now k
  | .drop k, c => c.drop k
  | .clear, c => { c with store := .empty, tracker := c.tracker.map (·.clear) }

def actAll (now : Int64) (es : List (Effect κ α)) (c : Core κ α σ) : Core κ α σ :=
  es.foldl (fun c e => c.act now e) c

theorem act_keep_self {c : Core κ α σ} {k : κ} {v : α} (h : c.store.get? k = some v)
    (now : Int64) : c.act now (.keep k v) = c.touch now k := by
  rw [act, Table.set_of_get? h]

theorem act_drop_vacant {c : Core κ α σ} {k : κ} (h : c.store.get? k = none) (now : Int64) :
    c.act now (.drop k) = c.forget k := by
  rw [act, drop, Table.erase_of_get? h]

theorem act_frame (now : Int64) (e : Effect κ α) (c : Core κ α σ) :
    (c.act now e).stats = c.stats ∧ (c.act now e).slot = c.slot ∧
      (c.act now e).notes = c.notes ∧ (c.act now e).journal = c.journal := by
  cases e <;> exact ⟨rfl, rfl, rfl, rfl⟩

theorem actAll_frame (now : Int64) (es : List (Effect κ α)) (c : Core κ α σ) :
    (c.actAll now es).stats = c.stats ∧ (c.actAll now es).slot = c.slot ∧
      (c.actAll now es).notes = c.notes ∧ (c.actAll now es).journal = c.journal := by
  induction es generalizing c with
  | nil => exact ⟨rfl, rfl, rfl, rfl⟩
  | cons e es ih =>
    obtain ⟨h1, h2, h3, h4⟩ := ih (c.act now e)
    obtain ⟨g1, g2, g3, g4⟩ := act_frame now e c
    exact ⟨h1.trans g1, h2.trans g2, h3.trans g3, h4.trans g4⟩

theorem act_tracks (now : Int64) (e : Effect κ α) (c : Core κ α σ) :
    (c.act now e).tracker.isSome = c.tracker.isSome := by
  cases e <;> exact Option.isSome_map

theorem actAll_tracks (now : Int64) (es : List (Effect κ α)) (c : Core κ α σ) :
    (c.actAll now es).tracker.isSome = c.tracker.isSome := by
  induction es generalizing c with
  | nil => rfl
  | cons e es ih => exact (ih (c.act now e)).trans (act_tracks now e c)

end Core

namespace Cache

variable {κ α σ : Type}

def Call.IsDirect : Call κ α → Bool
  | .forceCleanup | .sleep _ | .setClock _ | .editTracker _ => false
  | _ => true

/-- Whether a call leaves the tracker to the cache. -/
def Call.IsPrivate : Call κ α → Bool
  | .editTracker _ => false
  | _ => true

variable [DecidableEq κ]

def closure? (c : Cache κ α σ) : Call κ α → Option (Except Failure (Option α))
  | .computeIfAbsent k f => if c.contains k then none else some (f k)
  | .computeIfPresent k f => (c.store.get? k).map (f k)
  | .compute k f => some (f k (c.store.get? k))
  | .merge k v f => (c.store.get? k).map (f · v)
  | _ => none

/-- Whether a call ends with a check of the size. A failed closure prevents it. -/
def checks (c : Cache κ α σ) : Call κ α → Bool
  | .put .. | .putAll _ | .putIfAbsent .. | .remove _ | .replace .. | .replaceIfEq .. => true
  | call@(.computeIfAbsent ..) | call@(.computeIfPresent ..) | call@(.compute ..)
  | call@(.merge ..) =>
    match c.closure? call with
    | some (.error _) => false
    | _ => true
  | _ => false

variable [Expirable α]

def tally (c : Cache κ α σ) (call : Call κ α) (s : Stats) : Stats :=
  match call with
  | .get k | .getOrDefault k _ => if c.contains k then s.hit else s.miss
  | .getLive k =>
    match c.store.get? k with
    | some v => if Expirable.expired v c.now then s.miss else s.hit
    | none => s.miss
  | _ => s

variable [DecidableEq α]

def effects (c : Cache κ α σ) : Call κ α → List (Effect κ α)
  | .put k v => [.keep k v]
  | .putAll es => es.map fun e => .keep e.1 e.2
  | .putIfAbsent k v => [.keep k ((c.store.get? k).getD v)]
  | .remove k => if c.contains k then [.drop k] else []
  | .removeIfEq k v => if c.store.get? k = some v then [.drop k] else []
  | .replace k v => if c.contains k then [.keep k v] else []
  | .replaceIfEq k old new => if c.store.get? k = some old then [.keep k new] else []
  | .get k | .getOrDefault k _ => (c.store.get? k).toList.map (.keep k)
  | .getLive k =>
    match c.store.get? k with
    | some v => if Expirable.expired v c.now then [.drop k] else [.keep k v]
    | none => []
  | .computeIfAbsent k f =>
    match c.store.get? k with
    | some v => [.keep k v]
    | none =>
      match f k with
      | .ok (some v) => [.keep k v]
      | _ => []
  | .computeIfPresent k f =>
    match c.store.get? k with
    | none => [.drop k]
    | some v =>
      match f k v with
      | .ok w => [.settle k w]
      | .error _ => []
  | .compute k f =>
    match f k (c.store.get? k) with
    | .ok v => [.settle k v]
    | .error _ => []
  | .merge k v f =>
    match c.store.get? k with
    | none => [.keep k v]
    | some old =>
      match f old v with
      | .ok w => [.settle k w]
      | .error _ => []
  | .clear => [.clear]
  | .contains _ | .forceCleanup | .sleep _ | .setClock _ | .editTracker _ => []

/-- The count and the effects of a call, before the check of the size. -/
def perform (c : Cache κ α σ) (call : Call κ α) : Cache κ α σ :=
  { c with core :=
      { c.core with stats := c.tally call c.core.stats }.actAll c.now (c.effects call) }

theorem perform_nil {c : Cache κ α σ} {call : Call κ α} (he : c.effects call = [])
    (ht : c.tally call c.core.stats = c.core.stats) : c.perform call = c := by
  simp only [perform, he, ht]
  rfl

theorem perform_one {c : Cache κ α σ} {call : Call κ α} {e : Effect κ α}
    (he : c.effects call = [e]) (ht : c.tally call c.core.stats = c.core.stats) :
    c.perform call = { c with core := c.core.act c.now e } := by
  simp only [perform, he, ht]
  rfl

theorem perform_keep_self {c : Cache κ α σ} {call : Call κ α} {k : κ} {v : α}
    (hk : c.store.get? k = some v) (he : c.effects call = [.keep k v]) :
    c.perform call =
      { c with core := { c.core with stats := c.tally call c.core.stats }.touch c.now k } := by
  have hact := Core.act_keep_self (c := { c.core with stats := c.tally call c.core.stats }) hk c.now
  simp only [perform, he, Core.actAll, List.foldl_cons, List.foldl_nil, hact]

theorem perform_drop_vacant {c : Cache κ α σ} {call : Call κ α} {k : κ}
    (hk : c.store.get? k = none) (he : c.effects call = [.drop k]) :
    c.perform call =
      { c with core := { c.core with stats := c.tally call c.core.stats }.forget k } := by
  have hact := Core.act_drop_vacant (c := { c.core with stats := c.tally call c.core.stats }) hk
    c.now
  simp only [perform, he, Core.actAll, List.foldl_cons, List.foldl_nil, hact]

theorem perform_remove_store (c : Cache κ α σ) (k : κ) :
    (c.perform (.remove k)).store = c.store.erase k := by
  cases hk : c.store.get? k with
  | none =>
    have heffects : c.effects (.remove k) = [] := by
      simp [effects, contains, Table.contains, hk]
    rw [perform_nil heffects rfl, Table.erase_of_get? hk]
  | some v =>
    have heffects : c.effects (.remove k) = [.drop k] := by
      simp [effects, contains, Table.contains, hk]
    rw [perform_one heffects rfl]
    rfl

/-- A read that looks at the time of a value drops it if it has expired, and
nothing else. -/
theorem perform_getLive_store (c : Cache κ α σ) (k : κ) :
    (c.perform (.getLive k)).store = c.store ∨
      (∃ v, c.store.get? k = some v ∧ Expirable.expired v c.now = true) ∧
        (c.perform (.getLive k)).store = c.store.erase k := by
  cases hk : c.store.get? k with
  | none =>
    have heffects : c.effects (.getLive k) = [] := by simp only [effects, hk]
    exact .inl (by simp only [perform, heffects]; rfl)
  | some v =>
    cases he : Expirable.expired v c.now with
    | true =>
      have heffects : c.effects (.getLive k) = [.drop k] := by
        simp only [effects, hk, he, if_true]
      exact .inr ⟨⟨v, rfl, he⟩, by simp only [perform, heffects]; rfl⟩
    | false =>
      have heffects : c.effects (.getLive k) = [.keep k v] := by
        simp only [effects, hk, he, Bool.false_eq_true, if_false]
      exact .inl (by rw [perform_keep_self hk heffects]; rfl)

-- ---------------------------------------------------------------------------
-- Each call
-- ---------------------------------------------------------------------------

section Calls

variable (c : Cache κ α σ) (k : κ) (v : α)

theorem putAll_eq (es : List (κ × α)) :
    c.putAll es = (c.perform (.putAll es)).checkCapacity := by
  have hfold : ∀ (es : List (κ × α)) (d : Cache κ α σ),
      es.foldl (fun d e => (d.withStore (d.store.insert e.1 e.2).2).touch e.1) d =
        { d with core := d.core.actAll d.now (es.map fun e => .keep e.1 e.2) } := by
    intro es
    induction es with
    | nil => intro d; rfl
    | cons e es ih => intro d; exact ih _
  rw [putAll, hfold]
  rfl

theorem putIfAbsent_snd :
    (c.putIfAbsent k v).2 = (c.perform (.putIfAbsent k v)).checkCapacity := by
  cases hk : c.store.get? k with
  | none =>
    rw [perform_one (e := .keep k v) (by simp [effects, hk]) rfl]
    simp only [putIfAbsent, Table.insertIfAbsent, hk]
    rfl
  | some old =>
    rw [perform_keep_self hk (by simp [effects, hk])]
    simp only [putIfAbsent, Table.insertIfAbsent, hk]
    rfl

theorem remove_snd : (c.remove k).2 = (c.perform (.remove k)).checkCapacity := by
  cases hk : c.store.get? k with
  | none =>
    rw [perform_nil (by simp [effects, contains, Table.contains, hk]) rfl]
    simp only [remove, Table.remove, hk, Table.erase_of_get? hk]
    rfl
  | some old =>
    rw [perform_one (e := .drop k) (by simp [effects, contains, Table.contains, hk]) rfl]
    simp only [remove, Table.remove, hk]
    rfl

theorem removeIfEq_snd : (c.removeIfEq k v).2 = c.perform (.removeIfEq k v) := by
  by_cases hk : c.store.get? k = some v
  · rw [perform_one (e := .drop k) (by simp [effects, hk]) rfl]
    simp only [removeIfEq, Table.removeIf, hk, decide_true, if_true]
    rfl
  · rw [perform_nil (by simp [effects, hk]) rfl]
    cases hw : c.store.get? k with
    | none =>
      simp only [removeIfEq, Table.removeIf, hw]
      rfl
    | some w =>
      have hne : w ≠ v := fun he => hk (he ▸ hw)
      simp only [removeIfEq, Table.removeIf, hw, decide_eq_false hne]
      rfl

theorem replace_snd : (c.replace k v).2 = (c.perform (.replace k v)).checkCapacity := by
  cases hk : c.store.get? k with
  | none =>
    rw [perform_nil (by simp [effects, contains, Table.contains, hk]) rfl]
    simp only [replace, Table.replace, hk]
    rfl
  | some old =>
    rw [perform_one (e := .keep k v) (by simp [effects, contains, Table.contains, hk]) rfl]
    simp only [replace, Table.replace, hk]
    rfl

theorem replaceIfEq_snd (old new : α) :
    (c.replaceIfEq k old new).2 = (c.perform (.replaceIfEq k old new)).checkCapacity := by
  by_cases hk : c.store.get? k = some old
  · rw [perform_one (e := .keep k new) (by simp [effects, hk]) rfl]
    simp only [replaceIfEq, Table.replaceIfEq, if_pos hk]
    rfl
  · rw [perform_nil (by simp [effects, hk]) rfl]
    simp only [replaceIfEq, Table.replaceIfEq, if_neg hk]
    rfl

theorem get_snd : (c.get k).2 = c.perform (.get k) := by
  cases hk : c.store.get? k with
  | none =>
    simp only [get, hk, perform, effects, tally, contains, Table.contains]
    rfl
  | some v =>
    rw [perform_keep_self hk (by simp [effects, hk])]
    simp only [get, hk, tally, contains, Table.contains]
    rfl

theorem getLive_snd : (c.getLive k).2 = c.perform (.getLive k) := by
  cases hk : c.store.get? k with
  | none =>
    simp only [getLive, hk, perform, effects, tally]
    rfl
  | some v =>
    cases he : Expirable.expired v c.now with
    | false =>
      rw [perform_keep_self hk (by simp [effects, hk, he])]
      simp only [getLive, hk, tally, he]
      rfl
    | true =>
      simp only [getLive, Table.removeIf, hk, perform, effects, tally, he]
      rfl

theorem computeIfAbsent_snd (f : κ → Except Failure (Option α)) :
    (c.computeIfAbsent k f).2 =
      if c.checks (.computeIfAbsent k f) then (c.perform (.computeIfAbsent k f)).checkCapacity
      else c.perform (.computeIfAbsent k f) := by
  cases hk : c.store.get? k with
  | none =>
    have hchecks : c.checks (.computeIfAbsent k f) = (f k).isOk := by
      simp only [checks, closure?, contains, Table.contains, hk]
      cases f k <;> rfl
    rcases hf : f k with e | _ | w
    · rw [perform_nil (by simp [effects, hk, hf]) rfl, hchecks]
      simp only [computeIfAbsent, Table.computeIfAbsent, hk, hf]
      rfl
    · rw [perform_nil (by simp [effects, hk, hf]) rfl, hchecks]
      simp only [computeIfAbsent, Table.computeIfAbsent, hk, hf]
      rfl
    · rw [perform_one (e := .keep k w) (by simp [effects, hk, hf]) rfl, hchecks]
      simp only [computeIfAbsent, Table.computeIfAbsent, hk, hf]
      rfl
  | some old =>
    have hchecks : c.checks (.computeIfAbsent k f) = true := by
      simp [checks, closure?, contains, Table.contains, hk]
    rw [perform_keep_self hk (by simp [effects, hk]), hchecks]
    simp only [computeIfAbsent, Table.computeIfAbsent, hk]
    rfl

theorem computeIfPresent_snd (f : κ → α → Except Failure (Option α)) :
    (c.computeIfPresent k f).2 =
      if c.checks (.computeIfPresent k f) then (c.perform (.computeIfPresent k f)).checkCapacity
      else c.perform (.computeIfPresent k f) := by
  cases hk : c.store.get? k with
  | none =>
    rw [perform_drop_vacant hk (by simp [effects, hk])]
    simp only [computeIfPresent, Table.computeIfPresent, checks, closure?, hk]
    rfl
  | some old =>
    rcases hf : f k old with e | _ | w
    · rw [perform_nil (by simp [effects, hk, hf]) rfl]
      simp only [computeIfPresent, Table.computeIfPresent, checks, closure?, hk, hf,
        Option.map_some]
      rfl
    · rw [perform_one (e := .drop k) (by simp [effects, hk, hf, Effect.settle]) rfl]
      simp only [computeIfPresent, Table.computeIfPresent, checks, closure?, hk, hf,
        Option.map_some]
      rfl
    · rw [perform_one (e := .keep k w) (by simp [effects, hk, hf, Effect.settle]) rfl]
      simp only [computeIfPresent, Table.computeIfPresent, checks, closure?, hk, hf,
        Option.map_some]
      rfl

theorem compute_snd (f : κ → Option α → Except Failure (Option α)) :
    (c.compute k f).2 =
      if c.checks (.compute k f) then (c.perform (.compute k f)).checkCapacity
      else c.perform (.compute k f) := by
  rcases hf : f k (c.store.get? k) with e | _ | w
  · rw [perform_nil (by simp [effects, hf]) rfl]
    simp only [compute, Table.compute, checks, closure?, hf]
    rfl
  · rw [perform_one (e := .drop k) (by simp [effects, hf, Effect.settle]) rfl]
    simp only [compute, Table.compute, checks, closure?, hf]
    rfl
  · rw [perform_one (e := .keep k w) (by simp [effects, hf, Effect.settle]) rfl]
    simp only [compute, Table.compute, checks, closure?, hf]
    rfl

theorem merge_snd (f : α → α → Except Failure (Option α)) :
    (c.merge k v f).2 =
      if c.checks (.merge k v f) then (c.perform (.merge k v f)).checkCapacity
      else c.perform (.merge k v f) := by
  cases hk : c.store.get? k with
  | none =>
    rw [perform_one (e := .keep k v) (by simp [effects, hk]) rfl]
    simp only [merge, Table.merge, checks, closure?, hk]
    rfl
  | some old =>
    rcases hf : f old v with e | _ | w
    · rw [perform_nil (by simp [effects, hk, hf]) rfl]
      simp only [merge, Table.merge, checks, closure?, hk, hf, Option.map_some]
      rfl
    · rw [perform_one (e := .drop k) (by simp [effects, hk, hf, Effect.settle]) rfl]
      simp only [merge, Table.merge, checks, closure?, hk, hf, Option.map_some]
      rfl
    · rw [perform_one (e := .keep k w) (by simp [effects, hk, hf, Effect.settle]) rfl]
      simp only [merge, Table.merge, checks, closure?, hk, hf, Option.map_some]
      rfl

end Calls

theorem step_snd (c : Cache κ α σ) {call : Call κ α} (h : call.IsDirect) :
    (c.step call).2 =
      if c.checks call then (c.perform call).checkCapacity else c.perform call := by
  cases call with
  | put k v => rfl
  | putAll es => exact c.putAll_eq es
  | putIfAbsent k v => exact c.putIfAbsent_snd k v
  | remove k => exact c.remove_snd k
  | removeIfEq k v => exact c.removeIfEq_snd k v
  | replace k v => exact c.replace_snd k v
  | replaceIfEq k old new => exact c.replaceIfEq_snd k old new
  | get k => exact c.get_snd k
  | getOrDefault k v => exact c.get_snd k
  | getLive k => exact c.getLive_snd k
  | contains k => rfl
  | computeIfAbsent k f => exact c.computeIfAbsent_snd k f
  | computeIfPresent k f => exact c.computeIfPresent_snd k f
  | compute k f => exact c.compute_snd k f
  | merge k v f => exact c.merge_snd k v f
  | clear => rfl
  | forceCleanup => cases h
  | sleep ms => cases h
  | setClock now => cases h
  | editTracker f => cases h

omit [DecidableEq α] [Expirable α] in
theorem closure?_computeIfAbsent {c : Cache κ α σ} {k : κ} {f : κ → Except Failure (Option α)}
    {r : Except Failure (Option α)} (h : c.closure? (.computeIfAbsent k f) = some r) :
    c.store.get? k = none ∧ f k = r := by
  cases hk : c.store.get? k with
  | none =>
    simp only [closure?, contains, Table.contains, hk, Option.isSome_none, Bool.false_eq_true,
      if_false, Option.some.injEq] at h
    exact ⟨rfl, h⟩
  | some old => simp [closure?, contains, Table.contains, hk] at h

theorem step_of_closure_error {c : Cache κ α σ} {call : Call κ α} {e : Failure}
    (h : c.closure? call = some (.error e)) : c.step call = (.failed e, c) := by
  cases call with
  | computeIfAbsent k f =>
    obtain ⟨hk, hf⟩ := closure?_computeIfAbsent h
    simp only [step, computeIfAbsent, Table.computeIfAbsent, hk, hf]
    rfl
  | computeIfPresent k f =>
    obtain ⟨old, hk, hf⟩ := Option.map_eq_some_iff.mp h
    simp only [step, computeIfPresent, Table.computeIfPresent, hk, hf]
    rfl
  | compute k f =>
    have hf : f k (c.store.get? k) = .error e := Option.some.inj h
    simp only [step, compute, Table.compute, hf]
    rfl
  | merge k v f =>
    obtain ⟨old, hk, hf⟩ := Option.map_eq_some_iff.mp h
    simp only [step, merge, Table.merge, hk, hf]
    rfl
  | _ => cases h

theorem effects_of_closure_error {c : Cache κ α σ} {call : Call κ α} {e : Failure}
    (h : c.closure? call = some (.error e)) : c.effects call = [] := by
  cases call with
  | computeIfAbsent k f =>
    obtain ⟨hk, hf⟩ := closure?_computeIfAbsent h
    simp only [effects, hk, hf]
  | computeIfPresent k f =>
    obtain ⟨old, hk, hf⟩ := Option.map_eq_some_iff.mp h
    simp only [effects, hk, hf]
  | compute k f =>
    have hf : f k (c.store.get? k) = .error e := Option.some.inj h
    simp only [effects, hf]
  | merge k v f =>
    obtain ⟨old, hk, hf⟩ := Option.map_eq_some_iff.mp h
    simp only [effects, hk, hf]
  | _ => cases h

-- ---------------------------------------------------------------------------
-- The check of the size
-- ---------------------------------------------------------------------------

section Check

omit [DecidableEq κ] [DecidableEq α] [Expirable α]

theorem checkCapacity_of_le {c : Cache κ α σ} (h : c.size ≤ c.config.evictTo) :
    c.checkCapacity = c := by
  rw [checkCapacity, if_neg (Nat.not_lt.mpr h)]

theorem checkCapacity_of_lt {c : Cache κ α σ} (h : c.config.evictTo < c.size) :
    c.checkCapacity =
      { c with
        scheduler := c.scheduler.requestOneShot.1
        core := { c.core with journal := c.core.journal ++ c.scheduler.requestOneShot.2 } } := by
  have hrecord : ∀ (events : List Event) (x : Core κ α σ),
      events.foldl Core.record x = { x with journal := x.journal ++ events } := by
    intro events
    induction events with
    | nil => simp
    | cons e events ih => intro x; simp [ih, Core.record]
  rw [checkCapacity, if_pos h, ← hrecord]

theorem checkCapacity_eq (c : Cache κ α σ) : ∃ scheduler events, c.checkCapacity =
    { c with scheduler, core := { c.core with journal := c.core.journal ++ events } } ∧
      ∀ e ∈ events, e = .scheduled ∨ e = .deferred := by
  rcases Nat.lt_or_ge c.config.evictTo c.size with h | h
  · refine ⟨_, _, checkCapacity_of_lt h, ?_⟩
    unfold Scheduler.requestOneShot
    split
    · split <;> simp
    · simp
  · exact ⟨c.scheduler, [], by simp [checkCapacity_of_le h], by simp⟩

theorem checkCapacity_frame (c : Cache κ α σ) : ∃ oneShot journal, c.checkCapacity =
    { c with
      scheduler := { c.scheduler with oneShot }
      core := { c.core with journal } } := by
  rcases Nat.lt_or_ge c.config.evictTo c.size with h | h
  · rw [checkCapacity_of_lt h]
    unfold Scheduler.requestOneShot
    split
    · split
      · exact ⟨_, _, rfl⟩
      · exact ⟨_, _, rfl⟩
    · exact ⟨_, _, rfl⟩
  · exact ⟨c.scheduler.oneShot, c.core.journal, checkCapacity_of_le h⟩

end Check

/-- A call for an entry or for all of them leaves the setup and the clocks, and
its effects are the only ones on the store. -/
theorem step_frame_of_direct (c : Cache κ α σ) {call : Call κ α} (h : call.IsDirect) :
    ∃ oneShot journal, (c.step call).2 =
      { c.perform call with
        scheduler := { c.scheduler with oneShot }
        core := { (c.perform call).core with journal } } := by
  rw [step_snd c h]
  split
  · exact checkCapacity_frame (c.perform call)
  · exact ⟨c.scheduler.oneShot, (c.perform call).core.journal, rfl⟩

end Cache

end SizedCache
