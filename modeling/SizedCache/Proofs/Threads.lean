import SizedCache.Proofs.CallLaws
import SizedCache.Proofs.PassLaws

/-!
# Threads that share a cache

Each thread has a list of jobs, calls on a key and attempts, and does them in
turn. A job is cut into its atomic actions: a call acts on the store once and is
left with chores, which count the lookup, bring the record of the key up to date
and check the size; an attempt claims the slot or is skipped, makes its pass and
releases the slot. Between any two actions the other threads may do theirs, and
the pending on-write attempt may fire, which brings in one more thread. Left to
itself a thread does what `Cache.step` and `Core.attempt` say.
-/

namespace SizedCache

open Cache (Call Reply)

variable {κ α σ : Type}

theorem Table.get?_self [DecidableEq κ] {t : Table κ α} {k : κ} {cell : Option α}
    (h : t.get? k = cell) (j : κ) : t.get? j = if k = j then cell else t.get? j := by
  split
  · rename_i hj
    rw [← hj, h]
  · rfl

-- ---------------------------------------------------------------------------
-- Calls on a key
-- ---------------------------------------------------------------------------

inductive KeyCall (κ α : Type) where
  | put (k : κ) (v : α)
  | putIfAbsent (k : κ) (v : α)
  | remove (k : κ)
  | get (k : κ)
  | merge (k : κ) (v : α) (f : α → α → Except Failure (Option α))

/-- What is left of a call once it has acted on the store. -/
inductive Chore (κ : Type) where
  | hit
  | miss
  | touch (k : κ)
  | forget (k : κ)
  | check
deriving DecidableEq

namespace KeyCall

def key : KeyCall κ α → κ
  | put k _ | putIfAbsent k _ | remove k | get k | merge k _ _ => k

def call : KeyCall κ α → Call κ α
  | put k v => .put k v
  | putIfAbsent k v => .putIfAbsent k v
  | remove k => .remove k
  | get k => .get k
  | merge k v f => .merge k v f

def chores (reply : Reply α) : KeyCall κ α → List (Chore κ)
  | put k _ | putIfAbsent k _ => [.touch k, .check]
  | remove k => if reply.isSome then [.forget k, .check] else [.check]
  | get k => if reply.isSome then [.hit, .touch k] else [.miss]
  | merge k _ _ =>
    match reply with
    | .value (some _) => [.touch k, .check]
    | .value none => [.forget k, .check]
    | _ => []

def onCell (cell : Option α) : KeyCall κ α → Reply α × Option α
  | put _ v => (.value cell, some v)
  | putIfAbsent _ v => (.value cell, some (cell.getD v))
  | remove _ => (.value cell, none)
  | get _ => (.value cell, cell)
  | merge _ v f =>
    match cell with
    | none => (.value (some v), some v)
    | some old =>
      match f old v with
      | .ok w => (.value w, w)
      | .error e => (.failed e, some old)

variable [DecidableEq κ]

def act (t : Table κ α) : KeyCall κ α → Reply α × Table κ α
  | put k v => let (old, t) := t.insert k v; (.value old, t)
  | putIfAbsent k v => let (old, t) := t.insertIfAbsent k v; (.value old, t)
  | remove k => let (old, t) := t.remove k; (.value old, t)
  | get k => (.value (t.get? k), t)
  | merge k v f =>
    match t.merge k v f with
    | .ok (w, t) => (.value w, t)
    | .error e => (.failed e, t)

theorem act_onCell (a : KeyCall κ α) (t : Table κ α) :
    (a.act t).1 = (a.onCell (t.get? a.key)).1 ∧
      ∀ k, (a.act t).2.get? k =
        if a.key = k then (a.onCell (t.get? a.key)).2 else t.get? k := by
  cases a with
  | put k v => exact ⟨rfl, fun j => t.get?_set k j v⟩
  | putIfAbsent k v =>
    cases h : t.get? k with
    | none =>
      simp only [act, Table.insertIfAbsent, key, onCell, h]
      exact ⟨trivial, fun j => t.get?_set k j v⟩
    | some old =>
      simp only [act, Table.insertIfAbsent, key, onCell, h]
      exact ⟨trivial, Table.get?_self h⟩
  | remove k => exact ⟨rfl, t.get?_erase k⟩
  | get k => exact ⟨rfl, Table.get?_self rfl⟩
  | merge k v f =>
    cases h : t.get? k with
    | none =>
      simp only [act, Table.merge, key, onCell, h]
      exact ⟨trivial, fun j => t.get?_set k j v⟩
    | some old =>
      rcases hf : f old v with e | _ | w
      all_goals simp only [act, Table.merge, key, onCell, h, hf]
      · exact ⟨trivial, Table.get?_self h⟩
      · exact ⟨trivial, t.get?_erase k⟩
      · exact ⟨trivial, fun j => t.get?_set k j w⟩

theorem act_fst (a : KeyCall κ α) (t : Table κ α) :
    (a.act t).1 = (a.onCell (t.get? a.key)).1 :=
  (a.act_onCell t).1

theorem get?_act (a : KeyCall κ α) (t : Table κ α) (k : κ) :
    (a.act t).2.get? k = if a.key = k then (a.onCell (t.get? a.key)).2 else t.get? k :=
  (a.act_onCell t).2 k

end KeyCall

def Cache.chore [DecidableEq κ] (c : Cache κ α σ) : Chore κ → Cache κ α σ
  | .hit => c.countHit
  | .miss => c.countMiss
  | .touch k => c.touch k
  | .forget k => c.forget k
  | .check => c.checkCapacity

theorem Cache.chore_check [DecidableEq κ] (c : Cache κ α σ) : c.chore .check = c.checkCapacity :=
  rfl

theorem Cache.chore_frame [DecidableEq κ] (c : Cache κ α σ) (x : Chore κ) :
    (c.chore x).setup = c.setup ∧ (c.chore x).store = c.store ∧
      (c.chore x).core.slot = c.core.slot ∧ (c.chore x).now = c.now ∧
      (c.chore x).scheduler.runtime = c.scheduler.runtime := by
  cases x with
  | check =>
    obtain ⟨_, _, heq⟩ := c.checkCapacity_frame
    rw [chore_check, heq]
    exact ⟨rfl, rfl, rfl, rfl, rfl⟩
  | _ => exact ⟨rfl, rfl, rfl, rfl, rfl⟩

theorem Cache.chore_tracker [DecidableEq κ] (c : Cache κ α σ) (x : Chore κ) :
    (c.chore x).core.tracker.isSome = c.core.tracker.isSome := by
  cases x with
  | touch k => exact Option.isSome_map
  | forget k => exact Option.isSome_map
  | check =>
    obtain ⟨_, _, heq⟩ := c.checkCapacity_frame
    rw [chore_check, heq]
  | _ => rfl

/-- A call is its action on the store and then its chores. -/
theorem KeyCall.step_eq [DecidableEq κ] [DecidableEq α] [Expirable α] (a : KeyCall κ α)
    (c : Cache κ α σ) :
    c.step a.call = ((a.act c.store).1,
      (a.chores (a.act c.store).1).foldl Cache.chore (c.withStore (a.act c.store).2)) := by
  cases a with
  | put k v => rfl
  | putIfAbsent k v => rfl
  | remove k =>
    cases hk : c.store.get? k with
    | none =>
      simp only [call, Cache.step, Cache.remove, act, Table.remove, chores, hk]
      rfl
    | some v =>
      simp only [call, Cache.step, Cache.remove, act, Table.remove, chores, hk]
      rfl
  | get k =>
    cases hk : c.store.get? k with
    | none =>
      simp only [call, Cache.step, Cache.get, act, chores, hk]
      rfl
    | some v =>
      simp only [call, Cache.step, Cache.get, act, chores, hk]
      rfl
  | merge k v f =>
    simp only [call, Cache.step, Cache.merge, act, chores]
    rcases c.store.merge k v f with _ | ⟨_ | w, t⟩ <;> rfl

-- ---------------------------------------------------------------------------
-- Hands
-- ---------------------------------------------------------------------------

inductive Job (κ α : Type) where
  | call (a : KeyCall κ α)
  | attempt (who : Origin)

inductive Stance (κ : Type) where
  | chores (xs : List (Chore κ))
  | passing (who : Origin)
  /-- The pass is over, and the slot still to be released. -/
  | leaving (who : Origin) (r : Except Failure Report)

structure Hand (κ α : Type) where
  todo : List (Job κ α)
  stance : Stance κ := .chores []

/-- An atomic action. `found` is what a call found under its key. -/
inductive Deed (κ α : Type) where
  | act (a : KeyCall κ α) (found : Option α) (reply : Reply α)
  | chore (x : Chore κ)
  | claim (who : Origin)
  | skip (who : Origin)
  | pass (who : Origin) (r : Except Failure Report)
  | release (who : Origin)

def Core.account (c : Core κ α σ) (r : Except Failure Outcome) : Origin → Core κ α σ
  | .caller => c
  | .trigger t => c.record (.ofAttempt t r)

theorem Core.account_frame (c : Core κ α σ) (r : Except Failure Outcome) (who : Origin) :
    (c.account r who).store = c.store ∧ (c.account r who).tracker = c.tracker ∧
      (c.account r who).slot = c.slot := by
  cases who <;> exact ⟨rfl, rfl, rfl⟩

namespace Hand

variable [DecidableEq κ]

def step (c : Cache κ α σ) : Hand κ α → Option (Deed κ α × Hand κ α × Cache κ α σ)
  | ⟨[], .chores []⟩ => none
  | ⟨.call a :: todo, .chores []⟩ =>
    let (reply, store) := a.act c.store
    some (.act a (c.store.get? a.key) reply, ⟨todo, .chores (a.chores reply)⟩, c.withStore store)
  | ⟨.attempt who :: todo, .chores []⟩ =>
    match c.core.slot.claim? who with
    | some slot => some (.claim who, ⟨todo, .passing who⟩, { c with core := { c.core with slot } })
    | none =>
      let core := { c.core with stats := c.core.stats.skip }
      some (.skip who, ⟨todo, .chores []⟩, { c with core := core.account (.ok .skipped) who })
  | ⟨todo, .chores (x :: xs)⟩ => some (.chore x, ⟨todo, .chores xs⟩, c.chore x)
  | ⟨todo, .passing who⟩ =>
    let (r, core) := c.core.pass c.setup c.now
    some (.pass who r, ⟨todo, .leaving who r⟩, { c with core })
  | ⟨todo, .leaving who r⟩ =>
    let core := { c.core with slot := c.core.slot.release }
    some (.release who, ⟨todo, .chores []⟩,
      { c with core := core.account (r.map .completed) who })

/-- `step` as a relation, with one rule for each kind of action. -/
inductive Steps (c : Cache κ α σ) : Hand κ α → Deed κ α → Hand κ α → Cache κ α σ → Prop
  | act (a : KeyCall κ α) (todo : List (Job κ α)) :
    Steps c ⟨.call a :: todo, .chores []⟩ (.act a (c.store.get? a.key) (a.act c.store).1)
      ⟨todo, .chores (a.chores (a.act c.store).1)⟩ (c.withStore (a.act c.store).2)
  | chore (x : Chore κ) (xs : List (Chore κ)) (todo : List (Job κ α)) :
    Steps c ⟨todo, .chores (x :: xs)⟩ (.chore x) ⟨todo, .chores xs⟩ (c.chore x)
  | claim (who : Origin) (todo : List (Job κ α)) (h : c.core.slot.runner = none) :
    Steps c ⟨.attempt who :: todo, .chores []⟩ (.claim who) ⟨todo, .passing who⟩
      { c with core := c.core.claimed who }
  | skip (who : Origin) (todo : List (Job κ α)) (h : c.core.slot.isRunning) :
    Steps c ⟨.attempt who :: todo, .chores []⟩ (.skip who) ⟨todo, .chores []⟩
      { c with core :=
          { c.core with stats := c.core.stats.skip }.account (.ok .skipped) who }
  | pass (who : Origin) (todo : List (Job κ α)) :
    Steps c ⟨todo, .passing who⟩ (.pass who (c.core.pass c.setup c.now).1)
      ⟨todo, .leaving who (c.core.pass c.setup c.now).1⟩
      { c with core := (c.core.pass c.setup c.now).2 }
  | release (who : Origin) (todo : List (Job κ α)) (r : Except Failure Report) :
    Steps c ⟨todo, .leaving who r⟩ (.release who) ⟨todo, .chores []⟩
      { c with core := { c.core with slot := {} }.account (r.map .completed) who }

theorem steps_of_step {c c' : Cache κ α σ} {h h' : Hand κ α} {d : Deed κ α}
    (hs : h.step c = some (d, h', c')) : Steps c h d h' c' := by
  unfold step at hs
  split at hs
  · cases hs
  · cases hs
    exact .act _ _
  · cases hr : c.core.slot.runner with
    | none =>
      simp only [RunSlot.claim?, hr] at hs
      cases hs
      exact .claim _ _ hr
    | some holder =>
      simp only [RunSlot.claim?, hr] at hs
      cases hs
      exact .skip _ _ (by rw [RunSlot.isRunning, hr]; rfl)
  · cases hs
    exact .chore _ _ _
  · cases hs
    exact .pass _ _
  · cases hs
    exact .release _ _ _

end Hand

-- ---------------------------------------------------------------------------
-- Crews
-- ---------------------------------------------------------------------------

/-- What threads have done, oldest first, with the number of the thread. -/
abbrev Log (κ α : Type) := List (Nat × Deed κ α)

structure Crew (κ α σ : Type) where
  cache : Cache κ α σ
  hands : List (Hand κ α)
  log : Log κ α := []

namespace Crew

inductive Move where
  | act (i : Nat) (now : Int64)
  /-- The pending on-write attempt becomes a thread of its own. -/
  | fire

def start (c : Cache κ α σ) (programs : List (List (Job κ α))) : Crew κ α σ where
  cache := c
  hands := programs.map fun todo => { todo }

def did (w : Crew κ α σ) (i : Nat) (d : Deed κ α) (h : Hand κ α) (c : Cache κ α σ) :
    Crew κ α σ where
  cache := c
  hands := w.hands.set i h
  log := w.log ++ [(i, d)]

def fired (w : Crew κ α σ) : Crew κ α σ where
  cache := { w.cache with scheduler := { w.cache.scheduler with oneShot := none } }
  hands := w.hands ++ [{ todo := [.attempt (.trigger .onWrite)] }]
  log := w.log

def Quiet (w : Crew κ α σ) : Prop := ∀ h ∈ w.hands, h.todo = [] ∧ h.stance = .chores []

variable [DecidableEq κ]

/-- A move that cannot be made changes nothing. -/
def step (w : Crew κ α σ) : Move → Crew κ α σ
  | .act i now =>
    match w.hands[i]?.bind (Hand.step { w.cache with now }) with
    | some (d, h, c) => w.did i d h c
    | none => w
  | .fire => if w.cache.scheduler.oneShot.isSome then w.fired else w

def run (w : Crew κ α σ) (moves : List Move) : Crew κ α σ := moves.foldl step w

theorem step_act (w : Crew κ α σ) (i : Nat) (now : Int64) : w.step (.act i now) = w ∨
    ∃ h d h' c', w.hands[i]? = some h ∧ h.Steps { w.cache with now } d h' c' ∧
      w.step (.act i now) = w.did i d h' c' := by
  rcases hi : w.hands[i]?.bind (Hand.step { w.cache with now }) with _ | ⟨d, h', c'⟩
  · exact .inl (by simp only [step, hi])
  · obtain ⟨h, hget, hs⟩ := Option.bind_eq_some_iff.mp hi
    exact .inr ⟨h, d, h', c', hget, Hand.steps_of_step hs, by simp only [step, hi]⟩

theorem run_keeps {P : Crew κ α σ → Prop} {w : Crew κ α σ} (hw : P w)
    (hact : ∀ w i now h d h' c', P w → w.hands[i]? = some h →
      h.Steps { w.cache with now } d h' c' → P (w.did i d h' c'))
    (hfire : ∀ w, P w → w.cache.scheduler.oneShot.isSome → P w.fired) (moves : List Move) :
    P (w.run moves) := by
  induction moves generalizing w with
  | nil => exact hw
  | cons m moves ih =>
    apply ih
    cases m with
    | act i now =>
      rcases w.step_act i now with heq | ⟨h, d, h', c', hget, hs, heq⟩
      · rw [heq]
        exact hw
      · rw [heq]
        exact hact w i now h d h' c' hw hget hs
    | fire =>
      simp only [step]
      split
      · exact hfire w hw ‹_›
      · exact hw

omit [DecidableEq κ] in
theorem did_hand {w : Crew κ α σ} {i : Nat} {h : Hand κ α} (hi : w.hands[i]? = some h)
    (d : Deed κ α) (h' : Hand κ α) (c : Cache κ α σ) (j : Nat) :
    (w.did i d h' c).hands[j]? = if i = j then some h' else w.hands[j]? := by
  obtain ⟨hlt, -⟩ := List.getElem?_eq_some_iff.mp hi
  simp [did, List.getElem?_set, hlt]

end Crew

-- ---------------------------------------------------------------------------
-- Threads with calls alone
-- ---------------------------------------------------------------------------

def Hand.calling (as : List (KeyCall κ α)) (xs : List (Chore κ)) : Hand κ α :=
  ⟨as.map .call, .chores xs⟩

theorem Hand.calling_inj {as bs : List (KeyCall κ α)} {xs ys : List (Chore κ)}
    (h : Hand.calling as xs = .calling bs ys) : as = bs ∧ xs = ys := by
  obtain ⟨htodo, hstance⟩ := Hand.mk.inj h
  exact ⟨List.map_injective_iff.mpr (fun _ _ => Job.call.inj) htodo, Stance.chores.inj hstance⟩

def Deed.call? : Deed κ α → Option (KeyCall κ α)
  | .act a _ _ => some a
  | _ => none

def Deed.reply? : Deed κ α → Option (Reply α)
  | .act _ _ reply => some reply
  | _ => none

namespace Crew

def ofCalls (c : Cache κ α σ) (programs : List (List (KeyCall κ α))) : Crew κ α σ :=
  .start c (programs.map fun as => as.map .call)

def deedsBy (w : Crew κ α σ) (i : Nat) : List (Deed κ α) :=
  (w.log.filter (·.1 = i)).map Prod.snd

def callsBy (w : Crew κ α σ) (i : Nat) : List (KeyCall κ α) := (w.deedsBy i).filterMap Deed.call?

def repliesBy (w : Crew κ α σ) (i : Nat) : List (Reply α) := (w.deedsBy i).filterMap Deed.reply?

theorem deedsBy_did (w : Crew κ α σ) (i : Nat) (d : Deed κ α) (h : Hand κ α) (c : Cache κ α σ)
    (j : Nat) :
    (w.did i d h c).deedsBy j = if i = j then w.deedsBy j ++ [d] else w.deedsBy j := by
  by_cases hj : i = j <;> simp [deedsBy, did, hj]

structure Follows (programs : List (List (KeyCall κ α))) (w : Crew κ α σ) : Prop where
  staffed : w.hands.length = programs.length
  hand : ∀ i h, w.hands[i]? = some h →
    ∃ as xs, h = .calling as xs ∧ programs[i]? = some (w.callsBy i ++ as)

theorem ofCalls_hand (c : Cache κ α σ) (programs : List (List (KeyCall κ α))) (i : Nat) :
    (ofCalls c programs).hands[i]? = programs[i]?.map (Hand.calling · []) := by
  simp [ofCalls, start, Hand.calling, Function.comp_def]

theorem Quiet.of_calling {w : Crew κ α σ} (h : w.Quiet) {i : Nat} {as : List (KeyCall κ α)}
    {xs : List (Chore κ)} (hi : w.hands[i]? = some (.calling as xs)) : as = [] ∧ xs = [] := by
  obtain ⟨htodo, hstance⟩ := h _ (List.mem_of_getElem? hi)
  exact ⟨List.map_eq_nil_iff.mp htodo, Stance.chores.inj hstance⟩

theorem follows_ofCalls (c : Cache κ α σ) (programs : List (List (KeyCall κ α))) :
    (ofCalls c programs).Follows programs where
  staffed := by simp [ofCalls, start]
  hand i h hi := by
    rw [ofCalls_hand] at hi
    obtain ⟨as, has, rfl⟩ := Option.map_eq_some_iff.mp hi
    exact ⟨as, [], rfl, has⟩

theorem Follows.program {programs : List (List (KeyCall κ α))} {w : Crew κ α σ}
    (h : w.Follows programs) {i : Nat} {as : List (KeyCall κ α)} {xs : List (Chore κ)}
    (hi : w.hands[i]? = some (.calling as xs)) : programs[i]? = some (w.callsBy i ++ as) := by
  obtain ⟨bs, ys, heq, hp⟩ := h.hand i _ hi
  obtain ⟨rfl, -⟩ := Hand.calling_inj heq
  exact hp

theorem Follows.of_program {programs : List (List (KeyCall κ α))} {w : Crew κ α σ}
    (h : w.Follows programs) {i : Nat} {p : List (KeyCall κ α)} (hp : programs[i]? = some p) :
    ∃ as xs, w.hands[i]? = some (.calling as xs) ∧ p = w.callsBy i ++ as := by
  obtain ⟨hlt, -⟩ := List.getElem?_eq_some_iff.mp hp
  have hstaff : i < w.hands.length := by rw [h.staffed]; exact hlt
  have hi : w.hands[i]? = some w.hands[i] := List.getElem?_eq_getElem hstaff
  obtain ⟨as, xs, heq, hp'⟩ := h.hand i _ hi
  exact ⟨as, xs, hi.trans (congrArg some heq), Option.some.inj (hp.symm.trans hp')⟩

theorem Follows.did {programs : List (List (KeyCall κ α))} {w : Crew κ α σ}
    (h : w.Follows programs) {i : Nat} {as as' : List (KeyCall κ α)} {xs xs' : List (Chore κ)}
    {d : Deed κ α} (hi : w.hands[i]? = some (.calling as xs)) (hd : d.call?.toList ++ as' = as)
    (c : Cache κ α σ) : (w.did i d (.calling as' xs') c).Follows programs where
  staffed := by simp [Crew.did, h.staffed]
  hand j g hj := by
    rw [did_hand hi] at hj
    split at hj
    · rename_i hij
      subst hij
      cases hj
      refine ⟨as', xs', rfl, ?_⟩
      rw [h.program hi, ← hd]
      simp only [callsBy, deedsBy_did, if_pos]
      cases d <;> simp [Deed.call?]
    · rename_i hij
      obtain ⟨bs, ys, heq, hp⟩ := h.hand j g hj
      refine ⟨bs, ys, heq, ?_⟩
      rw [hp, callsBy, callsBy, deedsBy_did, if_neg hij]

variable [DecidableEq κ]

def acted (w : Crew κ α σ) (i : Nat) (now : Int64) (a : KeyCall κ α) (as : List (KeyCall κ α)) :
    Crew κ α σ :=
  w.did i (.act a (w.cache.store.get? a.key) (a.act w.cache.store).1)
    (.calling as (a.chores (a.act w.cache.store).1))
    ({ w.cache with now }.withStore (a.act w.cache.store).2)

def chored (w : Crew κ α σ) (i : Nat) (now : Int64) (x : Chore κ) (xs : List (Chore κ))
    (as : List (KeyCall κ α)) : Crew κ α σ :=
  w.did i (.chore x) (.calling as xs) ({ w.cache with now }.chore x)

/-- What both kinds of action keep holds after every run of threads that follow
`programs`, as long as no timer goes off. -/
theorem run_calls {programs : List (List (KeyCall κ α))} {P : Crew κ α σ → Prop}
    {w : Crew κ α σ} (hf : w.Follows programs) (hw : P w)
    (hact : ∀ w i now a as, w.Follows programs → P w →
      w.hands[i]? = some (.calling (a :: as) []) → P (w.acted i now a as))
    (hchore : ∀ w i now x xs as, w.Follows programs → P w →
      w.hands[i]? = some (.calling as (x :: xs)) → P (w.chored i now x xs as))
    {moves : List Move} (hmoves : .fire ∉ moves) :
    (w.run moves).Follows programs ∧ P (w.run moves) := by
  induction moves generalizing w with
  | nil => exact ⟨hf, hw⟩
  | cons m moves ih =>
    rw [List.mem_cons, not_or] at hmoves
    suffices hstep : (w.step m).Follows programs ∧ P (w.step m) from
      ih hstep.1 hstep.2 hmoves.2
    cases m with
    | fire => exact absurd rfl hmoves.1
    | act i now =>
      rcases w.step_act i now with heq | ⟨h, d, h', c', hi, hs, heq⟩
      · rw [heq]
        exact ⟨hf, hw⟩
      · rw [heq]
        obtain ⟨as, xs, rfl, -⟩ := hf.hand i h hi
        cases as with
        | nil =>
          cases hs with
          | chore x xs => exact ⟨hf.did hi rfl _, hchore w i now x xs [] hf hw hi⟩
        | cons a as =>
          cases hs with
          | act => exact ⟨hf.did hi rfl _, hact w i now a as hf hw hi⟩
          | chore x xs => exact ⟨hf.did hi rfl _, hchore w i now x xs (a :: as) hf hw hi⟩

-- ---------------------------------------------------------------------------
-- One thread
-- ---------------------------------------------------------------------------

theorem chores_alone (xs : List (Chore κ)) (c : Cache κ α σ) (log : Log κ α) :
    ∃ log', run ⟨c, [⟨[], .chores xs⟩], log⟩ (.replicate xs.length (.act 0 c.now)) =
      ⟨xs.foldl Cache.chore c, [{ todo := [] }], log'⟩ := by
  induction xs generalizing c log with
  | nil => exact ⟨log, rfl⟩
  | cons x xs ih =>
    obtain ⟨-, -, -, hnow, -⟩ := c.chore_frame x
    rw [← hnow, List.length_cons, List.replicate_succ, hnow]
    obtain ⟨log', heq⟩ := ih (c.chore x) (log ++ [(0, .chore x)])
    rw [hnow] at heq
    exact ⟨log', heq⟩

theorem call_alone [DecidableEq α] [Expirable α] (a : KeyCall κ α) (c : Cache κ α σ) :
    ∃ n log, (start c [[.call a]]).run (.replicate n (.act 0 c.now)) =
      ⟨(c.step a.call).2, [{ todo := [] }], log⟩ := by
  let xs : List (Chore κ) := a.chores (a.act c.store).1
  obtain ⟨log, heq⟩ := chores_alone xs (c.withStore (a.act c.store).2)
    [(0, .act a (c.store.get? a.key) (a.act c.store).1)]
  refine ⟨xs.length + 1, log, ?_⟩
  rw [a.step_eq]
  exact heq

theorem attempt_alone (who : Origin) (c : Cache κ α σ) :
    let (r, core) := c.core.attempt c.setup who c.now
    ∃ n log, (start c [[.attempt who]]).run (.replicate n (.act 0 c.now)) =
      ⟨{ c with core := core.account r who }, [{ todo := [] }], log⟩ := by
  cases hr : c.core.slot.runner with
  | none =>
    rw [Core.attempt_of_free (congrArg RunSlot.mk hr)]
    have hclaim : (start c [[.attempt who]]).step (.act 0 c.now) =
        ⟨{ c with core := c.core.claimed who }, [⟨[], .passing who⟩], [(0, .claim who)]⟩ := by
      simp [step, start, Hand.step, did, RunSlot.claim?, hr, Core.claimed]
    refine ⟨3, [(0, .claim who), (0, .pass who ((c.core.claimed who).pass c.setup c.now).1),
      (0, .release who)], ?_⟩
    show ((step _ _).step (.act 0 c.now)).step (.act 0 c.now) = _
    rw [hclaim]
    rfl
  | some holder =>
    have hattempt : c.core.attempt c.setup who c.now =
        (.ok .skipped, { c.core with stats := c.core.stats.skip }) := by
      simp only [Core.attempt, RunSlot.claim?, hr]
    rw [hattempt]
    refine ⟨1, [(0, .skip who)], ?_⟩
    simp [run, step, start, Hand.step, did, RunSlot.claim?, hr]

end Crew

end SizedCache
