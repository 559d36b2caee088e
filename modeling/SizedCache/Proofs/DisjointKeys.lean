import SizedCache.Proofs.LruRefinement
import SizedCache.Proofs.Threads

/-!
# Threads on disjoint keys

Threads whose calls are on different keys do not notice each other. What a thread
does is told by the calls that it makes and by the cells of its keys, which no
other thread changes, so it does under every schedule what it does alone. The
numbers of touches depend on the schedule; which keys are tracked and how many
lookups hit and miss do not.
-/

namespace SizedCache

open Cache (Call Reply)

variable {κ α σ : Type}

namespace KeyCall

-- ---------------------------------------------------------------------------
-- Calls made alone
-- ---------------------------------------------------------------------------

def DisjointKeys (programs : List (List (KeyCall κ α))) : Prop :=
  programs.Pairwise fun p q => ∀ a ∈ p, ∀ b ∈ q, a.key ≠ b.key

theorem DisjointKeys.key_ne {programs : List (List (KeyCall κ α))} (h : DisjointKeys programs)
    {i j : Nat} (hij : i ≠ j) {p q : List (KeyCall κ α)} (hp : programs[i]? = some p)
    (hq : programs[j]? = some q) {a b : KeyCall κ α} (ha : a ∈ p) (hb : b ∈ q) :
    a.key ≠ b.key := by
  obtain ⟨hi, rfl⟩ := List.getElem?_eq_some_iff.mp hp
  obtain ⟨hj, rfl⟩ := List.getElem?_eq_some_iff.mp hq
  have hpairs := List.pairwise_iff_getElem.mp h
  rcases Nat.lt_or_gt_of_ne hij with hlt | hgt
  · exact hpairs i j hi hj hlt a ha b hb
  · exact (hpairs j i hj hi hgt b hb a ha).symm

variable [DecidableEq κ]

def solo (t : Table κ α) : List (KeyCall κ α) → List (Deed κ α)
  | [] => []
  | a :: as =>
    .act a (t.get? a.key) (a.act t).1 ::
      ((a.chores (a.act t).1).map .chore ++ solo (a.act t).2 as)

def actAll (t : Table κ α) (as : List (KeyCall κ α)) : Table κ α :=
  as.foldl (fun t a => (a.act t).2) t

theorem get?_act_congr {t u : Table κ α} {K : κ → Prop} (h : ∀ k, K k → t.get? k = u.get? k)
    {a : KeyCall κ α} (ha : K a.key) {k : κ} (hk : K k) :
    (a.act t).2.get? k = (a.act u).2.get? k := by
  rw [get?_act, get?_act, h a.key ha, h k hk]

theorem solo_congr {K : κ → Prop} {as : List (KeyCall κ α)} (hK : ∀ a ∈ as, K a.key)
    {t u : Table κ α} (h : ∀ k, K k → t.get? k = u.get? k) :
    solo t as = solo u as ∧ ∀ k, K k → (actAll t as).get? k = (actAll u as).get? k := by
  induction as generalizing t u with
  | nil => exact ⟨rfl, h⟩
  | cons a as ih =>
    rw [List.forall_mem_cons] at hK
    obtain ⟨ha, hK⟩ := hK
    obtain ⟨hsolo, hcells⟩ := ih hK fun k hk => get?_act_congr h ha hk
    refine ⟨?_, hcells⟩
    rw [solo, solo, act_fst, act_fst, h a.key ha, hsolo]

theorem foldl_chore_store (xs : List (Chore κ)) (c : Cache κ α σ) :
    (xs.foldl Cache.chore c).store = c.store := by
  induction xs generalizing c with
  | nil => rfl
  | cons x xs ih => exact (ih (c.chore x)).trans (c.chore_frame x).2.1

theorem solo_eq [DecidableEq α] [Expirable α] (as : List (KeyCall κ α)) (c : Cache κ α σ) :
    (solo c.store as).filterMap Deed.reply? = c.replies (as.map call) ∧
      actAll c.store as = (c.run (as.map call)).store := by
  induction as generalizing c with
  | nil => exact ⟨rfl, rfl⟩
  | cons a as ih =>
    have hstore : (c.step a.call).2.store = (a.act c.store).2 := by
      rw [step_eq]
      exact foldl_chore_store ..
    obtain ⟨hreplies, hrun⟩ := ih (c.step a.call).2
    rw [hstore] at hreplies hrun
    constructor
    · rw [List.map_cons, Cache.replies, ← hreplies, step_eq]
      have hchores : ∀ xs : List (Chore κ),
          (xs.map Deed.chore).filterMap (Deed.reply? (α := α)) = [] := by
        intro xs
        simp [List.filterMap_map, Function.comp_def, Deed.reply?]
      simp [solo, Deed.reply?, hchores]
    · exact hrun

end KeyCall

-- ---------------------------------------------------------------------------
-- What each thread does
-- ---------------------------------------------------------------------------

namespace Crew

open KeyCall

variable [DecidableEq κ]

/-- Each thread has done what it does alone on `t` up to where it stands, and goes
on as it does there. Where no thread has calls, `t` is as it was. -/
structure Apart (t : Table κ α) (programs : List (List (KeyCall κ α))) (w : Crew κ α σ) :
    Prop where
  alone : ∀ i p as xs, programs[i]? = some p → w.hands[i]? = some (Hand.calling as xs) →
    w.deedsBy i ++ (xs.map .chore ++ solo w.cache.store as) = solo t p ∧
      ∀ a ∈ p, (actAll w.cache.store as).get? a.key = (actAll t p).get? a.key
  nobody : ∀ i, programs[i]? = none → w.deedsBy i = []
  elsewhere : ∀ k, (∀ p ∈ programs, ∀ a ∈ p, a.key ≠ k) → w.cache.store.get? k = t.get? k

theorem apart_ofCalls (c : Cache κ α σ) (programs : List (List (KeyCall κ α))) :
    (ofCalls c programs).Apart c.store programs where
  alone i p as xs hp hi := by
    rw [ofCalls_hand, hp] at hi
    obtain ⟨rfl, rfl⟩ := Hand.calling_inj (Option.some.inj hi)
    exact ⟨rfl, fun _ _ => rfl⟩
  nobody _ _ := rfl
  elsewhere _ _ := rfl

variable {programs : List (List (KeyCall κ α))} {w : Crew κ α σ} {t : Table κ α}

theorem Apart.acted (h : w.Apart t programs) (hf : w.Follows programs)
    (hdisjoint : DisjointKeys programs) {i : Nat} {a : KeyCall κ α} {as : List (KeyCall κ α)}
    (hi : w.hands[i]? = some (.calling (a :: as) [])) (now : Int64) :
    (w.acted i now a as).Apart t programs := by
  have hp := hf.program hi
  have ha : a ∈ w.callsBy i ++ a :: as := by simp
  constructor
  · intro j q bs ys hq hj
    rw [Crew.acted, did_hand hi] at hj
    rw [Crew.acted, deedsBy_did]
    split at hj
    · rename_i hij
      subst hij
      obtain ⟨rfl, rfl⟩ := Hand.calling_inj (Option.some.inj hj)
      obtain ⟨hdeeds, hcells⟩ := h.alone i q (a :: as) [] hq hi
      refine ⟨?_, hcells⟩
      rw [if_pos rfl, ← hdeeds, List.append_assoc]
      rfl
    · rename_i hij
      -- the other thread finds the cells of its keys as they were
      have hkeys : ∀ b ∈ q, a.key ≠ b.key := fun b hb => hdisjoint.key_ne hij hp hq ha hb
      have hbs : ∀ b ∈ bs, a.key ≠ b.key := fun b hb =>
        hkeys b (by
          rw [hf.program hj, Option.some.injEq] at hq
          exact hq ▸ List.mem_append_right _ hb)
      obtain ⟨hsolo, hcells⟩ := solo_congr (K := (a.key ≠ ·)) hbs
        (t := (a.act w.cache.store).2) (u := w.cache.store)
        fun k hk => (get?_act a w.cache.store k).trans (if_neg hk)
      obtain ⟨hdeeds, hfinal⟩ := h.alone j q bs ys hq hj
      rw [if_neg hij]
      exact ⟨hsolo ▸ hdeeds, fun b hb => (hcells b.key (hkeys b hb)).trans (hfinal b hb)⟩
  · intro j hj
    have hij : i ≠ j := fun hij => by simp [hij, hj] at hp
    rw [Crew.acted, deedsBy_did, if_neg hij]
    exact h.nobody j hj
  · intro k hk
    have hne : a.key ≠ k := hk _ (List.mem_of_getElem? hp) a ha
    exact ((get?_act a w.cache.store k).trans (if_neg hne)).trans (h.elsewhere k hk)

theorem Apart.chored (h : w.Apart t programs) (hf : w.Follows programs) {i : Nat}
    {x : Chore κ} {xs : List (Chore κ)} {as : List (KeyCall κ α)}
    (hi : w.hands[i]? = some (.calling as (x :: xs))) (now : Int64) :
    (w.chored i now x xs as).Apart t programs := by
  have hp := hf.program hi
  have hstore : (w.chored i now x xs as).cache.store = w.cache.store :=
    (Cache.chore_frame { w.cache with now } x).2.1
  constructor
  · intro j q bs ys hq hj
    rw [hstore]
    rw [Crew.chored, did_hand hi] at hj
    rw [Crew.chored, deedsBy_did]
    split at hj
    · rename_i hij
      subst hij
      obtain ⟨rfl, rfl⟩ := Hand.calling_inj (Option.some.inj hj)
      obtain ⟨hdeeds, hcells⟩ := h.alone i q as (x :: xs) hq hi
      refine ⟨?_, hcells⟩
      rw [if_pos rfl, ← hdeeds, List.append_assoc]
      rfl
    · rename_i hij
      rw [if_neg hij]
      exact h.alone j q bs ys hq hj
  · intro j hj
    have hij : i ≠ j := fun hij => by simp [hij, hj] at hp
    rw [Crew.chored, deedsBy_did, if_neg hij]
    exact h.nobody j hj
  · intro k hk
    rw [hstore]
    exact h.elsewhere k hk

end Crew

-- ---------------------------------------------------------------------------
-- Which keys are tracked
-- ---------------------------------------------------------------------------

def Chore.tracks? : Chore κ → Option (κ × Bool)
  | .touch k => some (k, true)
  | .forget k => some (k, false)
  | .hit | .miss | .check => none

/-- The records that a thread still has to bring in line. -/
def Hand.owed (h : Hand κ α) : List (κ × Bool) :=
  match h.stance with
  | .chores xs => xs.filterMap Chore.tracks?
  | .passing _ | .leaving .. => []

@[simp] theorem Hand.owed_calling (as : List (KeyCall κ α)) (xs : List (Chore κ)) :
    (Hand.calling as xs).owed = xs.filterMap Chore.tracks? := rfl

section Tracks

variable [DecidableEq κ]

theorem Cache.chore_tracker_of_none {x : Chore κ} (h : x.tracks? = none) (c : Cache κ α σ) :
    (c.chore x).core.tracker = c.core.tracker := by
  cases x with
  | hit => rfl
  | miss => rfl
  | touch k => cases h
  | forget k => cases h
  | check =>
    obtain ⟨_, _, heq⟩ := c.checkCapacity_frame
    rw [chore_check, heq]

theorem Cache.mem_keys_chore {x : Chore κ} {k : κ} {b : Bool} (h : x.tracks? = some (k, b))
    {c : Cache κ α σ} {r' : Recency κ} (hr' : (c.chore x).core.tracker = some r') :
    ∃ r, c.core.tracker = some r ∧ ∀ j, j ∈ r'.keys ↔ if j = k then b = true else j ∈ r.keys := by
  cases x with
  | touch j =>
    cases h
    obtain ⟨r, hr, rfl⟩ := Option.map_eq_some_iff.mp hr'
    refine ⟨r, hr, fun i => ?_⟩
    rw [Recency.mem_keys_touch]
    by_cases hi : i = k <;> simp [hi]
  | forget j =>
    cases h
    obtain ⟨r, hr, rfl⟩ := Option.map_eq_some_iff.mp hr'
    refine ⟨r, hr, fun i => ?_⟩
    rw [Recency.mem_keys_forget]
    by_cases hi : i = k <;> simp [hi]
  | _ => cases h

/-- Unless it leaves its key as present or as vacant as it was, a call has the
record of the key to bring in line. -/
theorem KeyCall.chores_tracks (a : KeyCall κ α) (t : Table κ α) :
    (a.chores (a.act t).1).filterMap Chore.tracks? = [(a.key, (a.act t).2.contains a.key)] ∨
      (a.chores (a.act t).1).filterMap Chore.tracks? = [] ∧
        (a.act t).2.contains a.key = t.contains a.key := by
  rw [Table.contains, Table.contains, get?_act, if_pos rfl, act_fst]
  generalize t.get? a.key = cell
  cases a with
  | put k v => exact .inl rfl
  | putIfAbsent k v => exact .inl rfl
  | remove k =>
    cases cell with
    | none => exact .inr ⟨rfl, rfl⟩
    | some v => exact .inl rfl
  | get k =>
    cases cell with
    | none => exact .inr ⟨rfl, rfl⟩
    | some v => exact .inl rfl
  | merge k v f =>
    cases cell with
    | none => exact .inl rfl
    | some old =>
      rcases hf : f old v with e | _ | w
      all_goals simp only [onCell, hf]
      · exact .inr ⟨rfl, trivial⟩
      · exact .inl rfl
      · exact .inl rfl

end Tracks

namespace Crew

open KeyCall

variable [DecidableEq κ]

def Owes (w : Crew κ α σ) (k : κ) : Prop :=
  ∃ (i : Nat) (h : Hand κ α) (b : Bool), w.hands[i]? = some h ∧ (k, b) ∈ h.owed

/-- A record that a thread has to bring in line is that of a key of its own, and
will be in line then; all other records are. -/
structure Synced (programs : List (List (KeyCall κ α))) (w : Crew κ α σ) : Prop where
  owed : ∀ (i : Nat) (p : List (KeyCall κ α)) (h : Hand κ α), programs[i]? = some p →
    w.hands[i]? = some h → ∀ k b, (k, b) ∈ h.owed →
      (∃ a ∈ p, a.key = k) ∧ w.cache.store.contains k = b
  settled : ∀ r, w.cache.core.tracker = some r → ∀ k, ¬ w.Owes k →
    (k ∈ r.keys ↔ k ∈ w.cache.store.keys)

theorem synced_ofCalls {c : Cache κ α σ} (h : c.core.Mirrored)
    (programs : List (List (KeyCall κ α))) : (ofCalls c programs).Synced programs where
  owed i p g _ hi k b hmem := by
    rw [ofCalls_hand] at hi
    obtain ⟨p, -, rfl⟩ := Option.map_eq_some_iff.mp hi
    cases hmem
  settled r hr k _ := h r hr k

variable {programs : List (List (KeyCall κ α))} {w : Crew κ α σ}

omit [DecidableEq κ] in
/-- A thread that is done with what it owed of `k` is the only one that owed it. -/
theorem not_owes_of_did {i : Nat} {h h' : Hand κ α} (hi : w.hands[i]? = some h)
    {d : Deed κ α} {c : Cache κ α σ} {k : κ} (hk : ¬ (w.did i d h' c).Owes k)
    (hsame : ∀ b, (k, b) ∈ h.owed → (k, b) ∈ h'.owed) : ¬ w.Owes k := by
  rintro ⟨j, g, b, hj, hmem⟩
  apply hk
  by_cases hij : i = j
  · subst hij
    obtain rfl : h = g := Option.some.inj (hi.symm.trans hj)
    exact ⟨i, h', b, by rw [did_hand hi, if_pos rfl], hsame b hmem⟩
  · exact ⟨j, g, b, by rw [did_hand hi, if_neg hij, hj], hmem⟩

theorem Synced.acted (h : w.Synced programs) (hf : w.Follows programs)
    (hdisjoint : DisjointKeys programs) {i : Nat} {a : KeyCall κ α} {as : List (KeyCall κ α)}
    (hi : w.hands[i]? = some (.calling (a :: as) [])) (now : Int64) :
    (w.acted i now a as).Synced programs := by
  have hp := hf.program hi
  have ha : a ∈ w.callsBy i ++ a :: as := by simp
  have helsewhere : ∀ k, a.key ≠ k →
      (a.act w.cache.store).2.contains k = w.cache.store.contains k := by
    intro k hk
    rw [Table.contains, Table.contains, get?_act, if_neg hk]
  constructor
  · intro j q g hq hj k b hmem
    rw [Crew.acted, did_hand hi] at hj
    split at hj
    · rename_i hij
      subst hij
      cases hj
      rw [hp, Option.some.injEq] at hq
      rcases a.chores_tracks w.cache.store with htracks | ⟨htracks, -⟩
      · rw [Hand.owed_calling, htracks, List.mem_singleton] at hmem
        cases hmem
        exact ⟨⟨a, hq ▸ ha, rfl⟩, rfl⟩
      · rw [Hand.owed_calling, htracks] at hmem
        cases hmem
    · rename_i hij
      obtain ⟨⟨b', hb', rfl⟩, hcontains⟩ := h.owed j q g hq hj k b hmem
      have hne : a.key ≠ b'.key := hdisjoint.key_ne hij hp hq ha hb'
      exact ⟨⟨b', hb', rfl⟩, (helsewhere _ hne).trans hcontains⟩
  · intro r hr k hk
    have hold : ¬ w.Owes k := not_owes_of_did hi hk (by rintro b ⟨⟩)
    have hsame : (a.act w.cache.store).2.contains k = w.cache.store.contains k := by
      by_cases hkey : a.key = k
      · subst hkey
        rcases a.chores_tracks w.cache.store with htracks | ⟨-, hsame⟩
        · -- the thread owes the record of its own key now
          have howes : (w.acted i now a as).Owes a.key :=
            ⟨i, .calling as (a.chores (a.act w.cache.store).1),
              (a.act w.cache.store).2.contains a.key,
              by rw [Crew.acted, did_hand hi, if_pos rfl], by simp [htracks]⟩
          exact absurd howes hk
        · exact hsame
      · exact helsewhere k hkey
    rw [h.settled r hr k hold, ← Table.contains_iff, ← Table.contains_iff, ← hsame]
    rfl

theorem Synced.chored (h : w.Synced programs) (hf : w.Follows programs) {i : Nat}
    {x : Chore κ} {xs : List (Chore κ)} {as : List (KeyCall κ α)}
    (hi : w.hands[i]? = some (.calling as (x :: xs))) (now : Int64) :
    (w.chored i now x xs as).Synced programs := by
  have hp := hf.program hi
  have hstore : (w.chored i now x xs as).cache.store = w.cache.store :=
    (Cache.chore_frame { w.cache with now } x).2.1
  constructor
  · intro j q g hq hj k b hmem
    rw [Crew.chored, did_hand hi] at hj
    rw [hstore]
    split at hj
    · rename_i hij
      subst hij
      cases hj
      refine h.owed i q _ hq hi k b ?_
      exact (List.sublist_cons_self x xs).filterMap _ |>.subset hmem
    · exact h.owed j q g hq hj k b hmem
  · intro r' hr' k hk
    rw [hstore]
    cases hx : x.tracks? with
    | none =>
      have hold : ¬ w.Owes k := not_owes_of_did hi hk fun b hmem => by
        simpa [List.filterMap_cons, hx] using hmem
      have htracker := Cache.chore_tracker_of_none hx { w.cache with now }
      exact h.settled r' (htracker.symm.trans hr') k hold
    | some e =>
      obtain ⟨j, b⟩ := e
      obtain ⟨r, hr, hkeys⟩ := Cache.mem_keys_chore hx hr'
      rw [hkeys]
      by_cases hkj : k = j
      · subst hkj
        obtain ⟨-, hcontains⟩ := h.owed i _ _ hp hi k b
          (by simp [hx])
        rw [if_pos rfl, ← hcontains, Table.contains_iff]
      · -- the record of another key is not touched
        have hold : ¬ w.Owes k := not_owes_of_did hi hk fun b' hmem => by
          simpa [List.filterMap_cons, hx, hkj] using hmem
        rw [if_neg hkj]
        exact h.settled r hr k hold

end Crew

-- ---------------------------------------------------------------------------
-- How many lookups hit
-- ---------------------------------------------------------------------------

def Log.tally [DecidableEq κ] (log : Log κ α) (x : Chore κ) : Nat :=
  log.countP fun e =>
    match e.2 with
    | .chore y => x = y
    | _ => false

theorem Log.tally_concat [DecidableEq κ] (log : Log κ α) (i : Nat) (d : Deed κ α) (x : Chore κ) :
    Log.tally (log ++ [(i, d)]) x =
      log.tally x + match d with
        | .chore y => if x = y then 1 else 0
        | _ => 0 := by
  cases d with
  | chore y => by_cases hy : x = y <;> simp [tally, hy]
  | _ => simp [tally]

theorem Cache.chore_stats [DecidableEq κ] (c : Cache κ α σ) (x : Chore κ) :
    (c.chore x).stats.hits = c.stats.hits + UInt64.ofNat (if .hit = x then 1 else 0) ∧
      (c.chore x).stats.misses = c.stats.misses + UInt64.ofNat (if .miss = x then 1 else 0) := by
  cases x with
  | hit => exact ⟨rfl, (UInt64.add_zero _).symm⟩
  | miss => exact ⟨(UInt64.add_zero _).symm, rfl⟩
  | check =>
    obtain ⟨_, _, heq⟩ := c.checkCapacity_frame
    rw [chore_check, heq]
    exact ⟨(UInt64.add_zero _).symm, (UInt64.add_zero _).symm⟩
  | _ => exact ⟨(UInt64.add_zero _).symm, (UInt64.add_zero _).symm⟩

theorem Crew.log_perm {w w' : Crew κ α σ} (h : ∀ i, w.deedsBy i = w'.deedsBy i) :
    w.log.Perm w'.log := by
  classical
  have hfilter : ∀ (w : Crew κ α σ) (i : Nat),
      w.log.filter (·.1 = i) = (w.deedsBy i).map (Prod.mk i) := by
    intro w i
    have hpair : ∀ e ∈ w.log.filter (·.1 = i), (Prod.mk i ∘ Prod.snd) e = id e := by
      rintro ⟨j, d⟩ he
      obtain rfl : j = i := by simpa using (List.mem_filter.mp he).2
      rfl
    rw [Crew.deedsBy, List.map_map, List.map_congr_left hpair, List.map_id]
  refine List.perm_iff_count.mpr fun e => ?_
  have hcount : ∀ w : Crew κ α σ, w.log.count e = (w.log.filter (·.1 = e.1)).count e :=
    fun w => (List.count_filter (by simp)).symm
  rw [hcount, hcount, hfilter, hfilter, h]

namespace Crew

open KeyCall

variable [DecidableEq κ]

structure Counted (c : Cache κ α σ) (w : Crew κ α σ) : Prop where
  hits : w.cache.stats.hits = c.stats.hits + UInt64.ofNat (w.log.tally .hit)
  misses : w.cache.stats.misses = c.stats.misses + UInt64.ofNat (w.log.tally .miss)

variable {c : Cache κ α σ} {w : Crew κ α σ}

theorem Counted.acted (h : w.Counted c) (i : Nat) (now : Int64) (a : KeyCall κ α)
    (as : List (KeyCall κ α)) : (w.acted i now a as).Counted c where
  hits := by
    rw [Crew.acted, did, Log.tally_concat]
    exact h.hits
  misses := by
    rw [Crew.acted, did, Log.tally_concat]
    exact h.misses

theorem Counted.chored (h : w.Counted c) (i : Nat) (now : Int64) (x : Chore κ)
    (xs : List (Chore κ)) (as : List (KeyCall κ α)) : (w.chored i now x xs as).Counted c := by
  obtain ⟨hhits, hmisses⟩ := Cache.chore_stats { w.cache with now } x
  constructor
  · rw [Crew.chored, did, Log.tally_concat, UInt64.ofNat_add, ← UInt64.add_assoc, ← h.hits]
    exact hhits
  · rw [Crew.chored, did, Log.tally_concat, UInt64.ofNat_add, ← UInt64.add_assoc, ← h.misses]
    exact hmisses

-- ---------------------------------------------------------------------------
-- Runs
-- ---------------------------------------------------------------------------

variable {programs : List (List (KeyCall κ α))} {moves : List Move}

theorem run_disjoint (hdisjoint : DisjointKeys programs) (hmoves : .fire ∉ moves) (c : Cache κ α σ) :
    let w := (ofCalls c programs).run moves
    w.Follows programs ∧ w.Apart c.store programs ∧ w.Counted c ∧
      w.cache.tracksRecency = c.tracksRecency ∧ (c.core.Mirrored → w.Synced programs) := by
  refine run_calls (P := fun w => w.Apart c.store programs ∧ w.Counted c ∧
      w.cache.tracksRecency = c.tracksRecency ∧ (c.core.Mirrored → w.Synced programs))
    (follows_ofCalls c programs)
    ⟨apart_ofCalls c programs, ⟨(UInt64.add_zero _).symm, (UInt64.add_zero _).symm⟩, rfl,
      fun h => synced_ofCalls h programs⟩ ?_ ?_ hmoves
  · rintro w i now a as hf ⟨hapart, hcounted, htracks, hsynced⟩ hi
    exact ⟨hapart.acted hf hdisjoint hi now, hcounted.acted i now a as, htracks,
      fun h => (hsynced h).acted hf hdisjoint hi now⟩
  · rintro w i now x xs as hf ⟨hapart, hcounted, htracks, hsynced⟩ hi
    exact ⟨hapart.chored hf hi now, hcounted.chored i now x xs as,
      (Cache.chore_tracker _ x).trans htracks, fun h => (hsynced h).chored hf hi now⟩

theorem Apart.of_quiet {w : Crew κ α σ} {t : Table κ α} (h : w.Apart t programs)
    (hf : w.Follows programs) (hquiet : w.Quiet) {i : Nat} {p : List (KeyCall κ α)}
    (hp : programs[i]? = some p) :
    w.deedsBy i = solo t p ∧ ∀ a ∈ p, w.cache.store.get? a.key = (actAll t p).get? a.key := by
  obtain ⟨as, xs, hi, -⟩ := hf.of_program hp
  obtain ⟨rfl, rfl⟩ := hquiet.of_calling hi
  obtain ⟨hdeeds, hcells⟩ := h.alone i p [] [] hp hi
  exact ⟨(List.append_nil _).symm.trans hdeeds, hcells⟩

theorem Synced.of_quiet {w : Crew κ α σ} (h : w.Synced programs) (hquiet : w.Quiet) :
    w.cache.core.Mirrored := by
  intro r hr k
  refine h.settled r hr k ?_
  rintro ⟨i, g, b, hi, hmem⟩
  obtain ⟨-, hstance⟩ := hquiet g (List.mem_of_getElem? hi)
  rw [Hand.owed, hstance] at hmem
  cases hmem

/-- Threads make calls on disjoint keys, and no pass is made. At every moment a
thread has been answered as it would be alone. Once all calls are made each thread
has all its answers and leaves its keys as it would alone; other keys are as they
were; the tracked keys are the stored keys if they were at the start; and as many
lookups hit and missed as under any other schedule. -/
theorem disjoint_threads [DecidableEq α] [Expirable α] (hdisjoint : DisjointKeys programs)
    (hmoves : .fire ∉ moves) (c : Cache κ α σ) :
    let w := (ofCalls c programs).run moves
    (∀ (i : Nat) p, programs[i]? = some p → w.repliesBy i <+: c.replies (p.map call)) ∧
    (w.Quiet →
      (∀ (i : Nat) p, programs[i]? = some p →
        w.repliesBy i = c.replies (p.map call) ∧
        ∀ a ∈ p, w.cache.store.get? a.key = (c.run (p.map call)).store.get? a.key) ∧
      (∀ k, (∀ p ∈ programs, ∀ a ∈ p, a.key ≠ k) → w.cache.store.get? k = c.store.get? k) ∧
      (w.cache.tracksRecency = c.tracksRecency ∧ (c.core.Mirrored → w.cache.core.Mirrored)) ∧
      ∀ moves', .fire ∉ moves' →
        let w' := (ofCalls c programs).run moves'
        w'.Quiet → w'.cache.stats.hits = w.cache.stats.hits ∧
          w'.cache.stats.misses = w.cache.stats.misses) := by
  intro w
  obtain ⟨hf, hapart, hcounted, htracks, hsynced⟩ := run_disjoint hdisjoint hmoves c
  refine ⟨fun i p hp => ?_, fun hquiet => ⟨fun i p hp => ?_, hapart.elsewhere,
    ⟨htracks, fun h => (hsynced h).of_quiet hquiet⟩, ?_⟩⟩
  · obtain ⟨as, xs, hi, -⟩ := hf.of_program hp
    obtain ⟨hdeeds, -⟩ := hapart.alone i p as xs hp hi
    rw [← (solo_eq p c).1, ← hdeeds, List.filterMap_append]
    exact List.prefix_append _ _
  · obtain ⟨hdeeds, hcells⟩ := hapart.of_quiet hf hquiet hp
    rw [← (solo_eq p c).1, ← (solo_eq p c).2, repliesBy, hdeeds]
    exact ⟨rfl, hcells⟩
  · intro moves' hmoves' w' hquiet'
    obtain ⟨hf', hapart', hcounted', -, -⟩ := run_disjoint hdisjoint hmoves' c
    have hdeeds : ∀ i, w'.deedsBy i = w.deedsBy i := by
      intro i
      cases hp : programs[i]? with
      | none => rw [hapart'.nobody i hp, hapart.nobody i hp]
      | some p =>
        rw [(hapart'.of_quiet hf' hquiet' hp).1, (hapart.of_quiet hf hquiet hp).1]
    have htally : ∀ x, w'.log.tally x = w.log.tally x := fun x => (log_perm hdeeds).countP_eq _
    exact ⟨by rw [hcounted'.hits, hcounted.hits, htally],
      by rw [hcounted'.misses, hcounted.misses, htally]⟩

def apartPrograms : List (List (KeyCall Nat (Timed Nat))) :=
  [[.put 1 (.permanent 7 0), .get 1, .remove 1],
    [.putIfAbsent 2 (.permanent 8 0), .merge 2 (.permanent 9 0) fun _ _ => .ok none, .get 2]]

def apartMoves : List Move :=
  [0, 1, 1, 0, 0, 1, 0, 1, 1, 0, 0, 1, 1, 0, 1, 0, 0].map (.act · 5)

theorem disjoint_threads_tracked : ∃ c : Cache Nat (Timed Nat) Unit,
    (Builder.start ⟨16, 3, 1, 0⟩ true).leastRecentlyTouched.build 0 () = .ok c ∧
      DisjointKeys apartPrograms ∧ .fire ∉ apartMoves ∧
      let w := (ofCalls c apartPrograms).run apartMoves
      w.Quiet ∧ w.repliesBy 1 = [.value none, .value none, .value none] ∧
        w.cache.core.Mirrored ∧ w.cache.stats.hits = 1 := by
  have hdisjoint : DisjointKeys apartPrograms := by simp [DisjointKeys, apartPrograms, key]
  have hmoves : .fire ∉ apartMoves := by simp [apartMoves]
  refine ⟨_, rfl, hdisjoint, hmoves, ?_⟩
  intro w
  have hhands : w.hands = [{ todo := [] }, { todo := [] }] := rfl
  have hquiet : w.Quiet := by simp [Quiet, hhands]
  obtain ⟨hthreads, -, ⟨-, hmirrored⟩, -⟩ := (disjoint_threads hdisjoint hmoves _).2 hquiet
  refine ⟨hquiet, ((hthreads 1 _ rfl).1).trans rfl, hmirrored ?_, rfl⟩
  intro r hr k
  cases hr
  rfl

end Crew

end SizedCache
