import SizedCache.Proofs.BuildLaws
import SizedCache.Proofs.CallLaws
import SizedCache.Proofs.PassLaws
import SizedCache.Proofs.RecencyList
import SizedCache.Proofs.TimerLaws

/-!
# Selection by recency refines a recency list

A cache whose selector was last chosen to be by recency answers every call as the
recency list does, and its store and the order of its records are those of the
list. The touches carry wall clocks, but as long as the counter has not wrapped
the order of the records is that of the counter alone.
-/

namespace SizedCache

namespace Table

variable {κ α : Type} [DecidableEq κ]

def act (t : Table κ α) : Effect κ α → Table κ α
  | .keep k v => t.refresh k v
  | .drop k => t.erase k
  | .clear => .empty

def actAll (t : Table κ α) (es : List (Effect κ α)) : Table κ α :=
  es.foldl act t

end Table

def Effect.touchesIn {κ α : Type} (es : List (Effect κ α)) : Nat :=
  es.countP Effect.touches

namespace Core

variable {κ α σ : Type} [DecidableEq κ]

structure Listed (c : Core κ α σ) (r : Recency κ) (t : Table κ α) : Prop where
  tracker : c.tracker = some r
  numbered : r.Numbered
  keys : t.keys = r.byAge.map Prod.fst
  values : ∀ k, t.get? k = c.store.get? k

namespace Listed

variable {c : Core κ α σ} {r : Recency κ} {t : Table κ α}

theorem congr {x : Core κ α σ} (h : c.Listed r t) (hs : x.store = c.store)
    (ht : x.tracker = c.tracker) : x.Listed r t :=
  ⟨ht.trans h.tracker, h.numbered, h.keys, fun k => by rw [hs]; exact h.values k⟩

theorem mem_keys (h : c.Listed r t) {k : κ} : k ∈ t.keys ↔ k ∈ c.store.keys := by
  rw [Table.mem_keys_iff, Table.mem_keys_iff, h.values]

theorem mirrored (h : c.Listed r t) : c.Mirrored := by
  intro r' hr' k
  obtain rfl : r' = r := Option.some.inj (hr'.symm.trans h.tracker)
  rw [← h.mem_keys, h.keys]
  exact (r'.byAge_perm.map Prod.fst).mem_iff.symm

theorem size_eq (h : c.Listed r t) : t.size = c.store.size :=
  Table.size_eq_of_get? h.values

-- ---------------------------------------------------------------------------
-- Effects
-- ---------------------------------------------------------------------------

theorem keep (h : c.Listed r t) (now : Int64) (k : κ) (v : α)
    (hroom : r.next.toNat + 1 < UInt64.size) :
    (c.act now (.keep k v)).Listed (r.touch now k) (t.refresh k v) where
  tracker := by simp [Core.act, Core.touch, h.tracker]
  numbered := h.numbered.touch now k hroom
  keys := by
    rw [Table.keys_refresh, h.keys, h.numbered.byAge_touch now k hroom, List.map_append,
      List.filter_map]
    rfl
  values j := by
    show _ = (c.store.set k v).get? j
    rw [Table.get?_refresh, Table.get?_set, h.values]

theorem drop (h : c.Listed r t) (k : κ) : (c.drop k).Listed (r.forget k) (t.erase k) where
  tracker := by simp [Core.drop, Core.forget, h.tracker]
  numbered := h.numbered.forget k
  keys := by
    rw [Table.keys_erase, h.keys, h.numbered.byAge_forget, List.filter_map]
    rfl
  values j := by
    show _ = (c.store.erase k).get? j
    rw [Table.get?_erase, Table.get?_erase, h.values]

theorem without (h : c.Listed r t) (ks : List κ) :
    (c.without ks).Listed (r.without ks) (t.without ks) where
  tracker := by simp [Core.without, h.tracker]
  numbered := h.numbered.without ks
  keys := by
    rw [Table.without, Table.keys_filter_key, h.keys, h.numbered.byAge_without, List.filter_map]
    rfl
  values j := by
    show _ = (c.store.without ks).get? j
    rw [Table.get?_without, Table.get?_without, h.values]

theorem act (h : c.Listed r t) (now : Int64) (e : Effect κ α)
    (hroom : r.next.toNat + Effect.touchesIn [e] < UInt64.size) :
    ∃ r', (c.act now e).Listed r' (t.act e) ∧
      r'.next.toNat = r.next.toNat + Effect.touchesIn [e] := by
  cases e with
  | keep k v => exact ⟨_, h.keep now k v hroom, Recency.Numbered.next_touch hroom⟩
  | drop k => exact ⟨_, h.drop k, rfl⟩
  | clear =>
    refine ⟨r.clear, ⟨?_, .clear r, ?_, fun _ => rfl⟩, rfl⟩
    · simp [Core.act, h.tracker]
    · simp [Table.act, Recency.byAge, Recency.clear, Table.empty, Table.keys]

theorem actAll (h : c.Listed r t) (now : Int64) (es : List (Effect κ α))
    (hroom : r.next.toNat + Effect.touchesIn es < UInt64.size) :
    ∃ r', (c.actAll now es).Listed r' (t.actAll es) ∧
      r'.next.toNat = r.next.toNat + Effect.touchesIn es := by
  induction es generalizing c r t with
  | nil => exact ⟨r, h, rfl⟩
  | cons e es ih =>
    have hsum : Effect.touchesIn (e :: es) = Effect.touchesIn [e] + Effect.touchesIn es := by
      rw [← List.singleton_append]
      exact List.countP_append
    rw [hsum] at hroom ⊢
    obtain ⟨r₁, h₁, hnext₁⟩ := h.act now e (by omega)
    obtain ⟨r₂, h₂, hnext₂⟩ := ih h₁ (by omega)
    exact ⟨r₂, h₂, by omega⟩

-- ---------------------------------------------------------------------------
-- Passes
-- ---------------------------------------------------------------------------

theorem choose (h : c.Listed r t) (walk : Walk κ) (now : Int64) (target : Nat) :
    (Selector.leastRecent : Selector κ α σ).choose walk c.tracker c.notes now c.store.size target
        c.store = .victims (t.keys.take (c.store.size - target)) c.notes := by
  have hwalk := walk.perm c.store.keys
  have hnodup : (walk.arrange c.store.keys).Nodup := hwalk.nodup_iff.mpr c.store.keys_nodup
  rw [Selector.choose, h.tracker, Option.getD_some, h.numbered.victims_eq hnodup, List.map_take,
    ← h.keys, List.filter_eq_self.mpr]
  intro k hk
  exact decide_eq_true (hwalk.mem_iff.mpr (h.mem_keys.mp (List.mem_of_mem_take hk)))

theorem shrink (h : c.Listed r t) {s : Setup κ α σ} (hs : s.selector = .leastRecent)
    (now : Int64) :
    c.shrink s now = (.ok (s.config.excess t.size),
      c.without (t.keys.take (s.config.excess t.size))) := by
  rw [h.size_eq]
  rcases Nat.lt_or_ge s.config.maxCapacity c.store.size with hover | hle
  · have hchoose := h.choose s.walk now s.config.evictTo
    rw [← hs] at hchoose
    have hlen : (t.keys.take (c.store.size - s.config.evictTo)).length =
        c.store.size - s.config.evictTo := by
      rw [List.length_take, Table.length_keys, h.size_eq]
      omega
    rw [shrink_of_choose hover hchoose (t.keys_nodup.sublist (List.take_sublist _ _))
      fun k hk => h.mem_keys.mp (List.mem_of_mem_take hk), Config.excess_of_lt hover,
      List.take_take, Nat.min_self, hlen]
  · rw [shrink_of_le now hle, Config.excess_of_le hle, List.take_zero, without_nil]

theorem attempt (h : c.Listed r t) (hfree : c.slot = {}) {s : Setup κ α σ} {rule : Rule κ α}
    (htest : s.test = rule.toTest) (hs : s.selector = .leastRecent) (who : Origin) (now : Int64) :
    (c.attempt s who now).1 =
        .ok (.completed (RecencyList.pass rule s.config now t).1) ∧
      (c.attempt s who now).2.slot = {} ∧
      ∃ r', (c.attempt s who now).2.Listed r' (RecencyList.pass rule s.config now t).2 ∧
        r'.next = r.next := by
  let x := c.claimed who
  have hx : x.Listed r t := h.congr rfl rfl
  have hwalk := s.walk.perm x.store.keys
  let gone := x.accepted rule now (s.walk.arrange x.store.keys)
  let live := t.filter fun k v => !rule now k v
  -- the sweep drops the same entries from the list as from the store
  have hlive : t.without gone = live := without_accepted hwalk hx.values
  have hsweep : x.sweep s.test now (s.walk.arrange x.store.keys) =
      (.ok (t.filter (rule now)).size, x.without gone) := by
    rw [htest, sweep_toTest rule now (hwalk.nodup_iff.mpr x.store.keys_nodup),
      length_accepted hwalk hx.values]
  have hswept : (x.without gone).Listed (r.without gone) live := hlive ▸ hx.without gone
  -- the victims are the front of the list
  have hkept := hswept.without (live.keys.take (s.config.excess live.size))
  rw [Table.without_take_keys] at hkept
  -- the sweep has kept the records in line with the store
  have hreconcile := reconcile_of_mirrored s.walk now _ hswept.mirrored
  obtain ⟨journal, hconclude, -⟩ := conclude_eq s (t.filter (rule now)).size
    (s.config.excess live.size) ((x.without gone).without
      (live.keys.take (s.config.excess live.size)))
  have hpass := pass_of_ok (c := x) hsweep (by rw [hreconcile]; exact hswept.shrink hs now)
  rw [hconclude, ← hkept.size_eq, Table.size_skip] at hpass
  have hattempt := attempt_of_free hfree s who now
  rw [show c.claimed who = x from rfl, hpass] at hattempt
  rw [hattempt]
  exact ⟨rfl, rfl, _, hkept.congr rfl rfl, rfl⟩

theorem triggers (h : c.Listed r t) (hfree : c.slot = {}) {s : Setup κ α σ} {rule : Rule κ α}
    (htest : s.test = rule.toTest) (hs : s.selector = .leastRecent) (wall : Nat → Int64)
    (fs : List Firing) :
    let x := fs.foldl (fun x f =>
      Scheduler.trigger (Cache.target s) f.timer.kind (wall f.due) x) c
    x.slot = {} ∧ ∃ r', x.Listed r' ((fs.map fun f => wall f.due).foldl
      (fun t now => (RecencyList.pass rule s.config now t).2) t) ∧ r'.next = r.next := by
  induction fs generalizing c r t with
  | nil => exact ⟨hfree, r, h, rfl⟩
  | cons f fs ih =>
    obtain ⟨-, hslot, r₁, h₁, hnext₁⟩ :=
      h.attempt hfree htest hs (.trigger f.timer.kind) (wall f.due)
    let x := Scheduler.trigger (Cache.target s) f.timer.kind (wall f.due) c
    have hx : x.Listed r₁ (RecencyList.pass rule s.config (wall f.due) t).2 := h₁.congr rfl rfl
    obtain ⟨hfree', r₂, h₂, hnext₂⟩ := ih hx hslot
    exact ⟨hfree', r₂, h₂, hnext₂.trans hnext₁⟩

end Listed

end Core

namespace Cache

variable {κ α σ : Type} [DecidableEq κ] [DecidableEq α] [Expirable α]

-- ---------------------------------------------------------------------------
-- Calls
-- ---------------------------------------------------------------------------

/-- The wall clock at a call, and at the background attempts made while it lasts. -/
def moment (c : Cache κ α σ) : Call κ α → RecencyList.Moment
  | .sleep ms => ⟨c.now, (c.scheduler.firings (c.scheduler.clock + ms)).map fun f =>
      c.now + Int64.ofNat (f.due - c.scheduler.clock)⟩
  | _ => ⟨c.now, []⟩

/-- A direct call answers as the list does, and its effects are those on the list. -/
theorem step_direct {c : Cache κ α σ} {t : Table κ α} (ht : ∀ k, t.get? k = c.store.get? k)
    {call : Call κ α} (hd : call.IsDirect) (rule : Rule κ α) :
    RecencyList.step rule c.config (c.moment call) t call =
      ((c.step call).1, t.actAll (c.effects call)) := by
  cases call with
  | put k v =>
    simp only [RecencyList.step, ht]
    rfl
  | putAll es =>
    simp only [RecencyList.step, Table.actAll, effects, List.foldl_map]
    rfl
  | putIfAbsent k v =>
    cases hk : c.store.get? k <;>
      simp only [RecencyList.step, step, putIfAbsent, Table.insertIfAbsent, effects, ht, hk] <;> rfl
  | remove k =>
    cases hk : c.store.get? k with
    | none =>
      simp only [RecencyList.step, step, remove, Table.remove, effects, contains, Table.contains,
        ht, hk, Table.erase_of_get? ((ht k).trans hk)]
      rfl
    | some old =>
      simp only [RecencyList.step, step, remove, Table.remove, effects, contains, Table.contains,
        ht, hk]
      rfl
  | removeIfEq k v =>
    simp only [RecencyList.step, step, removeIfEq, Table.removeIf, effects, ht]
    cases hk : c.store.get? k with
    | none => rfl
    | some w => by_cases hw : w = v <;> simp [hw] <;> rfl
  | replace k v =>
    cases hk : c.store.get? k <;>
      simp only [RecencyList.step, step, replace, Table.replace, effects, contains,
        Table.contains, ht, hk] <;> rfl
  | replaceIfEq k old new =>
    simp only [RecencyList.step, step, replaceIfEq, Table.replaceIfEq, effects, ht]
    split <;> rfl
  | get k =>
    cases hk : c.store.get? k <;>
      simp only [RecencyList.step, Table.use, step, get, effects, ht, hk] <;> rfl
  | getOrDefault k v =>
    cases hk : c.store.get? k <;>
      simp only [RecencyList.step, Table.use, step, getOrDefault, get, effects, ht, hk] <;> rfl
  | getLive k =>
    cases hk : c.store.get? k with
    | none =>
      simp only [RecencyList.step, step, getLive, effects, ht, hk]
      rfl
    | some v =>
      cases he : Expirable.expired v c.now <;>
        simp only [RecencyList.step, moment, step, getLive, effects, ht, hk, he] <;> rfl
  | contains k =>
    simp only [RecencyList.step, step, contains, Table.contains, ht]
    rfl
  | computeIfAbsent k f =>
    cases hk : c.store.get? k with
    | none =>
      rcases hf : f k with e | _ | w
      · simp only [RecencyList.step, RecencyList.resolve, step, computeIfAbsent,
          Table.computeIfAbsent, effects, ht, hk, hf]
        rfl
      · simp only [RecencyList.step, RecencyList.resolve, step, computeIfAbsent,
          Table.computeIfAbsent, effects, ht, hk, hf, Table.erase_of_get? ((ht k).trans hk)]
        rfl
      · simp only [RecencyList.step, RecencyList.resolve, step, computeIfAbsent,
          Table.computeIfAbsent, effects, ht, hk, hf]
        rfl
    | some old =>
      simp only [RecencyList.step, step, computeIfAbsent, Table.computeIfAbsent, effects, ht, hk]
      rfl
  | computeIfPresent k f =>
    cases hk : c.store.get? k with
    | none =>
      simp only [RecencyList.step, step, computeIfPresent, Table.computeIfPresent, effects, ht, hk,
        Table.actAll, Table.act, List.foldl_cons, List.foldl_nil,
        Table.erase_of_get? ((ht k).trans hk)]
      rfl
    | some old =>
      rcases hf : f k old with e | _ | w <;>
        simp only [RecencyList.step, RecencyList.resolve, step, computeIfPresent,
          Table.computeIfPresent, effects, ht, hk, hf] <;> rfl
  | compute k f =>
    rcases hf : f k (c.store.get? k) with e | _ | w <;>
      simp only [RecencyList.step, RecencyList.resolve, step, compute, Table.compute, effects,
        ht, hf] <;> rfl
  | merge k v f =>
    cases hk : c.store.get? k with
    | none =>
      simp only [RecencyList.step, step, merge, Table.merge, effects, ht, hk]
      rfl
    | some old =>
      rcases hf : f old v with e | _ | w <;>
        simp only [RecencyList.step, RecencyList.resolve, step, merge, Table.merge, effects,
          ht, hk, hf] <;> rfl
  | clear => rfl
  | forceCleanup => cases hd
  | sleep ms => cases hd
  | setClock now => cases hd
  | editTracker f => cases hd

-- ---------------------------------------------------------------------------
-- Runs
-- ---------------------------------------------------------------------------

def touches (c : Cache κ α σ) (call : Call κ α) : Nat :=
  Effect.touchesIn (c.effects call)

def touchesIn (c : Cache κ α σ) : List (Call κ α) → Nat
  | [] => 0
  | call :: calls => c.touches call + (c.step call).2.touchesIn calls

def replies (c : Cache κ α σ) : List (Call κ α) → List (Reply α)
  | [] => []
  | call :: calls => (c.step call).1 :: (c.step call).2.replies calls

def history (c : Cache κ α σ) : List (Call κ α) → List (RecencyList.Moment × Call κ α)
  | [] => []
  | call :: calls => (c.moment call, call) :: (c.step call).2.history calls

structure Refines (rule : Rule κ α) (config : Config) (c : Cache κ α σ) (r : Recency κ)
    (t : Table κ α) : Prop where
  config : c.config = config
  test : c.setup.test = rule.toTest
  selector : c.setup.selector = .leastRecent
  free : c.core.slot = {}
  listed : c.core.Listed r t

namespace Refines

variable {rule : Rule κ α} {config : Config} {c : Cache κ α σ} {r : Recency κ} {t : Table κ α}

omit [DecidableEq α] [Expirable α] in
theorem built {b : Builder κ α σ} (htest : b.test = rule.toTest)
    (hselector : b.selector = .leastRecent) (htracker : b.tracker = some {}) {now : Int64}
    {notes : σ} (hc : b.build now notes = .ok c) : Refines rule b.config c {} .empty := by
  obtain ⟨hv, scheduler, events, -, rfl⟩ := Builder.build_ok hc
  have hempty : ({} : Recency κ).byAge = [] := by simp [Recency.byAge, Table.empty]
  exact ⟨rfl, htest, hselector, rfl, htracker, .clear {}, by rw [hempty]; rfl, fun _ => rfl⟩

theorem direct (h : Refines rule config c r t) {call : Call κ α} (hd : call.IsDirect)
    (hroom : r.next.toNat + c.touches call < UInt64.size) :
    let next := RecencyList.step rule config (c.moment call) t call
    (c.step call).1 = next.1 ∧ ∃ r', Refines rule config (c.step call).2 r' next.2 ∧
      r'.next.toNat = r.next.toNat + c.touches call := by
  have hstep := step_direct h.listed.values hd rule
  rw [h.config] at hstep
  rw [hstep]
  have hcounted : ({ c.core with stats := c.tally call c.core.stats } : Core κ α σ).Listed r t :=
    h.listed.congr rfl rfl
  obtain ⟨r', hlisted, hnext⟩ := hcounted.actAll c.now (c.effects call) hroom
  obtain ⟨-, hslot, -, -⟩ := Core.actAll_frame c.now (c.effects call)
    { c.core with stats := c.tally call c.core.stats }
  have hperform : Refines rule config (c.perform call) r' (t.actAll (c.effects call)) :=
    ⟨h.config, h.test, h.selector, hslot.trans h.free, hlisted⟩
  refine ⟨rfl, r', ?_, hnext⟩
  rw [step_snd c hd]
  split
  · obtain ⟨scheduler, events, heq, -⟩ := checkCapacity_eq (c.perform call)
    rw [heq]
    exact ⟨h.config, h.test, h.selector, hperform.free, hlisted.congr rfl rfl⟩
  · exact hperform

theorem step (h : Refines rule config c r t) {call : Call κ α} (hp : call.IsPrivate)
    (hroom : r.next.toNat + c.touches call < UInt64.size) :
    let next := RecencyList.step rule config (c.moment call) t call
    (c.step call).1 = next.1 ∧ ∃ r', Refines rule config (c.step call).2 r' next.2 ∧
      r'.next.toNat = r.next.toNat + c.touches call := by
  cases call with
  | forceCleanup =>
    obtain ⟨hreport, hslot, r', hlisted, hnext⟩ :=
      h.listed.attempt h.free h.test h.selector .caller c.now
    rw [show c.setup.config = config from h.config] at hreport hlisted
    refine ⟨?_, r', ⟨h.config, h.test, h.selector, hslot, hlisted⟩, congrArg UInt64.toNat hnext⟩
    show Reply.ofOutcome (c.core.attempt c.setup .caller c.now).1 = _
    rw [hreport]
    rfl
  | sleep ms =>
    obtain ⟨hslot, r', hlisted, hnext⟩ := h.listed.triggers h.free h.test h.selector
      (fun due => c.now + Int64.ofNat (due - c.scheduler.clock))
      (c.scheduler.firings (c.scheduler.clock + ms))
    rw [← c.sleep_core ms] at hslot hlisted
    rw [show c.setup.config = config from h.config] at hlisted
    exact ⟨rfl, r', ⟨h.config, h.test, h.selector, hslot, hlisted⟩, congrArg UInt64.toNat hnext⟩
  | setClock now => exact ⟨rfl, r, ⟨h.config, h.test, h.selector, h.free, h.listed⟩, rfl⟩
  | editTracker f => cases hp
  | _ => exact h.direct rfl hroom

theorem run (h : Refines rule config c r t) {calls : List (Call κ α)}
    (hp : ∀ call ∈ calls, call.IsPrivate)
    (hroom : r.next.toNat + c.touchesIn calls < UInt64.size) :
    let last := RecencyList.run rule config (c.history calls) t
    c.replies calls = last.1 ∧ ∃ r', Refines rule config (c.run calls) r' last.2 ∧
      r'.next.toNat = r.next.toNat + c.touchesIn calls := by
  induction calls generalizing c r t with
  | nil => exact ⟨rfl, r, h, rfl⟩
  | cons call calls ih =>
    rw [touchesIn] at hroom
    obtain ⟨hreply, r₁, h₁, hnext₁⟩ := h.step (hp call (by simp)) (by omega)
    obtain ⟨hreplies, r₂, h₂, hnext₂⟩ :=
      ih h₁ (fun x hx => hp x (List.mem_cons_of_mem _ hx)) (by omega)
    refine ⟨?_, r₂, h₂, by rw [touchesIn]; omega⟩
    rw [replies, hreply, hreplies]
    rfl

end Refines

/-- A cache whose selector was last chosen to be by recency, with a rule for its
test, answers any calls as the recency list does, with its passes and their
reports. Afterwards its store holds the entries of the list and its records are
in the order of the list. The list knows the wall clock only through the rule and
reads of live values. -/
theorem run_refines_recency_list {config : Config} {ambient : Bool} {walk : Walk κ}
    {before after : List (Builder.Call κ α σ)} (hlast : ∀ call ∈ after, ¬ call.ChoosesSelector)
    {b : Builder κ α σ}
    (hb : b = ({ Builder.start config ambient with walk } : Builder κ α σ).applyAll
      (before ++ .leastRecentlyTouched :: after))
    {rule : Rule κ α} (htest : b.test = rule.toTest) {now : Int64} {notes : σ} {c : Cache κ α σ}
    (hc : b.build now notes = .ok c) {calls : List (Call κ α)}
    (hp : ∀ call ∈ calls, call.IsPrivate) (htouches : c.touchesIn calls < UInt64.size) :
    let last := RecencyList.run rule config (c.history calls) .empty
    c.replies calls = last.1 ∧ (∀ k, last.2.get? k = (c.run calls).store.get? k) ∧
      ∃ r, (c.run calls).core.tracker = some r ∧ last.2.keys = r.byAge.map Prod.fst ∧
        r.next.toNat = c.touchesIn calls := by
  obtain ⟨hselector, htracker⟩ := Builder.applyAll_leastRecentlyTouched
    { Builder.start config ambient with walk } before after hlast
  have hconfig : _ = config := Builder.applyAll_config
    { Builder.start config ambient with walk }
    (before ++ Builder.Call.leastRecentlyTouched :: after)
  rw [← hb] at hselector htracker hconfig
  have hbuilt : Refines rule config c {} .empty :=
    hconfig ▸ Refines.built htest hselector htracker hc
  have hroom : (0 : UInt64).toNat + c.touchesIn calls < UInt64.size := by
    rw [UInt64.toNat_zero, Nat.zero_add]
    exact htouches
  obtain ⟨hreplies, r, hrefines, hnext⟩ := hbuilt.run hp hroom
  exact ⟨hreplies, hrefines.listed.values, r, hrefines.listed.tracker, hrefines.listed.keys,
    hnext.trans (Nat.zero_add _)⟩

def agingBuilder : Builder Nat (Timed Nat) Unit :=
  (Builder.start ⟨16, 3, 2, 0⟩ false).applyAll
    ([.victimSelector .anyOrder none] ++ .leastRecentlyTouched ::
      [.removalTest Rule.whenExpired.toTest, .onRuntime])

def agingCalls : List (Call Nat (Timed Nat)) :=
  [.putAll ((List.range 3).map fun k => (k, .permanent k 0)), .get 0, .setClock (-1000),
    .replaceIfEq 1 (.permanent 7 0) (.permanent 8 0), .put 3 (.permanent 3 0), .contains 1,
    .put 4 (.expiringAt 4 0 (-1500)), .forceCleanup]

theorem run_refines_recency_list_aging :
    ∃ c, agingBuilder.build 0 () = .ok c ∧ (∀ call ∈ agingCalls, call.IsPrivate) ∧
      c.touchesIn agingCalls < UInt64.size ∧
      ∃ r, (c.run agingCalls).core.tracker = some r ∧ r.byAge.map Prod.fst = [0, 3] := by
  obtain ⟨c, hc⟩ : ∃ c, agingBuilder.build 0 () = .ok c := ⟨_, rfl⟩
  have hprivate : ∀ call ∈ agingCalls, call.IsPrivate := by simp [agingCalls, Call.IsPrivate]
  have htouches : c.touchesIn agingCalls < UInt64.size := by
    cases hc
    decide +kernel
  have hlist : (RecencyList.run Rule.whenExpired ⟨16, 3, 2, 0⟩ (c.history agingCalls)
      .empty).2.keys = [0, 3] := by
    cases hc
    decide +kernel
  obtain ⟨-, -, r, htracker, hkeys, -⟩ := run_refines_recency_list (b := agingBuilder)
    (by simp [Builder.Call.ChoosesSelector]) rfl rfl hc hprivate htouches
  exact ⟨c, hc, hprivate, htouches, r, htracker, hkeys ▸ hlist⟩

end Cache

end SizedCache
