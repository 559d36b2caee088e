import SizedCache.Proofs.BuildLaws
import SizedCache.Proofs.RulePasses
import SizedCache.Proofs.ServiceRuns
import Mathlib.Data.List.Dedup
import Mathlib.Data.List.Perm.Subperm

/-!
# Reads of a map whose values live for a time

As long as all the keys ever stored fit, a served cache answers reads as a map
would whose values live for their time and no cleanup exists: from the last write
of the key and the clock. Whether an expired value is still in the store, was
swept, or was dropped by a read makes no difference, so passes may be added or
left out anywhere.
-/

namespace SizedCache

-- ---------------------------------------------------------------------------
-- The map
-- ---------------------------------------------------------------------------

namespace TtlMap

def expiry (now : Int64) (ttl : UInt64) : Int := min (now.toInt + 1000 * ttl.toNat) (2 ^ 63 - 1)

def lastWrite (ws : List (Int64 × Write)) (k : String) : Option (Int64 × Write) :=
  (ws.filter fun w => w.2.key = k).getLast?

/-- The value under a key and the milliseconds it has left, after some writes. -/
def lookup (ws : List (Int64 × Write)) (k : String) (now : Int64) : Option (String × Int) :=
  match lastWrite ws k with
  | some (since, .put _ v ttl) =>
    if now.toInt < expiry since ttl then some (v, expiry since ttl - now.toInt) else none
  | some (_, .delete _) | none => none

def keys (ws : List (Int64 × Write)) : List String :=
  (ws.filterMap fun w => match w.2 with
    | .put k _ _ => some k
    | .delete _ => none).dedup

variable {ws : List (Int64 × Write)} {k : String}

theorem lastWrite_concat (ws : List (Int64 × Write)) (now : Int64) (w : Write) (k : String) :
    lastWrite (ws ++ [(now, w)]) k = if w.key = k then some (now, w) else lastWrite ws k := by
  by_cases hk : w.key = k <;> simp [lastWrite, hk]

theorem mem_of_lastWrite {now : Int64} {w : Write} (h : lastWrite ws k = some (now, w)) :
    (now, w) ∈ ws ∧ w.key = k := by
  have hmem := List.mem_of_getLast? h
  simpa using hmem

theorem mem_keys : k ∈ keys ws ↔ ∃ now v ttl, (now, Write.put k v ttl) ∈ ws := by
  simp only [keys, List.mem_dedup, List.mem_filterMap, Prod.exists]
  constructor
  · rintro ⟨now, w, hmem, hw⟩
    cases w with
    | put j v ttl =>
      cases hw
      exact ⟨now, v, ttl, hmem⟩
    | delete j => cases hw
  · rintro ⟨now, v, ttl, hmem⟩
    exact ⟨now, _, hmem, rfl⟩

theorem keys_length_le (ws ws' : List (Int64 × Write)) :
    (keys ws).length ≤ (keys (ws ++ ws')).length := by
  refine ((List.nodup_dedup _).subperm fun k hk => ?_).length_le
  obtain ⟨now, v, ttl, hmem⟩ := mem_keys.mp hk
  exact mem_keys.mpr ⟨now, v, ttl, List.mem_append_left _ hmem⟩

end TtlMap

open TtlMap

-- ---------------------------------------------------------------------------
-- What the store holds
-- ---------------------------------------------------------------------------

variable {σ : Type}

/-- Every stored value is the one written last under its key, with the time of
that write, and a value that was written last and is not stored has expired. -/
structure Holds (s : Setup String (Timed String) σ) (ws : List (Int64 × Write))
    (c : Cache String (Timed String) σ) : Prop where
  setup : c.setup = s
  ready : Core.Ready s c.core
  stored : ∀ k v, c.store.get? k = some v → ∃ since text ttl,
    lastWrite ws k = some (since, .put k text ttl) ∧ v = Timed.lasting text since (some ttl)
  gone : ∀ k since text ttl, lastWrite ws k = some (since, .put k text ttl) →
    c.store.get? k = none → Timed.expiration since ttl ≤ c.now

namespace Holds

variable {s : Setup String (Timed String) σ} {ws : List (Int64 × Write)}
  {c d : Cache String (Timed String) σ}

theorem size_le (h : Holds s ws c) : c.size ≤ (keys ws).length := by
  have hlength : c.size = c.store.keys.length := (List.length_map _).symm
  rw [hlength]
  refine (c.store.keys_nodup.subperm fun k hk => ?_).length_le
  obtain ⟨v, hv⟩ := Table.mem_keys_iff.mp hk
  obtain ⟨since, text, ttl, hlast, -⟩ := h.stored k v hv
  exact mem_keys.mpr ⟨since, text, ttl, (mem_of_lastWrite hlast).1⟩

/-- Expired values may go at any time. -/
theorem shrink (h : Holds s ws c) (hsetup : d.setup = s) (hready : Core.Ready s d.core)
    (hnow : c.now ≤ d.now) (hleft : ∀ k v, d.store.get? k = some v → c.store.get? k = some v)
    (hexpired : ∀ k v, c.store.get? k = some v → d.store.get? k = none →
      v.isExpired d.now = true) : Holds s ws d := by
  refine ⟨hsetup, hready, fun k v hv => h.stored k v (hleft k v hv),
    fun k since text ttl hlast hnone => ?_⟩
  cases hv : c.store.get? k with
  | none => exact Int64.le_trans (h.gone k since text ttl hlast hv) hnow
  | some v =>
    obtain ⟨since', text', ttl', hlast', rfl⟩ := h.stored k v hv
    cases hlast.symm.trans hlast'
    exact (Timed.isExpired_iff rfl).mp (hexpired k _ hv hnone)

theorem attempt (h : Holds s ws c) (htest : s.test = Rule.whenExpired.toTest)
    (hroom : (keys ws).length ≤ s.config.maxCapacity) (who : Origin) (hsetup : d.setup = s)
    (hready : Core.Ready s d.core) (hnow : d.now = c.now)
    (hstore : d.store = (c.core.attempt s who c.now).2.store) : Holds s ws d := by
  refine h.shrink hsetup hready (hnow ▸ Int64.le_refl _) (fun k v hv => ?_)
    (fun k v hv hnone => ?_)
  · rw [hstore] at hv
    exact (h.ready.attempt_left htest who c.now hv).1
  · rw [hstore] at hnone
    rw [hnow]
    refine (h.ready.attempt_gone htest who c.now hv (by simp [hnone])).resolve_right fun hover => ?_
    have hsize := h.size_le
    have hlive : c.core.survivors Rule.whenExpired c.now ≤ c.size := Table.size_filter_le _ _
    omega

theorem sleep (h : Holds s ws c) (htest : s.test = Rule.whenExpired.toTest)
    (hroom : (keys ws).length ≤ s.config.maxCapacity) {ms : Nat}
    (hms : c.now.toInt + ms < 2 ^ 63) : Holds s ws (c.sleep ms) := by
  have hcore := Cache.sleep_attempts h.setup ms
  have hend : (c.sleep ms).now.toInt = c.now.toInt + ms := Clock.toInt_add_of_lt hms
  refine h.shrink h.setup (hcore ▸ h.ready.attempts_ready htest _ _)
    (Int64.le_iff_toInt_le.mpr (by omega)) (fun k v hv => ?_) (fun k v hv hnone => ?_)
  · rw [Cache.store, hcore] at hv
    exact (h.ready.attempts_left htest hv).1
  · rw [Cache.store, hcore] at hnone
    obtain ⟨earlier, f, later, hfs, -, -, hwhy⟩ :=
      h.ready.attempts_gone htest hv (by rw [hnone]; simp)
    rcases hwhy with hexpired | hover
    · -- what expired by the time of the pass has expired by the end
      obtain ⟨since, text, ttl, -, rfl⟩ := h.stored k v hv
      have hthen : Timed.expiration since ttl ≤ c.wallAt f.due :=
        (Timed.isExpired_iff (v := Timed.lasting text since (some ttl)) rfl).mp hexpired
      have hdue : f.due ≤ c.scheduler.clock + ms :=
        Scheduler.due_le_of_mem_firings (by rw [← Cache.firingsIn, hfs]; simp)
      have hwall : (c.wallAt f.due).toInt = c.now.toInt + (f.due - c.scheduler.clock : Nat) :=
        Clock.toInt_add_of_lt (by omega)
      exact (Timed.isExpired_iff rfl).mpr
        (Int64.le_trans hthen (Int64.le_iff_toInt_le.mpr (by omega)))
    · have hsize := h.size_le
      have hless := h.ready.attempts_size htest c.wallAt earlier
      have hlive := (c.core.attempts s c.wallAt earlier).store.size_filter_le
        fun k v => !Rule.whenExpired (c.wallAt f.due) k v
      unfold Core.survivors at hover
      unfold Cache.size at hsize
      omega

theorem direct (h : Holds s ws c) (call : Cache.Call String (Timed String))
    (hd : call.IsDirect) :
    (c.step call).2.setup = s ∧ Core.Ready s (c.step call).2.core ∧
      (c.step call).2.now = c.now ∧ (c.step call).2.store = (c.perform call).store := by
  have hready := Cache.perform_ready h.ready call
  obtain ⟨oneShot, journal, heq⟩ := c.step_frame_of_direct hd
  rw [heq]
  exact ⟨h.setup, ⟨hready.free, hready.stock⟩, rfl, rfl⟩

theorem put (h : Holds s ws c) (k v : String) (ttl : UInt64) :
    Holds s (ws ++ [(c.now, .put k v ttl)])
      (c.step (.put k (Timed.lasting v c.now (some ttl)))).2 := by
  let tv := Timed.lasting v c.now (some ttl)
  obtain ⟨hsetup, hready, hnow, hstore⟩ := h.direct (.put k tv) rfl
  have hget : ∀ j, (c.step (.put k tv)).2.store.get? j =
      if k = j then some tv else c.store.get? j := by
    intro j
    rw [hstore, ← Table.get?_set]
    rfl
  refine ⟨hsetup, hready, fun j w hw => ?_, fun j since text ttl' hlast hnone => ?_⟩
  · rw [hget] at hw
    rw [lastWrite_concat, Write.key]
    split at hw
    · rename_i hj
      cases hj
      exact ⟨c.now, v, ttl, if_pos rfl, (Option.some.inj hw).symm⟩
    · rename_i hj
      rw [if_neg hj]
      exact h.stored j w hw
  · rw [hget] at hnone
    rw [lastWrite_concat, Write.key] at hlast
    rw [hnow]
    split at hnone
    · cases hnone
    · rename_i hj
      rw [if_neg hj] at hlast
      exact h.gone j since text ttl' hlast hnone

theorem delete (h : Holds s ws c) (k : String) :
    Holds s (ws ++ [(c.now, .delete k)]) (c.step (.remove k)).2 := by
  obtain ⟨hsetup, hready, hnow, hstore⟩ := h.direct (.remove k) rfl
  have hget : ∀ j, (c.step (.remove k)).2.store.get? j =
      if k = j then none else c.store.get? j := by
    intro j
    rw [hstore, Cache.perform_remove_store, Table.get?_erase]
  refine ⟨hsetup, hready, fun j w hw => ?_, fun j since text ttl hlast hnone => ?_⟩
  · rw [hget, Option.ite_none_left_eq_some] at hw
    rw [lastWrite_concat, Write.key, if_neg hw.1]
    exact h.stored j w hw.2
  · rw [hget] at hnone
    rw [lastWrite_concat, Write.key] at hlast
    rw [hnow]
    split at hlast
    · cases hlast
    · rename_i hj
      rw [if_neg hj] at hnone
      exact h.gone j since text ttl hlast hnone

theorem read (h : Holds s ws c) (k : String) : Holds s ws (c.step (.getLive k)).2 := by
  obtain ⟨hsetup, hready, hnow, hstore⟩ := h.direct (.getLive k) rfl
  have hperform := c.perform_getLive_store k
  refine h.shrink hsetup hready (hnow ▸ Int64.le_refl _) (fun j w hw => ?_)
    (fun j w hw hnone => ?_)
  · rcases hperform with hsame | ⟨-, herase⟩
    · rwa [hstore, hsame] at hw
    · rw [hstore, herase, Table.get?_erase, Option.ite_none_left_eq_some] at hw
      exact hw.2
  · rcases hperform with hsame | ⟨⟨v, hv, he⟩, herase⟩
    · rw [hstore, hsame, hw] at hnone
      cases hnone
    · rw [hstore, herase, Table.get?_erase] at hnone
      split at hnone
      · rename_i hj
        cases hj
        cases hv.symm.trans hw
        rwa [hnow]
      · cases hw.symm.trans hnone

theorem unwritten (h : Holds s ws c) : Holds s (ws ++ []) c :=
  (List.append_nil ws).symm ▸ h

variable {svc : Service σ}

theorem perform (h : Holds s ws svc.cache) (htest : s.test = Rule.whenExpired.toTest)
    (hroom : (keys ws).length ≤ s.config.maxCapacity) (a? : Option Action) :
    Holds s (ws ++ ((a?.bind Action.write?).map (svc.cache.now, ·)).toList)
        (svc.perform a?).cache ∧
      (svc.perform a?).cache.now = svc.cache.now := by
  match a? with
  | none => exact ⟨h.unwritten, rfl⟩
  | some (.write (.put k v ttl)) => exact ⟨h.put k v ttl, (h.direct _ rfl).2.2.1⟩
  | some (.write (.delete k)) => exact ⟨h.delete k, (h.direct _ rfl).2.2.1⟩
  | some (.read k) => exact ⟨(h.read k).unwritten, (h.direct _ rfl).2.2.1⟩
  | some .cleanup =>
    obtain ⟨hready, -, -⟩ :=
      h.ready.attempt (htest ▸ Rule.whenExpired.toTest_neverFails) .caller svc.cache.now
    have hcore := Cache.forceCleanup_core h.setup
    have hpass : Holds s ws svc.cache.forceCleanup.2 :=
      h.attempt htest hroom .caller h.setup (hcore ▸ hready) rfl (congrArg Core.store hcore)
    exact ⟨hpass.unwritten, rfl⟩

theorem step (h : Holds s ws svc.cache) (htest : s.test = Rule.whenExpired.toTest)
    (hroom : (keys ws).length ≤ s.config.maxCapacity) {x : Happening}
    (hx : x.Forward svc.cache.now) :
    Holds s (ws ++ ((x.write? svc.defaultTtl).map (svc.cache.now, ·)).toList)
        (svc.step x).cache ∧
      (svc.step x).cache.now = x.clock svc.cache.now ∧
      (svc.step x).defaultTtl = svc.defaultTtl := by
  cases x with
  | request r =>
    obtain ⟨hholds, hnow⟩ := h.perform htest hroom (r.action? svc.defaultTtl)
    show Holds s _ (svc.answer r).2.cache ∧ (svc.answer r).2.cache.now = svc.cache.now ∧
      (svc.answer r).2.defaultTtl = svc.defaultTtl
    rw [Service.answer_snd]
    exact ⟨hholds, hnow, by cases r.action? svc.defaultTtl <;> rfl⟩
  | sleep ms =>
    exact ⟨(h.sleep htest hroom hx).unwritten, rfl, rfl⟩
  | setClock later =>
    have hholds : Holds s ws (svc.cache.setClock later) :=
      ⟨h.setup, h.ready, h.stored, fun k since text ttl hlast hnone =>
        Int64.le_trans (h.gone k since text ttl hlast hnone) hx⟩
    exact ⟨hholds.unwritten, rfl, rfl⟩
  | pass t =>
    have hcore : (svc.pass t).cache.core =
        Scheduler.trigger (Cache.target s) t svc.cache.now svc.cache.core := by
      rw [← h.setup]
      rfl
    have hstore : (svc.pass t).cache.store =
        (svc.cache.core.attempt s (.trigger t) svc.cache.now).2.store := by
      rw [Cache.store, hcore]
      rfl
    have hholds : Holds s ws (svc.pass t).cache :=
      h.attempt htest hroom (.trigger t) h.setup (hcore ▸ h.ready.trigger htest t svc.cache.now)
        rfl hstore
    exact ⟨hholds.unwritten, rfl, rfl⟩

theorem run {hs : List Happening} (h : Holds s ws svc.cache)
    (htest : s.test = Rule.whenExpired.toTest) (hfwd : SizedCache.Forward svc.cache.now hs)
    (hroom : (keys (ws ++ history svc.defaultTtl svc.cache.now hs)).length ≤
      s.config.maxCapacity) :
    Holds s (ws ++ history svc.defaultTtl svc.cache.now hs) (svc.run hs).cache ∧
      (svc.run hs).cache.now = endClock svc.cache.now hs ∧
      (svc.run hs).defaultTtl = svc.defaultTtl := by
  induction hs generalizing svc ws with
  | nil => exact ⟨h.unwritten, rfl, rfl⟩
  | cons x hs ih =>
    obtain ⟨hx, hrest⟩ := hfwd
    obtain ⟨hstep, hnow, httl⟩ :=
      h.step htest (Nat.le_trans (keys_length_le _ _) hroom) hx
    rw [history, ← List.append_assoc, ← hnow] at hroom ⊢
    rw [endClock, List.foldl_cons, ← hnow, ← httl]
    rw [← httl] at hroom hstep
    exact ih hstep (hnow ▸ hrest) hroom

theorem built {config : Config} {ambient : Bool} {now : Int64} {notes : σ}
    {c : Cache String (Timed String) σ} (hc : Cache.expiringLru config ambient now notes = .ok c) :
    Holds c.setup [] c ∧ c.setup.test = Rule.whenExpired.toTest ∧ c.setup.config = config ∧
      c.now = now := by
  obtain ⟨hv, scheduler, events, -, rfl⟩ := Builder.build_ok hc
  refine ⟨⟨rfl, ⟨rfl, rfl⟩, fun k v hk => ?_, fun k since text ttl hlast => ?_⟩, rfl, rfl, rfl⟩
  · cases hk
  · cases hlast

end Holds

-- ---------------------------------------------------------------------------
-- Reads
-- ---------------------------------------------------------------------------

/-- Whether a response tells what was found under `k`: status 200 with an object
of the key, the value and the whole seconds of the milliseconds left to it, or
status 404. -/
def Tells (r : Response) (k : String) : Option (String × Int) → Prop
  | some (v, left) => ∃ ttl : Nat, (ttl : Int) = left / 1000 ∧
      r = { status := 200
            content := .json [("key", .text k), ("value", .text v), ("ttl", .number ttl)]
            allowOrigin := some "*" }
  | none => r.status = 404

theorem Tells.unique {r r' : Response} {k : String} {found : Option (String × Int)}
    (h : Tells r k found) (h' : Tells r' k found) :
    (r'.status = 200 ↔ r.status = 200) ∧ (r.status = 200 → r' = r) := by
  cases found with
  | none =>
    have hnot : r.status ≠ 200 := by
      rw [show r.status = 404 from h]
      decide
    rw [show r'.status = r.status from h'.trans h.symm]
    exact ⟨Iff.rfl, fun hok => absurd hok hnot⟩
  | some vl =>
    obtain ⟨ttl, hleft, rfl⟩ := h
    obtain ⟨ttl', hleft', rfl⟩ := h'
    obtain rfl : ttl' = ttl := by omega
    exact ⟨Iff.rfl, fun _ => rfl⟩

theorem Holds.get_tells {s : Setup String (Timed String) σ} {ws : List (Int64 × Write)}
    {svc : Service σ} (h : Holds s ws svc.cache) (htimes : ∀ w ∈ ws, 0 ≤ w.1.toInt)
    (httls : ∀ since k v ttl, (since, Write.put k v ttl) ∈ ws → ttl.toNat < 2 ^ 63)
    (k : String) :
    Tells (Service.readable (svc.get k).1) k (lookup ws k svc.cache.now) := by
  have hexpiry : ∀ since v ttl, lastWrite ws k = some (since, .put k v ttl) →
      (Timed.expiration since ttl).toInt = expiry since ttl := by
    intro since v ttl hlast
    obtain ⟨hmem, -⟩ := mem_of_lastWrite hlast
    exact Timed.toInt_expiration (htimes _ hmem) (httls since k v ttl hmem)
  unfold lookup
  cases hget : svc.cache.store.get? k with
  | none =>
    have hstatus : (svc.get k).1.status = 404 := by
      simp only [Service.get, Cache.getLive, hget]
      rfl
    split
    · rename_i since j v ttl hlast
      obtain rfl : j = k := (mem_of_lastWrite hlast).2
      have hgone := Int64.le_iff_toInt_le.mp (h.gone j since v ttl hlast hget)
      rw [hexpiry since v ttl hlast] at hgone
      rw [if_neg (by omega)]
      exact hstatus
    · exact hstatus
    · exact hstatus
  | some tv =>
    obtain ⟨since, v, ttl, hlast, rfl⟩ := h.stored k tv hget
    have hend := hexpiry since v ttl hlast
    simp only [hlast]
    cases he : (Timed.lasting v since (some ttl)).isExpired svc.cache.now with
    | true =>
      have hle := Int64.le_iff_toInt_le.mp ((Timed.isExpired_iff rfl).mp he)
      rw [if_neg (by omega)]
      show (svc.get k).1.status = 404
      simp only [Service.get, Cache.getLive, hget, Expirable.expired, he]
      rfl
    | false =>
      have hlt := (Timed.isExpired_eq_false_iff rfl).mp he
      have hltInt := Int64.lt_iff_toInt_lt.mp hlt
      obtain ⟨q, hq, hleft⟩ :=
        Timed.remainingSeconds_eq (v := Timed.lasting v since (some ttl)) rfl hlt
      rw [if_pos (by omega)]
      refine ⟨q.toNat, hend ▸ hleft, ?_⟩
      have hlive : (svc.get k).1 = .ok (Response.getBody k v
          ((Timed.lasting v since (some ttl)).remainingSeconds svc.cache.now)) := by
        simp only [Service.get, Cache.getLive, hget, Expirable.expired, he]
        rfl
      rw [hlive, hq]
      rfl

namespace Service

/-- A request to read a key of a served cache is answered from the history alone,
if all the keys ever stored fit, and no value is to live for 2^63 seconds: with
the value written last and its whole seconds left, if it was not deleted since
and has not expired, and with status 404 otherwise. Passes that are put in or
left out change neither which reads succeed nor what they answer. The clock is a
system clock, which tells no time before 1970. -/
theorem read_answers_from_history {config : Config} {ambient : Bool} {now : Int64} {notes : σ}
    {c : Cache String (Timed String) σ} (hc : Cache.expiringLru config ambient now notes = .ok c)
    (hnow : 0 ≤ now.toInt) (defaultTtl : UInt64) (hs : List Happening)
    (hfwd : Forward now hs)
    (hroom : (keys (history defaultTtl now hs)).length ≤ config.maxCapacity)
    (httls : ∀ since k v ttl, (since, Write.put k v ttl) ∈ history defaultTtl now hs →
      ttl.toNat < 2 ^ 63)
    {r : Http.Request} {k : String} (hget : r.method = .get)
    (hread : r.action? defaultTtl = some (.read k)) :
    let svc := (Service.mk c defaultTtl).run hs
    Tells (svc.answer r).1 k (lookup (history defaultTtl now hs) k svc.cache.now) ∧
    ∀ hs', hs'.filter (!·.IsPass defaultTtl) = hs.filter (!·.IsPass defaultTtl) →
      let svc' := (Service.mk c defaultTtl).run hs'
      ((svc'.answer r).1.status = 200 ↔ (svc.answer r).1.status = 200) ∧
        ((svc.answer r).1.status = 200 → (svc'.answer r).1 = (svc.answer r).1) := by
  obtain ⟨hbuilt, htest, hconfig, rfl⟩ := Holds.built hc
  have hserved : Holds c.setup [] (Service.mk c defaultTtl).cache := hbuilt
  -- what a run tells is determined by its history and its last clock
  have htells : ∀ xs, history defaultTtl c.now xs = history defaultTtl c.now hs →
      SizedCache.Forward c.now xs →
      Tells (((Service.mk c defaultTtl).run xs).answer r).1 k
        (lookup (history defaultTtl c.now hs) k (endClock c.now xs)) := by
    intro xs hsame hxs
    obtain ⟨hholds, hclock, httl⟩ :=
      hserved.run htest hxs (by rw [hconfig, List.nil_append, hsame]; exact hroom)
    rw [List.nil_append, hsame] at hholds
    rw [answer_read _ hget (by rw [httl]; exact hread), ← hclock]
    exact hholds.get_tells (fun w hw => Int.le_trans hnow (le_of_mem_history hfwd hw)) httls k
  have hrun := htells hs rfl hfwd
  obtain ⟨-, hclock, -⟩ := hserved.run htest hfwd (by rw [hconfig]; exact hroom)
  refine ⟨by rw [hclock]; exact hrun, fun hs' hpasses => ?_⟩
  obtain ⟨hhistory, hend, hforward⟩ := history_filter defaultTtl c.now hs
  obtain ⟨hhistory', hend', hforward'⟩ := history_filter defaultTtl c.now hs'
  rw [hpasses] at hhistory' hend' hforward'
  have hrun' := htells hs' (hhistory'.symm.trans hhistory) (hforward'.mp (hforward.mpr hfwd))
  rw [← hend', hend] at hrun'
  exact hrun.unique hrun'

/-- Two requests to store values, for two seconds and without a key, and some time
with passes. -/
def shortLife : List Happening :=
  [.request ⟨.put, "/set", some "application/json", "[\"a\",\"x\",2]".toUTF8.toList⟩,
    .request ⟨.put, "/set", some "application/json", "[\"\",\"y\",9]".toUTF8.toList⟩,
    .sleep 1100, .pass .onWrite, .sleep 400]

def askForA : Http.Request := ⟨.get, "/get/a", none, []⟩

theorem read_answers_from_history_short_life :
    ∃ c, Cache.expiringLru ⟨16, 2, 1, 1⟩ true 0 () = .ok c ∧
      ((Service.mk c 300).run shortLife).cache.now = 1500 ∧
      (((Service.mk c 300).run shortLife).answer askForA).1 =
        { status := 200
          content := .json [("key", .text "a"), ("value", .text "x"), ("ttl", .number 0)]
          allowOrigin := some "*" } := by
  obtain ⟨c, hc⟩ : ∃ c : Cache String (Timed String) Unit,
      Cache.expiringLru ⟨16, 2, 1, 1⟩ true 0 () = .ok c := ⟨_, rfl⟩
  have hhistory : history 300 0 shortLife = [(0, .put "a" "x" 2)] := by decide +kernel
  have hclock : ((Service.mk c 300).run shortLife).cache.now = 1500 := by
    cases hc
    decide +kernel
  obtain ⟨htells, -⟩ := read_answers_from_history hc (by decide) 300 shortLife
    (by decide) (by rw [hhistory]; decide)
    (by
      rw [hhistory]
      intro since k v ttl hmem
      cases List.mem_singleton.mp hmem
      decide)
    (r := askForA) (k := "a") rfl (by decide +kernel)
  rw [hhistory, hclock] at htells
  obtain ⟨ttl, httl, hanswer⟩ := htells
  have hzero : (ttl : Int) = 0 := httl.trans (by decide)
  obtain rfl : ttl = 0 := Int.natCast_eq_zero.mp hzero
  exact ⟨c, hc, hclock, hanswer⟩

end Service

end SizedCache
