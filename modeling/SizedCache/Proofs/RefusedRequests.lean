import SizedCache.Proofs.OverCapacity
import SizedCache.Proofs.RulePasses
import SizedCache.Proofs.ServiceRuns

/-!
# Refused requests

What a request leaves behind that is answered with an error. One that is refused
for its route, its method, its key or its body leaves nothing. A look for a key that
has no live value is a miss, and takes an expired value with it. A key that cannot
be deleted as there is none may still bring the check of the size with it.
-/

namespace SizedCache

open Http

namespace SetRequest

/-- Limits are on bytes, not on characters. -/
theorem fault?_eq_none_iff {r : SetRequest} :
    r.fault? = none ↔
      ¬ (r.key = "" ∨ 256 < r.key.utf8ByteSize ∨ 1048576 < r.value.utf8ByteSize) := by
  unfold fault? maxKeyBytes maxValueBytes
  by_cases hkey : r.key = ""
  · simp [hkey]
  · have hsome : r.key.isEmpty = false := by simpa using hkey
    rw [hsome]
    split
    · contradiction
    · split
      · simp [*]
      · split <;> simp [*]

end SetRequest

theorem Http.setRequest_error {r : Request} {status : Nat} (h : setRequest r = .error status) :
    status ∈ [400, 413, 415, 422] := by
  unfold setRequest at h
  split at h
  · split at h
    · cases h
      decide
    · split at h <;> cases h <;> decide
  · cases h
    decide

namespace Service

variable {σ : Type} (s : Service σ)

-- ---------------------------------------------------------------------------
-- Answers
-- ---------------------------------------------------------------------------

theorem answer_set {r : Request} (hroute : Route.ofPath? (Route.pathOf r.target) = some .set)
    (hm : r.method = .put) :
    match setRequest r with
    | .error refusal =>
      (s.answer r).1.status = refusal ∧ refusal ∈ [400, 413, 415, 422] ∧ (s.answer r).2 = s
    | .ok request =>
      if request.key = "" ∨ 256 < request.key.utf8ByteSize ∨ 1048576 < request.value.utf8ByteSize
      then (s.answer r).1.status = 400 ∧ (s.answer r).2 = s
      else (s.answer r).1.status = 200 := by
  cases hset : setRequest r with
  | error refusal =>
    have hanswer : s.answer r = (readable (.refused refusal), s) := by
      simp only [answer, hroute, hm, answerRoute, hset, readable]
    rw [hanswer]
    exact ⟨rfl, setRequest_error hset, rfl⟩
  | ok request =>
    dsimp only
    split
    · rename_i hbroken
      cases hf : request.fault? with
      | none => exact absurd hbroken (SetRequest.fault?_eq_none_iff.mp hf)
      | some fault =>
        simp [answer, hroute, hm, answerRoute, hset, set, hf, CacheError.response, CacheError.status]
    · rename_i hkept
      have hf := SetRequest.fault?_eq_none_iff.mpr hkept
      simp [answer, hroute, hm, answerRoute, hset, set, hf, Response.ok]

theorem answer_no_route {r : Request} (hroute : Route.ofPath? (Route.pathOf r.target) = none)
    (hm : r.method ≠ .options) : (s.answer r).1.status = 404 ∧ (s.answer r).2 = s := by
  cases h : r.method with
  | options => exact absurd h hm
  | _ => simp [answer, hroute, h]

theorem answer_wrong_method {r : Request} {route : Route}
    (hroute : Route.ofPath? (Route.pathOf r.target) = some route) (hm : r.method ≠ .options)
    (hmethod : r.method ∉ route.methods.map Method.ofName) :
    (s.answer r).1.status = 405 ∧ (s.answer r).2 = s := by
  cases h : r.method with
  | options => exact absurd h hm
  | _ =>
    rw [h] at hmethod
    cases route <;>
      simp_all [answer, answerRoute, Route.methods, Method.ofName]

def statusOf : Action → Nat
  | .write (.put ..) => 200
  | .write (.delete k) => (s.delete k).1.status
  | .read k => (s.get k).1.status
  | .cleanup => s.cleanup.1.status

theorem answer_status {r : Request} {a : Action} (h : r.action? s.defaultTtl = some a) :
    (s.answer r).1.status = s.statusOf a := by
  unfold Request.action? at h
  split at h
  · rename_i hroute hm
    split at h
    · rename_i request hset
      split at h
      · rename_i hfault
        cases h
        simp only [answer, hroute, hm, answerRoute, hset, set, hfault]
        rfl
      · cases h
    · cases h
  · rename_i segment hroute hm
    obtain ⟨key, hkey, rfl⟩ := Option.map_eq_some_iff.mp h
    simp only [answer, hroute, hm, answerRoute, withKey, hkey, statusOf]
  · rename_i segment hroute hm
    obtain ⟨key, hkey, rfl⟩ := Option.map_eq_some_iff.mp h
    simp only [answer, hroute, hm, answerRoute, withKey, hkey, headersOnly, statusOf]
  · rename_i segment hroute hm
    obtain ⟨key, hkey, rfl⟩ := Option.map_eq_some_iff.mp h
    simp only [answer, hroute, hm, answerRoute, withKey, hkey, statusOf]
  · rename_i hroute hm
    cases h
    simp only [answer, hroute, hm, answerRoute, statusOf]
  · cases h

-- ---------------------------------------------------------------------------
-- What an error leaves
-- ---------------------------------------------------------------------------

/-- A look that finds no live value is a miss. An expired value goes, with its
record. -/
theorem perform_read (k : String) :
    match s.cache.store.get? k with
    | none =>
      s.statusOf (.read k) = 404 ∧ s.perform (some (.read k)) =
        { s with cache := { s.cache with
          core := { s.cache.core with
            stats := { s.cache.stats with misses := s.cache.stats.misses + 1 } } } }
    | some v =>
      if v.isExpired s.cache.now then
        s.statusOf (.read k) = 404 ∧ s.perform (some (.read k)) =
          { s with cache := { s.cache with
            core := { s.cache.core with
              store := s.cache.store.erase k
              tracker := s.cache.core.tracker.map (·.forget k)
              stats := { s.cache.stats with misses := s.cache.stats.misses + 1 } } } } ∧
        (s.perform (some (.read k))).cache.store.keys = s.cache.store.keys.filter (· ≠ k) ∧
        (∀ j, (s.perform (some (.read k))).cache.store.get? j =
          if k = j then none else s.cache.store.get? j) ∧
        ∀ records, s.cache.core.tracker = some records →
          ∃ left, (s.perform (some (.read k))).cache.core.tracker = some left ∧
            left.keys = records.keys.filter (· ≠ k) ∧
            (∀ j, left.get? j = if k = j then none else records.get? j) ∧
            left.next = records.next
      else s.statusOf (.read k) = 200 := by
  have hleft : s.perform (some (.read k)) = { s with cache := (s.cache.getLive k).2 } := rfl
  rw [hleft]
  cases hk : s.cache.store.get? k with
  | none =>
    have hlook : s.cache.getLive k = (.absent, s.cache.countMiss) := by rw [Cache.getLive, hk]
    simp only [statusOf, get, hlook]
    exact ⟨rfl, rfl⟩
  | some v =>
    dsimp only
    split
    · rename_i he
      have hlook : (s.cache.getLive k).1 = .expired := by
        simp only [Cache.getLive, hk, Expirable.expired, he, if_true]
      have heffects : s.cache.effects (.getLive k) = [.drop k] := by
        simp only [Cache.effects, hk, Expirable.expired, he, if_true]
      have htally : s.cache.tally (.getLive k) s.cache.core.stats = s.cache.stats.miss := by
        simp only [Cache.tally, hk, Expirable.expired, he, if_true]
        rfl
      have hdrop : (s.cache.getLive k).2 = { s.cache with
          core := { s.cache.core.drop k with stats := s.cache.stats.miss } } := by
        rw [Cache.getLive_snd, Cache.perform, heffects, htally]
        rfl
      rw [hdrop]
      refine ⟨by simp only [statusOf, get, hlook]; rfl, rfl,
        (s.cache.store.keys_erase k).trans (by simp), s.cache.store.get?_erase k,
        fun records hrecords => ⟨records.forget k, ?_, ?_, records.get?_forget k, rfl⟩⟩
      · exact congrArg (Option.map (Recency.forget · k)) hrecords
      · exact (records.keys_forget k).trans (by simp)
    · rename_i he
      have hlook : (s.cache.getLive k).1 = .live v := by
        simp only [Cache.getLive, hk, Expirable.expired, he, Bool.false_eq_true, if_false]
      simp only [statusOf, get, hlook]
      rfl

/-- Where there is nothing to delete the size is checked still. -/
theorem perform_delete (k : String) :
    match s.cache.store.get? k with
    | none =>
      s.statusOf (.write (.delete k)) = 404 ∧
        (s.perform (some (.write (.delete k))) = s ∨
          s.cache.config.evictTo < s.cache.size ∧
          s.perform (some (.write (.delete k))) =
            { s with cache := { s.cache with
              scheduler := s.cache.scheduler.requestOneShot.1
              core := { s.cache.core with
                journal := s.cache.core.journal ++ s.cache.scheduler.requestOneShot.2 } } })
    | some _ => s.statusOf (.write (.delete k)) = 200 := by
  have hleft : s.perform (some (.write (.delete k))) =
      { s with cache := (s.cache.remove k).2 } := rfl
  have hfound : (s.cache.remove k).1 = s.cache.store.get? k := rfl
  rw [hleft]
  cases hk : s.cache.store.get? k with
  | some v =>
    simp only [statusOf, delete, hfound, hk]
    rfl
  | none =>
    refine ⟨by simp only [statusOf, delete, hfound, hk]; rfl, ?_⟩
    have heffects : s.cache.effects (.remove k) = [] := by
      simp [Cache.effects, Cache.contains, Table.contains, hk]
    rw [Cache.remove_snd, Cache.perform_nil heffects rfl]
    rcases Nat.lt_or_ge s.cache.config.evictTo s.cache.size with hover | hwithin
    · exact .inr ⟨hover, by rw [Cache.checkCapacity_of_lt hover]⟩
    · exact .inl (by rw [Cache.checkCapacity_of_le hwithin])

theorem statusOf_cleanup :
    s.statusOf .cleanup = 200 ∨
      s.statusOf .cleanup = 500 ∧ ∃ e, s.cache.forceCleanup.1 = .error e := by
  cases hpass : s.cache.forceCleanup.1 with
  | error e => exact .inr ⟨by simp only [statusOf, cleanup, hpass]; rfl, e, rfl⟩
  | ok outcome => exact .inl (by simp only [statusOf, cleanup, hpass]; rfl)

-- ---------------------------------------------------------------------------
-- Reachable states
-- ---------------------------------------------------------------------------

variable {s} {setup : Setup String (Timed String) σ}

theorem step_ready (hsetup : s.cache.setup = setup) (hready : Core.Ready setup s.cache.core)
    (hf : setup.test.NeverFails) (x : Happening) :
    (s.step x).cache.setup = setup ∧ Core.Ready setup (s.step x).cache.core := by
  have hdirect : ∀ call : Cache.Call String (Timed String), call.IsDirect →
      (s.cache.step call).2.setup = setup ∧ Core.Ready setup (s.cache.step call).2.core := by
    intro call hd
    have hperform := Cache.perform_ready hready call
    obtain ⟨oneShot, journal, heq⟩ := s.cache.step_frame_of_direct hd
    rw [heq]
    exact ⟨hsetup, hperform.free, hperform.stock⟩
  cases x with
  | request r =>
    show (s.answer r).2.cache.setup = setup ∧ Core.Ready setup (s.answer r).2.cache.core
    rw [answer_snd]
    match r.action? s.defaultTtl with
    | none => exact ⟨hsetup, hready⟩
    | some (.write (.put k v ttl)) => exact hdirect _ rfl
    | some (.write (.delete k)) => exact hdirect _ rfl
    | some (.read k) => exact hdirect _ rfl
    | some .cleanup =>
      have hcore := Cache.forceCleanup_core hsetup
      exact ⟨hsetup, hcore ▸ (hready.attempt hf .caller s.cache.now).1⟩
  | sleep ms =>
    have hcore := Cache.sleep_attempts hsetup ms
    exact ⟨hsetup, hcore ▸ (hready.triggers hf s.cache.wallAt (s.cache.firingsIn ms)).1⟩
  | setClock now => exact ⟨hsetup, hready⟩
  | pass t =>
    have hpass := (hready.attempt hf (.trigger t) s.cache.now).1
    subst hsetup
    exact ⟨rfl, hpass.free, hpass.stock⟩

theorem run_ready (hsetup : s.cache.setup = setup) (hready : Core.Ready setup s.cache.core)
    (hf : setup.test.NeverFails) (hs : List Happening) :
    (s.run hs).cache.setup = setup ∧ Core.Ready setup (s.run hs).cache.core := by
  induction hs generalizing s with
  | nil => exact ⟨hsetup, hready⟩
  | cons x hs ih =>
    obtain ⟨hsetup', hready'⟩ := step_ready hsetup hready hf x
    exact ih hsetup' hready'

theorem cleanup_succeeds {b : Builder String (Timed String) σ} {now : Int64} {notes : σ}
    {c : Cache String (Timed String) σ} (hc : b.build now notes = .ok c) (hf : b.test.NeverFails)
    (hstock : b.selector.Stock b.tracker) (defaultTtl : UInt64) (hs : List Happening) :
    ∃ outcome, ((Service.mk c defaultTtl).run hs).cache.forceCleanup.1 = .ok outcome := by
  obtain ⟨hv, scheduler, events, -, hbuilt⟩ := Builder.build_ok hc
  have hf : c.setup.test.NeverFails := by rw [hbuilt]; exact hf
  have hready : Core.Ready c.setup c.core := by rw [hbuilt]; exact ⟨rfl, hstock⟩
  obtain ⟨hsetup, hready⟩ := run_ready (s := ⟨c, defaultTtl⟩) rfl hready hf hs
  obtain ⟨n, x, vs, -, -, -, -, hreport, -⟩ :=
    Core.attempt_stock hf hready.stock hready.free .caller _
  rw [← hsetup] at hreport
  exact ⟨_, hreport⟩

/-- Whatever happened to a served cache, a request that is answered with an error
leaves it as it was, but for the miss of a look that finds no live value, the expired
value that such a look takes out, and the attempt that may be asked for where there
was nothing to delete. A request to store a value is rejected for the lengths of its
key and value in bytes, and for nothing else. A cleanup is answered with an error only
if its test or selector fails, as none of those that come with a cache does. -/
theorem errors_leave_cache {b : Builder String (Timed String) σ} {now : Int64} {notes : σ}
    {c : Cache String (Timed String) σ} (hc : b.build now notes = .ok c) (defaultTtl : UInt64)
    (hs : List Happening) (r : Request) :
    let s := (Service.mk c defaultTtl).run hs
    let status := (s.answer r).1.status
    let t := (s.answer r).2
    let route? := Route.ofPath? (Route.pathOf r.target)
    -- what is refused on its way to the cache
    (route? = some .set → r.method = .put →
      match setRequest r with
      | .error refusal => status = refusal ∧ refusal ∈ [400, 413, 415, 422] ∧ t = s
      | .ok request =>
        if request.key = "" ∨ 256 < request.key.utf8ByteSize ∨
            1048576 < request.value.utf8ByteSize
        then status = 400 ∧ t = s
        else status = 200) ∧
    (route? = none → r.method ≠ .options → status = 404 ∧ t = s) ∧
    (∀ route, route? = some route → r.method ≠ .options →
      r.method ∉ route.methods.map Method.ofName → status = 405 ∧ t = s) ∧
    -- every answer
    match r.action? s.defaultTtl with
    | none => t = s
    | some (.read k) =>
      match s.cache.store.get? k with
      | none =>
        status = 404 ∧
          t = { s with cache := { s.cache with
            core := { s.cache.core with
              stats := { s.cache.stats with misses := s.cache.stats.misses + 1 } } } }
      | some v =>
        if v.isExpired s.cache.now then
          status = 404 ∧
            t = { s with cache := { s.cache with
              core := { s.cache.core with
                store := s.cache.store.erase k
                tracker := s.cache.core.tracker.map (·.forget k)
                stats := { s.cache.stats with misses := s.cache.stats.misses + 1 } } } } ∧
            -- the entry and the record of the key are gone, and no others
            t.cache.store.keys = s.cache.store.keys.filter (· ≠ k) ∧
            (∀ j, t.cache.store.get? j = if k = j then none else s.cache.store.get? j) ∧
            ∀ records, s.cache.core.tracker = some records →
              ∃ left, t.cache.core.tracker = some left ∧
                left.keys = records.keys.filter (· ≠ k) ∧
                (∀ j, left.get? j = if k = j then none else records.get? j) ∧
                left.next = records.next
        else status = 200
    | some (.write (.delete k)) =>
      match s.cache.store.get? k with
      | none =>
        status = 404 ∧
          (t = s ∨ s.cache.config.evictTo < s.cache.size ∧
            t = { s with cache := { s.cache with
              scheduler := s.cache.scheduler.requestOneShot.1
              core := { s.cache.core with
                journal := s.cache.core.journal ++ s.cache.scheduler.requestOneShot.2 } } })
      | some _ => status = 200
    | some (.write (.put ..)) => status = 200
    | some .cleanup =>
      status = 200 ∨ status = 500 ∧ (∃ e, s.cache.forceCleanup.1 = .error e) ∧
        ¬ (b.test.NeverFails ∧ b.selector.Stock b.tracker) := by
  intro s status t route?
  have hcleanup : b.test.NeverFails ∧ b.selector.Stock b.tracker →
      ∃ outcome, s.cache.forceCleanup.1 = .ok outcome :=
    fun ⟨hf, hstock⟩ => cleanup_succeeds hc hf hstock defaultTtl hs
  -- the rest holds of any state
  clear_value s
  refine ⟨s.answer_set, s.answer_no_route, fun _ => s.answer_wrong_method, ?_⟩
  have hleft : t = s.perform (r.action? s.defaultTtl) := s.answer_snd r
  cases ha : r.action? s.defaultTtl with
  | none => exact hleft.trans (congrArg s.perform ha)
  | some a =>
    have hstatus : status = s.statusOf a := s.answer_status ha
    rw [hleft, ha, hstatus]
    match a with
    | .write (.put k v ttl) => rfl
    | .read k => exact s.perform_read k
    | .write (.delete k) => exact s.perform_delete k
    | .cleanup =>
      refine s.statusOf_cleanup.imp_right fun ⟨hfailed, e, he⟩ => ⟨hfailed, ⟨e, he⟩, ?_⟩
      intro hstock
      obtain ⟨outcome, hok⟩ := hcleanup hstock
      cases he.symm.trans hok

/-- A value for one second and one for the default time, and the clock is set to when
the first expires. -/
def oneExpires : List Happening :=
  [.request ⟨.put, "/set", some "application/json", "[\"a\",\"x\",1]".toUTF8.toList⟩,
    .request ⟨.put, "/set", some "application/json", "[\"b\",\"y\"]".toUTF8.toList⟩,
    .setClock 1000]

def lookForA : Request := ⟨.get, "/get/a", none, []⟩

def storeWithoutKey : Request :=
  ⟨.put, "/set", some "application/json", "[\"\",\"x\"]".toUTF8.toList⟩

theorem errors_leave_cache_expired :
    ∃ c, Cache.expiringLru ⟨16, 3, 2, 0⟩ true 0 () = .ok c ∧
      let s := (Service.mk c 300).run oneExpires
      s.cache.store.keys = ["a", "b"] ∧ s.cache.stats.misses = 0 ∧
      (s.answer lookForA).1.status = 404 ∧
      (s.answer lookForA).2.cache.store.keys = ["b"] ∧
      (s.answer lookForA).2.cache.store.get? "b" = s.cache.store.get? "b" ∧
      (∃ left, (s.answer lookForA).2.cache.core.tracker = some left ∧ left.keys = ["b"]) ∧
      (s.answer lookForA).2.cache.stats = { s.cache.stats with misses := 1 } ∧
      (s.answer lookForA).2.cache.scheduler = s.cache.scheduler ∧
      (s.answer storeWithoutKey).1.status = 400 ∧ (s.answer storeWithoutKey).2 = s := by
  obtain ⟨c, hc⟩ : ∃ c : Cache String (Timed String) Unit,
      Cache.expiringLru ⟨16, 3, 2, 0⟩ true 0 () = .ok c := ⟨_, rfl⟩
  obtain ⟨hfound, hstored, htracked, hmisses, hclock, haction⟩ :
      let s := (Service.mk c 300).run oneExpires
      s.cache.store.get? "a" = some (Timed.lasting "x" 0 (some 1)) ∧
        s.cache.store.keys = ["a", "b"] ∧
        s.cache.core.tracker.map Recency.keys = some ["a", "b"] ∧
        s.cache.stats.misses = 0 ∧ s.cache.now = 1000 ∧
        lookForA.action? s.defaultTtl = some (.read "a") := by
    cases hc
    decide +kernel
  have hparse : setRequest storeWithoutKey = .ok ⟨"", "x", none⟩ := by decide +kernel
  obtain ⟨-, -, -, hlook⟩ := errors_leave_cache hc 300 oneExpires lookForA
  obtain ⟨hset, -⟩ := errors_leave_cache hc 300 oneExpires storeWithoutKey
  rw [haction] at hlook
  dsimp only at hlook
  rw [hfound] at hlook
  dsimp only at hlook
  rw [hclock, if_pos (by decide)] at hlook
  obtain ⟨hstatus, hleft, hkeys, hvalues, hforgotten⟩ := hlook
  rw [hmisses] at hleft
  rw [hstored] at hkeys
  obtain ⟨records, hrecords, hnames⟩ := Option.map_eq_some_iff.mp htracked
  obtain ⟨left, hrest, hothers, -⟩ := hforgotten records hrecords
  rw [hnames] at hothers
  have hset := hset (by decide +kernel) rfl
  rw [hparse] at hset
  dsimp only at hset
  rw [if_pos (.inl rfl)] at hset
  obtain ⟨hrefused, hsame⟩ := hset
  exact ⟨c, hc, hstored, hmisses, hstatus, hkeys, hvalues "b", ⟨left, hrest, hothers⟩,
    hleft ▸ rfl, hleft ▸ rfl, hrefused, hsame⟩

end Service

end SizedCache
