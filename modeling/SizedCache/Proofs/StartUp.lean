import SizedCache.Service
import SizedCache.Proofs.BuildLaws
import SizedCache.Proofs.Numerals

/-!
# Start-up

Each setting is what its own variable says, if that is a numeral that fits, and
its default if not. A service starts from its settings exactly if they are limits
of a cache and the sweeps that they ask for can run; else it says what is wrong
with the limits, if anything is, before it looks for timers.
-/

namespace SizedCache

-- ---------------------------------------------------------------------------
-- Variables
-- ---------------------------------------------------------------------------

inductive Variable where
  | initialCapacity | maxCapacity | evictTo | defaultTtl | port | sweepSecs
deriving DecidableEq, Repr

namespace Variable

def name : Variable → String
  | initialCapacity => "INITIAL_CAPACITY"
  | maxCapacity => "MAX_CAPACITY"
  | evictTo => "EVICT_TO_CAPACITY"
  | defaultTtl => "DEFAULT_TTL"
  | port => "SERVER_PORT"
  | sweepSecs => "CLEANUP_INTERVAL"

def bound : Variable → Nat
  | port => 2 ^ 16
  | _ => 2 ^ 64

def default : Variable → Nat
  | initialCapacity => 64
  | maxCapacity => 1000
  | evictTo => 900
  | defaultTtl => 300
  | port => 3000
  | sweepSecs => 1

end Variable

def Settings.value (s : Settings) : Variable → Nat
  | .initialCapacity => s.initialCapacity
  | .maxCapacity => s.maxCapacity
  | .evictTo => s.evictTo
  | .defaultTtl => s.defaultTtl.toNat
  | .port => s.port.toNat
  | .sweepSecs => s.sweepSecs

namespace Environment

def Gives (env : Environment) (x : Variable) (n : Nat) : Prop :=
  n < x.bound ∧ ∃ bs, env x.name = some bs ∧ Numeral.Encodes bs n

theorem natural?_eq_some_iff {env : Environment} {name : String} {bound n : Nat} :
    env.natural? name bound = some n ↔
      n < bound ∧ ∃ bs, env name = some bs ∧ Numeral.Encodes bs n := by
  simp only [natural?, Option.filter_eq_some_iff, Option.bind_eq_some_iff,
    Numeral.natural?_eq_some_iff, decide_eq_true_iff]
  exact and_comm

theorem natural?_eq_none_iff {env : Environment} {x : Variable} :
    env.natural? x.name x.bound = none ↔ ∀ n, ¬ env.Gives x n := by
  simp only [Option.eq_none_iff_forall_ne_some, ne_eq, natural?_eq_some_iff, Gives]

end Environment

namespace Settings

theorem value_ofEnvironment (env : Environment) (x : Variable) :
    (ofEnvironment env).value x = (env.natural? x.name x.bound).getD x.default := by
  cases x with
  | initialCapacity | maxCapacity | evictTo | sweepSecs => rfl
  | defaultTtl =>
    show (((env.natural? "DEFAULT_TTL" UInt64.size).map UInt64.ofNat).getD 300).toNat =
      (env.natural? "DEFAULT_TTL" UInt64.size).getD 300
    cases h : env.natural? "DEFAULT_TTL" UInt64.size with
    | none => rfl
    | some n => exact UInt64.toNat_ofNat_of_lt' (Environment.natural?_eq_some_iff.mp h).1
  | port =>
    show (((env.natural? "SERVER_PORT" UInt16.size).map UInt16.ofNat).getD 3000).toNat =
      (env.natural? "SERVER_PORT" UInt16.size).getD 3000
    cases h : env.natural? "SERVER_PORT" UInt16.size with
    | none => rfl
    | some n => exact UInt16.toNat_ofNat_of_lt' (Environment.natural?_eq_some_iff.mp h).1

theorem value_ofEnvironment_eq_iff {env : Environment} {x : Variable} {n : Nat} :
    (ofEnvironment env).value x = n ↔
      env.Gives x n ∨ (∀ m, ¬ env.Gives x m) ∧ n = x.default := by
  rw [value_ofEnvironment, Option.getD_eq_iff, Environment.natural?_eq_none_iff,
    Environment.natural?_eq_some_iff, eq_comm (b := n)]
  rfl

end Settings

-- ---------------------------------------------------------------------------
-- Limits
-- ---------------------------------------------------------------------------

namespace Config

theorem fault?_noRoom {c : Config} (h : c.maxCapacity = 0) : c.fault? = some .noRoom := if_pos h

theorem fault?_targetAboveMax {c : Config} (hpos : 0 < c.maxCapacity)
    (h : c.maxCapacity < c.evictTo) :
    c.fault? = some (.targetAboveMax c.evictTo c.maxCapacity) := by
  rw [fault?, if_neg (Nat.ne_of_gt hpos), if_pos h]

theorem valid_iff {c : Config} : c.Valid ↔ 0 < c.maxCapacity ∧ c.evictTo ≤ c.maxCapacity :=
  ⟨fun h => ⟨h.maxCapacity_pos, h.evictTo_le⟩, fun h => ⟨h.1, h.2⟩⟩

end Config

-- ---------------------------------------------------------------------------
-- Services
-- ---------------------------------------------------------------------------

namespace Service

variable {σ : Type} {s : Settings} {ambient : Bool} {now : Int64} {notes : σ}

def builder (s : Settings) (ambient : Bool) : Builder String (Timed String) σ :=
  (Builder.start s.limits ambient).expireEntries.leastRecentlyTouched

theorem ofSettings_of_fault {fault : Config.Fault} (h : s.limits.fault? = some fault) :
    ofSettings s ambient now notes = .error (.invalidConfig fault.message) := by
  simp only [ofSettings, Settings.config, Config.check, h]
  rfl

theorem ofSettings_of_valid (h : s.limits.fault? = none) :
    ofSettings s ambient now notes =
      ((builder s ambient).build now notes).map fun cache => ⟨cache, s.defaultTtl⟩ := by
  simp only [ofSettings, Settings.config, Config.check, h]
  rfl

theorem ofSettings_eq_error_iff {e : CacheError} :
    ofSettings s ambient now notes = .error e ↔
      (∃ fault, s.limits.fault? = some fault ∧ e = .invalidConfig fault.message) ∨
      (s.limits.Valid ∧ e = .missingRuntime ∧ s.sweepSecs ≠ 0 ∧ ambient = false) := by
  cases hfault : s.limits.fault? with
  | some fault =>
    have hinvalid : ¬ s.limits.Valid := by
      rw [← Config.fault?_eq_none_iff, hfault]
      exact Option.some_ne_none fault
    simp [ofSettings_of_fault hfault, hinvalid, eq_comm]
  | none =>
    have hbuild : (builder s ambient).build now notes = .error e ↔ _ := Builder.build_eq_error_iff
    rw [ofSettings_of_valid hfault, ← hfault]
    refine Iff.trans ?_ hbuild
    cases (builder s ambient).build now notes <;> simp [Except.map]

theorem exists_ofSettings_ok_iff :
    (∃ service, ofSettings s ambient now notes = .ok service) ↔
      s.limits.Valid ∧ (s.sweepSecs = 0 ∨ ambient = true) := by
  have hok : (∃ service, ofSettings s ambient now notes = .ok service) ↔
      ∀ e, ofSettings s ambient now notes ≠ .error e := by
    cases ofSettings s ambient now notes <;> simp
  rw [hok]
  constructor
  · intro hno
    have hvalid : s.limits.Valid := by
      rw [← Config.fault?_eq_none_iff, Option.eq_none_iff_forall_ne_some]
      intro fault hfault
      exact hno _ (ofSettings_of_fault hfault)
    refine ⟨hvalid, ?_⟩
    by_contra hstuck
    obtain ⟨hsweeps, hambient⟩ := not_or.mp hstuck
    rw [Bool.not_eq_true] at hambient
    exact hno _ (ofSettings_eq_error_iff.mpr (.inr ⟨hvalid, rfl, hsweeps, hambient⟩))
  · rintro ⟨hvalid, hruns⟩ e he
    rcases ofSettings_eq_error_iff.mp he with ⟨fault, hfault, -⟩ | ⟨-, -, hsweeps, hambient⟩
    · rw [Config.fault?_eq_none_iff.mpr hvalid] at hfault
      cases hfault
    · simp [hsweeps, hambient] at hruns

theorem ofSettings_ok {service : Service σ} (h : ofSettings s ambient now notes = .ok service) :
    service.cache.config = s.limits ∧ service.defaultTtl = s.defaultTtl ∧
      service.cache.core.tracker = some {} ∧ service.cache.store = .empty := by
  obtain ⟨hvalid, -⟩ := exists_ofSettings_ok_iff.mp ⟨service, h⟩
  rw [ofSettings_of_valid (Config.fault?_eq_none_iff.mpr hvalid)] at h
  cases hbuild : (builder s ambient).build now notes with
  | error e =>
    rw [hbuild] at h
    cases h
  | ok cache =>
    rw [hbuild] at h
    cases h
    obtain ⟨_, _, _, -, rfl⟩ := Builder.build_ok hbuild
    exact ⟨rfl, rfl, rfl, rfl⟩

/-- Each setting is the number that its own variable gives, or its default, whatever the
other variables hold. A service starts from the settings exactly if they make valid limits
and their sweeps can run; limits that are not valid are reported before a missing runtime.
A service that starts has these limits, and neither entries nor recency records yet. -/
theorem starts_from_environment (env : Environment) (ambient : Bool) (now : Int64) (notes : σ) :
    let s := Settings.ofEnvironment env
    let start := ofSettings s ambient now notes
    (∀ x n, s.value x = n ↔ env.Gives x n ∨ (∀ m, ¬ env.Gives x m) ∧ n = x.default) ∧
    (∀ x (env' : Environment), env' x.name = env x.name →
      (Settings.ofEnvironment env').value x = s.value x) ∧
    ((∃ service, start = .ok service) ↔
      (0 < s.maxCapacity ∧ s.evictTo ≤ s.maxCapacity) ∧ (s.sweepSecs = 0 ∨ ambient = true)) ∧
    (s.maxCapacity = 0 → start = .error (.invalidConfig Config.Fault.noRoom.message)) ∧
    (0 < s.maxCapacity → s.maxCapacity < s.evictTo →
      start = .error (.invalidConfig
        (Config.Fault.targetAboveMax s.evictTo s.maxCapacity).message)) ∧
    (start = .error .missingRuntime ↔
      (0 < s.maxCapacity ∧ s.evictTo ≤ s.maxCapacity) ∧ s.sweepSecs ≠ 0 ∧ ambient = false) ∧
    ∀ service, start = .ok service →
      service.cache.config = ⟨s.initialCapacity, s.maxCapacity, s.evictTo, s.sweepSecs⟩ ∧
      service.defaultTtl = s.defaultTtl ∧
      service.cache.tracksRecency = true ∧ service.cache.core.tracker = some {} ∧
      service.cache.store = .empty := by
  intro s start
  have hvalid : s.limits.Valid ↔ 0 < s.maxCapacity ∧ s.evictTo ≤ s.maxCapacity := Config.valid_iff
  refine ⟨fun x n => Settings.value_ofEnvironment_eq_iff, ?_, ?_, ?_, ?_, ?_, ?_⟩
  · intro x env' hx
    rw [Settings.value_ofEnvironment, Settings.value_ofEnvironment, Environment.natural?,
      Environment.natural?, hx]
  · rw [← hvalid]
    exact exists_ofSettings_ok_iff
  · intro hzero
    exact ofSettings_of_fault (Config.fault?_noRoom hzero)
  · intro hpos hlt
    exact ofSettings_of_fault (Config.fault?_targetAboveMax hpos hlt)
  · rw [← hvalid]
    simp [start, ofSettings_eq_error_iff]
  · intro service hstart
    obtain ⟨hconfig, httl, htracker, hstore⟩ := ofSettings_ok hstart
    exact ⟨hconfig, httl, by rw [Cache.tracksRecency, htracker]; rfl, htracker, hstore⟩

/-- The ceiling is written with a sign and with zeros, and the port is too large by one.
There are no sweeps, so that no runtime is needed. -/
def terseEnvironment : Environment
  | "MAX_CAPACITY" => some [0x2b, 0x30, 0x30, 0x37]
  | "EVICT_TO_CAPACITY" => some [0x35]
  | "CLEANUP_INTERVAL" => some [0x30]
  | "SERVER_PORT" => some [0x36, 0x35, 0x35, 0x33, 0x36]
  | _ => none

theorem starts_from_environment_terse :
    let s := Settings.ofEnvironment terseEnvironment
    s.value .port = 3000 ∧ ∃ service : Service Unit, ofSettings s false 0 () = .ok service ∧
      service.cache.config.maxCapacity = 7 ∧ service.cache.store = .empty := by
  intro s
  obtain ⟨hvalue, -, hstarts, -, -, -, hservice⟩ :=
    starts_from_environment terseEnvironment false 0 ()
  have hmax : s.maxCapacity = 7 := by
    have hdigits : Numeral.Digits [0, 0, 7] 7 := ⟨by decide, by decide, by decide⟩
    have hbytes : Numeral.Encodes [0x2b, 0x30, 0x30, 0x37] 7 :=
      ⟨['+', '0', '0', '7'], by decide, [0, 0, 7], hdigits, .inr rfl⟩
    exact (hvalue .maxCapacity 7).mpr (.inl ⟨by decide, _, rfl, hbytes⟩)
  have hevict : s.evictTo = 5 := by
    have hbytes : Numeral.Encodes [0x35] 5 :=
      ⟨['5'], by decide, [5], ⟨by decide, by decide, by decide⟩, .inl rfl⟩
    exact (hvalue .evictTo 5).mpr (.inl ⟨by decide, _, rfl, hbytes⟩)
  have hsweeps : s.sweepSecs = 0 := by
    have hbytes : Numeral.Encodes [0x30] 0 :=
      ⟨['0'], by decide, [0], ⟨by decide, by decide, by decide⟩, .inl rfl⟩
    exact (hvalue .sweepSecs 0).mpr (.inl ⟨by decide, _, rfl, hbytes⟩)
  have hport : s.value .port = 3000 :=
    (hvalue .port 3000).mpr (.inr ⟨Environment.natural?_eq_none_iff.mp (by decide), rfl⟩)
  have hroom : 0 < s.maxCapacity ∧ s.evictTo ≤ s.maxCapacity := by
    rw [hmax, hevict]
    decide
  obtain ⟨service, hok⟩ := hstarts.mpr ⟨hroom, .inl hsweeps⟩
  obtain ⟨hconfig, -, -, -, hstore⟩ := hservice service hok
  refine ⟨hport, service, hok, ?_, hstore⟩
  rw [hconfig]
  exact hmax

end Service

end SizedCache

