import SizedCache.Cache
import SizedCache.Proofs.ClockLaws
import SizedCache.Proofs.PassLaws
import SizedCache.Request

/-!
# When values expire

A value made to live for some seconds expires that much later, or at the end of
time if that is sooner. This holds of seconds that fit a signed word; a longer
life is taken as negative, and is over before it begins. All that looks at the
time of a value draws the same line: the value itself, the rule of a sweep, the
time that is left, a read and a pass.
-/

namespace SizedCache

-- ---------------------------------------------------------------------------
-- Lives
-- ---------------------------------------------------------------------------

namespace Timed

variable {α : Type}

theorem expiration_mono {now : Int64} (hnow : 0 ≤ now.toInt) {short long : UInt64}
    (hle : short ≤ long) (hlong : long.toNat < 2 ^ 63) :
    expiration now short ≤ expiration now long := by
  have hnat := UInt64.le_iff_toNat_le.mp hle
  rw [Int64.le_iff_toInt_le, toInt_expiration hnow hlong, toInt_expiration hnow (by omega)]
  omega

theorem kept_by_sweep {κ σ : Type} [DecidableEq κ] {s : Setup κ (Timed α) σ}
    (htest : s.test = Rule.whenExpired.toTest) {c : Core κ (Timed α) σ} {k : κ} {v : Timed α}
    {t : Int64} (hk : c.store.get? k = some v) (hlive : v.isExpired t = false) :
    (c.sweep s.test t (s.walk.arrange c.store.keys)).2.store.get? k = some v := by
  have hkeep : Rule.whenExpired t k v = false := hlive
  rw [Core.sweep_store_of_rule htest, Table.get?_filter, hk]
  simp [Option.filter, hkeep]

/-- On a clock that counts from 1970 on, a value that is made to live for less than
`2 ^ 63` seconds expires at the end of its life or of time, and a longer life ends
no sooner. Until then the value is not expired, it has time left, and a sweep
leaves it. A value that is made to live for more seconds has expired already. -/
theorem lasting_expires {κ σ : Type} [DecidableEq κ] (v : α) (now : Int64) (hnow : 0 ≤ now.toInt) :
    (∀ seconds : UInt64, seconds.toNat < 2 ^ 63 →
      ∃ e, (lasting v now (some seconds)).expires = some e ∧
        e.toInt = min (now.toInt + 1000 * seconds.toNat) (2 ^ 63 - 1) ∧
        (∀ fewer ≤ seconds, ∃ e', (lasting v now (some fewer)).expires = some e' ∧ e' ≤ e) ∧
        ∀ t : Int64, t.toInt < min (now.toInt + 1000 * seconds.toNat) (2 ^ 63 - 1) →
          (lasting v now (some seconds)).isExpired t = false ∧
          (∃ ms, (lasting v now (some seconds)).remainingMillis t = some ms ∧ ms ≠ 0) ∧
          ∀ (s : Setup κ (Timed α) σ) (c : Core κ (Timed α) σ) (k : κ),
            s.test = Rule.whenExpired.toTest →
            c.store.get? k = some (lasting v now (some seconds)) →
            (c.sweep s.test t (s.walk.arrange c.store.keys)).2.store.get? k =
              some (lasting v now (some seconds))) ∧
    ∀ seconds : UInt64, 2 ^ 63 ≤ seconds.toNat →
      ∃ e, (lasting v now (some seconds)).expires = some e ∧
        e.toInt = now.toInt + max (-2 ^ 63) (1000 * ((seconds.toNat : Int) - 2 ^ 64)) ∧
        ∀ t, now ≤ t → (lasting v now (some seconds)).isExpired t = true := by
  refine ⟨fun seconds hfits => ?_, fun seconds hlong => ?_⟩
  · have he := toInt_expiration hnow hfits
    refine ⟨_, rfl, he, fun fewer hle => ⟨_, rfl, expiration_mono hnow hle hfits⟩,
      fun t ht => ?_⟩
    rw [← he] at ht
    have hbefore : t < expiration now seconds := Int64.lt_iff_toInt_lt.mpr ht
    have hlive : (lasting v now (some seconds)).isExpired t = false :=
      (isExpired_eq_false_iff rfl).mpr hbefore
    obtain ⟨ms, hms, -, hsome⟩ := remainingMillis_eq (v := lasting v now (some seconds)) rfl hbefore
    exact ⟨hlive, ⟨ms, hms, hsome⟩, fun s c k htest hk => kept_by_sweep htest hk hlive⟩
  · have he := toInt_expiration_of_le hnow hlong
    refine ⟨_, rfl, he, fun t ht => ?_⟩
    have hword := seconds.toNat_lt
    have hle := Int64.le_iff_toInt_le.mp ht
    exact (isExpired_iff rfl).mpr (Int64.le_iff_toInt_le.mpr (by omega))

theorem lasting_expires_longest :
    0 ≤ (1700000000000 : Int64).toInt ∧
    (lasting "x" 1700000000000 (some 9223372036854775807)).expires = some Int64.maxValue ∧
    (lasting "x" 1700000000000 (some 9223372036854775807)).isExpired 9223372036854775806 =
      false := by
  have hnow : 0 ≤ (1700000000000 : Int64).toInt := by decide
  obtain ⟨e, hexpires, he, -, hlive⟩ :=
    (lasting_expires (κ := String) (σ := Unit) "x" 1700000000000 hnow).1 9223372036854775807
      (by decide)
  have hmax : e = Int64.maxValue := Int64.toInt_inj.mp (he.trans (by decide))
  exact ⟨hnow, hmax ▸ hexpires, (hlive 9223372036854775806 (by decide)).1⟩

/-- One second more, which a request may ask for, and the value has expired before
it is stored. -/
theorem longer_life_is_over :
    SetRequest.fault? ⟨"k", "x", some 9223372036854775808⟩ = none ∧
    ∃ e, (lasting "x" 1700000000000 (some 9223372036854775808)).expires = some e ∧
      e.toInt = -9223370336854775808 ∧
      (lasting "x" 1700000000000 (some 9223372036854775808)).isExpired 1700000000000 = true := by
  exact ⟨by decide +kernel, _, rfl, by decide +kernel, by decide +kernel⟩

end Timed

-- ---------------------------------------------------------------------------
-- Judges
-- ---------------------------------------------------------------------------

namespace Cache

variable {κ α σ : Type} [DecidableEq κ] [Expirable α]

theorem getLive_of_expired {c : Cache κ α σ} {k : κ} {v : α} (hk : c.store.get? k = some v)
    (hv : Expirable.expired v c.now = true) : (c.getLive k).1 = .expired := by
  simp [getLive, hk, hv]

theorem getLive_of_live {c : Cache κ α σ} {k : κ} {v : α} (hk : c.store.get? k = some v)
    (hv : Expirable.expired v c.now = false) : (c.getLive k).1 = .live v := by
  simp [getLive, hk, hv]

end Cache

namespace Core

variable {κ α σ : Type} [DecidableEq κ] {s : Setup κ α σ} {rule : Rule κ α}

theorem pass_of_rule (htest : s.test = rule.toTest) (now : Int64) {c : Core κ α σ} {k : κ}
    {v : α} (hk : c.store.get? k = some v) :
    (rule now k v = true → (c.pass s now).2.store.get? k = none) ∧
    (rule now k v = false →
      (c.store.filter fun k v => !rule now k v).size ≤ s.config.maxCapacity →
      (c.pass s now).2.store.get? k = some v) := by
  have hswept := congrArg Prod.fst (sweep_of_rule htest now c)
  obtain ⟨vs, hstore, hroom⟩ := pass_snd_store hswept
  rw [sifted_store htest] at hstore hroom
  rw [hstore, Table.get?_without, Table.get?_filter, hk]
  constructor
  · intro haccept
    simp [Option.filter, haccept]
  · intro hreject hle
    simp [hroom hle, Option.filter, hreject]

end Core

namespace Timed

variable {α : Type}

theorem remainingMillis_eq_zero_iff (v : Timed α) (now : Int64) :
    v.remainingMillis now = some 0 ↔ v.isExpired now = true := by
  cases he : v.expires with
  | none => simp [remainingMillis, isExpired, he]
  | some e =>
    rw [isExpired_iff he]
    by_cases hlive : now < e
    · obtain ⟨ms, hms, -, hsome⟩ := remainingMillis_eq he hlive
      simp [hms, hsome, Int64.not_le.mpr hlive]
    · simp [remainingMillis, he, hlive, Int64.not_lt.mp hlive]

theorem isExpired_mono {v : Timed α} {t t' : Int64} (hle : t ≤ t')
    (h : v.isExpired t = true) : v.isExpired t' = true := by
  cases he : v.expires with
  | none => simp [isExpired, he] at h
  | some e => exact (isExpired_iff he).mpr (Int64.le_trans ((isExpired_iff he).mp h) hle)

theorem remainingMillis_later (v : Timed α) {t t' : Int64} (hle : t ≤ t') :
    (v.remainingMillis t').map UInt64.toNat =
      (v.remainingMillis t).map fun ms => ms.toNat - (t'.toInt - t.toInt).toNat := by
  have hle := Int64.le_iff_toInt_le.mp hle
  have hmap : (v.remainingMillis t).map (fun ms => ms.toNat - (t'.toInt - t.toInt).toNat) =
      ((v.remainingMillis t).map UInt64.toNat).map (· - (t'.toInt - t.toInt).toNat) := by
    rw [Option.map_map]
    rfl
  rw [hmap, remainingMillis_toNat, remainingMillis_toNat, Option.map_map]
  refine Option.map_congr fun e _ => ?_
  show (e.toInt - t'.toInt).toNat = (e.toInt - t.toInt).toNat - (t'.toInt - t.toInt).toNat
  omega

/-- On a clock that counts from 1970 on, the same values are expired for all that
judges them: the value, the rule of a sweep, the time that is left, a read and a
pass. Until a value expires the time that is left is exact, in milliseconds, and
in seconds rounded down. A value that is permanent has no such time and never
expires. An expired value stays expired, and time that passes is time less. -/
theorem judges_agree {κ σ : Type} [DecidableEq κ] (v : Timed α) (t : Int64) (ht : 0 ≤ t.toInt) :
    (∀ k : κ, Rule.whenExpired t k v = v.isExpired t) ∧
    (v.remainingMillis t = some 0 ↔ v.isExpired t = true) ∧
    (∀ (c : Cache κ (Timed α) σ) (k : κ), c.now = t → c.store.get? k = some v →
      ((c.getLive k).1 = .expired ↔ v.isExpired t = true) ∧
      ((c.getLive k).1 = .live v ↔ v.isExpired t = false)) ∧
    (∀ (s : Setup κ (Timed α) σ) (c : Core κ (Timed α) σ) (k : κ),
      s.test = Rule.whenExpired.toTest → c.store.get? k = some v →
      ((c.sweep s.test t (s.walk.arrange c.store.keys)).2.store.get? k = none ↔
        v.isExpired t = true) ∧
      (v.isExpired t = true → (c.pass s t).2.store.get? k = none) ∧
      (v.isExpired t = false →
        (c.sweep s.test t (s.walk.arrange c.store.keys)).2.store.size ≤ s.config.maxCapacity →
        (c.pass s t).2.store.get? k = some v)) ∧
    (v.expires = none →
      v.remainingMillis t = none ∧ v.remainingSeconds t = none ∧ v.isExpired t = false) ∧
    (∀ e, v.expires = some e → v.isExpired t = false →
      (e - t).toInt = e.toInt - t.toInt ∧
      (∃ ms, v.remainingMillis t = some ms ∧ (ms.toNat : Int) = e.toInt - t.toInt) ∧
      ∃ q, v.remainingSeconds t = some q ∧ (q.toNat : Int) = (e.toInt - t.toInt) / 1000) ∧
    ∀ t', t ≤ t' →
      (v.isExpired t = true → v.isExpired t' = true) ∧
      (v.remainingMillis t').map UInt64.toNat =
        (v.remainingMillis t).map fun ms => ms.toNat - (t'.toInt - t.toInt).toNat := by
  refine ⟨fun _ => rfl, remainingMillis_eq_zero_iff v t, ?_, ?_, ?_, ?_, ?_⟩
  · -- a read
    rintro c k rfl hk
    cases hv : v.isExpired c.now with
    | true => simp [Cache.getLive_of_expired hk hv]
    | false => simp [Cache.getLive_of_live hk hv]
  · -- a pass
    intro s c k htest hk
    obtain ⟨hgone, hleft⟩ := Core.pass_of_rule htest t hk
    rw [Core.sweep_store_of_rule htest]
    refine ⟨?_, hgone, hleft⟩
    rw [Table.get?_filter, hk]
    simp [Option.filter, Rule.whenExpired, Expirable.expired]
  · -- a permanent value
    intro he
    simp [remainingMillis, remainingSeconds, isExpired, he]
  · -- a value with time left
    intro e he hv
    have hlive := (isExpired_eq_false_iff he).mp hv
    have hlt := Int64.lt_iff_toInt_lt.mp hlive
    have hhigh := e.toInt_lt
    obtain ⟨ms, hms, hexact, -⟩ := remainingMillis_eq he hlive
    refine ⟨?_, ⟨ms, hms, hexact⟩, remainingSeconds_eq he hlive⟩
    rw [Int64.toInt_sub, Int.bmod_eq_of_le (by omega) (by omega)]
  · -- time that passes
    exact fun t' hle => ⟨isExpired_mono hle, remainingMillis_later v hle⟩

/-- A millisecond before its expiration a value is live, with no whole second left. -/
theorem judges_agree_last_moment :
    0 ≤ (1700000000000 : Int64).toInt ∧
    ∃ ms q, (expiringAt "x" 0 1700000000001).remainingMillis 1700000000000 = some ms ∧
      ms.toNat = 1 ∧
      (expiringAt "x" 0 1700000000001).remainingSeconds 1700000000000 = some q ∧ q.toNat = 0 := by
  have ht : 0 ≤ (1700000000000 : Int64).toInt := by decide
  obtain ⟨-, -, -, -, -, hleft, -⟩ :=
    judges_agree (κ := String) (σ := Unit) (expiringAt "x" 0 1700000000001) 1700000000000 ht
  obtain ⟨-, ⟨ms, hms, hexact⟩, q, hq, hfloor⟩ := hleft 1700000000001 rfl (by decide)
  have hone : ((1700000000001 : Int64).toInt - (1700000000000 : Int64).toInt) = 1 := by decide
  rw [hone] at hexact hfloor
  exact ⟨ht, ms, q, hms, by omega, hq, by omega⟩

end Timed

end SizedCache
