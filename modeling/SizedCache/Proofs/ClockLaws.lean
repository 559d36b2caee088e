import SizedCache.Timed
import Mathlib.Algebra.Group.Int.Defs
import Mathlib.Algebra.Group.Nat.Defs
import Mathlib.Data.List.Nodup

/-!
# Laws of wall clocks and timed values

A wall clock is a signed word. Moved on by some time it reads at most what it
read before and that time, and exactly that unless it wraps. The arithmetic of
timed values is told over the integers: when a value expires, and how long it
has to live.
-/

namespace SizedCache

-- ---------------------------------------------------------------------------
-- Wall clocks
-- ---------------------------------------------------------------------------

namespace Clock

theorem toInt_add (now : Int64) (ms : Nat) :
    (now + Int64.ofNat ms).toInt = (now.toInt + ms).bmod (2 ^ 64) := by
  rw [Int64.toInt_add, Int64.toInt_ofNat']
  exact Int.add_bmod_bmod

theorem toInt_add_le (now : Int64) (ms : Nat) :
    (now + Int64.ofNat ms).toInt ≤ now.toInt + ms := by
  have hlow := now.le_toInt
  rw [toInt_add, Int.bmod_def]
  split <;> omega

theorem toInt_add_of_lt {now : Int64} {ms : Nat} (h : now.toInt + ms < 2 ^ 63) :
    (now + Int64.ofNat ms).toInt = now.toInt + ms := by
  have hlow := now.le_toInt
  rw [toInt_add, Int.bmod_def]
  split <;> omega

theorem add_add (now : Int64) (a b : Nat) :
    now + Int64.ofNat (a + b) = now + Int64.ofNat a + Int64.ofNat b := by
  rw [Int64.ofNat_add, Int64.add_assoc]

theorem toNat_sub {early late : Int64} (h : early ≤ late) :
    ((late - early).toUInt64.toNat : Int) = late.toInt - early.toInt := by
  have hle := Int64.le_iff_toInt_le.mp h
  have hsub : (late - early).toUInt64.toNat = (late.toBitVec - early.toBitVec).toNat := rfl
  have hearly : early.toInt = early.toBitVec.toInt := rfl
  have hlate : late.toInt = late.toBitVec.toInt := rfl
  rw [hearly, hlate] at hle
  rw [hsub, hearly, hlate, BitVec.toNat_sub]
  rw [BitVec.toInt_eq_toNat_cond, BitVec.toInt_eq_toNat_cond] at hle ⊢
  have := early.toBitVec.isLt
  have := late.toBitVec.isLt
  split at hle <;> split at hle <;> omega

end Clock

-- ---------------------------------------------------------------------------
-- Timed values
-- ---------------------------------------------------------------------------

theorem toInt_saturate (n : Int) :
    (saturate n).toInt = max (-2 ^ 63) (min n (2 ^ 63 - 1)) := by
  unfold saturate
  rw [Int64.toInt_minValue, Int64.toInt_maxValue]
  split
  · rw [Int64.toInt_minValue]
    omega
  · split
    · rw [Int64.toInt_maxValue]
      omega
    · rw [Int64.toInt_ofInt_of_le (by omega) (by omega)]
      omega

namespace Timed

variable {α : Type} {v : Timed α} {e now : Int64}

theorem isExpired_iff (he : v.expires = some e) : v.isExpired now = true ↔ e ≤ now := by
  simp [isExpired, he]

theorem isExpired_eq_false_iff (he : v.expires = some e) : v.isExpired now = false ↔ now < e := by
  simp [isExpired, he]

theorem toInt_seconds {seconds : UInt64} (h : seconds.toNat < 2 ^ 63) :
    seconds.toInt64.toInt = seconds.toNat := by
  have htoInt : seconds.toInt64.toInt = seconds.toBitVec.toInt := rfl
  have htoNat : seconds.toNat = seconds.toBitVec.toNat := rfl
  rw [htoNat] at h ⊢
  rw [htoInt, BitVec.toInt_eq_toNat_cond, if_pos (by omega)]

theorem toInt_seconds_of_le {seconds : UInt64} (h : 2 ^ 63 ≤ seconds.toNat) :
    seconds.toInt64.toInt = seconds.toNat - 2 ^ 64 := by
  have htoInt : seconds.toInt64.toInt = seconds.toBitVec.toInt := rfl
  have htoNat : seconds.toNat = seconds.toBitVec.toNat := rfl
  rw [htoNat] at h ⊢
  rw [htoInt, BitVec.toInt_eq_toNat_cond, if_neg (by omega)]
  rfl

theorem toInt_expiration {seconds : UInt64} (hnow : 0 ≤ now.toInt)
    (h : seconds.toNat < 2 ^ 63) :
    (expiration now seconds).toInt = min (now.toInt + 1000 * seconds.toNat) (2 ^ 63 - 1) := by
  rw [expiration, toInt_saturate, toInt_saturate, toInt_seconds h]
  omega

/-- A life of seconds that do not fit a signed word is over before it begins. -/
theorem toInt_expiration_of_le {seconds : UInt64} (hnow : 0 ≤ now.toInt)
    (h : 2 ^ 63 ≤ seconds.toNat) :
    (expiration now seconds).toInt =
      now.toInt + max (-2 ^ 63) (1000 * ((seconds.toNat : Int) - 2 ^ 64)) := by
  have hword := seconds.toNat_lt
  have hhigh := now.toInt_lt
  rw [expiration, toInt_saturate, toInt_saturate, toInt_seconds_of_le h]
  omega

theorem remainingMillis_eq (he : v.expires = some e) (hlive : now < e) :
    ∃ ms, v.remainingMillis now = some ms ∧ (ms.toNat : Int) = e.toInt - now.toInt ∧ ms ≠ 0 := by
  have hms := Clock.toNat_sub (Int64.le_of_lt hlive)
  refine ⟨(e - now).toUInt64, by simp [remainingMillis, he, hlive], hms, fun hzero => ?_⟩
  have hlt := Int64.lt_iff_toInt_lt.mp hlive
  rw [hzero] at hms
  have hnone : ((0 : UInt64).toNat : Int) = 0 := rfl
  omega

theorem remainingMillis_toNat (v : Timed α) (now : Int64) :
    (v.remainingMillis now).map UInt64.toNat =
      v.expires.map fun e => (e.toInt - now.toInt).toNat := by
  cases he : v.expires with
  | none => simp [remainingMillis, he]
  | some e =>
    by_cases hlive : now < e
    · obtain ⟨ms, hms, heq, -⟩ := remainingMillis_eq he hlive
      rw [hms, Option.map_some, Option.map_some, ← heq, Int.toNat_natCast]
    · have hle := Int64.le_iff_toInt_le.mp (Int64.not_lt.mp hlive)
      have hzero : (e.toInt - now.toInt).toNat = 0 := by omega
      simp [remainingMillis, he, hlive, hzero]

theorem remainingSeconds_eq (he : v.expires = some e) (hlive : now < e) :
    ∃ q, v.remainingSeconds now = some q ∧ (q.toNat : Int) = (e.toInt - now.toInt) / 1000 := by
  refine ⟨(e - now).toUInt64 / 1000, ?_, ?_⟩
  · simp [remainingSeconds, remainingMillis, he, hlive]
  · rw [UInt64.toNat_div, Int.natCast_ediv, Clock.toNat_sub (Int64.le_of_lt hlive)]
    rfl

end Timed

end SizedCache
