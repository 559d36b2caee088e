import SizedCache.Settings
import Mathlib.Data.List.Basic
import Mathlib.Data.Nat.Digits.Defs

/-!
# Numerals

A setting is written in decimal digits, at least one and as many as one likes,
perhaps after a plus sign. The reader accepts the UTF-8 bytes of these texts and
no others, and reads each as the number that its digits make up
(`natural?_eq_some_iff`). It sets no bound on the number.
-/

namespace SizedCache.Numeral

/-- `ds` are the digits of `n`, highest first, perhaps after zeros. -/
structure Digits (ds : List Nat) (n : Nat) : Prop where
  nonempty : ds ≠ []
  below : ∀ d ∈ ds, d < 10
  value : n = Nat.ofDigits 10 ds.reverse

/-- `text` writes `n`: its digits, perhaps after a plus sign. -/
def Writes (text : List Char) (n : Nat) : Prop :=
  ∃ ds, Digits ds n ∧ (text = ds.map Nat.digitChar ∨ text = '+' :: ds.map Nat.digitChar)

def Encodes (bs : List UInt8) (n : Nat) : Prop :=
  ∃ text : List Char, bs.toByteArray = text.utf8Encode ∧ Writes text n

-- ---------------------------------------------------------------------------
-- Digits
-- ---------------------------------------------------------------------------

def digitByte (d : Nat) : UInt8 := UInt8.ofNat (0x30 + d)

theorem utf8EncodeChar_digitChar {d : Nat} (h : d < 10) :
    String.utf8EncodeChar (Nat.digitChar d) = [digitByte d] := by
  revert d
  decide

theorem digitByte_ne_plus {d : Nat} (h : d < 10) : digitByte d ≠ '+'.toUInt8 := by
  revert d
  decide

theorem digit?_eq_some_iff {b : UInt8} {d : Nat} :
    digit? b = some d ↔ d < 10 ∧ b = digitByte d := by
  rw [digit?, Option.ite_none_right_eq_some, Option.some.injEq, UInt8.le_iff_toNat_le,
    UInt8.le_iff_toNat_le]
  constructor
  · rintro ⟨⟨hlow, hhigh⟩, rfl⟩
    have hlow : 48 ≤ b.toNat := hlow
    have hhigh : b.toNat ≤ 57 := hhigh
    refine ⟨by omega, ?_⟩
    rw [digitByte, Nat.add_sub_of_le hlow, UInt8.ofNat_toNat]
  · rintro ⟨hd, rfl⟩
    have htoNat : (digitByte d).toNat = 48 + d := by
      rw [digitByte, UInt8.toNat_ofNat_of_lt' (by show _ < 256; omega)]
    show (48 ≤ (digitByte d).toNat ∧ (digitByte d).toNat ≤ 57) ∧ _
    rw [htoNat]
    omega

def append (n : Nat) (ds : List Nat) : Nat := ds.foldl (fun n d => 10 * n + d) n

theorem append_zero (ds : List Nat) : append 0 ds = Nat.ofDigits 10 ds.reverse := by
  rw [Nat.ofDigits_eq_foldr, List.foldr_reverse, append]
  simp only [Nat.cast_id, Nat.add_comm]

theorem digitsOnto_eq_some_iff {n m : Nat} {bs : List UInt8} :
    digitsOnto n bs = some m ↔
      ∃ ds, (∀ d ∈ ds, d < 10) ∧ bs = ds.map digitByte ∧ m = append n ds := by
  induction bs generalizing n with
  | nil =>
    rw [digitsOnto, Option.some.injEq]
    constructor
    · rintro rfl
      exact ⟨[], by simp, rfl, rfl⟩
    · rintro ⟨ds, -, hbs, rfl⟩
      rw [List.map_eq_nil_iff.mp hbs.symm]
      rfl
  | cons b bs ih =>
    simp only [digitsOnto, Option.bind_eq_some_iff, digit?_eq_some_iff, ih]
    constructor
    · rintro ⟨d, ⟨hd, rfl⟩, ds, hds, rfl, rfl⟩
      exact ⟨d :: ds, List.forall_mem_cons.mpr ⟨hd, hds⟩, rfl, rfl⟩
    · rintro ⟨ds, hds, hbs, rfl⟩
      cases ds with
      | nil => cases hbs
      | cons d ds =>
        obtain ⟨rfl, rfl⟩ := List.cons.inj hbs
        obtain ⟨hd, hds⟩ := List.forall_mem_cons.mp hds
        exact ⟨d, ⟨hd, rfl⟩, ds, hds, rfl, rfl⟩

-- ---------------------------------------------------------------------------
-- The reader
-- ---------------------------------------------------------------------------

theorem unsigned?_eq_some_iff {bs : List UInt8} {n : Nat} :
    unsigned? bs = some n ↔ ∃ ds, Digits ds n ∧ bs = ds.map digitByte := by
  cases bs with
  | nil =>
    rw [unsigned?]
    constructor
    · intro h
      cases h
    · rintro ⟨ds, hds, hbs⟩
      exact absurd (List.map_eq_nil_iff.mp hbs.symm) hds.nonempty
  | cons b bs =>
    show digitsOnto 0 (b :: bs) = some n ↔ _
    rw [digitsOnto_eq_some_iff]
    constructor
    · rintro ⟨ds, hds, hbs, rfl⟩
      refine ⟨ds, ⟨?_, hds, append_zero ds⟩, hbs⟩
      rintro rfl
      cases hbs
    · rintro ⟨ds, ⟨-, hds, rfl⟩, hbs⟩
      exact ⟨ds, hds, hbs, (append_zero ds).symm⟩

theorem Digits.ne_plus_cons {ds : List Nat} {n : Nat} (h : Digits ds n) (bs : List UInt8) :
    ds.map digitByte ≠ '+'.toUInt8 :: bs := by
  cases ds with
  | nil => exact absurd rfl h.nonempty
  | cons d ds =>
    intro hbs
    exact digitByte_ne_plus (h.below d List.mem_cons_self) (List.cons.inj hbs).1

theorem natural?_eq_some_iff_bytes {bs : List UInt8} {n : Nat} :
    natural? bs = some n ↔
      ∃ ds, Digits ds n ∧
        (bs = ds.map digitByte ∨ bs = '+'.toUInt8 :: ds.map digitByte) := by
  cases bs with
  | nil =>
    rw [natural?]
    constructor
    · intro h
      cases h
    · rintro ⟨ds, hds, hbs | hbs⟩
      · exact absurd (List.map_eq_nil_iff.mp hbs.symm) hds.nonempty
      · cases hbs
  | cons b bs =>
    by_cases hb : b = '+'.toUInt8
    · subst hb
      rw [natural?, if_pos rfl, unsigned?_eq_some_iff]
      refine exists_congr fun ds => and_congr_right fun hds => ?_
      constructor
      · rintro rfl
        exact .inr rfl
      · rintro (hbs | hbs)
        · exact absurd hbs.symm (hds.ne_plus_cons bs)
        · exact (List.cons.inj hbs).2
    · rw [natural?, if_neg hb, unsigned?_eq_some_iff]
      refine exists_congr fun ds => and_congr_right fun _ => ?_
      constructor
      · exact .inl
      · rintro (hbs | hbs)
        · exact hbs
        · exact absurd (List.cons.inj hbs).1 hb

theorem flatMap_digitChar {ds : List Nat} (h : ∀ d ∈ ds, d < 10) :
    (ds.map Nat.digitChar).flatMap String.utf8EncodeChar = ds.map digitByte := by
  rw [List.flatMap_map, List.map_eq_flatMap]
  exact List.flatMap_congr fun d hd => utf8EncodeChar_digitChar (h d hd)

theorem natural?_eq_some_iff {bs : List UInt8} {n : Nat} :
    natural? bs = some n ↔ Encodes bs n := by
  rw [natural?_eq_some_iff_bytes]
  constructor
  · rintro ⟨ds, hds, rfl | rfl⟩
    · exact ⟨_, by rw [List.utf8Encode, flatMap_digitChar hds.below], ds, hds, .inl rfl⟩
    · refine ⟨_, ?_, ds, hds, .inr rfl⟩
      rw [List.utf8Encode, List.flatMap_cons, flatMap_digitChar hds.below]
      rfl
  · rintro ⟨text, hbs, ds, hds, rfl | rfl⟩
    · rw [List.utf8Encode, flatMap_digitChar hds.below, List.toByteArray_inj] at hbs
      exact ⟨ds, hds, .inl hbs⟩
    · rw [List.utf8Encode, List.flatMap_cons, flatMap_digitChar hds.below,
        List.toByteArray_inj] at hbs
      exact ⟨ds, hds, .inr hbs⟩

end SizedCache.Numeral
