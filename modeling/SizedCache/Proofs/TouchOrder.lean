import SizedCache.Touch

/-!
# The order of touches

Touches are linearly ordered, so sorting them by age is determined by their
contents alone.
-/

namespace SizedCache.Touch

theorem le_def {a b : Touch} :
    a ≤ b ↔ a.number < b.number ∨ a.number = b.number ∧ a.millis ≤ b.millis :=
  Iff.rfl

theorem lt_def {a b : Touch} :
    a < b ↔ a.number < b.number ∨ a.number = b.number ∧ a.millis < b.millis :=
  Iff.rfl

theorem lt_of_number_lt {a b : Touch} (h : a.number < b.number) : a < b := .inl h

theorem le_of_lt {a b : Touch} (h : a < b) : a ≤ b := by
  rcases lt_def.mp h with h | ⟨h, hm⟩
  · exact .inl h
  · exact .inr ⟨h, Int64.le_of_lt hm⟩

theorem not_le_of_lt {a b : Touch} (h : a < b) : ¬ b ≤ a := by
  intro hle
  rcases lt_def.mp h with h | ⟨h, hm⟩ <;> rcases le_def.mp hle with h' | ⟨h', hm'⟩
  · exact UInt64.lt_irrefl _ (UInt64.lt_trans h h')
  · exact UInt64.lt_irrefl _ (h' ▸ h)
  · exact UInt64.lt_irrefl _ (h ▸ h')
  · exact Int64.lt_irrefl (Int64.lt_of_lt_of_le hm hm')

theorem le_of_number_lt {a b : Touch} (h : a.number < b.number) : a ≤ b := .inl h

theorem number_le_of_le {a b : Touch} (h : a ≤ b) : a.number ≤ b.number := by
  rcases le_def.mp h with h | ⟨h, -⟩
  · exact UInt64.le_of_lt h
  · exact h ▸ UInt64.le_refl _

theorem le_total (a b : Touch) : a ≤ b ∨ b ≤ a := by
  rcases UInt64.le_total a.number b.number with h | h
  · rcases UInt64.lt_or_eq_of_le h with h | h
    · exact .inl (le_of_number_lt h)
    · rcases Int64.le_total a.millis b.millis with hm | hm
      · exact .inl (.inr ⟨h, hm⟩)
      · exact .inr (.inr ⟨h.symm, hm⟩)
  · rcases UInt64.lt_or_eq_of_le h with h | h
    · exact .inr (le_of_number_lt h)
    · rcases Int64.le_total a.millis b.millis with hm | hm
      · exact .inl (.inr ⟨h.symm, hm⟩)
      · exact .inr (.inr ⟨h, hm⟩)

theorem le_trans {a b c : Touch} (hab : a ≤ b) (hbc : b ≤ c) : a ≤ c := by
  rcases le_def.mp hab with h | ⟨h, hm⟩
  · exact .inl (UInt64.lt_of_lt_of_le h (number_le_of_le hbc))
  · rcases le_def.mp hbc with h' | ⟨h', hm'⟩
    · exact .inl (h ▸ h')
    · exact .inr ⟨h.trans h', Int64.le_trans hm hm'⟩

theorem toNat_number_upperBound (now : Int64) :
    (upperBound now).number.toNat = UInt64.size - 1 :=
  UInt64.toNat_ofNat_of_lt' (by decide)

theorem pairwise_mergeSort {α : Type} (f : α → Touch) (l : List α) :
    (l.mergeSort fun a b => f a ≤ f b).Pairwise fun a b => f a ≤ f b := by
  refine (List.pairwise_mergeSort ?_ ?_ l).imp fun h => of_decide_eq_true h
  · intro a b c hab hbc
    exact decide_eq_true (le_trans (of_decide_eq_true hab) (of_decide_eq_true hbc))
  · intro a b
    rcases le_total (f a) (f b) with h | h <;> simp [h]

end SizedCache.Touch
