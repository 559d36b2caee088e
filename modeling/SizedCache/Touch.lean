/-!
# Touches

A touch says when a key was last used: a wall clock reading and the number of
the touch. Touches are ordered by number, so a wall clock that steps back cannot
make a fresh touch look old; the reading only separates equal numbers.
-/

namespace SizedCache

structure Touch where
  /-- Unix milliseconds. -/
  millis : Int64
  number : UInt64
deriving DecidableEq, Repr, Inhabited

namespace Touch

instance : LT Touch :=
  ⟨fun a b => a.number < b.number ∨ a.number = b.number ∧ a.millis < b.millis⟩

instance : LE Touch :=
  ⟨fun a b => a.number < b.number ∨ a.number = b.number ∧ a.millis ≤ b.millis⟩

instance (a b : Touch) : Decidable (a < b) :=
  inferInstanceAs (Decidable (_ ∨ _))

instance (a b : Touch) : Decidable (a ≤ b) :=
  inferInstanceAs (Decidable (_ ∨ _))

instance : Ord Touch := ⟨fun a b => compareOfLessAndEq a b⟩

/-- Follows every touch with a smaller number, whatever the clock said then. -/
def upperBound (now : Int64) : Touch := ⟨now, UInt64.ofNat (UInt64.size - 1)⟩

def sort (ts : List Touch) : List Touch :=
  ts.mergeSort fun a b => a ≤ b

end Touch

end SizedCache
