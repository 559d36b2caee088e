import SizedCache.Report
import SizedCache.Table
import SizedCache.Timed

/-!
# Policies

The two decisions that a pass leaves to its owner: which entries go on their own
account, and which go when there are too many. A policy may keep notes of type
`σ` between its calls, and may fail.
-/

namespace SizedCache

-- ---------------------------------------------------------------------------
-- Removal tests
-- ---------------------------------------------------------------------------

/-- What a removal test does with one entry. Besides answering, it may ask
whether a pass is in progress and may attempt a cleanup of its own. -/
inductive Judgement (σ : Type) where
  | keep (notes : σ)
  | remove (notes : σ)
  | fail (failure : Failure) (notes : σ)
  | askRunning (resume : Bool → Judgement σ)
  | attempt (resume : Outcome → Judgement σ)

abbrev RemovalTest (κ α σ : Type) := σ → Int64 → κ → α → Judgement σ

abbrev Rule (κ α : Type) := Int64 → κ → α → Bool

namespace Rule

variable {κ α σ : Type}

def never : Rule κ α := fun _ _ _ => false

def whenExpired [Expirable α] : Rule κ α := fun now _ v => Expirable.expired v now

def toTest (rule : Rule κ α) : RemovalTest κ α σ := fun notes now k v =>
  if rule now k v then .remove notes else .keep notes

end Rule

-- ---------------------------------------------------------------------------
-- The order of a walk
-- ---------------------------------------------------------------------------

structure Walk (κ : Type) where
  arrange : List κ → List κ
  perm : ∀ ks, (arrange ks).Perm ks

def Walk.stored {κ : Type} : Walk κ := ⟨id, fun ks => .refl ks⟩

-- ---------------------------------------------------------------------------
-- Victim selectors
-- ---------------------------------------------------------------------------

inductive Choice (κ σ : Type) where
  | victims (keys : List κ) (notes : σ)
  | fail (failure : Failure) (notes : σ)

/-- Asked when the store holds more than its ceiling, with its size and the size
to reach. Victims beyond that size are spared, so a selector may name too many. -/
inductive Selector (κ α σ : Type) where
  | anyOrder
  | leastRecent
  | custom (choose : σ → Nat → Nat → Table κ α → Choice κ σ)

end SizedCache
