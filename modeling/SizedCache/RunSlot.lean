import SizedCache.Failure

/-!
# The run slot

At most one cleanup pass runs at a time: a pass holds the slot, which names its
runner, and an attempt that finds the slot held gives up at once. The slot is
free again when the pass ends, however it ends.
-/

namespace SizedCache

structure RunSlot (τ : Type) where
  runner : Option τ := none
deriving DecidableEq, Repr

namespace RunSlot

variable {τ ρ : Type}

def isRunning (s : RunSlot τ) : Bool := s.runner.isSome

def claim? (s : RunSlot τ) (who : τ) : Option (RunSlot τ) :=
  match s.runner with
  | none => some ⟨some who⟩
  | some _ => none

def release (_ : RunSlot τ) : RunSlot τ := {}

/-- Runs `body` inside the slot: its answer or failure, or `none` if the slot
was held, and the slot afterwards. -/
def hold (s : RunSlot τ) (who : τ) (body : RunSlot τ → Except Failure ρ) :
    Option (Except Failure ρ) × RunSlot τ :=
  match s.claim? who with
  | none => (none, s)
  | some held => (some (body held), held.release)

end RunSlot

end SizedCache
