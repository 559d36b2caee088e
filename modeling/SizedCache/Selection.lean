import SizedCache.Policy
import SizedCache.Recency

/-!
# Selection of victims

Selection by recency takes the touch that is old enough to count as the cutoff
and names every stored key last touched at or before it, oldest first. Keys
without a record are never named.
-/

namespace SizedCache

variable {κ α σ : Type} [DecidableEq κ]

/-- The `current - target` oldest touches go: the newest of them, or of all
there are. With nothing recorded every touch counts as old. -/
def Recency.cutoff (r : Recency κ) (now : Int64) (current target : Nat) : Option Touch :=
  let excess := current - target
  if excess = 0 then none
  else
    match Touch.sort r.stamps.values with
    | [] => some (.upperBound now)
    | t :: ts => some ((t :: ts).getD (min excess (ts.length + 1) - 1) t)

def Recency.victims (r : Recency κ) (now : Int64) (current target : Nat) (stored : List κ) :
    List κ :=
  match r.cutoff now current target with
  | none => []
  | some cutoff =>
    let old := stored.filterMap fun k =>
      (r.get? k).bind fun t => if t ≤ cutoff then some (t, k) else none
    (old.mergeSort fun a b => a.1 ≤ b.1).map Prod.snd

def Selector.choose (s : Selector κ α σ) (walk : Walk κ) (tracker : Option (Recency κ))
    (notes : σ) (now : Int64) (current target : Nat) (store : Table κ α) : Choice κ σ :=
  match s with
  | .anyOrder => .victims (walk.arrange store.keys) notes
  | .leastRecent =>
    .victims ((tracker.getD {}).victims now current target (walk.arrange store.keys)) notes
  | .custom choose => choose notes current target store

end SizedCache
