import SizedCache.Recency

/-!
# Runs of calls on records

The calls that can change recency records, as data, so that a run is a list of
them. Each touch brings the wall clock that it reads, and the clock may go any way
between two touches.
-/

namespace SizedCache.Recency

inductive Call (κ : Type) where
  | touch (now : Int64) (k : κ)
  | forget (k : κ)
  | retain (keep : κ → Bool)
  | clear

variable {κ : Type}

def Call.isTouch : Call κ → Bool
  | .touch .. => true
  | _ => false

def Call.touchesIn (calls : List (Call κ)) : Nat := calls.countP Call.isTouch

variable [DecidableEq κ]

def step (r : Recency κ) : Call κ → Recency κ
  | .touch now k => r.touch now k
  | .forget k => r.forget k
  | .retain keep => r.retain keep
  | .clear => r.clear

def run (r : Recency κ) (calls : List (Call κ)) : Recency κ := calls.foldl step r

end SizedCache.Recency
