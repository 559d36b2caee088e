import SizedCache.Table

/-!
# Traversals

Folding and searching over the entries. From a given size on a traversal may be
shared out among workers, in any order and any parts, so results are meant for
combinations that depend on neither.
-/

namespace SizedCache.Table

variable {κ α β : Type}

def reduce (t : Table κ α) (transform : κ → α → Option β) (combine : β → β → β) : Option β :=
  match t.entries.filterMap fun e => transform e.1 e.2 with
  | [] => none
  | b :: bs => some (bs.foldl combine b)

def search (t : Table κ α) (f : κ → α → Option β) : Option β :=
  t.entries.findSome? fun e => f e.1 e.2

-- ---------------------------------------------------------------------------
-- Workers
-- ---------------------------------------------------------------------------

/-- Entries as they are shared out: one worker visits a part in turn, and what
the two sides of a split give is put together. A part may be empty. -/
inductive Shares (κ α : Type) where
  | part (es : List (κ × α))
  | split (left right : Shares κ α)

namespace Shares

def entries : Shares κ α → List (κ × α)
  | part es => es
  | split left right => left.entries ++ right.entries

def reduce (transform : κ → α → Option β) (combine : β → β → β) : Shares κ α → Option β
  | part es => (es.map fun e => transform e.1 e.2).foldl (Option.merge combine) none
  | split left right =>
    Option.merge combine (left.reduce transform combine) (right.reduce transform combine)

def search (f : κ → α → Option β) : Shares κ α → Option β
  | part es => es.findSome? fun e => f e.1 e.2
  | split left right => (left.search f).or (right.search f)

end Shares

structure Tour (t : Table κ α) where
  shares : Shares κ α
  perm : shares.entries.Perm t.entries

def runsParallel (t : Table κ α) (threshold : Nat) : Bool := threshold ≤ t.size

/-- Below `threshold` entries one worker visits all of them. -/
def Tour.sharesFrom {t : Table κ α} (tour : t.Tour) (threshold : Nat) : Shares κ α :=
  if t.runsParallel threshold then tour.shares else .part tour.shares.entries

def reduceParallel (t : Table κ α) (threshold : Nat) (tour : t.Tour)
    (transform : κ → α → Option β) (combine : β → β → β) : Option β :=
  (tour.sharesFrom threshold).reduce transform combine

/-- `search` by the workers of a tour: any answer of `f` may win. -/
def searchParallel (t : Table κ α) (threshold : Nat) (tour : t.Tour) (f : κ → α → Option β) :
    Option β :=
  (tour.sharesFrom threshold).search f

end SizedCache.Table
