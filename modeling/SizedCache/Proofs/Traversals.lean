import SizedCache.Table.Traversal
import Mathlib.Data.List.Perm.Basic

/-!
# Traversals agree

A fold by a combination that is associative and commutative gives the same value
however the entries are ordered and shared out, also where a part produces
nothing, and so does a search that at most one entry answers. So it does not
matter from which size on a traversal runs in parallel.
-/

namespace SizedCache.Table

variable {κ α β γ : Type}

namespace Shares

variable {transform : κ → α → Option β} {combine : β → β → β}

theorem foldl_merge_some (bs : List (Option β)) (b : β) :
    bs.foldl (Option.merge combine) (some b) = some ((bs.filterMap id).foldl combine b) := by
  induction bs generalizing b with
  | nil => rfl
  | cons c bs ih => cases c <;> exact ih _

theorem foldl_merge_none (bs : List (Option β)) :
    bs.foldl (Option.merge combine) none =
      match bs.filterMap id with
      | [] => none
      | b :: bs => some (bs.foldl combine b) := by
  induction bs with
  | nil => rfl
  | cons c bs ih =>
    cases c with
    | none => exact ih
    | some b => exact foldl_merge_some bs b

theorem reduce_part_entries (t : Table κ α) :
    (part t.entries).reduce transform combine = t.reduce transform combine := by
  rw [reduce, foldl_merge_none, List.filterMap_map]
  rfl

theorem reduce_eq_part [Std.Associative combine] (s : Shares κ α) :
    s.reduce transform combine = (part s.entries).reduce transform combine := by
  induction s with
  | part es => rfl
  | split left right ihl ihr =>
    -- what the left side gives can as well be the first value of the right side
    have hrest (bs : List (Option β)) (b : Option β) : bs.foldl (Option.merge combine) b =
        Option.merge combine b (bs.foldl (Option.merge combine) none) := by
      have hassoc := @List.foldl_assoc _ (Option.merge combine) _ bs b none
      cases b <;> exact hassoc
    show Option.merge combine (left.reduce transform combine) (right.reduce transform combine) = _
    rw [ihl, ihr]
    simp only [reduce, entries, List.map_append, List.foldl_append]
    exact (hrest _ _).symm

theorem reduce_of_perm [Std.Associative combine] [Std.Commutative combine] {t : Table κ α}
    {s : Shares κ α} (h : s.entries.Perm t.entries) :
    s.reduce transform combine = t.reduce transform combine := by
  rw [reduce_eq_part, ← reduce_part_entries]
  exact List.Perm.foldl_op_eq (h.map fun e => transform e.1 e.2)

theorem search_eq_findSome? (f : κ → α → Option β) (s : Shares κ α) :
    s.search f = s.entries.findSome? fun e => f e.1 e.2 := by
  induction s with
  | part es => rfl
  | split left right ihl ihr => rw [search, ihl, ihr, entries, List.findSome?_append]

end Shares

theorem reduce_eq_none_iff (t : Table κ α) (transform : κ → α → Option β) (combine : β → β → β) :
    t.reduce transform combine = none ↔ ∀ e ∈ t.entries, transform e.1 e.2 = none := by
  rw [← List.filterMap_eq_nil_iff, reduce]
  split <;> simp [*]

theorem search_eq_none_iff (t : Table κ α) (f : κ → α → Option β) :
    t.search f = none ↔ ∀ e ∈ t.entries, f e.1 e.2 = none :=
  List.findSome?_eq_none_iff

def AnsweredOnce (t : Table κ α) (f : κ → α → Option β) : Prop :=
  ∀ e ∈ t.entries, ∀ e' ∈ t.entries, (f e.1 e.2).isSome → (f e'.1 e'.2).isSome → e = e'

theorem AnsweredOnce.search_of_perm {t : Table κ α} {f : κ → α → Option β}
    (h : t.AnsweredOnce f) {s : Shares κ α} (hs : s.entries.Perm t.entries) :
    s.search f = t.search f := by
  rw [Shares.search_eq_findSome?]
  cases hfound : s.entries.findSome? fun e => f e.1 e.2 with
  | none =>
    rw [List.findSome?_eq_none_iff] at hfound
    exact ((t.search_eq_none_iff f).mpr fun e he => hfound e (hs.mem_iff.mpr he)).symm
  | some b =>
    obtain ⟨e, he, hb⟩ := List.exists_of_findSome?_eq_some hfound
    cases hsearch : t.search f with
    | none =>
      rw [(t.search_eq_none_iff f).mp hsearch e (hs.mem_iff.mp he)] at hb
      cases hb
    | some b' =>
      obtain ⟨e', he', hb'⟩ := List.exists_of_findSome?_eq_some hsearch
      obtain rfl : e = e' := h e (hs.mem_iff.mp he) e' he' (Option.isSome_of_eq_some hb)
        (Option.isSome_of_eq_some hb')
      rw [← hb, hb']

theorem Tour.sharesFrom_perm {t : Table κ α} (tour : t.Tour) (threshold : Nat) :
    (tour.sharesFrom threshold).entries.Perm t.entries := by
  unfold sharesFrom
  split
  · exact tour.perm
  · exact tour.perm

/-- With a combination that is associative and commutative, a fold gives one value
for every order of the entries and every way to share them out, whether it runs in
parallel or not, and none iff nothing is produced. A search that at most one entry
answers gives one answer, and none iff no entry answers. -/
theorem traversals_agree {combine : β → β → β}
    (hassoc : ∀ a b c, combine (combine a b) c = combine a (combine b c))
    (hcomm : ∀ a b, combine a b = combine b a) (t : Table κ α)
    (transform : κ → α → Option β) :
    (∀ s : Shares κ α, s.entries.Perm t.entries →
      s.reduce transform combine = t.reduce transform combine) ∧
    (∀ threshold tour,
      t.reduceParallel threshold tour transform combine = t.reduce transform combine) ∧
    (t.reduce transform combine = none ↔ ∀ e ∈ t.entries, transform e.1 e.2 = none) ∧
    ∀ f : κ → α → Option γ, t.AnsweredOnce f →
      (∀ threshold tour, t.searchParallel threshold tour f = t.search f) ∧
      (t.search f = none ↔ ∀ e ∈ t.entries, f e.1 e.2 = none) := by
  have : Std.Associative combine := ⟨hassoc⟩
  have : Std.Commutative combine := ⟨hcomm⟩
  refine ⟨fun s hs => Shares.reduce_of_perm hs, fun threshold tour => ?_,
    t.reduce_eq_none_iff transform combine, fun f honce => ⟨fun threshold tour => ?_,
    t.search_eq_none_iff f⟩⟩
  · exact Shares.reduce_of_perm (tour.sharesFrom_perm threshold)
  · exact honce.search_of_perm (tour.sharesFrom_perm threshold)

def fourEntries : Table Nat Nat := ⟨[(1, 10), (2, 20), (3, 31), (4, 40)], by decide⟩

def threeWorkers : fourEntries.Tour where
  shares := .split (.part [(3, 31)]) (.split (.part []) (.part [(4, 40), (1, 10), (2, 20)]))
  perm := by decide

def evenValue (_ v : Nat) : Option Nat := if v % 2 = 0 then some v else none

def oddKey (k v : Nat) : Option Nat := if v % 2 = 1 then some k else none

theorem traversals_agree_three_workers :
    fourEntries.reduceParallel 4 threeWorkers evenValue (· + ·) = some 70 ∧
      fourEntries.reduceParallel 5 threeWorkers evenValue (· + ·) = some 70 ∧
      fourEntries.AnsweredOnce oddKey ∧
      fourEntries.searchParallel 4 threeWorkers oddKey = some 3 := by
  obtain ⟨-, hreduce, -, hsearch⟩ := traversals_agree Nat.add_assoc Nat.add_comm fourEntries evenValue
  have honce : fourEntries.AnsweredOnce oddKey := by
    unfold AnsweredOnce
    decide
  obtain ⟨hfound, -⟩ := hsearch oddKey honce
  exact ⟨hreduce 4 threeWorkers, hreduce 5 threeWorkers, honce, hfound 4 threeWorkers⟩

end SizedCache.Table
