import SizedCache.Proofs.VictimLaws

/-!
# Selection by recency as sorting

Selection by recency looks for a cutoff among the touches, and then goes through
the stored keys. It names the keys that the plain way names: sort all records by
age, take as many of the oldest as there are keys too many, and keep those that
are stored. The two agree because no two records share a number, so that exactly
the taken records are at or before the cutoff.
-/

namespace SizedCache

namespace Recency

variable {κ : Type}

/-- The records that a plain selection takes: as many of the oldest as there are
keys above the target, or all. -/
def taken (r : Recency κ) (current target : Nat) : List (κ × Touch) :=
  r.byAge.take (min (current - target) r.size)

theorem taken_of_le {r : Recency κ} {current target : Nat} (h : current ≤ target) :
    r.taken current target = [] := by
  rw [taken, Nat.sub_eq_zero_of_le h, Nat.zero_min, List.take_zero]

theorem taken_of_empty {r : Recency κ} (h : r.size = 0) (current target : Nat) :
    r.taken current target = [] := by
  rw [taken, h, Nat.min_zero, List.take_zero]

theorem cutoff_eq_taken {r : Recency κ} {current target : Nat} (h : target < current)
    (now : Int64) :
    r.cutoff now current target =
      some ((r.taken current target).getLast?.elim (.upperBound now) Prod.snd) := by
  rw [cutoff_eq h]
  rcases Nat.eq_zero_or_pos r.size with hz | hpos
  · have hnil : r.byAge = [] := List.eq_nil_of_length_eq_zero (r.length_byAge.trans hz)
    rw [taken_of_empty hz, hnil]
    rfl
  · have hn : min (current - target) r.size ≠ 0 := by omega
    have hlt : min (current - target) r.size - 1 < r.byAge.length := by
      rw [length_byAge]
      omega
    rw [taken, List.getLast?_take, if_neg hn, List.getElem?_eq_getElem hlt]
    rfl

theorem taken_ne_nil {r : Recency κ} {current target : Nat} (h : target < current)
    (hr : r.size ≠ 0) : r.taken current target ≠ [] := by
  rw [← List.length_pos_iff, taken, List.length_take, length_byAge]
  omega

variable [DecidableEq κ]

/-- The taken records that are stored go, in their order. -/
theorem Numbered.victims_eq_taken {r : Recency κ} (h : r.Numbered) {α : Type} (store : Table κ α)
    (walk : Walk κ) (now : Int64) (current target : Nat) :
    r.victims now current target (walk.arrange store.keys) =
      ((r.taken current target).map Prod.fst).filter store.contains := by
  have hwalk := walk.perm store.keys
  rw [h.victims_eq (hwalk.nodup_iff.mpr store.keys_nodup), taken, ← length_byAge,
    ← List.take_eq_take_min]
  refine List.filter_congr fun k _ => ?_
  rw [Bool.eq_iff_iff, decide_eq_true_iff, hwalk.mem_iff, Table.contains_iff]

end Recency

variable {κ α σ : Type} [DecidableEq κ]

/-- Selection by recency from records that any calls left, under any clocks, names
what the plain way names. It names no key twice, and none if nothing is above the
target or nothing is recorded. Where keys are above the target, the cutoff is the
touch of the last record taken, or follows every touch if nothing is recorded. -/
theorem selects_oldest_stored {calls : List (Recency.Call κ)}
    (hroom : Recency.Call.touchesIn calls < UInt64.size) (store : Table κ α) (walk : Walk κ)
    (notes : σ) (now : Int64) (current target : Nat) :
    let r := ({} : Recency κ).run calls
    let named := ((r.taken current target).map Prod.fst).filter store.contains
    (Selector.leastRecent : Selector κ α σ).choose walk (some r) notes now current target store =
        .victims named notes ∧
      named.Nodup ∧ (current ≤ target ∨ r.size = 0 → named = []) ∧
      (current ≤ target → r.cutoff now current target = none) ∧
      (target < current → r.size ≠ 0 → ∃ e, (r.taken current target).getLast? = some e ∧
        r.cutoff now current target = some e.2) ∧
      (target < current → r.size = 0 →
        r.cutoff now current target = some ⟨now, UInt64.ofNat (UInt64.size - 1)⟩) := by
  intro r named
  have hr : r.Numbered := .of_run hroom
  have hvictims := hr.victims_eq_taken store walk now current target
  refine ⟨congrArg (Choice.victims · notes) hvictims, ?_, ?_, Recency.cutoff_of_le, ?_, ?_⟩
  · rw [show named = _ from hvictims.symm]
    exact Recency.victims_nodup ((walk.perm _).nodup_iff.mpr store.keys_nodup)
  · intro h
    have hnil : r.taken current target = [] := by
      rcases h with hle | hz
      · exact Recency.taken_of_le hle
      · exact Recency.taken_of_empty hz current target
    simp only [named, hnil, List.map_nil, List.filter_nil]
  · intro hlt hsome
    have hlast := List.getLast?_eq_some_getLast (Recency.taken_ne_nil hlt hsome)
    exact ⟨_, hlast, by rw [Recency.cutoff_eq_taken hlt, hlast]; rfl⟩
  · intro hlt hz
    rw [Recency.cutoff_eq_taken hlt, Recency.taken_of_empty hz]
    rfl

def unsteadyCalls : List (Recency.Call Nat) :=
  [.touch 50 9, .clear, .touch 40 1, .touch 30 2, .touch 20 3, .touch 10 4, .touch 60 1, .forget 4,
    .touch 5 5, .retain fun k => k != 3]

def halfTracked : Table Nat Nat := ⟨[(5, 50), (1, 10), (7, 70)], by decide⟩

theorem selects_oldest_stored_unsteady :
    Recency.Call.touchesIn unsteadyCalls < UInt64.size ∧
    (Selector.leastRecent : Selector Nat Nat Unit).choose .stored
      (some (({} : Recency Nat).run unsteadyCalls)) () 0 3 1 halfTracked = .victims [1] () ∧
    (({} : Recency Nat).run unsteadyCalls).cutoff 0 3 1 = some ⟨60, 5⟩ := by
  have hroom : Recency.Call.touchesIn unsteadyCalls < UInt64.size := by decide
  have hage : (({} : Recency Nat).run unsteadyCalls).byAge =
      [(2, ⟨30, 2⟩), (1, ⟨60, 5⟩), (5, ⟨5, 6⟩)] :=
    (Recency.Numbered.of_run hroom).byAge_eq (by decide) (by decide)
  have htaken : (({} : Recency Nat).run unsteadyCalls).taken 3 1 =
      [(2, ⟨30, 2⟩), (1, ⟨60, 5⟩)] := by
    rw [Recency.taken, hage]
    rfl
  obtain ⟨hchoose, -, -, -, hcutoff, -⟩ :=
    selects_oldest_stored hroom halfTracked .stored () 0 3 1
  obtain ⟨e, he, hcut⟩ := hcutoff (by decide) (by decide)
  rw [htaken] at hchoose he
  obtain rfl := Option.some.inj he
  exact ⟨hroom, hchoose, hcut⟩

end SizedCache
