import SizedCache.Cache.Builder
import SizedCache.Proofs.Threads

/-!
# Sums under contended keys

Threads that add to words, take them out and read them, all under the same keys.
At every action a word holds what was added to it since it was last taken out,
so no addition is lost, and whoever takes a word out is the only one to get it.
-/

namespace SizedCache

variable {κ α σ : Type}

theorem forall_split_concat {β : Type} {P : List β → β → Prop} {l : List β} {e : β}
    (h : ∀ before x after, l = before ++ x :: after → P before x) (he : P l e) :
    ∀ before x after, l ++ [e] = before ++ x :: after → P before x := by
  intro before x after heq
  rcases List.eq_nil_or_concat after with rfl | ⟨after, y, rfl⟩
  · obtain ⟨rfl, hx⟩ := List.append_inj' heq rfl
    cases hx
    exact he
  · rw [List.concat_eq_append, ← List.cons_append, ← List.append_assoc] at heq
    obtain ⟨heq, -⟩ := List.append_inj' heq rfl
    exact h before x after heq

inductive WordCall (κ : Type) where
  | merge (k : κ) (v : Int64)
  | remove (k : κ)
  | get (k : κ)

def WordCall.toCall : WordCall κ → KeyCall κ Int64
  | merge k v => .merge k v fun old v => .ok (some (old + v))
  | remove k => .remove k
  | get k => .get k

variable [DecidableEq κ]

-- ---------------------------------------------------------------------------
-- What a log tells of a key
-- ---------------------------------------------------------------------------

namespace Deed

def merged? (k : κ) : Deed κ α → Option α
  | .act (.merge j v _) _ _ => if j = k then some v else none
  | _ => none

/-- The value with which a removal of `k` answers. -/
def handed? (k : κ) : Deed κ α → Option α
  | .act (.remove j) _ (.value v) => if j = k then v else none
  | _ => none

def revives (k : κ) : Deed κ α → Bool
  | .act (.merge j _ _) none _ => j = k
  | _ => false

theorem act_elsewhere {k : κ} {a : KeyCall κ α} (h : a.key ≠ k) (found : Option α)
    (reply : Cache.Reply α) :
    (act a found reply).merged? k = none ∧ (act a found reply).handed? k = none ∧
      (act a found reply).revives k = false := by
  refine ⟨?_, ?_, ?_⟩
  · unfold merged?
    split
    · rename_i heq
      cases heq
      exact if_neg h
    · rfl
  · unfold handed?
    split
    · rename_i heq
      cases heq
      exact if_neg h
    · rfl
  · unfold revives
    split
    · rename_i heq
      cases heq
      exact decide_eq_false h
    · rfl

theorem eq_of_handed? {k : κ} {v : α} {d : Deed κ α} (h : d.handed? k = some v) :
    ∃ found, d = .act (.remove k) found (.value (some v)) := by
  unfold handed? at h
  split at h
  · split at h
    · rename_i found _ hk
      exact ⟨found, by rw [hk, h]⟩
    · cases h
  · cases h

end Deed

namespace Log

def merged (log : Log κ α) (k : κ) : List α := log.filterMap (·.2.merged? k)

def handed (log : Log κ α) (k : κ) : List α := log.filterMap (·.2.handed? k)

def births (log : Log κ α) (k : κ) : Nat := log.countP (·.2.revives k)

section Concat

variable (log : Log κ α) (i : Nat) (d : Deed κ α) (k : κ)

theorem merged_concat : merged (log ++ [(i, d)]) k = merged log k ++ (d.merged? k).toList := by
  cases h : d.merged? k <;> simp [merged, h]

theorem handed_concat : handed (log ++ [(i, d)]) k = handed log k ++ (d.handed? k).toList := by
  cases h : d.handed? k <;> simp [handed, h]

theorem births_concat :
    births (log ++ [(i, d)]) k = births log k + if d.revives k then 1 else 0 := by
  simp [births]

end Concat

/-- The cell of `k` holds what was merged and not handed out, and it is the one
incarnation of the key that was not handed out. -/
structure Balanced (log : Log κ Int64) (k : κ) (cell : Option Int64) : Prop where
  sum : (log.handed k).sum + cell.getD 0 = (log.merged k).sum
  count : log.births k = (log.handed k).length + if cell.isSome then 1 else 0

namespace Balanced

variable {log : Log κ Int64} {k : κ} {cell : Option Int64}

theorem concat (h : log.Balanced k cell) (i : Nat) {d : Deed κ Int64} {left : Option Int64}
    (hsum : cell.getD 0 + (d.merged? k).getD 0 = (d.handed? k).getD 0 + left.getD 0)
    (hcount : (if cell.isSome then 1 else 0) + (if d.revives k then 1 else 0) =
      (d.handed? k).toList.length + if left.isSome then 1 else 0) :
    Balanced (log ++ [(i, d)]) k left where
  sum := by
    have htoList : ∀ o : Option Int64, o.toList.sum = o.getD 0 := by
      rintro (_ | v) <;> simp
    calc (handed (log ++ [(i, d)]) k).sum + left.getD 0
        = (log.handed k).sum + (d.handed? k).getD 0 + left.getD 0 := by
          rw [handed_concat, List.sum_append, htoList]
      _ = (log.handed k).sum + cell.getD 0 + (d.merged? k).getD 0 := by
          rw [Int64.add_assoc, ← hsum, ← Int64.add_assoc]
      _ = (merged (log ++ [(i, d)]) k).sum := by
          rw [h.sum, merged_concat, List.sum_append, htoList]
  count := by
    rw [births_concat, handed_concat, List.length_append, h.count]
    omega

theorem concat_idle (h : log.Balanced k cell) (i : Nat) {d : Deed κ Int64}
    (hm : d.merged? k = none) (hh : d.handed? k = none) (hr : d.revives k = false) :
    Balanced (log ++ [(i, d)]) k cell :=
  h.concat i (by simp [hm, hh]) (by simp [hr, hh])

theorem concat_act (h : log.Balanced k cell) (i : Nat) {a : WordCall κ}
    (hk : a.toCall.key = k) :
    Balanced (log ++ [(i, .act a.toCall cell (a.toCall.onCell cell).1)]) k
      (a.toCall.onCell cell).2 := by
  cases a with
  | merge j v =>
    obtain rfl : j = k := hk
    cases cell <;>
      exact h.concat i (by simp [WordCall.toCall, KeyCall.onCell, Deed.merged?, Deed.handed?])
        (by simp [WordCall.toCall, KeyCall.onCell, Deed.revives, Deed.handed?])
  | remove j =>
    obtain rfl : j = k := hk
    exact h.concat i (by simp [WordCall.toCall, KeyCall.onCell, Deed.merged?, Deed.handed?])
      (by cases cell <;> simp [WordCall.toCall, KeyCall.onCell, Deed.revives, Deed.handed?])
  | get j => exact h.concat_idle i rfl rfl rfl

end Balanced

end Log

-- ---------------------------------------------------------------------------
-- Runs
-- ---------------------------------------------------------------------------

namespace Crew

structure Accounted (w : Crew κ Int64 σ) : Prop where
  cells : ∀ k, w.log.Balanced k (w.cache.store.get? k)
  acts : ∀ before e after, w.log = before ++ e :: after →
    ∀ a found reply, e.2 = .act a found reply →
      Log.Balanced before a.key found ∧ reply = (a.onCell found).1

variable {w : Crew κ Int64 σ}

theorem Accounted.acted (h : w.Accounted) (i : Nat) (now : Int64) (a : WordCall κ)
    (as : List (KeyCall κ Int64)) : (w.acted i now a.toCall as).Accounted where
  cells k := by
    show Log.Balanced (w.log ++ [(i, _)]) k ((a.toCall.act w.cache.store).2.get? k)
    rw [KeyCall.get?_act, KeyCall.act_fst]
    split
    · rename_i hk
      subst hk
      exact (h.cells _).concat_act i rfl
    · rename_i hk
      obtain ⟨hm, hh, hr⟩ := Deed.act_elsewhere hk (w.cache.store.get? a.toCall.key)
        (a.toCall.onCell (w.cache.store.get? a.toCall.key)).1
      exact (h.cells k).concat_idle i hm hh hr
  acts := by
    apply forall_split_concat h.acts
    rintro _ _ _ ⟨⟩
    exact ⟨h.cells _, KeyCall.act_fst ..⟩

theorem Accounted.chored (h : w.Accounted) (i : Nat) (now : Int64) (x : Chore κ)
    (xs : List (Chore κ)) (as : List (KeyCall κ Int64)) : (w.chored i now x xs as).Accounted where
  cells k := by
    obtain ⟨-, hstore, -⟩ := Cache.chore_frame { w.cache with now } x
    show Log.Balanced (w.log ++ [(i, _)]) k (({ w.cache with now }.chore x).store.get? k)
    rw [hstore]
    exact (h.cells k).concat_idle i rfl rfl rfl
  acts := by
    apply forall_split_concat h.acts
    rintro _ _ _ ⟨⟩

/-- Threads add to words, take them out and read them, on a cache that was empty,
and no pass is made. At every moment each thread has made a first part of its
calls. What was added to a key is what was handed out of it and what it holds; the
key was brought to life once for every time it was handed out, and once more if
it is present. Whoever is handed a word takes the one incarnation that was not
handed out yet, with all that was added to it. -/
theorem words_conserved {c : Cache κ Int64 σ} (hempty : c.store = .empty)
    (programs : List (List (WordCall κ))) {moves : List Move} (hmoves : .fire ∉ moves) :
    let w := (ofCalls c (programs.map fun p => p.map WordCall.toCall)).run moves
    (∀ i p, programs[i]? = some p →
      ∃ rest, p.map WordCall.toCall = w.callsBy i ++ rest ∧ (w.Quiet → rest = [])) ∧
    ∀ k, (w.log.handed k).sum + (w.cache.store.get? k).getD 0 = (w.log.merged k).sum ∧
      w.log.births k =
        (w.log.handed k).length + (if (w.cache.store.get? k).isSome then 1 else 0) ∧
      ∀ before e after v, w.log = before ++ e :: after → e.2.handed? k = some v →
        Log.births before k = (Log.handed before k).length + 1 ∧
          (Log.handed before k).sum + v = (Log.merged before k).sum := by
  intro w
  let calls := programs.map fun p => p.map (WordCall.toCall (κ := κ))
  have hstart : (ofCalls c calls).Accounted := by
    constructor
    · intro k
      show Log.Balanced [] k (c.store.get? k)
      rw [hempty]
      exact ⟨rfl, rfl⟩
    · intro before e after h
      exact absurd h (by simp [ofCalls, start])
  obtain ⟨hfollows, haccounted⟩ : w.Follows calls ∧ w.Accounted := by
    refine run_calls (follows_ofCalls c calls) hstart ?_ ?_ hmoves
    · intro w i now a as hf hw hi
      obtain ⟨p, -, hp⟩ := List.mem_map.mp (List.mem_of_getElem? (hf.program hi))
      have ha : a ∈ p.map WordCall.toCall := by rw [hp]; simp
      obtain ⟨word, -, rfl⟩ := List.mem_map.mp ha
      exact hw.acted i now word as
    · intro w i now x xs as _ hw _
      exact hw.chored i now x xs as
  refine ⟨?_, fun k => ⟨(haccounted.cells k).sum, (haccounted.cells k).count, ?_⟩⟩
  · intro i p hp
    obtain ⟨as, xs, hi, heq⟩ := hfollows.of_program (i := i) (p := p.map WordCall.toCall)
      (by simp [calls, hp])
    exact ⟨as, heq, fun hquiet => (hquiet.of_calling hi).1⟩
  · intro before e after v hlog hv
    obtain ⟨found, he⟩ := Deed.eq_of_handed? hv
    obtain ⟨hbefore, hreply⟩ := haccounted.acts before e after hlog _ _ _ he
    cases hreply
    exact ⟨hbefore.count, hbefore.sum⟩

/-- The two additions go around the end of the range, one of the two removals gets
their sum, and the last addition starts anew. -/
def wordPrograms : List (List (WordCall Nat)) :=
  [[.merge 1 5, .remove 1], [.merge 1 Int64.maxValue, .get 1, .remove 1], [.merge 1 9]]

def wordMoves : List Move :=
  [0, 1, 0, 1, 0, 1, 1, 0, 0, 1, 1, 1, 2, 0, 1, 2].map (.act · 0)

theorem words_conserved_wrapping : ∃ c : Cache Nat Int64 Unit,
    (Builder.start ⟨16, 3, 1, 0⟩ true).leastRecentlyTouched.build 0 () = .ok c ∧
      c.store = .empty ∧ .fire ∉ wordMoves ∧
      let w := (ofCalls c (wordPrograms.map fun p => p.map WordCall.toCall)).run wordMoves
      w.log.merged 1 = [5, Int64.maxValue, 9] ∧ w.log.handed 1 = [Int64.minValue + 4] ∧
        (w.log.handed 1).sum + (w.cache.store.get? 1).getD 0 = (w.log.merged 1).sum ∧
        w.log.births 1 = 2 := by
  have hmoves : .fire ∉ wordMoves := by simp [wordMoves]
  refine ⟨_, rfl, rfl, hmoves, by decide +kernel, by decide +kernel, ?_, by decide +kernel⟩
  exact ((words_conserved rfl wordPrograms hmoves).2 1).1

end Crew

end SizedCache
