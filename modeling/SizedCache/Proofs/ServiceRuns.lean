import SizedCache.Proofs.ClockLaws
import SizedCache.Proofs.RequestLaws

/-!
# Runs of a service

A served cache gets requests while time passes, and a run of it is a list of what
happens. The accepted writes of a run and its clock are told by that list alone,
and passes leave no mark on them.
-/

namespace SizedCache

/-- What happens to a service. A background pass may also come without a timer
that asked for it. -/
inductive Happening where
  | request (r : Http.Request)
  | sleep (ms : Nat)
  | setClock (now : Int64)
  | pass (t : Trigger)

namespace Happening

def IsPass (defaultTtl : UInt64) : Happening → Bool
  | .pass _ => true
  | .request r => r.action? defaultTtl = some .cleanup
  | .sleep _ | .setClock _ => false

def clock (now : Int64) : Happening → Int64
  | .sleep ms => now + Int64.ofNat ms
  | .setClock later => later
  | .request _ | .pass _ => now

def write? (defaultTtl : UInt64) : Happening → Option Write
  | .request r => (r.action? defaultTtl).bind Action.write?
  | .sleep _ | .setClock _ | .pass _ => none

/-- Whether the wall clock does not step back. One that runs past its last word
would. -/
def Forward (now : Int64) : Happening → Prop
  | .sleep ms => now.toInt + ms < 2 ^ 63
  | .setClock later => now ≤ later
  | .request _ | .pass _ => True

instance (now : Int64) (x : Happening) : Decidable (x.Forward now) :=
  match x with
  | .sleep ms => inferInstanceAs (Decidable (now.toInt + ms < 2 ^ 63))
  | .setClock later => inferInstanceAs (Decidable (now ≤ later))
  | .request _ | .pass _ => .isTrue trivial

end Happening

def Forward (now : Int64) : List Happening → Prop
  | [] => True
  | h :: hs => h.Forward now ∧ Forward (h.clock now) hs

instance Forward.decide : (now : Int64) → (hs : List Happening) → Decidable (Forward now hs)
  | _, [] => .isTrue trivial
  | now, h :: hs =>
    have := Forward.decide (h.clock now) hs
    inferInstanceAs (Decidable (h.Forward now ∧ Forward (h.clock now) hs))

def endClock (now : Int64) (hs : List Happening) : Int64 := hs.foldl Happening.clock now

/-- The accepted writes of a run that begins at `now`, each with its time. -/
def history (defaultTtl : UInt64) (now : Int64) : List Happening → List (Int64 × Write)
  | [] => []
  | h :: hs =>
    ((h.write? defaultTtl).map (now, ·)).toList ++ history defaultTtl (h.clock now) hs

namespace Service

variable {σ : Type}

def pass (s : Service σ) (t : Trigger) : Service σ :=
  { s with cache.core :=
      Scheduler.trigger (Cache.target s.cache.setup) t s.cache.now s.cache.core }

def step (s : Service σ) : Happening → Service σ
  | .request r => (s.answer r).2
  | .sleep ms => { s with cache := s.cache.sleep ms }
  | .setClock now => { s with cache := s.cache.setClock now }
  | .pass t => s.pass t

def run (s : Service σ) (hs : List Happening) : Service σ := hs.foldl step s

end Service

-- ---------------------------------------------------------------------------
-- Clock and history
-- ---------------------------------------------------------------------------

theorem le_of_mem_history {defaultTtl : UInt64} {now : Int64} {hs : List Happening}
    (h : Forward now hs) {w : Int64 × Write} (hw : w ∈ history defaultTtl now hs) :
    now.toInt ≤ w.1.toInt := by
  induction hs generalizing now with
  | nil => cases hw
  | cons x hs ih =>
    obtain ⟨hx, hrest⟩ := h
    rcases List.mem_append.mp hw with hw | hw
    · obtain ⟨u, -, rfl⟩ := Option.map_eq_some_iff.mp (Option.mem_toList.mp hw)
      exact Int.le_refl _
    · refine Int.le_trans ?_ (ih hrest hw)
      cases x with
      | sleep ms =>
        show now.toInt ≤ (now + Int64.ofNat ms).toInt
        rw [Clock.toInt_add_of_lt hx]
        omega
      | setClock later => exact Int64.le_iff_toInt_le.mp hx
      | request r | pass t => exact Int.le_refl _

theorem Happening.of_isPass {defaultTtl : UInt64} {x : Happening}
    (hx : x.IsPass defaultTtl = true) (now : Int64) :
    x.clock now = now ∧ x.write? defaultTtl = none ∧ x.Forward now := by
  cases x with
  | request r =>
    have hcleanup : r.action? defaultTtl = some .cleanup := of_decide_eq_true hx
    exact ⟨rfl, by simp [write?, hcleanup, Action.write?], trivial⟩
  | pass t => exact ⟨rfl, rfl, trivial⟩
  | sleep ms => cases hx
  | setClock later => cases hx

theorem history_filter (defaultTtl : UInt64) (now : Int64) (hs : List Happening) :
    let rest := hs.filter (!·.IsPass defaultTtl)
    history defaultTtl now rest = history defaultTtl now hs ∧
      endClock now rest = endClock now hs ∧ (Forward now rest ↔ Forward now hs) := by
  induction hs generalizing now with
  | nil => exact ⟨rfl, rfl, Iff.rfl⟩
  | cons x hs ih =>
    obtain ⟨hhistory, hclock, hforward⟩ := ih (x.clock now)
    cases hx : x.IsPass defaultTtl with
    | false =>
      rw [List.filter_cons_of_pos (by simp [hx])]
      exact ⟨congrArg (_ ++ ·) hhistory, hclock, and_congr_right fun _ => hforward⟩
    | true =>
      obtain ⟨hsame, hnone, hpass⟩ := x.of_isPass hx now
      rw [List.filter_cons_of_neg (by simp [hx])]
      rw [hsame] at hhistory hclock hforward
      refine ⟨?_, ?_, ?_⟩
      · simp [history, hhistory, hsame, hnone]
      · simp only [endClock, List.foldl_cons, hsame]
        exact hclock
      · simp [SizedCache.Forward, hforward, hsame, hpass]

end SizedCache
