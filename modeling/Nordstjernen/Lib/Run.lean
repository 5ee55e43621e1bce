import Mathlib.Logic.Basic
import Mathlib.Logic.Relation

namespace Nordstjernen.Lib

-- Runs of a system whose steps are chosen by events from outside, some of which it refuses.

variable {σ ε : Type*} {step : σ → ε → Option σ} {C P Q : σ → ε → Prop} {I : σ → Prop}
  {s t : σ} {e : ε} {es es' : List ε}

def run (step : σ → ε → Option σ) (s : σ) : List ε → Option σ
  | []      => some s
  | e :: es => (step s e).bind fun s' => run step s' es

-- Whether every step of a run meets a condition on the state before it and its event.
def StepsMeet (C : σ → ε → Prop) (step : σ → ε → Option σ) (s : σ) : List ε → Prop
  | []      => True
  | e :: es => C s e ∧ ∀ s' ∈ step s e, StepsMeet C step s' es

instance StepsMeet.decidable [∀ s e, Decidable (C s e)] :
    ∀ s es, Decidable (StepsMeet C step s es)
  | _, []      => inferInstanceAs (Decidable True)
  | s, e :: es =>
    have := fun s' => decidable s' es
    inferInstanceAs (Decidable (C s e ∧ ∀ s' ∈ step s e, StepsMeet C step s' es))

@[simp]
theorem run_nil : run step s [] = some s :=
  rfl

theorem run_cons :
    run step s (e :: es) = some t ↔ ∃ s', step s e = some s' ∧ run step s' es = some t := by
  rw [run, Option.bind_eq_some_iff]

-- What holds at the start and is kept by every step that meets the condition holds at the end.
theorem run_preserves (hstep : ∀ s e t, I s → C s e → step s e = some t → I t)
    (hrun : run step s es = some t) (hc : StepsMeet C step s es) (hs : I s) : I t := by
  induction es generalizing s
  case nil => cases hrun; exact hs
  case cons e es hi =>
    have ⟨s', hs', hr⟩ := run_cons.mp hrun
    exact hi hr (hc.right s' hs') (hstep s e s' hs hc.left hs')

-- In a run that keeps an invariant two conditions are the same if they are in the states that have it.
theorem stepsMeet_congr (hstep : ∀ s e t, I s → C s e → step s e = some t → I t)
    (hpq : ∀ s e, I s → C s e → (P s e ↔ Q s e)) (hc : StepsMeet C step s es) (hs : I s) :
    StepsMeet P step s es ↔ StepsMeet Q step s es := by
  induction es generalizing s
  case nil => rfl
  case cons e es hi =>
    refine and_congr (hpq s e hs hc.left) (forall₂_congr fun s' hs' => ?_)
    exact hi (hc.right s' hs') (hstep s e s' hs hc.left hs')

theorem stepsMeet_of_forall (h : ∀ s, ∀ e ∈ es, C s e) : StepsMeet C step s es := by
  induction es generalizing s
  case nil => trivial
  case cons e es hi => exact ⟨h s e (by simp), fun _ _ => hi fun s e he => h s e (by simp [he])⟩

end Nordstjernen.Lib

namespace Nordstjernen.Lib

-- Loops whose body either leaves or goes on from another state, and so may run forever.

variable {α : Type*} {body : α → ForInStep α} {a a' b : α} {n : Nat} {μ : α → Nat}

-- The result of a loop that leaves within a number of iterations.
def loop (body : α → ForInStep α) : Nat → α → Option α
  | 0,     _ => none
  | n + 1, a =>
    match body a with
    | .done b   => some b
    | .yield a' => loop body n a'

def Returns (body : α → ForInStep α) (a : α) : Prop :=
  ∃ n b, loop body n a = some b

-- The states in which an iteration begins.
def Visits (body : α → ForInStep α) : α → α → Prop :=
  Relation.ReflTransGen fun a a' => body a = .yield a'

theorem loop_done (h : body a = .done b) : loop body (n + 1) a = some b := by
  rw [loop, h]

theorem loop_yield (h : body a = .yield a') : loop body (n + 1) a = loop body n a' := by
  rw [loop, h]

theorem Returns.yield (h : Returns body a) (hb : body a = .yield a') : Returns body a' := by
  obtain ⟨n, b, hl⟩ := h
  cases n
  case zero   => cases hl
  case succ n => exact ⟨n, b, loop_yield hb ▸ hl⟩

theorem Returns.visits (h : Returns body a) (hv : Visits body a a') : Returns body a' := by
  induction hv
  case refl            => exact h
  case tail _ hb hind => exact hind.yield hb

-- An iteration that changes nothing is made forever.
theorem loop_of_yield_self (h : body a = .yield a) : loop body n a = none := by
  induction n
  case zero        => rfl
  case succ n hind => rw [loop_yield h, hind]

theorem Returns.ne_self (h : Returns body a) (hv : Visits body a a') : body a' ≠ .yield a' := by
  intro hb
  obtain ⟨n, b, hl⟩ := h.visits hv
  rw [loop_of_yield_self hb] at hl
  cases hl

-- Where an iteration decreases a measure or changes nothing, the measure is enough iterations.
theorem loop_eq_some (hμ : ∀ a a', body a = .yield a' → a' = a ∨ μ a' < μ a)
    (h : ∀ a', Visits body a a' → body a' ≠ .yield a') (hn : μ a < n) :
    ∃ b, loop body n a = some b := by
  induction n generalizing a
  case zero        => exact absurd hn (Nat.not_lt_zero _)
  case succ n hind =>
    cases hb : body a
    case done b   => exact ⟨b, loop_done hb⟩
    case yield a' =>
      rw [loop_yield hb]
      obtain rfl | hlt := hμ a a' hb
      · exact absurd hb (h a' .refl)
      · exact hind (fun a'' hv => h a'' (hv.head hb)) (Nat.lt_of_lt_of_le hlt (Nat.le_of_lt_succ hn))

theorem returns_iff (hμ : ∀ a a', body a = .yield a' → a' = a ∨ μ a' < μ a) :
    Returns body a ↔ ∀ a', Visits body a a' → body a' ≠ .yield a' := by
  constructor
  · exact fun h a' hv => h.ne_self hv
  · exact fun h => ⟨μ a + 1, loop_eq_some hμ h (Nat.lt_succ_self _)⟩

theorem loop_eq_none_iff (hμ : ∀ a a', body a = .yield a' → a' = a ∨ μ a' < μ a) (hn : μ a < n) :
    loop body n a = none ↔ ¬Returns body a := by
  constructor
  · intro hl hr
    obtain ⟨b, hb⟩ := loop_eq_some hμ ((returns_iff hμ).mp hr) hn
    exact absurd (hl.symm.trans hb) (by simp)
  · intro hr
    cases hl : loop body n a
    case none   => rfl
    case some b => exact absurd ⟨n, b, hl⟩ hr

end Nordstjernen.Lib
