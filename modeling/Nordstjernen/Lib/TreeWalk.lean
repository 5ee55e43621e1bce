import Mathlib.Data.Option.Basic

namespace Nordstjernen.Lib

-- A row of sibling nodes, each linked to its first child and to its next sibling.
inductive Forest (α : Type*)
  | nil
  | node (label : α) (firstChild nextSibling : Forest α)

namespace Forest

-- Walks in document order. A visit sees what its node inherits from above and the state that the
-- nodes before it have left, and says what the children inherit (nothing if they are left out).

variable {α χ χ₁ χ₂ σ σ₁ σ₂ : Type*}

def walk (visit : χ → σ → α → Option χ × σ) (c : χ) (s : σ) : Forest α → σ
  | nil               => s
  | node a kids sibs =>
    let below := visit c s a
    let s' := match below.1 with
      | some c' => walk visit c' below.2 kids
      | none    => below.2
    walk visit c s' sibs

-- Whether every visit of a walk meets a condition on what it sees.
def VisitsMeet (C : χ → σ → α → Prop) (visit : χ → σ → α → Option χ × σ) (c : χ) (s : σ) :
    Forest α → Prop
  | nil               => True
  | node a kids sibs =>
    let below := visit c s a
    C c s a ∧ match below.1 with
      | some c' => VisitsMeet C visit c' below.2 kids ∧
        VisitsMeet C visit c (walk visit c' below.2 kids) sibs
      | none    => VisitsMeet C visit c below.2 sibs

namespace VisitsMeet

variable {C D : χ → σ → α → Prop} {visit : χ → σ → α → Option χ × σ} {c : χ} {s : σ} {f : Forest α}

theorem mono (h : ∀ {c s a}, C c s a → D c s a) (hm : VisitsMeet C visit c s f) :
    VisitsMeet D visit c s f := by
  induction f generalizing c s
  case nil => trivial
  case node a kids sibs hk hb =>
    obtain ⟨hc, hm⟩ := hm
    refine ⟨h hc, ?_⟩
    cases hv : (visit c s a).1 <;> simp only [hv] at hm ⊢
    · exact hb hm
    · exact ⟨hk hm.left, hb hm.right⟩

instance decidable [∀ c s a, Decidable (C c s a)] :
    ∀ (f : Forest α) (c : χ) (s : σ), Decidable (VisitsMeet C visit c s f)
  | nil, _, _               => isTrue trivial
  | node a kids sibs, c, s =>
    match hv : (visit c s a).1 with
    | some c' =>
      have := decidable kids c' (visit c s a).2
      have := decidable sibs c (walk visit c' (visit c s a).2 kids)
      decidable_of_iff (C c s a ∧ VisitsMeet C visit c' (visit c s a).2 kids ∧
        VisitsMeet C visit c (walk visit c' (visit c s a).2 kids) sibs) (by simp [VisitsMeet, hv])
    | none =>
      have := decidable sibs c (visit c s a).2
      decidable_of_iff (C c s a ∧ VisitsMeet C visit c (visit c s a).2 sibs) (by simp [VisitsMeet, hv])

end VisitsMeet

-- What one visit has to do so that two walks stay related: `S` relates the states and `X s` what is
-- inherited, as seen from the state `s` of the first walk.
structure VisitsRelate (C : χ₁ → σ₁ → α → Prop) (visit₁ : χ₁ → σ₁ → α → Option χ₁ × σ₁)
    (visit₂ : χ₂ → σ₂ → α → Option χ₂ × σ₂) (S : σ₁ → σ₂ → Prop) (X : σ₁ → χ₁ → χ₂ → Prop) :
    Prop where
  state : ∀ {c d s t a}, S s t → X s c d → C c s a → S (visit₁ c s a).2 (visit₂ d t a).2
  below : ∀ {c d s t a}, S s t → X s c d → C c s a →
    Option.Rel (X (visit₁ c s a).2) (visit₁ c s a).1 (visit₂ d t a).1
  keeps : ∀ {c d s t a c' d'}, S s t → X s c d → C c s a → X s c' d' → X (visit₁ c s a).2 c' d'

variable {C : χ₁ → σ₁ → α → Prop} {visit₁ : χ₁ → σ₁ → α → Option χ₁ × σ₁}
  {visit₂ : χ₂ → σ₂ → α → Option χ₂ × σ₂} {S : σ₁ → σ₂ → Prop} {X : σ₁ → χ₁ → χ₂ → Prop}
  {s : σ₁} {t : σ₂} {c : χ₁} {d : χ₂} {f : Forest α}

theorem VisitsRelate.walk (h : VisitsRelate C visit₁ visit₂ S X) (hs : S s t) (hx : X s c d)
    (hm : VisitsMeet C visit₁ c s f) :
    S (f.walk visit₁ c s) (f.walk visit₂ d t) ∧
    ∀ {c' d'}, X s c' d' → X (f.walk visit₁ c s) c' d' := by
  induction f generalizing c d s t
  case nil => exact ⟨hs, id⟩
  case node a kids sibs hk hb =>
    obtain ⟨hc, hm⟩ := hm
    have hs' := h.state hs hx hc
    have hx' := h.below hs hx hc
    simp only [Forest.walk]
    generalize visit₂ d t a = below₂ at hs' hx' ⊢
    obtain ⟨d', t'⟩ := below₂
    match hv : visit₁ c s a, hm with
    | (none, s'), hm =>
      simp only [hv] at hs' hx' hm ⊢
      cases hx'
      have hxs := h.keeps hs hx hc hx
      rw [hv] at hxs
      have ⟨hs'', hk''⟩ := hb hs' hxs hm
      refine ⟨hs'', fun hx₀ => hk'' ?_⟩
      have hx₁ := h.keeps hs hx hc hx₀
      rwa [hv] at hx₁
    | (some c', s'), hm =>
      simp only [hv] at hs' hx' hm ⊢
      cases hx'
      case some hx' =>
        have ⟨hs₁, hk₁⟩ := hk hs' hx' hm.left
        have hkeep {c₀ d₀} (hx₀ : X s c₀ d₀) : X (kids.walk visit₁ c' s') c₀ d₀ := by
          have hx₁ := h.keeps hs hx hc hx₀
          rw [hv] at hx₁
          exact hk₁ hx₁
        have ⟨hs₂, hk₂⟩ := hb hs₁ (hkeep hx) hm.right
        exact ⟨hs₂, fun hx₀ => hk₂ (hkeep hx₀)⟩

end Forest

end Nordstjernen.Lib
