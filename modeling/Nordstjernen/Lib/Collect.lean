import Mathlib.Logic.Basic

namespace Nordstjernen.Lib

-- Folds that keep an invariant of what they have collected, and that have no result as soon as there
-- is something bad in it.

variable {σ α β : Type*} {Inv : σ → List β → Prop} {Bad : β → Prop} {act act' : σ → Option σ}
  {step : σ → α → Option σ} {new new' : List β} {out : α → List β} {xs : List α} {s : σ} {seen : List β}

def Collects (Inv : σ → List β → Prop) (Bad : β → Prop) (act : σ → Option σ) (new : List β) : Prop :=
  ∀ s seen, Inv s seen →
    (∃ x ∈ new, Bad x) ∧ act s = none ∨
    (∀ x ∈ new, ¬Bad x) ∧ ∃ s', act s = some s' ∧ Inv s' (seen ++ new)

namespace Collects

theorem of_some (h : ∀ s seen, Inv s seen → ∃ s', act s = some s' ∧ Inv s' seen) :
    Collects Inv Bad act [] := by
  intro s seen hi
  exact .inr ⟨by simp, by simpa using h s seen hi⟩

theorem bind (h : Collects Inv Bad act new) (h' : Collects Inv Bad act' new') :
    Collects Inv Bad (fun s => (act s).bind act') (new ++ new') := by
  intro s seen hi
  obtain ⟨⟨x, hx, hb⟩, hn⟩ | ⟨hg, s', hs, hi'⟩ := h s seen hi
  case inl => exact .inl ⟨⟨x, List.mem_append_left _ hx, hb⟩, by simp [hn]⟩
  case inr =>
    obtain ⟨⟨x, hx, hb⟩, hn⟩ | ⟨hg', s'', hs', hi''⟩ := h' s' (seen ++ new) hi'
    case inl => exact .inl ⟨⟨x, List.mem_append_right _ hx, hb⟩, by simp [hs, hn]⟩
    case inr =>
      refine .inr ⟨fun x hx => ?_, s'', by simp [hs, hs'], List.append_assoc .. ▸ hi''⟩
      exact (List.mem_append.mp hx).elim (hg x) (hg' x)

theorem foldlM (h : ∀ x ∈ xs, Collects Inv Bad (step · x) (out x)) :
    Collects Inv Bad (fun s => xs.foldlM step s) (xs.flatMap out) := by
  induction xs
  case nil            => exact of_some fun s _ hi => ⟨s, rfl, hi⟩
  case cons x xs hind =>
    exact (h x (by simp)).bind (hind fun y hy => h y (by simp [hy]))

end Collects

end Nordstjernen.Lib
