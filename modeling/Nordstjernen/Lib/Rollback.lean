import Mathlib.Data.List.Nodup
import Mathlib.Data.List.Basic

namespace Nordstjernen.Lib.Rollback

-- Candidates, the strongest one first. Some of them are of a kind that takes others back.
variable {α κ : Type*} (kind : α → Option κ) (skips gone : α × κ → α → Bool)

-- The candidates that are chosen in turn: the first one, and if it takes others back, those without them.
def choices : List α → List α
  | []      => []
  | x :: xs => x :: (kind x).elim [] fun k => choices (xs.filter fun y => !gone (x, k) y)
termination_by l => l.length
decreasing_by exact Nat.lt_succ_of_le (by simpa using List.length_filter_le _ xs.attach)

-- One pass over the candidates, which only looks at the last one that it has stopped at.
def descend : α × κ → List α → List α
  | _, []      => []
  | r, x :: xs =>
    if skips r x then descend r xs
    else x :: (kind x).elim [] fun k => descend (x, k) xs

-- Those that take others back and have been chosen, the last one first, unless the choice is already made.
def trail : List (α × κ) → List α → Option (List (α × κ))
  | rs, []      => some rs
  | rs, x :: xs =>
    if rs.any (gone · x) then trail rs xs
    else (kind x).elim none fun k => trail ((x, k) :: rs) xs

variable {kind skips gone} {r : α × κ} {rs : List (α × κ)} {x : α} {xs l : List α}

theorem choices_cons : choices kind gone (x :: xs) =
    x :: (kind x).elim [] fun k => choices kind gone (xs.filter fun y => !gone (x, k) y) := by
  rw [choices]

theorem descend_subset (l : List α) : descend kind skips r l ⊆ l := by
  induction l generalizing r
  case nil          => exact List.Subset.refl _
  case cons x xs hi =>
    rw [descend]
    split
    case isTrue  => exact List.subset_cons_of_subset x hi
    case isFalse =>
      cases kind x
      case none   => simp
      case some k => exact List.cons_subset_cons x hi

theorem choices_subset (l : List α) : choices kind gone l ⊆ l := by
  induction h : l.length using Nat.strongRecOn generalizing l
  case ind n hi =>
    cases l
    case nil       => simp [choices]
    case cons x xs =>
      rw [choices_cons]
      cases kind x
      case none   => simp
      case some k =>
        have hlt : (xs.filter fun y => !gone (x, k) y).length < n :=
          h ▸ Nat.lt_succ_of_le (List.length_filter_le _ _)
        exact List.cons_subset_cons x (List.Subset.trans (hi _ hlt _ rfl) (List.filter_subset_self _))

variable (gone rs) in
-- What is left when some have taken others back.
def left (l : List α) : List α :=
  l.filter fun y => !rs.any (gone · y)

theorem left_cons_of_gone (h : rs.any (gone · x)) : left gone rs (x :: xs) = left gone rs xs := by
  simp [left, h]

theorem left_cons_of_not_gone (h : ¬rs.any (gone · x)) : left gone rs (x :: xs) = x :: left gone rs xs := by
  simp [left, h]

theorem filter_left (r : α × κ) : (left gone rs xs).filter (fun y => !gone r y) = left gone (r :: rs) xs := by
  simp [left, List.filter_filter]

theorem mem_trail {qs : List (α × κ)} {q : α × κ} (h : trail kind gone rs l = some qs) (hq : q ∈ qs) :
    q ∈ rs ∨ q.fst ∈ l := by
  induction l generalizing rs
  case nil =>
    obtain rfl := Option.some.inj h
    exact .inl hq
  case cons x xs hi =>
    rw [trail] at h
    split at h
    case isTrue  => exact (hi h).imp_right (List.mem_cons_of_mem x)
    case isFalse =>
      cases hk : kind x
      case none   => simp [hk] at h
      case some k =>
        rw [hk] at h
        cases hi h
        case inl h =>
          cases List.mem_cons.mp h
          case inl h => exact .inr (h ▸ List.mem_cons_self)
          case inr h => exact .inl h
        case inr h => exact .inr (List.mem_cons_of_mem x h)

theorem forall_split_cons {P : List α → α → Prop} :
    (∀ above y below, x :: xs = above ++ y :: below → P above y) ↔
      P [] x ∧ ∀ above y below, xs = above ++ y :: below → P (x :: above) y := by
  constructor
  case mp  => exact fun h => ⟨h [] x xs rfl, fun above y below he => h (x :: above) y below (he ▸ rfl)⟩
  case mpr =>
    intro h above y below he
    cases above
    case nil =>
      obtain ⟨rfl, -⟩ := List.cons.inj he
      exact h.left
    case cons a above =>
      obtain ⟨rfl, he'⟩ := List.cons.inj he
      exact h.right above y below he'

theorem forall_trail_nil : (∀ q qs, trail kind gone (r :: rs) [] = some (q :: qs) →
    (skips q x ↔ ∃ s ∈ q :: qs, gone s x)) ↔ (skips r x ↔ (r :: rs).any (gone · x)) := by
  simp [trail]

-- The pass comes to the same candidates just if, up to the last of them, it passes over those that are gone.
theorem descend_eq_choices_iff (hl : l.Nodup) :
    descend kind skips r l = choices kind gone (left gone (r :: rs) l) ↔
    ∀ above x below, l = above ++ x :: below → ∀ q qs, trail kind gone (r :: rs) above = some (q :: qs) →
      (skips q x ↔ ∃ s ∈ q :: qs, gone s x) := by
  induction l generalizing r rs
  case nil          => simp [descend, left, choices]
  case cons x xs hi =>
    obtain ⟨hx, hxs⟩ := List.nodup_cons.mp hl
    rw [forall_split_cons, forall_trail_nil]
    by_cases hg : (r :: rs).any (gone · x) <;> by_cases hs : skips r x
    case pos =>
      rw [descend, if_pos hs, left_cons_of_gone hg, hi hxs]
      simp only [trail, if_pos hg]
      exact (and_iff_right (iff_of_true hs hg)).symm
    case neg =>
      rw [descend, if_neg hs, left_cons_of_gone hg]
      refine iff_of_false (fun h => hx ?_) (fun h => hs (h.left.mpr hg))
      exact List.Subset.trans (choices_subset _) (List.filter_subset_self _) (h ▸ List.mem_cons_self)
    case pos =>
      rw [descend, if_pos hs, left_cons_of_not_gone hg, choices_cons]
      refine iff_of_false (fun h => hx ?_) (fun h => hg (h.left.mp hs))
      exact descend_subset xs (h ▸ List.mem_cons_self)
    case neg =>
      rw [descend, if_neg hs, left_cons_of_not_gone hg, choices_cons, List.cons_inj_right]
      simp only [trail, if_neg hg]
      cases kind x
      case none   => simp [hs, hg]
      case some k =>
        simp only [Option.elim_some, filter_left, hi hxs]
        exact (and_iff_right (iff_of_false hs hg)).symm

end Nordstjernen.Lib.Rollback
