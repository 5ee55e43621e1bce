import Mathlib.Data.List.Infix
import Mathlib.Data.List.Lex
import Mathlib.Order.Lattice
import Mathlib.Order.WithBot

namespace Nordstjernen.Lib

variable {α : Type*} [LinearOrder α] {l l' x x' : List α}

-- Keys that are made up of parts of fixed lengths are compared part by part.
theorem append_lt_append_iff (h : l.length = l'.length) :
    l ++ x < l' ++ x' ↔ l < l' ∨ l = l' ∧ x < x' := by
  induction l generalizing l'
  case nil =>
    obtain rfl := List.length_eq_zero_iff.mp h.symm
    simp
  case cons a l hi =>
    cases l'
    case nil => cases h
    case cons b l' =>
      simp only [List.cons_append, List.cons_lt_cons_iff, hi (Nat.succ.inj h), List.cons.injEq]
      tauto

end Nordstjernen.Lib

namespace Nordstjernen.Lib

-- The order of a tree in which the children of a node come by their ranks, and the node after them. A
-- node is the path to it.

variable {α κ : Type*} {rank : List α → WithTop κ} {T : Set (List α)} {d p q : List α} {x y : α}

-- The ranks on the way from a node down a path.
def pathRanks (rank : List α → WithTop κ) : List α → List α → List (WithTop κ)
  | _, []     => []
  | d, x :: p => rank (d ++ [x]) :: pathRanks rank (d ++ [x]) p

-- A key that ends with what is larger than a rank, so that a node comes after all below it.
def pathKey (rank : List α → WithTop κ) (d p : List α) : List (WithTop κ) :=
  pathRanks rank d p ++ [⊤]

@[simp]
theorem pathKey_nil : pathKey rank d [] = [⊤] :=
  rfl

@[simp]
theorem pathKey_cons : pathKey rank d (x :: p) = rank (d ++ [x]) :: pathKey rank (d ++ [x]) p :=
  rfl

theorem pathKey_append : pathKey rank d (p ++ q) = pathRanks rank d p ++ pathKey rank (d ++ p) q := by
  induction p generalizing d
  case nil           => simp [pathRanks]
  case cons x p hind => simp [pathRanks, hind]

theorem pathKey_concat : pathKey rank [] (d ++ [x]) = pathRanks rank [] d ++ [rank (d ++ [x]), ⊤] := by
  rw [pathKey_append, pathKey_cons, pathKey_nil, List.nil_append]

-- Of two children of a node the one with the smaller rank comes first.
theorem pathKey_concat_lt_iff [LinearOrder κ] :
    pathKey rank [] (d ++ [x]) < pathKey rank [] (d ++ [y]) ↔ rank (d ++ [x]) < rank (d ++ [y]) := by
  rw [pathKey_concat, pathKey_concat, append_lt_append_iff rfl]
  simp [List.cons_lt_cons_iff]

-- A tree with a rank for each of its nodes, a different one for each child of a node.
structure RankedTree (rank : List α → WithTop κ) (T : Set (List α)) : Prop where
  up     : ∀ {p q}, p ∈ T → q <+: p → q ∈ T
  ranked : ∀ {d x}, d ++ [x] ∈ T → rank (d ++ [x]) ≠ ⊤
  apart  : ∀ {d x y}, d ++ [x] ∈ T → d ++ [y] ∈ T → rank (d ++ [x]) = rank (d ++ [y]) → x = y

-- What is between two lists that begin in the same way begins so too.
theorem prefix_of_between {β : Type*} [LinearOrder β] {w u v k : List β} (hu : w ++ u ≤ k)
    (hv : k ≤ w ++ v) : w <+: k := by
  induction w generalizing k
  case nil           => exact List.nil_prefix
  case cons b w hind =>
    cases k
    case nil      => exact absurd (List.nil_lt_cons b (w ++ u)) (not_lt.mpr hu)
    case cons c k =>
      have hu : ¬(c < b ∨ c = b ∧ k < w ++ u) := fun hlt => not_lt.mpr hu (List.cons_lt_cons_iff.mpr hlt)
      have hv : ¬(b < c ∨ b = c ∧ w ++ v < k) := fun hlt => not_lt.mpr hv (List.cons_lt_cons_iff.mpr hlt)
      obtain ⟨hcb, hu⟩ := not_or.mp hu
      obtain ⟨hbc, hv⟩ := not_or.mp hv
      obtain rfl := le_antisymm (not_lt.mp hcb) (not_lt.mp hbc)
      exact (List.prefix_cons_inj b).mpr
        (hind (not_lt.mp fun hlt => hu ⟨rfl, hlt⟩) (not_lt.mp fun hlt => hv ⟨rfl, hlt⟩))

namespace RankedTree

theorem up_append (h : RankedTree rank T) (hp : d ++ x :: p ∈ T) : d ++ [x] ∈ T :=
  h.up hp ⟨p, by simp⟩

-- A path goes the way that its ranks tell.
theorem prefix_of_ranks (h : RankedTree rank T) (hp : d ++ p ∈ T) (hq : d ++ q ∈ T)
    (hr : pathRanks rank d p <+: pathKey rank d q) : p <+: q := by
  induction p generalizing d q
  case nil           => exact List.nil_prefix
  case cons x p hind =>
    have hx := h.up_append hp
    cases q
    case nil =>
      have he := (List.cons_prefix_cons.mp hr).left
      exact absurd he (h.ranked hx)
    case cons y q =>
      obtain ⟨he, hr⟩ := List.cons_prefix_cons.mp hr
      obtain rfl := h.apart hx (h.up_append hq) he
      exact (List.prefix_cons_inj x).mpr (hind (by simpa using hp) (by simpa using hq) hr)

theorem pathKey_inj (h : RankedTree rank T) (hp : d ++ p ∈ T) (hq : d ++ q ∈ T)
    (he : pathKey rank d p = pathKey rank d q) : p = q := by
  have hpq := h.prefix_of_ranks hp hq (he ▸ List.prefix_append _ _)
  have hqp := h.prefix_of_ranks hq hp (he ▸ List.prefix_append _ _)
  exact hpq.eq_of_length_le hqp.length_le

variable [LinearOrder κ]

-- A node comes after what is below it.
theorem pathKey_lt_of_prefix (h : RankedTree rank T) (hq : q ∈ T) (hp : p <+: q) (hne : p ≠ q) :
    pathKey rank [] q < pathKey rank [] p := by
  obtain ⟨r, rfl⟩ := hp
  cases r
  case nil      => simp at hne
  case cons x r =>
    have hp : pathKey rank [] p = pathRanks rank [] p ++ [⊤] := rfl
    rw [pathKey_append, hp]
    refine List.append_left_lt ?_
    exact List.cons_lt_cons_iff.mpr (.inl (h.ranked (h.up_append hq)).lt_top)

-- What is below a node comes without a gap.
theorem prefix_of_between_keys (h : RankedTree rank T) {a b c : List α} (hb : b ∈ T) (ha : p <+: a)
    (hc : p <+: c) (hp : p ∈ T) (hab : pathKey rank [] a ≤ pathKey rank [] b)
    (hbc : pathKey rank [] b ≤ pathKey rank [] c) : p <+: b := by
  obtain ⟨u, rfl⟩ := ha
  obtain ⟨v, rfl⟩ := hc
  rw [pathKey_append] at hab hbc
  exact h.prefix_of_ranks (d := []) hp hb (prefix_of_between hab hbc)

end RankedTree

end Nordstjernen.Lib
