import Mathlib.Algebra.BigOperators.Group.List.Basic
import Mathlib.Algebra.Ring.Nat
import Mathlib.Data.List.Nodup

namespace Nordstjernen.Lib

-- A counter that is kept in step with the parts it counts: while the count of some parts goes from
-- `k` to `k'`, the counter goes from `c` to `c'`, and it stays within its cap.
def Tally (cap k c k' c' : Nat) : Prop :=
  ∀ rest, c = rest + k → c' = rest + k' ∧ (c ≤ cap → c' ≤ cap)

namespace Tally

variable {cap k c k' c' k'' c'' : Nat}

theorem refl : Tally cap k c k c :=
  fun _ h => ⟨h, id⟩

theorem trans (h₁ : Tally cap k c k' c') (h₂ : Tally cap k' c' k'' c'') : Tally cap k c k'' c'' := by
  intro rest h
  have ⟨e₁, l₁⟩ := h₁ rest h
  have ⟨e₂, l₂⟩ := h₂ rest e₁
  exact ⟨e₂, l₂ ∘ l₁⟩

-- Parts that stay as they are.
theorem frame (j : Nat) (h : Tally cap k c k' c') : Tally cap (j + k) c (j + k') c' := by
  intro rest e
  have ⟨e', l⟩ := h (rest + j) (by omega)
  exact ⟨by omega, l⟩

theorem frame_right (j : Nat) (h : Tally cap k c k' c') : Tally cap (k + j) c (k' + j) c' := by
  rw [Nat.add_comm k, Nat.add_comm k']
  exact h.frame j

-- Two kinds of parts, one after the other.
theorem add {j j' : Nat} (h₁ : Tally cap j c j' c') (h₂ : Tally cap k c' k' c'') :
    Tally cap (j + k) c (j' + k') c'' :=
  (h₁.frame_right k).trans (h₂.frame j')

theorem acquire (h : c < cap) : Tally cap 0 c 1 (c + 1) :=
  fun _ e => ⟨by omega, fun _ => h⟩

-- A decrement that is guarded against going below zero never needs its guard.
theorem release : Tally cap 1 c 0 (c - 1) :=
  fun _ e => ⟨by omega, fun l => by omega⟩

-- A part that becomes active, or stays so.
theorem start {active : Bool} (h : (active || decide (c < cap)) = true) :
    Tally cap active.toNat c 1 (if active then c else c + 1) := by
  cases active
  case true  => exact refl
  case false => exact acquire (of_decide_eq_true h)

-- A part that becomes inactive.
theorem stop {active : Bool} : Tally cap active.toNat c 0 (if active then c - 1 else c) := by
  cases active
  case true  => exact release
  case false => exact refl

theorem releaseAll (k : Nat) : Tally cap k c 0 (c - k) :=
  fun _ e => ⟨by omega, fun l => by omega⟩

end Tally

section Rows

-- The rows of a table have distinct keys.
variable {α κ : Type*} [DecidableEq κ] {key : α → κ} {rows : List α} {k : κ} {f : α → Nat}

theorem filter_key_ne_of_not_mem (h : k ∉ rows.map key) : rows.filter (key · ≠ k) = rows := by
  rw [List.filter_eq_self]
  intro r hr
  have hk : key r ≠ k := fun e => h (e ▸ List.mem_map_of_mem hr)
  exact decide_eq_true hk

theorem find?_key_of_not_mem (h : k ∉ rows.map key) : rows.find? (key · = k) = none := by
  rw [List.find?_eq_none]
  intro r hr e
  exact h (of_decide_eq_true e ▸ List.mem_map_of_mem hr)

theorem find?_key_of_mem (h : (rows.map key).Nodup) {r : α} (hr : r ∈ rows) :
    rows.find? (key · = key r) = some r := by
  induction rows
  case nil          => cases hr
  case cons s rs ih =>
    have ⟨hs, hn⟩ := List.nodup_cons.mp h
    cases List.mem_cons.mp hr
    case inl e => rw [e, List.find?_cons_of_pos (by simp)]
    case inr hr =>
      have hk : key s ≠ key r := fun e => hs (e ▸ List.mem_map_of_mem hr)
      rw [List.find?_cons_of_neg (by simpa using hk), ih hn hr]

-- A sum over the rows, with the row of one key set apart.
theorem sum_eq_rest_add (h : (rows.map key).Nodup) :
    (rows.map f).sum =
      ((rows.filter (key · ≠ k)).map f).sum + ((rows.find? (key · = k)).map f).getD 0 := by
  induction rows
  case nil          => rfl
  case cons r rs ih =>
    have ⟨hr, hn⟩ := List.nodup_cons.mp h
    by_cases hk : key r = k
    case pos =>
      subst hk
      rw [List.filter_cons_of_neg (by simp), filter_key_ne_of_not_mem hr,
        List.find?_cons_of_pos (by simp), List.map_cons, List.sum_cons, Nat.add_comm]
      rfl
    case neg =>
      rw [List.filter_cons_of_pos (by simpa using hk), List.find?_cons_of_neg (by simpa using hk),
        List.map_cons, List.sum_cons, ih hn, List.map_cons, List.sum_cons, Nat.add_assoc]

end Rows

end Nordstjernen.Lib
