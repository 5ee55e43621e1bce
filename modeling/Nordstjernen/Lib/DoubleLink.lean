import Mathlib.Data.List.Nodup
import Mathlib.Logic.Function.Basic

namespace Nordstjernen.Lib

-- Lists whose elements know the one in front of them and the one behind.

variable {α : Type*} {prev next prev' next' link : α → Option α} {xs ys us vs : List α} {b c d : α}

def DoubleLinked (prev next : α → Option α) (xs : List α) : Prop :=
  ∀ us c vs, xs = us ++ c :: vs → prev c = us.getLast? ∧ next c = vs.head?

-- Changes the link of an element, if there is one.
def redirect [DecidableEq α] (link : α → Option α) (x y : Option α) : α → Option α :=
  match x with
  | some b => Function.update link b y
  | none   => link

section Redirect

variable [DecidableEq α] {x y : Option α}

theorem redirect_self : redirect link (some b) y b = y :=
  Function.update_self ..

theorem redirect_of_ne (h : x ≠ some d) : redirect link x y d = link d := by
  cases x
  case none   => rfl
  case some b => exact Function.update_of_ne (fun he => h (congrArg some he.symm)) ..

end Redirect

theorem append_eq_append_cons (h : xs ++ ys = us ++ d :: vs) :
    (∃ ws, xs = us ++ d :: ws ∧ vs = ws ++ ys) ∨ ∃ ws, us = xs ++ ws ∧ ys = ws ++ d :: vs := by
  rcases List.append_eq_append_iff.mp h with ⟨ws, hu, hy⟩ | ⟨ws, hx, hd⟩
  case inl => exact .inr ⟨ws, hu, hy⟩
  case inr =>
    cases ws
    case nil       => exact .inr ⟨[], by simpa using hx.symm, hd.symm⟩
    case cons w ws =>
      obtain ⟨rfl, rfl⟩ := List.cons.inj hd
      exact .inl ⟨ws, hx, rfl⟩

theorem getLast?_ne_of_mem (hn : (xs ++ ys).Nodup) (h : d ∈ ys) : xs.getLast? ≠ some d :=
  fun he => (List.nodup_append.mp hn).right.right d (List.mem_of_getLast? he) d h rfl

theorem head?_ne_of_mem (hn : (xs ++ ys).Nodup) (h : d ∈ xs) : ys.head? ≠ some d :=
  fun he => (List.nodup_append.mp hn).right.right d h d (List.mem_of_mem_head? he) rfl

theorem getLast?_ne_of_nodup (hn : (us ++ d :: (xs ++ [b])).Nodup) :
    (us ++ d :: (xs ++ [b])).getLast? ≠ some d := by
  rw [← List.cons_append, ← List.append_assoc, List.getLast?_concat, Ne, Option.some_inj]
  rintro rfl
  exact (List.nodup_cons.mp (hn.sublist (List.sublist_append_right us _))).left List.mem_concat_self

namespace DoubleLinked

theorem nil : DoubleLinked prev next [] := by
  intro us c vs h
  cases us <;> cases h

theorem congr (h : DoubleLinked prev next xs) (hp : ∀ c ∈ xs, prev' c = prev c)
    (hn : ∀ c ∈ xs, next' c = next c) : DoubleLinked prev' next' xs := by
  rintro us c vs rfl
  have hc : c ∈ us ++ c :: vs := List.mem_append_right us List.mem_cons_self
  rw [hp c hc, hn c hc]
  exact h us c vs rfl

variable [DecidableEq α]

-- The neighbours of an element are joined.
theorem unlink (h : DoubleLinked prev next (xs ++ c :: ys)) (hn : (xs ++ c :: ys).Nodup) :
    DoubleLinked (redirect prev ys.head? xs.getLast?) (redirect next xs.getLast? ys.head?) (xs ++ ys) := by
  have hxy : (xs ++ ys).Nodup := hn.sublist ((List.sublist_cons_self c ys).append_left xs)
  intro us d vs he
  rcases append_eq_append_cons he with ⟨ws, rfl, rfl⟩ | ⟨ws, rfl, rfl⟩
  case inl =>
    have hd : d ∈ us ++ d :: ws := List.mem_append_right us List.mem_cons_self
    obtain ⟨hp, hnx⟩ := h us d (ws ++ c :: ys) (by simp)
    rw [redirect_of_ne (head?_ne_of_mem hxy hd)]
    refine ⟨hp, ?_⟩
    rcases List.eq_nil_or_concat' ws with rfl | ⟨ws, w, rfl⟩
    case inl => rw [List.getLast?_concat, redirect_self, List.nil_append]
    case inr =>
      rw [redirect_of_ne (getLast?_ne_of_nodup (hxy.sublist (List.sublist_append_left _ ys))), hnx]
      cases ws <;> rfl
  case inr =>
    have hd : d ∈ ws ++ d :: vs := List.mem_append_right ws List.mem_cons_self
    obtain ⟨hp, hnx⟩ := h (xs ++ c :: ws) d vs (by simp)
    rw [redirect_of_ne (getLast?_ne_of_mem hxy hd)]
    refine ⟨?_, hnx⟩
    cases ws
    case nil => rw [List.nil_append, List.head?_cons, redirect_self, List.append_nil]
    case cons w ws =>
      have hne : (w :: ws ++ d :: vs).head? ≠ some d := by
        rw [List.cons_append, List.head?_cons, Ne, Option.some_inj]
        rintro rfl
        have hy := hxy.sublist (List.sublist_append_right xs _)
        exact (List.nodup_cons.mp hy).left (List.mem_append_right ws List.mem_cons_self)
      rw [redirect_of_ne hne, hp, List.append_cons, List.getLast?_append_cons, List.getLast?_append_cons]

-- An element is put behind the others.
theorem push (h : DoubleLinked prev next xs) (hn : (xs ++ [c]).Nodup) (hp : prev c = xs.getLast?)
    (hc : next c = none) : DoubleLinked prev (redirect next xs.getLast? (some c)) (xs ++ [c]) := by
  intro us d vs he
  rcases append_eq_append_cons he with ⟨ws, rfl, rfl⟩ | ⟨ws, rfl, hw⟩
  case inl =>
    obtain ⟨hp, hnx⟩ := h us d ws rfl
    refine ⟨hp, ?_⟩
    rcases List.eq_nil_or_concat' ws with rfl | ⟨ws, w, rfl⟩
    case inl => rw [List.getLast?_concat, redirect_self, List.nil_append, List.head?_cons]
    case inr =>
      rw [redirect_of_ne (getLast?_ne_of_nodup (hn.sublist (List.sublist_append_left _ [c]))), hnx]
      cases ws <;> rfl
  case inr =>
    obtain ⟨rfl, rfl, rfl⟩ : ws = [] ∧ c = d ∧ vs = [] := by
      cases ws
      case nil      => simpa using hw
      case cons w s => cases s <;> cases hw
    rw [List.append_nil, redirect_of_ne (getLast?_ne_of_mem hn List.mem_cons_self)]
    exact ⟨hp, hc⟩

end DoubleLinked

end Nordstjernen.Lib
