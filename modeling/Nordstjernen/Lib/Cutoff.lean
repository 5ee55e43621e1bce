import Mathlib.Algebra.Order.BigOperators.Group.List
import Mathlib.Algebra.Order.Ring.Int
import Mathlib.Data.List.Sort
import Mathlib.Order.Defs.Unbundled

namespace Nordstjernen.Lib

variable {α : Type} {l l' : List α}

-- Of a list in order, what is kept by a test that keeps all that comes before is a first part.
theorem filter_eq_take_of_pairwise {r : α → α → Prop} {p : α → Bool} (hl : l.Pairwise r)
    (hp : ∀ a b, r a b → p b → p a) : ∃ n, l.filter p = l.take n := by
  induction hl
  case nil              => exact ⟨0, rfl⟩
  case cons a l ha _ hi =>
    by_cases hk : p a
    case pos =>
      obtain ⟨n, hn⟩ := hi
      exact ⟨n + 1, by rw [List.filter_cons_of_pos hk, hn, List.take_succ_cons]⟩
    case neg =>
      refine ⟨0, List.filter_eq_nil_iff.mpr fun b hb => ?_⟩
      obtain rfl | hb := List.mem_cons.mp hb
      · exact hk
      · exact fun hk' => hk (hp a b (ha b hb) hk')

-- All that is left out of a first part comes behind all that is in it.
theorem rel_of_mem_take {r : α → α → Prop} (hl : l.Pairwise r) {n : Nat} {a b : α} (ha : a ∈ l.take n)
    (hb : b ∈ l) (hn : b ∉ l.take n) : r a b := by
  rw [← List.take_append_drop n l] at hl hb
  exact (List.pairwise_append.mp hl).2.2 a ha b ((List.mem_append.mp hb).resolve_left hn)

section Sums

variable (size : α → Int)

-- What is beyond a cap in the running totals of a list.
def beyond (cap : Int) : Int → List α → List α
  | _,       []     => []
  | running, a :: l =>
    if running + size a > cap then a :: beyond cap (running + size a) l else beyond cap (running + size a) l

variable {size} {cap running : Int}

theorem beyond_eq_self (hs : ∀ a ∈ l, 0 ≤ size a) (hr : cap < running) : beyond size cap running l = l := by
  induction l generalizing running
  case nil          => rfl
  case cons a l hi  =>
    have ha := hs a List.mem_cons_self
    have hc : running + size a > cap := by omega
    rw [beyond, if_pos hc, hi (fun b hb => hs b (List.mem_cons_of_mem _ hb)) hc]

variable (size) in
-- Where no size is negative, this is all behind a first part, whose total is within the cap.
theorem beyond_eq_drop (hs : ∀ a ∈ l, 0 ≤ size a) (hr : running ≤ cap) :
    ∃ n, beyond size cap running l = l.drop n ∧ running + ((l.take n).map size).sum ≤ cap := by
  induction l generalizing running
  case nil         => exact ⟨0, rfl, by simpa using hr⟩
  case cons a l hi =>
    have hs' : ∀ b ∈ l, 0 ≤ size b := fun b hb => hs b (List.mem_cons_of_mem _ hb)
    rw [beyond]
    split
    case isTrue hc  => exact ⟨0, by rw [beyond_eq_self hs' hc, List.drop_zero], by simpa using hr⟩
    case isFalse hc =>
      obtain ⟨n, hd, ht⟩ := hi hs' (not_lt.mp hc)
      refine ⟨n + 1, by rw [hd, List.drop_succ_cons], ?_⟩
      rw [List.take_succ_cons, List.map_cons, List.sum_cons, ← add_assoc]
      exact ht

theorem sum_le_of_sublist (hs : ∀ a ∈ l, 0 ≤ size a) (hl : l'.Sublist l) :
    (l'.map size).sum ≤ (l.map size).sum := by
  refine (hl.map size).sum_le_sum fun n hn => ?_
  obtain ⟨a, ha, rfl⟩ := List.mem_map.mp hn
  exact hs a ha

end Sums

end Nordstjernen.Lib
