import Mathlib.Data.List.Sort

namespace Nordstjernen.Glib

variable {α κ : Type*} [LinearOrder κ] {cmp : α → α → Int} {key : α → κ}

-- `g_array_sort`, which is documented to be stable: an element stays in front of what the comparison
-- does not put before it.
def gArraySort (cmp : α → α → Int) (xs : List α) : List α :=
  xs.insertionSort (cmp · · ≤ 0)

theorem gArraySort_perm (cmp : α → α → Int) (xs : List α) : (gArraySort cmp xs).Perm xs :=
  List.perm_insertionSort _ xs

-- A comparison that never finds two elements equal still sorts by its key.
theorem gArraySort_pairwise (h : ∀ a b, cmp a b ≤ 0 ↔ key a < key b) (xs : List α) :
    (gArraySort cmp xs).Pairwise (key · ≤ key ·) := by
  induction xs
  case nil => exact .nil
  case cons x xs hi =>
    rw [gArraySort, List.insertionSort_cons, ← gArraySort]
    generalize gArraySort cmp xs = ys at hi
    induction ys
    case nil => exact List.pairwise_singleton _ x
    case cons y ys hy =>
      rw [List.orderedInsert_cons]
      have ⟨hle, hys⟩ := List.pairwise_cons.mp hi
      split
      case isTrue hxy =>
        have hlt := (h x y).mp hxy
        refine List.pairwise_cons.mpr ⟨fun z hz => ?_, hi⟩
        cases List.mem_cons.mp hz
        case inl hz => exact hz ▸ hlt.le
        case inr hz => exact hlt.le.trans (hle z hz)
      case isFalse hxy =>
        have hle' : key y ≤ key x := not_lt.mp (mt (h x y).mpr hxy)
        refine List.pairwise_cons.mpr ⟨fun z hz => ?_, hy hys⟩
        cases List.mem_cons.mp ((List.perm_orderedInsert _ x ys).mem_iff.mp hz)
        case inl hz => exact hz ▸ hle'
        case inr hz => exact hle z hz

end Nordstjernen.Glib
