import Mathlib.Data.List.Induction
import Mathlib.Data.List.Nodup
import Mathlib.Data.List.Perm.Basic

namespace Nordstjernen.Lib

-- A log of writes of which only the last one of each key counts.

variable {α β κ : Type*} [DecidableEq κ] {key : α → κ} {xs ys : List α} {x y : α}

def lasts (key : α → κ) : List α → List α
  | []      => []
  | x :: xs => if ∃ y ∈ xs, key y = key x then lasts key xs else x :: lasts key xs

-- Writes `x` to a table, in place where its key is already there.
def put (key : α → κ) (table : List α) (x : α) : List α :=
  if table.any fun y => key y == key x
  then table.map fun y => if key y = key x then x else y
  else table ++ [x]

@[simp]
theorem lasts_nil : lasts key ([] : List α) = [] :=
  rfl

theorem lasts_concat (xs : List α) (x : α) :
    lasts key (xs ++ [x]) = (lasts key xs).filter (key · ≠ key x) ++ [x] := by
  induction xs
  case nil => simp [lasts]
  case cons z zs hi =>
    rw [List.cons_append, lasts, lasts, hi]
    by_cases hz : ∃ y ∈ zs, key y = key z
    case pos =>
      have ⟨y, hy, he⟩ := hz
      rw [if_pos hz, if_pos ⟨y, by simp [hy], he⟩]
    case neg =>
      by_cases he : key z = key x
      case pos => rw [if_neg hz, if_pos ⟨x, by simp, he.symm⟩]; simp [he]
      case neg =>
        have hn : ¬∃ y ∈ zs ++ [x], key y = key z := by
          simpa [or_imp, forall_and, Ne.symm he] using hz
        rw [if_neg hz, if_neg hn]
        simp [he]

theorem mem_lasts_concat : y ∈ lasts key (xs ++ [x]) ↔ y = x ∨ y ∈ lasts key xs ∧ key y ≠ key x := by
  simp [lasts_concat, or_comm]

theorem lasts_sublist (xs : List α) : (lasts key xs).Sublist xs := by
  induction xs <;> simp only [lasts, List.Sublist.refl]
  case cons x xs hi =>
    split
    case isTrue  => exact hi.trans (List.sublist_cons_self x xs)
    case isFalse => exact hi.cons_cons x

theorem mem_of_mem_lasts (h : x ∈ lasts key xs) : x ∈ xs :=
  (lasts_sublist xs).subset h

theorem exists_mem_lasts (h : x ∈ xs) : ∃ y ∈ lasts key xs, key y = key x := by
  induction xs using List.reverseRecOn
  case nil => simp at h
  case append_singleton xs z hi =>
    simp only [mem_lasts_concat, List.mem_append, List.mem_singleton] at h ⊢
    by_cases hz : key x = key z
    case pos => exact ⟨z, .inl rfl, hz.symm⟩
    case neg =>
      have ⟨y, hy, he⟩ := hi (h.resolve_right fun e => hz (e ▸ rfl))
      exact ⟨y, .inr ⟨hy, he ▸ hz⟩, he⟩

theorem nodup_lasts (xs : List α) : ((lasts key xs).map key).Nodup := by
  induction xs using List.reverseRecOn
  case nil => simp
  case append_singleton xs x hi =>
    rw [lasts_concat, List.map_append, List.nodup_append']
    refine ⟨hi.sublist (List.filter_sublist.map key), by simp, ?_⟩
    simp

theorem eq_of_mem_lasts (hx : x ∈ lasts key xs) (hy : y ∈ lasts key xs) (h : key x = key y) :
    x = y :=
  List.inj_on_of_nodup_map (nodup_lasts xs) hx hy h

-- Any later write of the same key takes the place of `x`.
theorem mem_lasts_append :
    x ∈ lasts key (xs ++ ys) ↔ x ∈ lasts key ys ∨ x ∈ lasts key xs ∧ ∀ y ∈ ys, key y ≠ key x := by
  induction ys using List.reverseRecOn
  case nil => simp
  case append_singleton ys z hi =>
    rw [← List.append_assoc, mem_lasts_concat, hi, mem_lasts_concat]
    simp only [List.mem_append, List.mem_singleton, or_imp, forall_and, forall_eq]
    tauto

theorem lasts_map (f : β → α) (xs : List β) :
    lasts key (xs.map f) = (lasts (key ∘ f) xs).map f := by
  induction xs <;> simp only [List.map_nil, List.map_cons, lasts]
  case cons x xs hi =>
    have he : (∃ y ∈ xs.map f, key y = key (f x)) ↔ ∃ y ∈ xs, (key ∘ f) y = (key ∘ f) x := by simp
    by_cases h : ∃ y ∈ xs, (key ∘ f) y = (key ∘ f) x
    case pos => rw [if_pos (he.mpr h), if_pos h, hi]
    case neg => rw [if_neg (he.not.mpr h), if_neg h, hi, List.map_cons]

theorem put_perm (h : (xs.map key).Nodup) :
    (put key xs x).Perm (xs.filter (key · ≠ key x) ++ [x]) := by
  induction xs
  case nil => simp [put]
  case cons y ys hi =>
    have ⟨hy, hn⟩ := List.nodup_cons.mp h
    have hi := hi hn
    by_cases he : key y = key x
    case pos =>
      have hne : ∀ z ∈ ys, key z ≠ key x := fun z hz hzx =>
        hy (List.mem_map.mpr ⟨z, hz, hzx.trans he.symm⟩)
      have hm : ys.map (fun z => if key z = key x then x else z) = ys :=
        (List.map_congr_left fun z hz => if_neg (hne z hz)).trans (List.map_id' ys)
      have hf : ys.filter (key · ≠ key x) = ys :=
        List.filter_eq_self.mpr fun z hz => by simpa using hne z hz
      have hp : put key (y :: ys) x = x :: ys := by simp [put, he, hm]
      rw [hp, List.filter_cons_of_neg (by simp [he]), hf]
      exact (List.perm_append_singleton x ys).symm
    case neg =>
      have hp : put key (y :: ys) x = y :: put key ys x := by
        simp only [put, List.any_cons, beq_eq_false_iff_ne.mpr he, Bool.false_or]
        split <;> simp [he]
      rw [hp, List.filter_cons_of_pos (by simp [he])]
      exact hi.cons y

-- Replaying the log into a table leaves the last write of each key.
theorem foldl_put_perm (xs : List α) : (xs.foldl (put key) []).Perm (lasts key xs) := by
  induction xs using List.reverseRecOn
  case nil => simp
  case append_singleton xs x hi =>
    have hn : ((xs.foldl (put key) []).map key).Nodup := (hi.map key).nodup_iff.mpr (nodup_lasts xs)
    rw [List.foldl_append, lasts_concat]
    exact (put_perm hn).trans ((hi.filter _).append_right [x])

theorem find?_put (table : List α) (x : α) (k : κ) :
    (put key table x).find? (key · = k) =
      if key x = k then some x else table.find? (key · = k) := by
  rw [put]
  split
  case isFalse h =>
    have hn : ∀ y ∈ table, key y ≠ key x := by simpa using h
    rw [List.find?_append]
    by_cases hk : key x = k
    case neg => simp [hk]
    case pos =>
      have ht : table.find? (key · = k) = none :=
        List.find?_eq_none.mpr fun y hy => by simpa using hk ▸ hn y hy
      simp [ht, hk]
  case isTrue h =>
    have hf : ((key · = k) : α → Bool) ∘ (fun y => if key y = key x then x else y) = (key · = k) := by
      funext y
      by_cases hy : key y = key x <;> simp [hy]
    rw [List.find?_map, hf]
    cases hy : table.find? (key · = k)
    case none =>
      obtain ⟨y, hm, he⟩ := List.any_eq_true.mp h
      have hk : key y ≠ k := by simpa using List.find?_eq_none.mp hy y hm
      simp [(beq_iff_eq.mp he).symm, hk]
    case some y =>
      have hk : key y = k := by simpa using List.find?_some hy
      by_cases hx : key x = k
      case pos => simp [hx, hk]
      case neg => simp [hx, hk, Ne.symm hx]

theorem find?_foldl_put (xs : List α) (k : κ) :
    (xs.foldl (put key) []).find? (key · = k) = (xs.filter (key · = k)).getLast? := by
  induction xs using List.reverseRecOn
  case nil => rfl
  case append_singleton xs x hi =>
    rw [List.foldl_append, List.foldl_cons, List.foldl_nil, find?_put, hi, List.filter_append]
    by_cases hx : key x = k <;> simp [hx]

end Nordstjernen.Lib
