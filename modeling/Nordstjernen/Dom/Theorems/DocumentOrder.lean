import Nordstjernen.Dom.NodeIndex
import Nordstjernen.Dom.Theorems.Tree

open Nordstjernen.Lib

namespace Nordstjernen.Dom.Tree

variable {t : Tree} {a b x y : Node} {u v c row fwd back : List Node} {guard : Nat}

section Siblings

theorem scanSiblings_next (hf : y ∈ fwd) (hb : y ∉ back) : scanSiblings y fwd back = -1 := by
  fun_induction scanSiblings y fwd back <;> grind

theorem scanSiblings_previous (hf : y ∉ fwd) (hb : y ∈ back) : scanSiblings y fwd back = 1 := by
  fun_induction scanSiblings y fwd back <;> grind

theorem siblingCmp_of_sublist (hn : row.Nodup) (h : [x, y].Sublist row) :
    siblingCmp row x y = -1 ∧ siblingCmp row y x = 1 := by
  obtain ⟨r₁, r₂, rfl, hx, hy⟩ := List.cons_sublist_iff.mp h
  obtain ⟨p, q, rfl⟩ := List.append_of_mem hx
  obtain ⟨q', r, rfl⟩ := List.append_of_mem (List.singleton_sublist.mp hy)
  have hsplit : p ++ x :: q ++ (q' ++ y :: r) = p ++ x :: (q ++ q' ++ y :: r) := by simp
  have hsplit' : p ++ x :: q ++ (q' ++ y :: r) = (p ++ x :: (q ++ q')) ++ y :: r := by simp
  have hxp : x ∉ p := by grind
  have hxr : x ∉ r := by grind
  have hyp : y ∉ p ++ x :: (q ++ q') := by grind
  have hxy : x ≠ y := by grind
  have hafter {z : Node} {s s' : List Node} (hz : z ∉ s) : ((s ++ z :: s').dropWhile (· ≠ z)).tail = s' := by
    rw [List.dropWhile_append_of_pos fun w hw => by simpa using fun (he : w = z) => hz (he ▸ hw)]
    simp
  have hbefore {z : Node} {s s' : List Node} (hz : z ∉ s) : (s ++ z :: s').takeWhile (· ≠ z) = s := by
    rw [List.takeWhile_append_of_pos fun w hw => by simpa using fun (he : w = z) => hz (he ▸ hw)]
    simp
  have hhead : (p ++ x :: q ++ (q' ++ y :: r)).head? ≠ some y := by
    cases p <;> grind
  have hlast : (p ++ x :: q ++ (q' ++ y :: r)).getLast? ≠ some x := by
    intro hl
    rw [hsplit', List.getLast?_append_cons] at hl
    obtain he | hm := List.mem_cons.mp (List.mem_of_getLast? hl)
    · exact hxy he
    · exact hxr hm
  refine ⟨?_, ?_⟩
  · rw [siblingCmp]
    split
    case isTrue  => rfl
    case isFalse =>
      rw [if_neg (by grind), hsplit, hafter hxp, hbefore hxp]
      exact scanSiblings_next (by simp) (by grind)
  · rw [siblingCmp, if_neg (by grind)]
    split
    case isTrue  => rfl
    case isFalse =>
      rw [hsplit', hafter hyp, hbefore hyp]
      exact scanSiblings_previous hxr (by simp)

end Siblings

section Climb

-- Nodes as far below two nodes of a row are not the same.
theorem heads_ne (ha : t.whole.lineage a = some (u ++ x :: c)) (hb : t.whole.lineage b = some (v ++ y :: c))
    (hl : u.length = v.length) (hxy : x ≠ y) : (u ++ x :: c).head? ≠ (v ++ y :: c).head? := by
  obtain ⟨l, hla⟩ := Forest.exists_lineage (Forest.isSome_lineage.mp (Option.isSome_of_mem ha))
  obtain ⟨m, hmb⟩ := Forest.exists_lineage (Forest.isSome_lineage.mp (Option.isSome_of_mem hb))
  rw [ha] at hla
  rw [hb] at hmb
  have hu := Option.some.inj hla
  have hv := Option.some.inj hmb
  rw [hu, hv, List.head?_cons, List.head?_cons]
  intro he
  obtain rfl := Option.some.inj he
  rw [ha] at hb
  have hc := (List.append_inj (Option.some.inj hb) hl).right
  exact hxy (List.cons.inj hc).left

theorem climb_eq (ha : t.whole.lineage a = some (u ++ x :: c)) (hb : t.whole.lineage b = some (v ++ y :: c))
    (hl : u.length = v.length) (hxy : x ≠ y) (hg : u.length ≤ guard) :
    climb guard (u ++ x :: c) (v ++ y :: c) = (x :: c, y :: c) := by
  induction u generalizing a b v guard
  case nil =>
    obtain rfl := List.length_eq_zero_iff.mp hl.symm
    cases guard <;> simp [climb]
  case cons z u hi =>
    obtain ⟨z', v, rfl⟩ := List.exists_cons_of_length_eq_add_one hl.symm
    cases guard
    case zero       => exact absurd hg (Nat.not_succ_le_zero _)
    case succ guard =>
      have hl' : u.length = v.length := Nat.succ.inj hl
      obtain ⟨m, l, hm⟩ := List.exists_cons_of_ne_nil (List.append_ne_nil_of_right_ne_nil u (List.cons_ne_nil x c))
      obtain ⟨m', l', hm'⟩ := List.exists_cons_of_ne_nil (List.append_ne_nil_of_right_ne_nil v (List.cons_ne_nil y c))
      have ha' : t.whole.lineage m = some (u ++ x :: c) := by
        rw [List.cons_append, hm] at ha
        rw [hm]
        exact Forest.lineage_suffix (u := [z]) t.nodup ha
      have hb' : t.whole.lineage m' = some (v ++ y :: c) := by
        rw [List.cons_append, hm'] at hb
        rw [hm']
        exact Forest.lineage_suffix (u := [z']) t.nodup hb
      rw [climb, if_pos ⟨by simp, by simp, by simpa using heads_ne ha' hb' hl' hxy⟩]
      exact hi ha' hb' hl' (Nat.le_of_succ_le_succ hg)

end Climb

section Compare

theorem up_eq {up : List Node} (h : t.whole.lineage a = some up) : t.up a = up := by
  rw [Tree.up, h, Option.getD_some]

theorem length_le_of_lineage {up : List Node} (hh : t.kids.height < domMaxDepth)
    (h : t.whole.lineage a = some up) : up.length ≤ domMaxDepth := by
  have hl := Forest.length_lineage_le h
  rw [whole, Forest.height, Forest.height] at hl
  omega

-- Two nodes whose ways up come together below some node compare as the nodes there do.
theorem documentOrderCmp_eq {q : Node} (hh : t.kids.height < domMaxDepth)
    (ha : t.whole.lineage a = some (u ++ x :: q :: c)) (hb : t.whole.lineage b = some (v ++ y :: q :: c))
    (hxy : x ≠ y) : t.documentOrderCmp a b = siblingCmp (t.below q).tops x y := by
  have hla := length_le_of_lineage hh ha
  have hlb := length_le_of_lineage hh hb
  have hdrop {w z : List Node} {k : Nat} (hk : k ≤ w.length) : (w ++ z).drop k = w.drop k ++ z :=
    List.drop_append_of_le_length hk
  -- The deeper one of the two has gone up to the level of the other.
  have hup {d : Node} {w : List Node} {z : Node} (k : Nat)
      (hd : t.whole.lineage d = some (w ++ z :: q :: c)) :
      ∃ d', t.whole.lineage d' = some (w.drop k ++ z :: q :: c) := by
    obtain ⟨m, l, hm⟩ := List.exists_cons_of_ne_nil
      (List.append_ne_nil_of_right_ne_nil (w.drop k) (List.cons_ne_nil z (q :: c)))
    refine ⟨m, ?_⟩
    rw [hm]
    refine Forest.lineage_suffix (n := d) (u := w.take k) t.nodup ?_
    rw [← hm, ← List.append_assoc, List.take_append_drop]
    exact hd
  have hne : a ≠ b := by
    rintro rfl
    rw [ha] at hb
    have hr := (List.append_inj' (Option.some.inj hb) rfl).right
    exact hxy (List.cons.inj hr).left
  obtain ⟨a', ha'⟩ := hup (u.length - v.length) ha
  obtain ⟨b', hb'⟩ := hup (v.length - u.length) hb
  have hl : (u.drop (u.length - v.length)).length = (v.drop (v.length - u.length)).length := by
    rw [List.length_drop, List.length_drop]
    omega
  simp only [List.length_append, List.length_cons] at hla hlb
  have hda : u.length + (c.length + 1 + 1) - (v.length + (c.length + 1 + 1)) = u.length - v.length := by
    omega
  have hdb : v.length + (c.length + 1 + 1) - (u.length + (c.length + 1 + 1)) = v.length - u.length := by
    omega
  have hgu : (u.drop (u.length - v.length)).length ≤ domMaxDepth := by
    rw [List.length_drop]
    omega
  simp only [documentOrderCmp, if_neg hne, up_eq ha, up_eq hb, List.length_append, List.length_cons,
    Nat.min_eq_left hla, Nat.min_eq_left hlb, hda, hdb, hdrop (Nat.sub_le _ _),
    if_neg (heads_ne ha' hb' hl hxy), climb_eq ha' hb' hl hxy hgu]

-- The comparison of a node with one that comes after it.
theorem documentOrderCmp_of_sublist (hh : t.kids.height < domMaxDepth)
    (h : [a, b].Sublist t.whole.labels) :
    t.documentOrderCmp a b = -1 ∧ t.documentOrderCmp b a = 1 := by
  obtain ⟨ua, ub, ha, hb, ⟨w, hw, rfl⟩ | ⟨x, y, u, v, c, rfl, rfl, hrow⟩⟩ :=
    Forest.before_of_sublist t.nodup h
  case inl =>
    have hne : a ≠ b := by
      have hn := h.nodup t.nodup
      simp at hn
      exact hn
    have hla := length_le_of_lineage hh ha
    have hlb := length_le_of_lineage hh hb
    have hlw := List.length_pos_of_ne_nil hw
    rw [List.length_append] at hlb
    have h₁ : ua.length - (w.length + ua.length) = 0 := by omega
    have h₂ : w.length + ua.length - ua.length = w.length := by omega
    have hlt : ua.length < w.length + ua.length := by omega
    have hnlt : ¬w.length + ua.length < ua.length := by omega
    simp only [documentOrderCmp, if_neg hne, if_neg (Ne.symm hne), up_eq ha, up_eq hb, List.length_append,
      Nat.min_eq_left hla, Nat.min_eq_left hlb, h₁, h₂, List.drop_zero, List.drop_left, if_pos hlt, if_neg hnlt]
    exact ⟨rfl, rfl⟩
  case inr =>
    have hn := Forest.nodup_row t.nodup (c := c)
    have hxy : x ≠ y := by
      have hp := hrow.nodup hn
      simp at hp
      exact hp
    cases c
    case nil      => exact absurd hrow.length_le (by simp [Forest.row, Forest.tops])
    case cons q c =>
      rw [documentOrderCmp_eq hh ha hb hxy, documentOrderCmp_eq hh hb ha (Ne.symm hxy)]
      exact siblingCmp_of_sublist hn hrow

end Compare

end Nordstjernen.Dom.Tree
