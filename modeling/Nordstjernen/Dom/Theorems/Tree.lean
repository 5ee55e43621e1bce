import Nordstjernen.Dom.IdIndex
import Nordstjernen.Dom.Document

open Nordstjernen.Glib Nordstjernen.Lib

namespace Nordstjernen.Dom.Tree

variable {t : Tree} {info : Node → Info} {n m p r x : Node} {ref : Option Node} {below : Forest Node}
  {up : List Node}

theorem below_root : t.below t.root = t.kids := by
  rw [below, whole, Forest.kids?, if_pos rfl, Option.getD_some]

theorem up_root : t.up t.root = [t.root] := by
  rw [Tree.up, whole, Forest.lineage_node_self, Option.getD_some]

theorem mem_whole : n ∈ t.whole.labels ↔ n = t.root ∨ n ∈ t.kids.labels := by
  rw [labels_whole, List.mem_cons]

theorem root_ne (h : n ∈ t.kids.labels) : t.root ≠ n := by
  rintro rfl
  exact root_not_mem_kids h

theorem up_of_lineage (h : t.kids.lineage n = some up) : t.up n = up ++ [t.root] := by
  have hn : n ∈ t.kids.labels := Forest.isSome_lineage.mp (by rw [h, Option.isSome_some])
  rw [Tree.up, whole, Forest.lineage_node_kids (root_ne hn) h, Option.getD_some]

theorem kids?_of_mem (h : n ∈ t.kids.labels) : t.kids.kids? n = some (t.below n) := by
  obtain ⟨k, hk⟩ := Option.isSome_iff_exists.mp (Forest.isSome_kids?.mpr h)
  rw [below, whole, Forest.kids?, if_neg (root_ne h), hk, Option.some_or, Option.getD_some]

theorem treeLabels_of_mem (h : n ∈ t.kids.labels) :
    t.kids.treeLabels n = n :: (t.below n).labels := by
  rw [Forest.treeLabels, kids?_of_mem h]

theorem not_boundary_of_mem_visits {levels : Nat} (h : n ∈ visits info levels t.kids)
    (hu : t.kids.lineage n = some up) (hx : x ∈ up) : (info x).scopeBoundary = false :=
  @Forest.not_skips_of_mem_lineage _ _ _ _ _ (fun n => (info n).scopeBoundary) _ _ _ nodup_kids h hu hx

theorem detachedNodes_subset (h : n ∈ t.kids.labels) :
    detachedNodes info n (t.below n) ⊆ t.kids.treeLabels n := by
  rw [treeLabels_of_mem h, detachedNodes]
  split
  case isTrue  => exact List.nil_subset _
  case isFalse =>
    refine List.cons_subset_cons n ?_
    split
    case isTrue  => exact List.nil_subset _
    case isFalse => exact Forest.reached_subset_labels

section Root

variable (hdoc : (info t.root).isDocument)

include hdoc

theorem not_isTemplate_root : (info t.root).isTemplate = false := by
  have hk : (info t.root).kind = .document := by
    simp only [Info.isDocument, Bool.and_eq_true, decide_eq_true_eq] at hdoc
    exact hdoc.left
  simp [Info.isTemplate, Info.isElementNamed, hk]

theorem walk_root : t.walk info t.root = t.root :: visits info (domMaxDepth - 1) t.kids := by
  rw [walk, not_isTemplate_root hdoc, below_root, if_neg Bool.false_ne_true]

theorem walk_sublist : (t.walk info t.root).Sublist t.whole.labels := by
  rw [walk_root hdoc, labels_whole]
  exact Forest.reached_sublist_labels.cons_cons t.root

theorem walk_subset : t.walk info t.root ⊆ t.whole.labels :=
  (walk_sublist hdoc).subset

theorem nodup_walk_root : (t.walk info t.root).Nodup :=
  t.nodup.sublist (walk_sublist hdoc)

-- The climb from a node goes to the document if it comes to no boundary before.
theorem scopeDocument_of_lineage (hu : t.kids.lineage n = some up)
    (hs : ∀ x ∈ up, (info x).scopeBoundary = false) : t.scopeDocument info n = some t.root := by
  have hnone : up.find? (fun m => (info m).isDocument) = none := by
    refine List.find?_eq_none.mpr fun x hx => ?_
    have hb := hs x hx
    simp_all [Info.scopeBoundary, Info.isDocument]
  rw [scopeDocument, up_of_lineage hu, List.find?_append, hnone, Option.none_or]
  simp [hdoc]

theorem scopeDocument_root : t.scopeDocument info t.root = some t.root := by
  simp [scopeDocument, up_root, hdoc]

theorem scopeDocument_of_mem_walk (h : n ∈ t.walk info t.root) :
    t.scopeDocument info n = some t.root := by
  rw [walk_root hdoc] at h
  obtain rfl | h := List.mem_cons.mp h
  · exact scopeDocument_root hdoc
  · obtain ⟨up, hu⟩ := Forest.exists_lineage (Forest.reached_subset_labels h)
    exact scopeDocument_of_lineage hdoc hu fun x hx => not_boundary_of_mem_visits h hu hx

-- What is visited, and is in a tree that is taken away.
theorem mem_detachedNodes (h : x ∈ t.walk info t.root) (hx : x ∈ t.kids.treeLabels n) :
    x ∈ detachedNodes info n (t.below n) ∧
      ∃ q, (t.up n).tail.head? = some q ∧ t.scopeDocument info q = some t.root := by
  have hn : n ∈ t.kids.labels := by
    by_contra hn
    rw [Forest.treeLabels_eq_nil hn] at hx
    exact List.not_mem_nil hx
  have hxv : x ∈ visits info (domMaxDepth - 1) t.kids := by
    rw [walk_root hdoc] at h
    exact (List.mem_cons.mp h).resolve_left fun he => root_not_mem_kids (he ▸ Forest.treeLabels_subset hx)
  obtain ⟨up, hu, hnu⟩ := (Forest.mem_lineage_iff nodup_kids).mpr hx
  have hs : ∀ y ∈ up, (info y).scopeBoundary = false := fun y hy =>
    not_boundary_of_mem_visits hxv hu hy
  obtain ⟨u, v, rfl⟩ := List.append_of_mem hnu
  have hun := Forest.lineage_suffix nodup_kids hu
  refine ⟨?_, ?_⟩
  · have hsh : (info n).isShadowRoot = false := by
      have hb := hs n (by simp)
      simp_all [Info.scopeBoundary]
    rw [detachedNodes, hsh, if_neg Bool.false_ne_true, List.mem_cons]
    rw [treeLabels_of_mem hn] at hx
    refine (List.mem_cons.mp hx).imp_right fun hxb => ?_
    obtain ⟨hst, hm⟩ := Forest.reached_kids nodup_kids (kids?_of_mem hn) hxb hxv
    rw [hst, if_neg Bool.false_ne_true]
    exact hm
  · rw [up_of_lineage hun]
    cases v
    case nil      => exact ⟨_, rfl, scopeDocument_root hdoc⟩
    case cons q v =>
      have huq := Forest.lineage_suffix nodup_kids (u := [n]) hun
      exact ⟨q, rfl, scopeDocument_of_lineage hdoc huq fun y hy => hs y (by simp_all)⟩

theorem walk_remove : (t.remove n).walk info t.root =
    (t.walk info t.root).filter (· ∉ t.kids.treeLabels n) := by
  have hr : t.root ∉ t.kids.treeLabels n := fun h => root_not_mem_kids (Forest.treeLabels_subset h)
  rw [walk_root hdoc, List.filter_cons_of_pos (by simpa using hr), visits,
    ← Forest.reached_remove nodup_kids]
  exact walk_root hdoc

theorem walk_insert {h : t.Fresh r below} : ∃ new,
    Forest.Splice new (t.walk info t.root) ((t.insert p ref r below h).walk info t.root) ∧
      new ⊆ subtreeNodes info r below ∧
      (¬(p ∈ t.walk info t.root ∧ (info p).isTemplate = false) → new = []) := by
  have hsub : (visits info (domMaxDepth - 1) (.node r below .nil)) ⊆ subtreeNodes info r below :=
    (Forest.reached_pred_sublist (l := some domMaxDepth)).subset
  have hw : (t.insert p ref r below h).walk info t.root =
      t.root :: visits info (domMaxDepth - 1) (t.kidsWith p ref r below) := walk_root hdoc
  rw [hw, walk_root hdoc, kidsWith]
  split
  case isTrue hp  =>
    subst hp
    exact ⟨_, Forest.reached_insertBefore.cons, hsub, by simp [not_isTemplate_root hdoc]⟩
  case isFalse hp =>
    obtain ⟨new, hspl, hnew, -, hnone⟩ := @Forest.reached_onKids _ t.kids r _
      (fun n => (info n).scopeBoundary) (fun n => (info n).isTemplate) (some (domMaxDepth - 1)) ref below p
      nodup_kids
    refine ⟨new, hspl.cons, List.Subset.trans hnew hsub, fun hc => hnone fun hin => hc ?_⟩
    exact ⟨List.mem_cons_of_mem _ hin.left, hin.right⟩

-- In trees that are not that high, an insertion where the walk goes puts the whole subtree into it.
theorem walk_insert_of_low {h : t.Fresh r below} (hh : t.kids.height < domMaxDepth)
    (hh' : (t.insert p ref r below h).kids.height < domMaxDepth) (hp : p ∈ t.walk info t.root)
    (hst : (info p).isTemplate = false) :
    Forest.Splice (subtreeNodes info r below) (t.walk info t.root)
      ((t.insert p ref r below h).walk info t.root) := by
  have hw : (t.insert p ref r below h).walk info t.root =
      t.root :: visits info (domMaxDepth - 1) (t.kidsWith p ref r below) := walk_root hdoc
  have hkids : (t.insert p ref r below h).kids = t.kidsWith p ref r below := rfl
  have hb : (Forest.node r below .nil).height ≤ (t.kidsWith p ref r below).height := by
    rw [kidsWith]
    split
    case isTrue      => exact Forest.height_insertBefore
    case isFalse hne =>
      have hpk := (mem_whole.mp (walk_subset hdoc hp)).resolve_left (Ne.symm hne)
      exact Forest.height_onKids hpk
  rw [hkids] at hh'
  rw [hw, walk_root hdoc, subtreeNodes, visits, visits, visits, Forest.reached_of_height (Nat.le_sub_one_of_lt hh),
    Forest.reached_of_height (Nat.le_sub_one_of_lt hh'),
    Forest.reached_of_height (Nat.le_of_lt (Nat.lt_of_le_of_lt hb hh'))]
  refine Forest.Splice.cons ?_
  rw [kidsWith]
  split
  case isTrue      => exact Forest.reached_insertBefore
  case isFalse hne =>
    obtain ⟨new, hspl, -, hall, -⟩ := @Forest.reached_onKids _ t.kids r _
      (fun n => (info n).scopeBoundary) (fun n => (info n).isTemplate) none ref below p nodup_kids
    rw [walk_root hdoc, visits, Forest.reached_of_height (Nat.le_sub_one_of_lt hh)] at hp
    have hpk := (List.mem_cons.mp hp).resolve_left (Ne.symm hne)
    rwa [hall ⟨hpk, hst⟩ rfl] at hspl

end Root

end Nordstjernen.Dom.Tree

namespace Nordstjernen.Dom.Document

variable {d : Document} {n m : Node} {id : CString} {value : Option CString}

theorem getAttr_withAttr {a name : CString} (h : name ≠ a) :
    (d.withAttr n name value m).getAttr a = (d.info m).getAttr a := by
  rw [withAttr]
  split
  case isFalse   => rfl
  case isTrue hm => subst hm; simp [Info.setAttr, Info.getAttr, Ne.symm h]

theorem kind_withAttr {name : CString} : (d.withAttr n name value m).kind = (d.info m).kind := by
  rw [withAttr]
  split
  case isFalse   => rfl
  case isTrue hm => subst hm; rfl

theorem name_withAttr {name : CString} : (d.withAttr n name value m).name = (d.info m).name := by
  rw [withAttr]
  split
  case isFalse   => rfl
  case isTrue hm => subst hm; rfl

theorem isTemplate_withAttr {name : CString} :
    (d.withAttr n name value m).isTemplate = (d.info m).isTemplate := by
  simp [Info.isTemplate, Info.isElementNamed, kind_withAttr, name_withAttr]

theorem scopeBoundary_withAttr {name : CString} (h : name ≠ "data-nd-shadow-root".toList) :
    (d.withAttr n name value m).scopeBoundary = (d.info m).scopeBoundary := by
  rw [Info.scopeBoundary, Info.scopeBoundary, Info.isShadowRoot, Info.isShadowRoot, getAttr_withAttr h]
  simp [kind_withAttr]

-- The walks do not depend on the other attributes.
theorem walk_withAttr {name : CString} {t : Tree} {k : Node} (h : name ≠ "data-nd-shadow-root".toList) :
    t.walk (d.withAttr n name value) k = t.walk d.info k := by
  simp only [Tree.walk, visits, scopeBoundary_withAttr h, isTemplate_withAttr]

theorem hasId_withAttr (h : m ≠ n) :
    (d.withAttr n "id".toList value m).hasId id = (d.info m).hasId id := by
  rw [withAttr, if_neg h]

theorem hasId_withAttr_of_ne {name : CString} (h : name ≠ "id".toList) :
    (d.withAttr n name value m).hasId id = (d.info m).hasId id := by
  rw [Info.hasId, Info.hasId, getAttr_withAttr h]

theorem not_mem_walk_of_not_indexes (h : d.indexes n = false) : n ∉ d.tree.walk d.info d.tree.root := by
  intro hn
  rw [indexes, Tree.scopeDocument_of_mem_walk d.isDocument hn, decide_eq_false_iff_not] at h
  exact h rfl

end Nordstjernen.Dom.Document
