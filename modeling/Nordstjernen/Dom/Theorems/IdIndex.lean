import Mathlib.Data.List.Find
import Nordstjernen.Dom.Theorems.Tree
import Nordstjernen.Lib.Run

open Nordstjernen.Glib Nordstjernen.Lib

namespace Nordstjernen.Dom

namespace IdIndex

variable {idx : IdIndex} {info : Node → Info} {nodes : List Node} {id : CString} {n e : Node}

theorem hasId_iff : (info n).hasId id ↔ (info n).getAttr "id".toList = some id := by
  rw [Info.hasId, beq_iff_eq]

theorem addNode_apply : addNode info idx n id =
    (idx id).or (if id ≠ [] ∧ (info n).hasId id then some n else none) := by
  cases ha : (info n).getAttr "id".toList
  case none   => simp only [addNode, Info.hasId, ha]; simp
  case some i =>
    simp only [addNode, register, Info.hasId, ha]
    by_cases hi : i = id
    case neg => split <;> simp [put, Ne.symm hi, hi]
    case pos =>
      subst hi
      cases hx : idx i
      case some e => simp [hx]
      case none   => by_cases hn : i = [] <;> simp_all [put]

theorem foldl_addNode : (nodes.foldl (addNode info) idx) id =
    (idx id).or (if id = [] then none else nodes.find? fun m => (info m).hasId id) := by
  induction nodes generalizing idx
  case nil            => simp
  case cons m nodes hi =>
    rw [List.foldl_cons, hi, addNode_apply, Option.or_assoc, List.find?_cons]
    congr 1
    by_cases hid : id = []
    case pos => simp [hid]
    case neg => cases hm : (info m).hasId id <;> simp [hid]

theorem removeNode_apply : removeNode info idx n id =
    if id ≠ [] ∧ idx id = some n ∧ (info n).hasId id then none else idx id := by
  cases ha : (info n).getAttr "id".toList
  case none   => simp only [removeNode, Info.hasId, ha]; simp
  case some i =>
    simp only [removeNode, unregister, Info.hasId, ha]
    by_cases hi : i = id
    case neg => split <;> simp [put, Ne.symm hi, hi]
    case pos => subst hi; split <;> simp_all [put]

-- Only entries that were there stay, and none of them is for one of these nodes.
theorem foldl_removeNode (h : (nodes.foldl (removeNode info) idx) id = some e) :
    idx id = some e ∧ (id ≠ [] → (info e).hasId id → e ∉ nodes) := by
  induction nodes generalizing idx
  case nil            => exact ⟨h, fun _ _ => List.not_mem_nil⟩
  case cons m nodes hi =>
    obtain ⟨hx, hm⟩ := hi h
    rw [removeNode_apply] at hx
    split at hx
    case isTrue     => cases hx
    case isFalse hc =>
      refine ⟨hx, fun hid he hmem => ?_⟩
      obtain rfl | hmem := List.mem_cons.mp hmem
      · exact hc ⟨hid, hx, he⟩
      · exact hm hid he hmem

end IdIndex

namespace Tree

variable {t : Tree} {info : Node → Info} {id : CString} {n e : Node}

theorem find?_of_imp {p q : Node → Bool} {l : List Node} (hf : l.find? p = some e) (he : q e)
    (h : ∀ m ∈ l, q m → p m) : l.find? q = some e := by
  obtain ⟨-, as, bs, rfl, has⟩ := List.find?_eq_some_iff_append.mp hf
  refine List.find?_eq_some_iff_append.mpr ⟨he, as, bs, rfl, fun a ha => ?_⟩
  by_contra hq
  have hp := h a (List.mem_append_left _ ha) (by simpa using hq)
  have hn := has a ha
  rw [hp] at hn
  cases hn

theorem hasId_of_findByIdDepth (h : t.findByIdDepth info n id = some e) : (info e).hasId id := by
  have he := List.find?_some h
  exact he

theorem find?_of_sublist {p : Node → Bool} {l l' : List Node} (hs : l.Sublist l') (hn : l'.Nodup)
    (hf : l'.find? p = some e) (he : e ∈ l) : l.find? p = some e := by
  induction hs
  case slnil => exact absurd he List.not_mem_nil
  case cons l l' a hs hi =>
    have ha : a ≠ e := by
      rintro rfl
      exact (List.nodup_cons.mp hn).left (hs.subset he)
    rw [List.find?_cons] at hf
    split at hf
    case h_1 => exact absurd (Option.some.inj hf) ha
    case h_2 => exact hi (List.nodup_cons.mp hn).right hf he
  case cons_cons l l' a hs hi =>
    rw [List.find?_cons] at hf ⊢
    split at hf
    case h_1 => exact hf
    case h_2 hp =>
      have ha : e ≠ a := by
        rintro rfl
        rw [List.find?_some hf] at hp
        cases hp
      exact hi (List.nodup_cons.mp hn).right hf ((List.mem_cons.mp he).resolve_left ha)

-- What is found in a document is found from a node above it too, if no walk stops for its depth.
theorem findByIdDepth_of_contains (hdoc : (info t.root).isDocument)
    (hh : t.kids.height ≤ domMaxDepth - 1) (hf : t.findByIdDepth info t.root id = some e)
    (hc : t.contains n e) : t.findByIdDepth info n id = some e := by
  have he := List.mem_of_find?_eq_some hf
  have hid := hasId_of_findByIdDepth hf
  rw [walk_root hdoc] at he
  obtain rfl | he := List.mem_cons.mp he
  case inl =>
    have hn : n = t.root := by simpa [contains, up_root] using hc
    rw [hn, hf]
  case inr =>
    obtain ⟨up, hu⟩ := Forest.exists_lineage (Forest.reached_subset_labels he)
    rw [contains, up_of_lineage hu, List.contains_iff_mem, List.mem_append] at hc
    obtain hn | hn := hc
    case inr => rw [List.mem_singleton.mp hn, hf]
    case inl =>
      have htree := (Forest.mem_lineage_iff nodup_kids).mp ⟨_, hu, hn⟩
      have hnk : n ∈ t.kids.labels := Forest.lineage_subset hu hn
      have hk := kids?_of_mem hnk
      rw [treeLabels_of_mem hnk] at htree
      by_cases hen : e = n
      case pos => rw [findByIdDepth, walk, List.find?_cons_of_pos (hen ▸ hid), hen]
      case neg =>
        have heb := (List.mem_cons.mp htree).resolve_left hen
        obtain ⟨hst, hev⟩ := Forest.reached_kids nodup_kids hk heb he
        have hw : t.walk info n = n :: visits info (domMaxDepth - 1) (t.below n) := by
          rw [walk, hst, if_neg Bool.false_ne_true]
        have hsub : (t.walk info n).Sublist (t.walk info t.root) := by
          rw [hw, walk_root hdoc, visits, visits, Forest.reached_of_height hh,
            Forest.reached_of_height ((Forest.height_kids?_le hk).trans hh)]
          rw [visits, Forest.reached_of_height hh] at he
          exact (Forest.reached_kids_sublist nodup_kids hk heb he).cons t.root
        refine find?_of_sublist hsub ?_ hf (hw ▸ List.mem_cons_of_mem n hev)
        exact nodup_walk_root hdoc

end Tree

namespace Document

variable {d d' : Document} {id : CString} {n : Node} {e : Event}

-- Every entry is for the element that the walk finds.
def IdsRight (d : Document) : Prop :=
  ∀ idx ∈ d.idIndex, ∀ id e, idx id = some e →
    id ≠ [] ∧ d.tree.findByIdDepth d.info d.tree.root id = some e

-- Whether the first element with an id that comes into the document is the one that the index holds, or
-- puts in.
def KeepsIds (d : Document) : Event → Prop
  | .setId n value        =>
    let info := d.withAttr n "id".toList value
    d.indexes n → ∀ idx ∈ d.idIndex, ∀ id ≠ [], (info n).hasId id →
      d.tree.findByIdDepth info d.tree.root id = some ((IdIndex.removeNode d.info idx n id).getD n)
  | .insert p ref r below =>
    ∀ h, d.indexes p → ∀ idx ∈ d.idIndex, ∀ id ≠ [],
      ∀ m ∈ (subtreeNodes d.info r below).find? fun m => (d.info m).hasId id,
        (d.tree.insert p ref r below h).findByIdDepth d.info d.tree.root id = some ((idx id).getD m)
  | .findById n id        =>
    d.tree.searchDocument d.info n = some d.tree.root → ∀ idx ∈ d.idIndex,
      (∀ e ∈ idx id, d.tree.contains n e = false) → ∀ m ∈ d.tree.findByIdDepth d.info n id,
        d.tree.findByIdDepth d.info d.tree.root id = some m
  | _                     => True

-- Whether a lookup asks for an element at all, and the walks come to all that is in the document.
def Answers (d : Document) (n : Node) (id : CString) : Prop :=
  (id = [] → d.tree.findByIdDepth d.info n id = none) ∧
    (n = d.tree.root ∨ d.tree.kids.height < domMaxDepth)

theorem IdsRight.buildIds : d.buildIds.IdsRight := by
  rintro idx hidx id e he
  cases hidx
  rw [Tree.buildIds, IdIndex.foldl_addNode, Option.none_or] at he
  split at he
  case isTrue      => cases he
  case isFalse hid => exact ⟨hid, he⟩

theorem IdsRight.setId {value : Option CString} (h : d.IdsRight) (hk : d.KeepsIds (.setId n value)) :
    (d.setId n value).IdsRight := by
  have hw : d.tree.walk (d.withAttr n "id".toList value) d.tree.root = d.tree.walk d.info d.tree.root :=
    walk_withAttr (by decide)
  -- An element other than the node is still found by an id that the node does not have after.
  have hkeep {id e} (hne : e ≠ n) (hn : n ∈ d.tree.walk d.info d.tree.root →
      (d.withAttr n "id".toList value n).hasId id = false)
      (he : d.tree.findByIdDepth d.info d.tree.root id = some e) :
      d.tree.findByIdDepth (d.withAttr n "id".toList value) d.tree.root id = some e := by
    rw [Tree.findByIdDepth, hw]
    refine Tree.find?_of_imp he ?_ fun m hm hq => ?_
    · rw [hasId_withAttr hne, Tree.hasId_of_findByIdDepth he]
    · by_cases hmn : m = n
      case pos => subst hmn; rw [hn hm] at hq; cases hq
      case neg => rwa [hasId_withAttr hmn] at hq
  intro idx' hmem id e he
  obtain ⟨hi, hidx⟩ | ⟨hi, idx, hidx, rfl⟩ := mem_tell.mp hmem
  case inl =>
    have hn := not_mem_walk_of_not_indexes hi
    obtain ⟨hid, hf⟩ := h idx' hidx id e he
    refine ⟨hid, hkeep ?_ (fun h => absurd h hn) hf⟩
    rintro rfl
    exact hn (List.mem_of_find?_eq_some hf)
  case inr =>
    rw [IdIndex.addNode_apply] at he
    by_cases hc : id ≠ [] ∧ (d.withAttr n "id".toList value n).hasId id
    case pos =>
      have hf := hk hi idx hidx id hc.left hc.right
      rw [if_pos hc] at he
      refine ⟨hc.left, hf.trans ?_⟩
      rw [← he]
      cases IdIndex.removeNode d.info idx n id <;> rfl
    case neg =>
      rw [if_neg hc, Option.or_none] at he
      obtain ⟨hx, hm⟩ := @IdIndex.foldl_removeNode _ _ [n] _ _ he
      obtain ⟨hid, hf⟩ := h idx hidx id e hx
      have hne : e ≠ n := fun hen => hm hid (Tree.hasId_of_findByIdDepth hf) (List.mem_singleton.mpr hen)
      exact ⟨hid, hkeep hne (fun _ => by simpa [hid] using hc) hf⟩

theorem IdsRight.insert {p r : Node} {ref : Option Node} {below : Forest Node}
    {hfresh : d.tree.Fresh r below} (h : d.IdsRight) (hk : d.KeepsIds (.insert p ref r below)) :
    (d.insert p ref r below hfresh).IdsRight := by
  obtain ⟨new, ⟨l₁, l₂, hl, hl'⟩, hsub, hnone⟩ :=
    @Tree.walk_insert _ d.info p r ref below d.isDocument hfresh
  -- The walk finds what it found if nothing that it comes to there has the id.
  have hkeep {id e} (hn : ∀ m ∈ new, (d.info m).hasId id = false)
      (he : d.tree.findByIdDepth d.info d.tree.root id = some e) :
      (d.tree.insert p ref r below hfresh).findByIdDepth d.info d.tree.root id = some e := by
    have hnew : new.find? (fun m => (d.info m).hasId id) = none :=
      List.find?_eq_none.mpr fun m hm => by simp [hn m hm]
    rw [Tree.findByIdDepth, hl, List.find?_append] at he
    exact (congrArg _ hl').trans (by rw [List.find?_append, List.find?_append, hnew, Option.or_none, he])
  intro idx' hmem id e he
  obtain ⟨hi, hidx⟩ | ⟨hi, idx, hidx, rfl⟩ := mem_tell.mp hmem
  case inl =>
    have hp := not_mem_walk_of_not_indexes hi
    obtain rfl := hnone fun hc => hp hc.left
    obtain ⟨hid, hf⟩ := h idx' hidx id e he
    exact ⟨hid, hkeep (by simp) hf⟩
  case inr =>
    rw [IdIndex.foldl_addNode] at he
    by_cases hid : id = []
    case pos =>
      rw [if_pos hid, Option.or_none] at he
      exact absurd hid (h idx hidx id e he).left
    case neg =>
      rw [if_neg hid] at he
      cases hm : (subtreeNodes d.info r below).find? fun m => (d.info m).hasId id
      case none =>
        rw [hm, Option.or_none] at he
        have hno := List.find?_eq_none.mp hm
        exact ⟨hid, hkeep (fun m hmn => by simpa using hno m (hsub hmn)) (h idx hidx id e he).right⟩
      case some m =>
        rw [hm] at he
        refine ⟨hid, ?_⟩
        have hf := hk hfresh hi idx hidx id hid m hm
        rw [← he]
        exact hf.trans (by cases idx id <;> rfl)

theorem IdsRight.remove (h : d.IdsRight) : (d.remove n).IdsRight := by
  have hw := Tree.walk_remove d.isDocument (n := n)
  have hkeep {id e} (hn : e ∉ d.tree.kids.treeLabels n)
      (hf : d.tree.findByIdDepth d.info d.tree.root id = some e) :
      (d.tree.remove n).findByIdDepth d.info d.tree.root id = some e := by
    refine (congrArg _ hw).trans ?_
    rw [List.find?_filter]
    exact Tree.find?_of_imp hf (by simp [hn, Tree.hasId_of_findByIdDepth hf]) (by simp)
  intro idx' hmem id e he
  obtain ⟨hq, hidx⟩ | ⟨-, idx, hidx, rfl⟩ := mem_tell.mp hmem
  case inr =>
    obtain ⟨hx, hm⟩ := IdIndex.foldl_removeNode he
    obtain ⟨hid, hf⟩ := h idx hidx id e hx
    refine ⟨hid, hkeep (fun hin => hm hid (Tree.hasId_of_findByIdDepth hf) ?_) hf⟩
    exact (Tree.mem_detachedNodes d.isDocument (List.mem_of_find?_eq_some hf) hin).left
  case inl =>
    obtain ⟨hid, hf⟩ := h idx' hidx id e he
    refine ⟨hid, hkeep (fun hin => ?_) hf⟩
    obtain ⟨-, q, hup, hs⟩ := Tree.mem_detachedNodes d.isDocument (List.mem_of_find?_eq_some hf) hin
    simp [hup, indexes, hs] at hq

theorem put_right {t : Tree} {info : Node → Info} {idx : IdIndex} {o : Option Node}
    (h : ∀ id e, idx id = some e → id ≠ [] ∧ t.findByIdDepth info t.root id = some e) (hid : id ≠ [])
    (ho : ∀ e ∈ o, t.findByIdDepth info t.root id = some e) :
    ∀ i e, idx.put id o i = some e → i ≠ [] ∧ t.findByIdDepth info t.root i = some e := by
  intro i e he
  rw [IdIndex.put] at he
  split at he
  case isTrue hi => exact hi ▸ ⟨hid, ho e he⟩
  case isFalse   => exact h i e he

theorem searchDocument_root : d.tree.searchDocument d.info d.tree.root = some d.tree.root := by
  rw [Tree.searchDocument, Tree.up_root]
  cases hk : decide ((d.info d.tree.root).kind = .document) <;> simp_all

-- A hit is an element of the document with the id, and so it is the right one.
theorem IdsRight.isHit_iff {idx : IdIndex} (h : d.IdsRight) (hidx : idx ∈ d.idIndex) {e : Node} :
    e ∈ (idx id).filter (fun hit => (d.info hit).hasId id && d.tree.contains n hit) ↔
      e ∈ idx id ∧ d.tree.contains n e := by
  rw [Option.mem_filter_iff, Bool.and_eq_true]
  refine and_congr_right fun he => ⟨And.right, fun hc => ⟨?_, hc⟩⟩
  exact Tree.hasId_of_findByIdDepth (h idx hidx id e he).right

theorem IdsRight.findById (h : d.IdsRight) (hk : d.KeepsIds (.findById n id)) :
    (d.findById n id).snd.IdsRight := by
  intro idx' hmem
  have hmem' : idx' ∈ (d.tree.findById d.info d.idIndex n id).snd := hmem
  change ∀ i e, idx' i = some e → i ≠ [] ∧ d.tree.findByIdDepth d.info d.tree.root i = some e
  rw [Tree.findById] at hmem'
  split at hmem'
  case isTrue      => exact h idx' hmem'
  case isFalse hid =>
    cases hidx : d.idIndex
    case none     => simp [hidx] at hmem'
    case some idx =>
      have hn {e} (he : (idx id).filter (fun hit => (d.info hit).hasId id && d.tree.contains n hit) = none)
          (hi : e ∈ idx id) : d.tree.contains n e = false := by
        by_contra hc
        have hf := (h.isHit_iff hidx).mpr ⟨hi, by simpa using hc⟩
        rw [he] at hf
        cases hf
      simp only [hidx] at hmem'
      split at hmem'
      case isTrue hroot =>
        subst hroot
        split at hmem'
        case h_1    => cases hmem'; exact h _ hidx
        case h_2 he => cases hmem'; exact put_right (h _ hidx) hid fun e he => he
      case isFalse =>
        split at hmem'
        case isFalse   => cases hmem'; exact h _ hidx
        case isTrue hs =>
          split at hmem'
          case h_1    => cases hmem'; exact h _ hidx
          case h_2 he =>
            cases hmem'
            split
            case isTrue  => exact put_right (h _ hidx) hid (hk hs _ hidx fun e => hn he)
            case isFalse => exact h _ hidx

-- A lookup returns what the walk returns.
theorem IdsRight.findById_eq (h : d.IdsRight) (ha : d.Answers n id) :
    (d.findById n id).fst = d.tree.findByIdDepth d.info n id := by
  change (d.tree.findById d.info d.idIndex n id).fst = _
  have hhit {idx e} (hidx : idx ∈ d.idIndex)
      (he : (idx id).filter (fun hit => (d.info hit).hasId id && d.tree.contains n hit) = some e) :
      d.tree.findByIdDepth d.info n id = some e := by
    obtain ⟨hx, hc⟩ := (h.isHit_iff hidx).mp he
    have hf := (h idx hidx id e hx).right
    obtain rfl | hh := ha.right
    · exact hf
    · exact Tree.findByIdDepth_of_contains d.isDocument (Nat.le_pred_of_lt hh) hf hc
  rw [Tree.findById]
  split
  case isTrue hid  => subst hid; exact (ha.left rfl).symm
  case isFalse hid =>
    cases hidx : d.idIndex
    case none     => rfl
    case some idx =>
      dsimp only
      split
      case isTrue =>
        split
        case h_1 e he => rw [hhit hidx he]
        case h_2      => rfl
      case isFalse =>
        split
        case isFalse => rfl
        case isTrue  =>
          split
          case h_1 e he => rw [hhit hidx he]
          case h_2      => rfl

theorem IdsRight.step (h : d.IdsRight) (hk : d.KeepsIds e) (hs : d.step e = some d') : d'.IdsRight := by
  cases e
  case buildIds            => cases hs; exact .buildIds
  case buildClasses        => cases hs; exact h
  case buildTags           => cases hs; exact h
  case setId n value       => cases hs; exact h.setId hk
  case setClass n value    =>
    cases hs
    intro idx hidx id e he
    obtain ⟨hid, hf⟩ := h idx hidx id e he
    refine ⟨hid, Eq.trans ?_ hf⟩
    have hw : d.tree.walk (d.withAttr n "class".toList value) d.tree.root =
        d.tree.walk d.info d.tree.root :=
      walk_withAttr (by decide)
    exact (congrArg _ hw).trans (List.find?_congr fun m _ => hasId_withAttr_of_ne (by decide))
  case insert p ref r below =>
    simp only [Document.step] at hs
    split at hs
    case isTrue  => cases hs; exact h.insert hk
    case isFalse => cases hs
  case remove n            =>
    simp only [Document.step] at hs
    split at hs
    case isTrue  => cases hs; exact h.remove
    case isFalse => cases hs
  case findById n id       =>
    simp only [Document.step] at hs
    split at hs
    case isTrue  => cases hs; exact h.findById hk
    case isFalse => cases hs

-- A document with a body, and a paragraph with an id that is put into the body.
def paragraphInfo (n : Node) : Info :=
  if n = 0 then { kind := .document }
  else if n = 1 then { name := "body".toList }
  else { name := "p".toList, attr := fun a => if a = "id".toList then some "x".toList else none }

def bodyDocument : Document where
  tree       := { root := 0, kids := .node 1 .nil .nil, nodup := by decide }
  info       := paragraphInfo
  isDocument := rfl

end Document

end Nordstjernen.Dom
