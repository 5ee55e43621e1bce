import Nordstjernen.Dom.Theorems.Tree
import Nordstjernen.Dom.Theorems.NodeIndex
import Nordstjernen.Lib.Run

open Nordstjernen.Glib Nordstjernen.Lib

namespace Nordstjernen.Dom

-- What an index is for: under each key stand the elements of the document that have it, once each, in
-- document order, as if the index had just been built.
structure Tree.Indexed (t : Tree) (keys : Info → List CString) (info : Node → Info) (idx : NodeIndex) :
    Prop where
  mem     : ∀ key n, n ∈ (idx key).getD [] ↔ n ∈ t.walk info t.root ∧ key ∈ keys (info n)
  sorted  : ∀ key, ((idx key).getD []).Sublist t.whole.labels
  rebuilt : ∀ key, (idx key).getD [] = (t.buildIndex keys info key).getD []

namespace Document

variable {d d' : Document} {e : Event} {n : Node} {idx : NodeIndex} {index : Option NodeIndex}
  {keys : Info → List CString} {value : Option CString}

-- Whether the walks over the tree come to an end by themselves.
def Low (d : Document) : Prop :=
  d.tree.kids.height < domMaxDepth

instance : Decidable d.Low :=
  inferInstanceAs (Decidable (_ < _))

-- Whether an element that comes under a key is one that the walks over the document come to.
def KeepsIndexes (d : Document) : Event → Prop
  | .setClass n value   =>
    d.indexes n → d.classIndex.isSome →
      n ∈ d.tree.walk d.info d.tree.root ∨ (d.withAttr n "class".toList value n).classKeys = []
  | .insert p _ r below =>
    d.indexes p → p ∈ d.tree.walk d.info d.tree.root ∧ (d.info p).isTemplate = false ∨
      ∀ m ∈ subtreeNodes d.info r below, (d.classIndex.isSome → (d.info m).classKeys = []) ∧
        (d.tagIndex.isSome → (d.info m).tagKeys = [])
  | _                   => True

instance : ∀ e, Decidable (d.KeepsIndexes e)
  | .setClass ..  => inferInstanceAs (Decidable (_ → _ → _ ∨ _))
  | .insert ..    => inferInstanceAs (Decidable (_ → _ ∨ _))
  | .buildIds     => inferInstanceAs (Decidable True)
  | .buildClasses => inferInstanceAs (Decidable True)
  | .buildTags    => inferInstanceAs (Decidable True)
  | .setId ..     => inferInstanceAs (Decidable True)
  | .remove ..    => inferInstanceAs (Decidable True)
  | .findById ..  => inferInstanceAs (Decidable True)

-- Under each key stand the nodes of the walk that have it.
def Right (d : Document) (keys : Info → List CString) (idx : NodeIndex) : Prop :=
  Tree.Filed idx (d.tree.walk d.info d.tree.root) fun k m => (keys (d.info m)).contains k

theorem Right.build : d.Right keys (d.tree.buildIndex keys d.info) :=
  Tree.foldl_addNode_building (Tree.nodup_walk_root d.isDocument)

theorem Right.indexed (h : d.Right keys idx) : d.tree.Indexed keys d.info idx where
  mem key n   := by simp [h key]
  sorted key  := h key ▸ List.filter_sublist.trans (Tree.walk_sublist d.isDocument)
  rebuilt key := (h key).trans (Right.build key).symm

theorem Low.inOrder (h : d.Low) : d.tree.InOrder (d.tree.walk d.info d.tree.root) :=
  ⟨h, Tree.walk_sublist d.isDocument⟩

theorem foldl_addNode_of_nil {t : Tree} {info : Node → Info} {nodes : List Node}
    (h : ∀ m ∈ nodes, keys (info m) = []) : nodes.foldl (t.addNode keys info false) idx = idx := by
  induction nodes
  case nil             => rfl
  case cons m nodes hi =>
    have hm : t.addNode keys info false idx m = idx := by rw [Tree.addNode, h m List.mem_cons_self, List.foldl_nil]
    rw [List.foldl_cons, hm]
    exact hi fun m' hm' => h m' (List.mem_cons_of_mem m hm')

section Insert

variable {p r : Node} {ref : Option Node} {below : Forest Node} {hf : d.tree.Fresh r below}

theorem Right.insert (h : ∀ idx ∈ index, d.Right keys idx) (hl : d.Low)
    (hl' : (d.insert p ref r below hf).Low)
    (hk : d.indexes p → p ∈ d.tree.walk d.info d.tree.root ∧ (d.info p).isTemplate = false ∨
      ∀ m ∈ subtreeNodes d.info r below, index.isSome → keys (d.info m) = []) :
    ∀ idx ∈ tell (d.indexes p) ((subtreeNodes d.info r below).foldl
      ((d.tree.insert p ref r below hf).addNode keys d.info false)) index,
      (d.insert p ref r below hf).Right keys idx := by
  by_cases hp : p ∈ d.tree.walk d.info d.tree.root ∧ (d.info p).isTemplate = false
  case pos =>
    have hi : d.indexes p = true := by
      by_contra hi
      exact not_mem_walk_of_not_indexes (Bool.eq_false_iff.mpr hi) hp.left
    have hspl := @Tree.walk_insert_of_low _ d.info p r ref below d.isDocument hf hl hl' hp.left hp.right
    have hnew : ∀ m ∈ subtreeNodes d.info r below, m ∉ d.tree.walk d.info d.tree.root := by
      intro m hm hmw
      have hml := Forest.reached_subset_labels hm
      simp only [Forest.labels, List.append_nil] at hml
      exact hf.right m hml (Tree.walk_subset d.isDocument hmw)
    intro idx' hmem
    obtain ⟨hi', -⟩ | ⟨-, idx, hidx, rfl⟩ := mem_tell.mp hmem
    case inl =>
      rw [hi] at hi'
      cases hi'
    case inr =>
      have hidx' : Tree.Filed idx ((d.insert p ref r below hf).tree.walk d.info d.tree.root)
          fun k m => m ∉ subtreeNodes d.info r below && (keys (d.info m)).contains k := by
        intro k
        refine (h idx hidx k).trans ?_
        rw [← hspl.filter_not_mem hnew, List.filter_filter]
        exact List.filter_congr fun m _ => Bool.and_comm _ _
      refine (hidx'.addNodes hl'.inOrder fun m hm => hspl.mem_iff.mpr (.inl hm)).congr fun k m _ => ?_
      cases hm : decide (m ∈ subtreeNodes d.info r below) <;> simp_all [Document.insert]
  case neg =>
    obtain ⟨new, ⟨l₁, l₂, hw, hw'⟩, -, hnone⟩ := @Tree.walk_insert _ d.info p r ref below d.isDocument hf
    have hsame : (d.insert p ref r below hf).tree.walk d.info d.tree.root = d.tree.walk d.info d.tree.root := by
      rw [hnone hp, List.append_nil] at hw'
      exact hw'.trans hw.symm
    have hright {idx} (hidx : idx ∈ index) : (d.insert p ref r below hf).Right keys idx :=
      fun k => (h idx hidx k).trans (congrArg _ hsame.symm)
    intro idx' hmem
    obtain ⟨-, hidx⟩ | ⟨hi, idx, hidx, rfl⟩ := mem_tell.mp hmem
    case inl => exact hright hidx
    case inr =>
      have hkeys := (hk hi).resolve_left hp
      rw [foldl_addNode_of_nil fun m hm => hkeys m hm (Option.isSome_of_mem hidx)]
      exact hright hidx

end Insert

theorem Right.remove (hn : n ∈ d.tree.kids.labels) (h : ∀ idx ∈ index, d.Right keys idx) :
    ∀ idx ∈ tell ((d.tree.up n).tail.head?.any d.indexes)
      ((detachedNodes d.info n (d.tree.below n)).foldl (Tree.removeNode keys d.info)) index,
      (d.remove n).Right keys idx := by
  have hw : (d.remove n).tree.walk d.info d.tree.root =
      (d.tree.walk d.info d.tree.root).filter (· ∉ d.tree.kids.treeLabels n) :=
    Tree.walk_remove d.isDocument
  intro idx' hmem k
  refine Eq.trans ?_ (congrArg _ hw.symm)
  rw [List.filter_filter]
  obtain ⟨hq, hidx⟩ | ⟨-, idx, hidx, rfl⟩ := mem_tell.mp hmem
  case inl =>
    refine (h idx' hidx k).trans (List.filter_congr fun m hm => ?_)
    have hmn : m ∉ d.tree.kids.treeLabels n := by
      intro hin
      obtain ⟨-, q, hup, hs⟩ := Tree.mem_detachedNodes d.isDocument hm hin
      simp [hup, indexes, hs] at hq
    simp [hmn, Document.remove]
  case inr =>
    refine ((h idx hidx).removeNodes (Tree.nodup_walk_root d.isDocument) k).trans
      (List.filter_congr fun m hm => ?_)
    have hiff : m ∈ detachedNodes d.info n (d.tree.below n) ↔ m ∈ d.tree.kids.treeLabels n :=
      ⟨fun hd => Tree.detachedNodes_subset hn hd, fun hd => (Tree.mem_detachedNodes d.isDocument hm hd).left⟩
    by_cases hmn : m ∈ d.tree.kids.treeLabels n <;> simp [hiff, hmn, Document.remove]

theorem Right.withAttr {name : CString} (h : d.Right keys idx) (hn : name ≠ "data-nd-shadow-root".toList)
    (hk : ∀ m, keys (d.withAttr n name value m) = keys (d.info m)) :
    Tree.Filed idx (d.tree.walk (d.withAttr n name value) d.tree.root)
      fun k m => (keys (d.withAttr n name value m)).contains k := by
  intro k
  refine (h k).trans ?_
  rw [walk_withAttr hn]
  exact List.filter_congr fun m _ => by simp only [hk m]

theorem Right.setClass (h : ∀ idx ∈ d.classIndex, d.Right Info.classKeys idx) (hl : d.Low)
    (hk : d.KeepsIndexes (.setClass n value)) :
    ∀ idx ∈ (d.setClass n value).classIndex, (d.setClass n value).Right Info.classKeys idx := by
  have hw : (d.setClass n value).tree.walk (d.setClass n value).info d.tree.root =
      d.tree.walk d.info d.tree.root :=
    walk_withAttr (by decide)
  have hother {m : Node} (hm : m ≠ n) : (d.setClass n value).info m = d.info m := if_neg hm
  intro idx' hmem k
  refine Eq.trans ?_ (congrArg _ hw.symm)
  obtain ⟨hi, hidx⟩ | ⟨hi, idx, hidx, rfl⟩ := mem_tell.mp hmem
  case inl =>
    refine (h idx' hidx k).trans (List.filter_congr fun m hm => ?_)
    have hmn : m ≠ n := fun he => not_mem_walk_of_not_indexes hi (he ▸ hm)
    simp only [hother hmn]
  case inr =>
    have hremoved := @Tree.Filed.removeNode n idx _ _ Info.classKeys d.info (h idx hidx)
      (Tree.nodup_walk_root d.isDocument)
    obtain hnw | hnil := hk hi (Option.isSome_of_mem hidx)
    case inl =>
      refine (hremoved.addNode hl.inOrder hnw k).trans (List.filter_congr fun m _ => ?_)
      by_cases hm : m = n
      case pos =>
        subst hm
        simp only [decide_true, Bool.true_and, Bool.and_not_self, Bool.false_or]
        rfl
      case neg => simp [hm, hother hm]
    case inr =>
      have hsame : d.tree.addNode Info.classKeys (d.withAttr n "class".toList value) false
          (Tree.removeNode Info.classKeys d.info idx n) n = Tree.removeNode Info.classKeys d.info idx n := by
        rw [Tree.addNode, hnil, List.foldl_nil]
      rw [hsame]
      refine (hremoved k).trans (List.filter_congr fun m _ => ?_)
      by_cases hm : m = n
      case pos =>
        subst hm
        have hkeys : ((d.setClass m value).info m).classKeys = [] := hnil
        simp only [decide_true, Bool.true_and, Bool.and_not_self, hkeys, List.contains_nil]
      case neg => simp [hm, hother hm]

theorem classKeys_withAttr {m : Node} {name : CString} (h : name ≠ "class".toList) :
    (d.withAttr n name value m).classKeys = (d.info m).classKeys := by
  rw [Info.classKeys, Info.classKeys, getAttr_withAttr h]

theorem tagKeys_withAttr {m : Node} {name : CString} :
    (d.withAttr n name value m).tagKeys = (d.info m).tagKeys := by
  simp [Info.tagKeys, kind_withAttr, name_withAttr]

-- What every state of a run keeps.
structure IndexesRight (d : Document) : Prop where
  classes : ∀ idx ∈ d.classIndex, d.Right Info.classKeys idx
  tags    : ∀ idx ∈ d.tagIndex, d.Right Info.tagKeys idx

theorem IndexesRight.step (h : d.IndexesRight) (hl : d.Low) (hl' : d'.Low) (hk : d.KeepsIndexes e)
    (hs : d.step e = some d') : d'.IndexesRight := by
  cases e
  case buildIds            => cases hs; exact ⟨h.classes, h.tags⟩
  case buildClasses        => cases hs; exact ⟨by rintro _ ⟨⟩; exact Right.build, h.tags⟩
  case buildTags           => cases hs; exact ⟨h.classes, by rintro _ ⟨⟩; exact Right.build⟩
  case setId n value       =>
    cases hs
    exact ⟨fun idx hidx => (h.classes idx hidx).withAttr (by decide) fun m => classKeys_withAttr (by decide),
      fun idx hidx => (h.tags idx hidx).withAttr (by decide) fun m => tagKeys_withAttr⟩
  case setClass n value    =>
    cases hs
    exact ⟨Right.setClass h.classes hl hk,
      fun idx hidx => (h.tags idx hidx).withAttr (by decide) fun m => tagKeys_withAttr⟩
  case insert p ref r below =>
    simp only [Document.step] at hs
    split at hs
    case isFalse   => cases hs
    case isTrue hf =>
      cases hs
      refine ⟨Right.insert h.classes hl hl' fun hi => ?_, Right.insert h.tags hl hl' fun hi => ?_⟩
      · exact (hk hi).imp_right fun hm m hmem => (hm m hmem).left
      · exact (hk hi).imp_right fun hm m hmem => (hm m hmem).right
  case remove n            =>
    simp only [Document.step] at hs
    split at hs
    case isFalse   => cases hs
    case isTrue hn => cases hs; exact ⟨Right.remove hn h.classes, Right.remove hn h.tags⟩
  case findById n id       =>
    simp only [Document.step] at hs
    split at hs
    case isFalse => cases hs
    case isTrue  => cases hs; exact ⟨h.classes, h.tags⟩

-- As long as nothing comes under a key where the walks do not go, both indexes are as if just built.
theorem indexed_of_run {es : List Event} (hc : d.classIndex = none) (ht : d.tagIndex = none) (hl : d.Low)
    (hrun : run step d es = some d')
    (hmeet : StepsMeet (fun d e => d.KeepsIndexes e ∧ ∀ d' ∈ d.step e, d'.Low) step d es) :
    (∀ idx ∈ d'.classIndex, d'.tree.Indexed Info.classKeys d'.info idx) ∧
      ∀ idx ∈ d'.tagIndex, d'.tree.Indexed Info.tagKeys d'.info idx := by
  have hr : d'.Low ∧ d'.IndexesRight := by
    refine run_preserves (I := fun d => d.Low ∧ d.IndexesRight) ?_ hrun hmeet ⟨hl, ?_, ?_⟩
    · rintro s e s' ⟨hs, hi⟩ ⟨hk, hlow⟩ hstep
      exact ⟨hlow s' hstep, hi.step hs (hlow s' hstep) hk hstep⟩
    · rintro idx hidx
      rw [hc] at hidx
      cases hidx
    · rintro idx hidx
      rw [ht] at hidx
      cases hidx
  exact ⟨fun idx hidx => (hr.right.classes idx hidx).indexed, fun idx hidx => (hr.right.tags idx hidx).indexed⟩

-- A document with a template in its body, and paragraphs of a class.
def templateInfo (n : Node) : Info :=
  if n = 0 then { kind := .document }
  else if n = 1 then { name := "body".toList }
  else if n = 2 then { name := "template".toList }
  else { name := "p".toList, attr := fun a => if a = "class".toList then some "x".toList else none }

theorem nodup_template : (Forest.node (0 : Node) (.node 1 (.node 2 .nil .nil) .nil) .nil).labels.Nodup := by
  decide

def templateDocument : Document where
  tree       := { root := 0, kids := .node 1 (.node 2 .nil .nil) .nil, nodup := nodup_template }
  info       := templateInfo
  isDocument := rfl

theorem indexed_templateRun : ∃ d', run step templateDocument
      [.buildClasses, .buildTags, .insert 1 (some 2) 3 .nil, .insert 1 (some 3) 4 .nil, .remove 2] = some d' ∧
    (∀ idx ∈ d'.classIndex, d'.tree.Indexed Info.classKeys d'.info idx) ∧
      ∀ idx ∈ d'.tagIndex, d'.tree.Indexed Info.tagKeys d'.info idx :=
  ⟨_, rfl, @indexed_of_run templateDocument _
    [.buildClasses, .buildTags, .insert 1 (some 2) 3 .nil, .insert 1 (some 3) 4 .nil, .remove 2]
    rfl rfl (by decide) rfl (by decide)⟩

-- A paragraph is put into the template, where the walk that builds an index does not go.
theorem not_indexed_templateRun : ¬∀ (d : Document), d.classIndex = none → d.tagIndex = none → d.Low →
    ∀ es d', run step d es = some d' →
      StepsMeet (fun d e => ∀ d' ∈ d.step e, d'.Low) step d es →
      (∀ idx ∈ d'.classIndex, d'.tree.Indexed Info.classKeys d'.info idx) ∧
        ∀ idx ∈ d'.tagIndex, d'.tree.Indexed Info.tagKeys d'.info idx := by
  intro h
  have hi := h templateDocument rfl rfl (by decide) [.buildClasses, .insert 2 none 3 .nil] _ rfl (by decide)
  have hr := (hi.left _ rfl).rebuilt "x".toList
  exact absurd hr (by decide)

end Document

end Nordstjernen.Dom
