import Mathlib.Data.List.Find
import Nordstjernen.Dom.Attr
import Nordstjernen.Dom.IdIndex

open Nordstjernen.Glib Nordstjernen.Lib

namespace Nordstjernen.Dom

-- A tree of nodes without their attributes.
structure Markup where
  tree     : Tree
  kind     : Node → NodeKind
  name     : Node → CString
  fragment : Node → Bool     := fun _ => false

namespace Markup

variable (m : Markup)

def isElementNamed (n : Node) (tag : CString) : Bool :=
  m.kind n = .element && m.name n == tag

def children (n : Node) : List Node :=
  (m.tree.below n).tops

-- The options of a row, also of those in its groups, however these are nested.
def optionsIn : Forest Node → List Node
  | .nil           => []
  | .node a ks ss =>
    (if m.isElementNamed a "option".toList then [a]
    else if m.isElementNamed a "optgroup".toList then optionsIn ks
    else []) ++ optionsIn ss

def options (select : Node) : List Node :=
  m.optionsIn (m.tree.below select)

end Markup

-- A tree with the attributes of its elements, and the index of the ids of its document.
structure Page extends Markup where
  elements : Node → Element
  idIndex  : Option IdIndex := none

namespace Page

variable (p : Page)

def info (n : Node) : Info where
  kind     := p.kind n
  name     := p.name n
  fragment := p.fragment n
  attr     := (p.elements n).getAttr

def getAttr (n : Node) (name : CString) : Option CString :=
  (p.info n).getAttr name

def removeAttr (n : Node) (name : CString) : Page :=
  if p.kind n = .element then
    { p with elements := fun m => if m = n then (p.elements n).removeAttr name else p.elements m }
  else p

-- Whether an option is selected is in its attribute.
def selected (n : Node) : Bool :=
  (p.getAttr n "selected".toList).isSome

-- `ns_select_first_selected_option`
def firstSelectedOption (select : Node) : Option Node :=
  (p.children select).findSome? fun c =>
    if p.isElementNamed c "optgroup".toList then
      (p.children c).find? fun cc => p.isElementNamed cc "option".toList && p.selected cc
    else if p.isElementNamed c "option".toList && p.selected c then some c
    else none

-- `ns_form_owner`, and the index afterwards.
def formOwner (control : Node) : Option Node × Option IdIndex :=
  if p.kind control ≠ .element then (none, p.idIndex)
  else
    let up := p.tree.up control
    match p.getAttr control "form".toList with
    | some formId =>
      if formId = [] then (none, p.idIndex)
      else
        let treeRoot := ((up.find? fun n => (p.info n).isShadowRoot).or up.getLast?).getD control
        let (owner, idIndex) := p.tree.findById p.info p.idIndex treeRoot formId
        (owner.filter (p.isElementNamed · "form".toList), idIndex)
    | none        =>
      let above := ((up.drop 1).take domMaxDepth).takeWhile fun n => !(p.info n).isShadowRoot
      (above.find? (p.isElementNamed · "form".toList), p.idIndex)

-- `ns_form_reset_control`
def resetControl (n : Node) : Page :=
  if p.kind n ≠ .element then p
  else if p.name n = "input".toList ∨ p.name n = "textarea".toList then
    let type := p.getAttr n "type".toList
    let q :=
      if type.any fun t => strcaseEq t "checkbox".toList || strcaseEq t "radio".toList then
        p.removeAttr n "data-nd-checked".toList
      else p
    (q.removeAttr n "data-nd-value".toList).removeAttr n "data-nd-vdirty".toList
  else if p.name n = "select".toList then
    (p.children n).foldl
      (fun q o => if q.isElementNamed o "option".toList then q.removeAttr o "selected".toList else q)
      (p.removeAttr n "data-nd-noselect".toList)
  else p

variable (form : Node)

-- What `ns_form_reset_walk` does at a node.
def resetTurn (p : Page) (n : Node) : Page :=
  if p.kind n = .element then
    let (owner, idIndex) := p.formOwner n
    let q := { p with idIndex }
    if owner = some form then q.resetControl n else q
  else p

-- The nodes that the walk comes to.
def walked (scan : Node) : List Node :=
  (Forest.node scan (p.tree.below scan) .nil).reached (fun _ => false) (fun _ => false) (some 512)

-- `ns_form_reset_owned_controls`
def resetOwnedControls (root : Option Node) : Page :=
  (p.walked (root.getD form)).foldl (resetTurn form) p

-- The controls that the form has when the walk comes to them.
def ownedFrom (p : Page) : List Node → List Node
  | []      => []
  | n :: ns =>
    if (p.formOwner n).fst = some form then n :: ownedFrom (p.resetTurn form n) ns
    else ownedFrom (p.resetTurn form n) ns

def owned (root : Option Node) : List Node :=
  p.ownedFrom form (p.walked (root.getD form))

-- A copy that has just been parsed.
def parsed (fresh : Node → Element) : Page :=
  { p with elements := fresh }

-- After a reset of the form a select is as in a copy that has just been parsed.
structure Restored (fresh : Node → Element) (root : Option Node) (select : Node) : Prop where
  options : ∀ o ∈ p.options select,
    (p.resetOwnedControls form root).selected o = (p.parsed fresh).selected o
  first   : (p.resetOwnedControls form root).firstSelectedOption select =
    (p.parsed fresh).firstSelectedOption select

-- Whether an element has the attribute `selected` twice, which only namespaced calls bring about.
def selectedTwice (n : Node) : Bool :=
  ((p.removeAttr n "selected".toList).getAttr n "selected".toList).isSome

end Page

namespace Markup

variable {m : Markup} {f k : Forest Node} {n n' o g s : Node}

theorem name_ne {tag tag' : CString} (h : m.isElementNamed n tag) (ht : tag ≠ tag') :
    m.isElementNamed n tag' = false := by
  rw [isElementNamed, Bool.and_eq_true, beq_iff_eq] at h
  rw [isElementNamed, h.right, beq_eq_false_iff_ne.mpr ht, Bool.and_false]

theorem below_eq (h : o ∈ m.children n) : m.tree.whole.kids? n = some (m.tree.below n) := by
  rw [children, Tree.below] at h
  rw [Tree.below]
  cases hk : m.tree.whole.kids? n
  case none =>
    rw [hk] at h
    cases h
  case some => rfl

theorem parent_unique (h : o ∈ m.children n) (h' : o ∈ m.children n') : n = n' :=
  Forest.parent_unique m.tree.nodup (below_eq h) h (below_eq h') h'

-- An option of a row is in the row or a child of a group.
theorem mem_optionsIn (hf : f.labels.Nodup) (h : o ∈ m.optionsIn f) : m.isElementNamed o "option".toList ∧
    (o ∈ f.tops ∨ ∃ g k, m.isElementNamed g "optgroup".toList ∧ f.kids? g = some k ∧ o ∈ k.tops) := by
  induction f
  case nil => cases h
  case node a kids sibs hk hs =>
    obtain ⟨hak, has, hkn, hsn, hd⟩ := Forest.nodup_node hf
    rw [optionsIn] at h
    rcases List.mem_append.mp h with h | h
    case inl =>
      split at h
      case isTrue ha =>
        obtain rfl := List.mem_singleton.mp h
        exact ⟨ha, .inl List.mem_cons_self⟩
      case isFalse =>
        split at h
        case isFalse   => cases h
        case isTrue ha =>
          obtain ⟨ho, ht | ⟨g, k, hg, hgk, hot⟩⟩ := hk hkn h
          · exact ⟨ho, .inr ⟨a, kids, ha, by rw [Forest.kids?, if_pos rfl], ht⟩⟩
          · have hne := ne_of_mem_of_not_mem (Forest.mem_labels_of_kids? hgk) hak
            exact ⟨ho, .inr ⟨g, k, hg, Forest.kids?_node_kids hne.symm hgk, hot⟩⟩
    case inr =>
      obtain ⟨ho, ht | ⟨g, k, hg, hgk, hot⟩⟩ := hs hsn h
      · exact ⟨ho, .inl (List.mem_cons_of_mem a ht)⟩
      · have hm := Forest.mem_labels_of_kids? hgk
        refine ⟨ho, .inr ⟨g, k, hg, ?_, hot⟩⟩
        rwa [Forest.kids?_node_sibs (ne_of_mem_of_not_mem hm has).symm fun hk => hd g hk hm]

theorem isElementNamed_of_mem_options (h : o ∈ m.options s) : m.isElementNamed o "option".toList := by
  rw [options, Tree.below] at h
  cases hk : m.tree.whole.kids? s
  case none =>
    rw [hk] at h
    cases h
  case some f =>
    rw [hk] at h
    exact (mem_optionsIn (m.tree.nodup.sublist (Forest.labels_kids?_sublist hk)) h).left

-- An option of a select is its child or the child of a group.
theorem mem_options (h : o ∈ m.options s) :
    o ∈ m.children s ∨ ∃ g, m.isElementNamed g "optgroup".toList ∧ o ∈ m.children g := by
  rw [options, Tree.below] at h
  rw [children, Tree.below]
  cases hk : m.tree.whole.kids? s
  case none =>
    rw [hk] at h
    cases h
  case some f =>
    rw [hk, Option.getD_some] at h
    have hw : m.tree.whole.labels.Nodup := m.tree.nodup
    have hf := hw.sublist (Forest.labels_kids?_sublist hk)
    obtain ⟨-, ht | ⟨g, k, hg, hgk, hot⟩⟩ := mem_optionsIn hf h
    · exact .inl ht
    · refine .inr ⟨g, hg, ?_⟩
      rw [children, Tree.below, Forest.kids?_kids? hw hk hgk]
      exact hot

theorem optionsIn_of_mem_tops (h : o ∈ f.tops) (ho : m.isElementNamed o "option".toList) :
    o ∈ m.optionsIn f := by
  induction f
  case nil => cases h
  case node a kids sibs _ hs =>
    rw [optionsIn]
    rcases List.mem_cons.mp h with rfl | h
    case inl =>
      rw [if_pos ho]
      exact List.mem_append_left _ List.mem_cons_self
    case inr => exact List.mem_append_right _ (hs h)

theorem optionsIn_of_mem_group (hf : f.labels.Nodup) (hg : g ∈ f.tops)
    (hn : m.isElementNamed g "optgroup".toList) (hk : f.kids? g = some k) (h : o ∈ m.optionsIn k) :
    o ∈ m.optionsIn f := by
  induction f
  case nil => cases hg
  case node a kids sibs _ hs =>
    obtain ⟨hak, has, hkn, hsn, hd⟩ := Forest.nodup_node hf
    rw [optionsIn]
    rcases List.mem_cons.mp hg with rfl | hg
    case inl =>
      rw [Forest.kids?, if_pos rfl] at hk
      obtain rfl := Option.some.inj hk
      rw [name_ne hn (by decide), if_pos hn]
      exact List.mem_append_left _ h
    case inr =>
      have hm := Forest.tops_sublist.subset hg
      rw [Forest.kids?_node_sibs (ne_of_mem_of_not_mem hm has).symm fun hk => hd g hk hm] at hk
      exact List.mem_append_right _ (hs hsn hg hk)

theorem mem_options_of_child (h : o ∈ m.children s) (ho : m.isElementNamed o "option".toList) :
    o ∈ m.options s :=
  optionsIn_of_mem_tops h ho

theorem mem_options_of_group (hg : g ∈ m.children s) (hn : m.isElementNamed g "optgroup".toList)
    (h : o ∈ m.children g) (ho : m.isElementNamed o "option".toList) : o ∈ m.options s := by
  have hs := below_eq hg
  have hf := m.tree.nodup.sublist (Forest.labels_kids?_sublist hs)
  have hgl : g ∈ (m.tree.below s).labels := Forest.tops_sublist.subset hg
  obtain ⟨k, hk⟩ := Option.isSome_iff_exists.mp (Forest.isSome_kids?.mpr hgl)
  have hb : m.tree.below g = k := Option.some.inj ((below_eq h).symm.trans (Forest.kids?_kids? m.tree.nodup hs hk))
  rw [children, hb] at h
  exact optionsIn_of_mem_group hf hg hn hk (optionsIn_of_mem_tops h ho)

end Markup

namespace Page

variable {p q : Page} {n o s form : Node} {name : CString} {ns : List Node} {fresh : Node → Element}

@[simp]
theorem toMarkup_removeAttr : (p.removeAttr n name).toMarkup = p.toMarkup := by
  rw [removeAttr]
  split <;> rfl

theorem elements_removeAttr (hn : p.kind n = .element) :
    (p.removeAttr n name).elements o = if o = n then (p.elements n).removeAttr name else p.elements o := by
  rw [removeAttr, if_pos hn]

theorem elements_removeAttr_of_ne (h : o ≠ n) : (p.removeAttr n name).elements o = p.elements o := by
  rw [removeAttr]
  split
  case isTrue  => exact if_neg h
  case isFalse => rfl

theorem selected_iff : p.selected o ↔
    p.kind o = .element ∧ ((p.elements o).getAttr "selected".toList).isSome := by
  rw [selected, getAttr, Info.getAttr]
  split
  case isTrue h  => exact (and_iff_right h).symm
  case isFalse h => exact iff_of_false Bool.false_ne_true fun hs => h hs.left

theorem selected_eq (hm : q.toMarkup = p.toMarkup) (he : q.elements o = p.elements o) :
    q.selected o = p.selected o := by
  have hk : q.kind o = p.kind o := congrArg (·.kind o) hm
  rw [Bool.eq_iff_iff, selected_iff, selected_iff, hk, he]

theorem toMarkup_foldl {step : Page → Node → Page} (h : ∀ q n, (step q n).toMarkup = q.toMarkup) :
    (ns.foldl step p).toMarkup = p.toMarkup := by
  induction ns generalizing p
  case nil          => rfl
  case cons n ns hi => exact hi.trans (h p n)

-- What the loop over the children of a select does to a child.
def clearChild (q : Page) (o : Node) : Page :=
  if q.isElementNamed o "option".toList then q.removeAttr o "selected".toList else q

theorem toMarkup_clearChild (q : Page) (o : Node) : (q.clearChild o).toMarkup = q.toMarkup := by
  rw [clearChild]
  split
  case isTrue  => exact toMarkup_removeAttr
  case isFalse => rfl

theorem kind_of_named {tag : CString} (h : p.isElementNamed n tag) : p.kind n = .element := by
  rw [Markup.isElementNamed, Bool.and_eq_true, decide_eq_true_iff] at h
  exact h.left

theorem name_of_named {tag : CString} (h : p.isElementNamed n tag) : p.name n = tag := by
  rw [Markup.isElementNamed, Bool.and_eq_true, beq_iff_eq] at h
  exact h.right

theorem elements_clearChildren (hn : ns.Nodup) (ho : p.isElementNamed o "option".toList) :
    (ns.foldl clearChild p).elements o =
      if o ∈ ns then (p.elements o).removeAttr "selected".toList else p.elements o := by
  induction ns generalizing p
  case nil => rfl
  case cons n ns hi =>
    obtain ⟨hnot, hn⟩ := List.nodup_cons.mp hn
    rw [List.foldl_cons, hi hn (by rw [toMarkup_clearChild]; exact ho)]
    by_cases h : o = n
    case pos =>
      subst h
      rw [if_neg hnot, if_pos List.mem_cons_self, clearChild, if_pos ho, elements_removeAttr (kind_of_named ho),
        if_pos rfl]
    case neg =>
      have hs : (p.clearChild n).elements o = p.elements o := by
        rw [clearChild]
        split
        case isTrue  => exact elements_removeAttr_of_ne h
        case isFalse => rfl
      simp only [hs, List.mem_cons, h, false_or]

theorem toMarkup_resetControl (p : Page) (n : Node) : (p.resetControl n).toMarkup = p.toMarkup := by
  rw [resetControl]
  split
  case isTrue  => rfl
  case isFalse =>
    split
    case isTrue =>
      dsimp only
      rw [toMarkup_removeAttr, toMarkup_removeAttr]
      split
      case isTrue  => exact toMarkup_removeAttr
      case isFalse => rfl
    case isFalse =>
      split
      case isTrue  => exact (toMarkup_foldl toMarkup_clearChild).trans toMarkup_removeAttr
      case isFalse => rfl

theorem nodup_children (p : Page) (n : Node) : (p.children n).Nodup := by
  rw [Markup.children, Tree.below]
  cases hb : p.tree.whole.kids? n
  case none   => exact List.nodup_nil
  case some k =>
    have hw : p.tree.whole.labels.Nodup := p.tree.nodup
    exact (hw.sublist (Forest.labels_kids?_sublist hb)).sublist Forest.tops_sublist

-- What resetting a control means to an option.
theorem elements_resetControl (ho : p.isElementNamed o "option".toList) : (p.resetControl n).elements o =
    if p.isElementNamed n "select".toList ∧ o ∈ p.children n then (p.elements o).removeAttr "selected".toList
    else p.elements o := by
  have hon {tag : CString} (ht : tag ≠ "option".toList) (hn : p.name n = tag) : o ≠ n := by
    rintro rfl
    exact ht (hn.symm.trans (name_of_named ho))
  rw [resetControl]
  split
  case isTrue hk => exact (if_neg fun h => hk (kind_of_named h.left)).symm
  case isFalse hk =>
    split
    case isTrue hname =>
      have hne : o ≠ n := hname.elim (hon (by decide)) (hon (by decide))
      have hs : p.name n ≠ "select".toList := by
        rcases hname with h | h <;> rw [h] <;> decide
      rw [if_neg fun h => hs (name_of_named h.left)]
      dsimp only
      rw [elements_removeAttr_of_ne hne, elements_removeAttr_of_ne hne]
      split
      case isTrue  => exact elements_removeAttr_of_ne hne
      case isFalse => rfl
    case isFalse =>
      split
      case isTrue hs =>
        have hq : (p.removeAttr n "data-nd-noselect".toList).toMarkup = p.toMarkup := toMarkup_removeAttr
        have hsel : p.isElementNamed n "select".toList := by
          rw [Markup.isElementNamed, Bool.and_eq_true, decide_eq_true_iff, beq_iff_eq]
          exact ⟨not_not.mp hk, hs⟩
        refine (elements_clearChildren (p.nodup_children n) (by rw [hq]; exact ho)).trans ?_
        simp only [elements_removeAttr_of_ne (hon (by decide) hs), hsel, true_and]
      case isFalse hs => exact (if_neg fun h => hs (name_of_named h.left)).symm

theorem toMarkup_resetTurn (p : Page) (n : Node) : (p.resetTurn form n).toMarkup = p.toMarkup := by
  rw [resetTurn]
  split
  case isTrue =>
    dsimp only
    split
    case isTrue  => exact toMarkup_resetControl { p with idIndex := (p.formOwner n).snd } n
    case isFalse => rfl
  case isFalse => rfl

theorem elements_resetTurn (ho : p.isElementNamed o "option".toList) : (p.resetTurn form n).elements o =
    if (p.formOwner n).fst = some form ∧ p.isElementNamed n "select".toList ∧ o ∈ p.children n then
      (p.elements o).removeAttr "selected".toList
    else p.elements o := by
  rw [resetTurn]
  split
  case isTrue hk =>
    dsimp only
    split
    case isTrue hf =>
      rw [hf]
      simpa only [true_and] using elements_resetControl (p := { p with idIndex := (p.formOwner n).snd }) ho
    case isFalse hf => exact (if_neg fun h => hf h.left).symm
  case isFalse hk => exact (if_neg fun h => hk (kind_of_named h.right.left)).symm

theorem ownedFrom_subset : p.ownedFrom form ns ⊆ ns := by
  induction ns generalizing p
  case nil => exact List.Subset.refl _
  case cons n ns hi =>
    rw [ownedFrom]
    split
    case isTrue  => exact List.cons_subset_cons n hi
    case isFalse => exact List.subset_cons_of_subset n hi

-- An option loses its attribute if it is a child of a select that the form has.
theorem elements_foldl (hn : ns.Nodup) (ho : p.isElementNamed o "option".toList) :
    (ns.foldl (resetTurn form) p).elements o =
      if ∃ n ∈ p.ownedFrom form ns, p.isElementNamed n "select".toList ∧ o ∈ p.children n then
        (p.elements o).removeAttr "selected".toList
      else p.elements o := by
  induction ns generalizing p
  case nil => exact (if_neg (by simp [ownedFrom])).symm
  case cons n ns hi =>
    obtain ⟨hnot, hn⟩ := List.nodup_cons.mp hn
    have htm : (p.resetTurn form n).toMarkup = p.toMarkup := p.toMarkup_resetTurn n
    rw [List.foldl_cons, hi hn (by rw [htm]; exact ho), elements_resetTurn ho, htm, ownedFrom]
    by_cases hc : (p.formOwner n).fst = some form ∧ p.isElementNamed n "select".toList ∧ o ∈ p.children n
    case pos =>
      -- No other node is the parent of the option.
      have hlater : ¬∃ n' ∈ (p.resetTurn form n).ownedFrom form ns,
          p.isElementNamed n' "select".toList ∧ o ∈ p.children n' := by
        rintro ⟨n', hn', -, hon'⟩
        exact hnot (Markup.parent_unique hc.right.right hon' ▸ ownedFrom_subset hn')
      rw [if_neg hlater, if_pos hc, if_pos hc.left, if_pos ⟨n, List.mem_cons_self, hc.right⟩]
    case neg =>
      rw [if_neg hc]
      congr 1
      split
      case isTrue hf  => simp only [List.exists_mem_cons_iff, not_and.mp hc hf, false_or]
      case isFalse    => rfl

theorem nodup_walked (n : Node) : (p.walked n).Nodup := by
  refine List.Nodup.sublist Forest.reached_sublist_labels ?_
  rw [Tree.below]
  cases hk : p.tree.whole.kids? n
  case none => simp [Forest.labels]
  case some k =>
    have hw : p.tree.whole.labels.Nodup := p.tree.nodup
    simpa [Forest.labels] using ⟨Forest.notMem_kids hw hk, hw.sublist (Forest.labels_kids?_sublist hk)⟩

theorem toMarkup_resetOwnedControls (p : Page) (form : Node) (root : Option Node) :
    (p.resetOwnedControls form root).toMarkup = p.toMarkup :=
  toMarkup_foldl toMarkup_resetTurn

-- A child of a select.
theorem selected_child (root : Option Node) (hs : p.isElementNamed s "select".toList)
    (ho : p.isElementNamed o "option".toList) (h : o ∈ p.children s) :
    (p.resetOwnedControls form root).selected o =
      if s ∈ p.owned form root then p.selectedTwice o else p.selected o := by
  have hm := p.toMarkup_resetOwnedControls form root
  have he : (p.resetOwnedControls form root).elements o = _ := elements_foldl (p.nodup_walked _) ho
  split
  case isTrue hso =>
    rw [if_pos ⟨s, hso, hs, h⟩] at he
    have hr : (p.removeAttr o "selected".toList).elements o = (p.elements o).removeAttr "selected".toList := by
      rw [elements_removeAttr (kind_of_named ho), if_pos rfl]
    exact selected_eq (hm.trans toMarkup_removeAttr.symm) (he.trans hr.symm)
  case isFalse hso =>
    rw [if_neg] at he
    · exact selected_eq hm he
    · rintro ⟨n, hn, -, hon⟩
      exact hso (Markup.parent_unique hon h ▸ hn)

-- A child of a group.
theorem selected_grouped (root : Option Node) (hg : p.isElementNamed n "optgroup".toList)
    (ho : p.isElementNamed o "option".toList) (h : o ∈ p.children n) :
    (p.resetOwnedControls form root).selected o = p.selected o := by
  have hm := p.toMarkup_resetOwnedControls form root
  have he : (p.resetOwnedControls form root).elements o = _ := elements_foldl (p.nodup_walked _) ho
  rw [if_neg] at he
  · exact selected_eq hm he
  · rintro ⟨n', -, hs, hon⟩
    rw [Markup.parent_unique hon h, Markup.name_ne hg (by decide)] at hs
    cases hs

theorem findSome?_congr {l : List Node} {g g' : Node → Option Node} (h : ∀ x ∈ l, g x = g' x) :
    l.findSome? g = l.findSome? g' := by
  induction l
  case nil => rfl
  case cons x l hi =>
    rw [List.findSome?_cons, List.findSome?_cons, h x List.mem_cons_self,
      hi fun y hy => h y (List.mem_cons_of_mem x hy)]

-- The first selected option depends on the options of the select only.
theorem firstSelectedOption_congr (hm : q.toMarkup = p.toMarkup)
    (h : ∀ o ∈ p.options s, q.selected o = p.selected o) :
    q.firstSelectedOption s = p.firstSelectedOption s := by
  rw [firstSelectedOption, firstSelectedOption, hm]
  refine findSome?_congr fun c hc => ?_
  split
  case isTrue hg =>
    refine List.find?_congr fun cc hcc => ?_
    cases ho : p.isElementNamed cc "option".toList
    case false => rfl
    case true  => rw [h cc (Markup.mem_options_of_group hc hg hcc ho)]
  case isFalse =>
    cases ho : p.isElementNamed c "option".toList
    case false => rfl
    case true  => rw [h c (Markup.mem_options_of_child hc ho)]

-- A select is restored exactly if no child of it is selected by default, given that the form has it, and its
-- other options are as by default already.
theorem restored_iff (p : Page) (fresh : Node → Element) (form : Node) (root : Option Node) (s : Node)
    (hs : p.isElementNamed s "select".toList) : p.Restored form fresh root s ↔
      (∀ o ∈ p.options s, o ∈ p.children s →
        (p.parsed fresh).selected o = if s ∈ p.owned form root then p.selectedTwice o else p.selected o) ∧
      ∀ o ∈ p.options s, o ∉ p.children s → (p.parsed fresh).selected o = p.selected o := by
  have hchild (o : Node) (ho : o ∈ p.options s) (hc : o ∈ p.children s) :
      (p.resetOwnedControls form root).selected o = _ :=
    selected_child root hs (Markup.isElementNamed_of_mem_options ho) hc
  have hgroup (o : Node) (ho : o ∈ p.options s) (hc : o ∉ p.children s) :
      (p.resetOwnedControls form root).selected o = p.selected o := by
    obtain ⟨g, hg, hog⟩ := (Markup.mem_options ho).resolve_left hc
    exact selected_grouped root hg (Markup.isElementNamed_of_mem_options ho) hog
  constructor
  case mp =>
    rintro ⟨h, -⟩
    exact ⟨fun o ho hc => (h o ho).symm.trans (hchild o ho hc),
      fun o ho hc => (h o ho).symm.trans (hgroup o ho hc)⟩
  case mpr =>
    rintro ⟨hd, hn⟩
    have h (o : Node) (ho : o ∈ p.options s) :
        (p.resetOwnedControls form root).selected o = (p.parsed fresh).selected o := by
      by_cases hc : o ∈ p.children s
      case pos => exact (hchild o ho hc).trans (hd o ho hc).symm
      case neg => exact (hgroup o ho hc).trans (hn o ho hc).symm
    refine ⟨h, firstSelectedOption_congr (p.toMarkup_resetOwnedControls form root) h⟩

-- `<form><select><option selected></select></form>`
def plainSelect : Page where
  tree     := { root := 0, kids := .node 1 (.node 2 .nil .nil) .nil, nodup := by decide }
  kind     := fun _ => .element
  name     := fun n => if n = 0 then "form".toList else if n = 1 then "select".toList else "option".toList
  elements := fun n => if n = 2 then { attrs := [{ name := "selected".toList, value := [] }] } else {}

theorem restored_withoutDefault : plainSelect.Restored 0 (fun _ => {}) none 1 :=
  (restored_iff plainSelect _ 0 none 1 (by decide)).mpr (by decide)

-- A reset takes the default from an option.
theorem not_restored_plainSelect : ¬ ∀ (p : Page) (form s : Node), p.isElementNamed s "select".toList →
    (p.formOwner s).fst = some form → p.Restored form p.elements none s := by
  intro h
  have ho := (h plainSelect 0 1 (by decide) (by decide)).options 2 (by decide)
  exact absurd ho (by decide)

end Page

end Nordstjernen.Dom
