import Nordstjernen.Dom.NodeIndex

open Nordstjernen.Glib

namespace Nordstjernen.Dom

variable {n n' out : NodeData} {a b : NsAttr} {as : List NsAttr} {name value : CString} {depth : Nat} {next : Node}

namespace NsAttr

-- What the setters see to.
structure Proper (a : NsAttr) : Prop where
  name : a.name = [] → a.local' = []
  uri  : a.namespaceUri ≠ some []
  pfx  : a.pfx ≠ some []

def key (a : NsAttr) : Option CString × CString :=
  (Attr.normalizeNamespace a.namespaceUri, a.local')

-- The same name, value, namespace, prefix and local name.
structure Same (a a' : NsAttr) : Prop where
  name  : a'.name = a.name
  value : a'.value = a.value
  uri   : a'.namespaceUri = a.namespaceUri
  pfx   : a'.pfx = a.pfx
  local' : a'.local' = a.local'

end NsAttr

namespace NodeData

-- The flags that say what a node is, where the others say what has happened to it.
def contentFlags (n : NodeData) : NodeFlags :=
  if n.kind = .element then
    { fragment           := n.flags.fragment
      cdata              := n.flags.cdata
      pi                 := n.flags.pi
      svgNs              := n.flags.svgNs
      foreignNs          := n.flags.foreignNs
      keepCase           := n.flags.keepCase
      inputIndeterminate := n.flags.inputIndeterminate }
  else { fragment := n.flags.fragment, cdata := n.flags.cdata, pi := n.flags.pi }

-- What holds of every node that is made by the constructors and changed by the setters.
structure Proper (n : NodeData) : Prop where
  name  : n.kind = .text → n.name = []
  text  : n.kind = .element ∨ n.kind = .doctype → n.text = []
  bare  : n.kind ≠ .element → n.kind ≠ .doctype → n.attrs = []
  attrs : ∀ a ∈ n.attrs, a.Proper

-- A value with a NUL in it, and attributes that share a name, are left open.
structure CopiedTo (n n' : NodeData) : Prop where
  kind  : n'.kind = n.kind
  name  : n'.name = n.name
  text  : n'.text = n.text
  flags : n'.contentFlags = n.contentFlags
  attrs : (∀ a ∈ n.attrs, '\x00' ∉ a.value) → (n.attrs.map NsAttr.key).Nodup →
    n.attrs.Forall₂ NsAttr.Same n'.attrs

end NodeData

section Proper

theorem NsAttr.proper_nsAttr {uri pfx : Option CString} {localName : CString} :
    (NodeData.nsAttr uri pfx localName name value).Proper where
  name h := by
    simp only [NodeData.nsAttr] at h
    split at h
    case isTrue     => exact h
    case isFalse hn => exact absurd h hn
  uri := by simp [NodeData.nsAttr, Attr.normalizeNamespace, Option.filter_eq_some_iff]
  pfx := by simp [NodeData.nsAttr, Option.filter_eq_some_iff]

theorem NsAttr.Proper.withValue (h : a.Proper) : ({ a with value } : NsAttr).Proper :=
  ⟨h.name, h.uri, h.pfx⟩

theorem proper_putNsAttr {p : NsAttr → Bool} (has : ∀ a ∈ as, a.Proper) (hb : b.Proper) :
    ∀ a ∈ putNsAttr p b as, a.Proper := by
  induction as
  case nil => exact fun a ha => List.mem_singleton.mp ha ▸ hb
  case cons c as hi =>
    obtain ⟨hc, has⟩ := List.forall_mem_cons.mp has
    rw [putNsAttr]
    split
    case isTrue  => exact List.forall_mem_cons.mpr ⟨hc.withValue, has⟩
    case isFalse => exact List.forall_mem_cons.mpr ⟨hc, hi has⟩

namespace NodeData

theorem proper_newElement : (newElement name).Proper :=
  ⟨nofun, fun _ => rfl, fun h => absurd rfl h, nofun⟩

theorem proper_newText : (newText value).Proper :=
  ⟨fun _ => rfl, nofun, fun _ _ => rfl, nofun⟩

theorem proper_newComment : (newComment value).Proper :=
  ⟨nofun, nofun, fun _ _ => rfl, nofun⟩

theorem proper_newDocument : newDocument.Proper :=
  ⟨nofun, nofun, fun _ _ => rfl, nofun⟩

theorem Proper.setAttr (h : n.Proper) : (n.setAttr name value).Proper := by
  rw [NodeData.setAttr]
  split
  case isTrue hk =>
    refine ⟨h.name, h.text, fun hne => absurd hk hne, proper_putNsAttr h.attrs ?_⟩
    exact ⟨id, nofun, nofun⟩
  case isFalse => exact h

theorem Proper.setAttrNs {uri pfx : Option CString} {localName : CString} (h : n.Proper) :
    (n.setAttrNs uri pfx localName name value).Proper := by
  rw [NodeData.setAttrNs]
  split
  case isTrue hk =>
    exact ⟨h.name, h.text, fun hne => absurd hk hne, proper_putNsAttr h.attrs NsAttr.proper_nsAttr⟩
  case isFalse => exact h

end NodeData

end Proper

section Attrs

theorem putNsAttr_of_fresh {p : NsAttr → Bool} (h : ∀ b ∈ as, p b = false) : putNsAttr p a as = as ++ [a] := by
  induction as
  case nil => rfl
  case cons b as hi =>
    obtain ⟨hb, has⟩ := List.forall_mem_cons.mp h
    rw [putNsAttr, if_neg (by simp [hb]), hi has, List.cons_append]

theorem matchesNs_eq_false (h : b.key ≠ a.key) : b.matchesNs a.namespaceUri a.local' = false := by
  rw [Attr.matchesNs, Bool.and_eq_false_iff]
  by_contra hc
  simp only [not_or, Bool.not_eq_false, beq_iff_eq] at hc
  exact h (Prod.ext hc.left hc.right)

-- The attribute that a clone has for one.
def NsAttr.copied (a : NsAttr) : NsAttr :=
  { a with localName := some a.local' }

theorem filter_ne_nil {o : Option CString} (h : o ≠ some []) : o.filter (· ≠ []) = o := by
  cases o
  case none   => rfl
  case some s => exact Option.filter_eq_some_iff.mpr ⟨rfl, by simpa using h⟩

theorem nsAttr_eq_copied (h : a.Proper) (hv : '\x00' ∉ a.value) :
    NodeData.nsAttr a.namespaceUri a.pfx a.local' a.name a.value = a.copied := by
  have hname : (if a.name = [] then a.local' else a.name) = a.name := by
    split
    case isTrue hn => exact (h.name hn).trans hn.symm
    case isFalse   => rfl
  have hvalue : gStrndup a.value = a.value :=
    List.takeWhile_eq_self_iff.mpr fun c hc => by
      rw [bne_iff_ne]
      rintro rfl
      exact hv hc
  rw [NodeData.nsAttr, hname, hvalue, Attr.normalizeNamespace, filter_ne_nil h.uri, filter_ne_nil h.pfx]
  rfl

theorem NsAttr.same_copied : a.Same a.copied :=
  ⟨rfl, rfl, rfl, rfl, rfl⟩

namespace NodeData

theorem exists_setAttrNs {uri pfx : Option CString} {localName : CString} :
    ∃ l, n.setAttrNs uri pfx localName name value = { n with attrs := l } := by
  rw [setAttrNs]
  split
  case isTrue  => exact ⟨_, rfl⟩
  case isFalse => exact ⟨n.attrs, rfl⟩

theorem exists_cloneAttrs : ∃ l, cloneAttrs out as = { out with attrs := l } := by
  induction as generalizing out
  case nil => exact ⟨out.attrs, rfl⟩
  case cons a as hi =>
    obtain ⟨l, hl⟩ := exists_setAttrNs (n := out)
    obtain ⟨l', hl'⟩ := @hi { out with attrs := l }
    rw [cloneAttrs, List.foldl_cons, hl]
    exact ⟨l', hl'⟩

-- Attributes whose values are plain and whose names differ are appended as they are.
theorem attrs_cloneAttrs (hk : out.kind = .element) (hp : ∀ a ∈ as, a.Proper) (hv : ∀ a ∈ as, '\x00' ∉ a.value)
    (hd : (as.map NsAttr.key).Nodup) (ho : ∀ b ∈ out.attrs, b.key ∉ as.map NsAttr.key) :
    (cloneAttrs out as).attrs = out.attrs ++ as.map NsAttr.copied := by
  induction as generalizing out
  case nil => exact (List.append_nil _).symm
  case cons a as hi =>
    obtain ⟨hpa, hp⟩ := List.forall_mem_cons.mp hp
    obtain ⟨hva, hv⟩ := List.forall_mem_cons.mp hv
    obtain ⟨hda, hd⟩ := List.nodup_cons.mp hd
    have hfresh : ∀ b ∈ out.attrs, b.matchesNs a.namespaceUri a.local' = false := fun b hb =>
      matchesNs_eq_false fun he => ho b hb (he ▸ List.mem_cons_self)
    have hset : out.setAttrNs a.namespaceUri a.pfx a.local' a.name a.value =
        { out with attrs := out.attrs ++ [a.copied] } := by
      rw [setAttrNs, if_pos hk, putNsAttr_of_fresh hfresh, nsAttr_eq_copied hpa hva]
    have ho' : ∀ b ∈ out.attrs ++ [a.copied], b.key ∉ as.map NsAttr.key := fun b hb => by
      obtain hb | hb := List.mem_append.mp hb
      · exact fun hm => ho b hb (List.mem_cons_of_mem _ hm)
      · exact List.mem_singleton.mp hb ▸ hda
    have hrest : (cloneAttrs { out with attrs := out.attrs ++ [a.copied] } as).attrs = _ := hi hk hp hv hd ho'
    rw [cloneAttrs, List.foldl_cons, hset]
    exact hrest.trans (List.append_assoc ..)

theorem forall₂_copied : as.Forall₂ NsAttr.Same (as.map NsAttr.copied) := by
  induction as
  case nil          => exact .nil
  case cons a as hi => exact .cons NsAttr.same_copied hi

theorem forall₂_cloneAttrs (hk : out.kind = .element) (ho : out.attrs = []) (hp : ∀ a ∈ as, a.Proper)
    (hv : ∀ a ∈ as, '\x00' ∉ a.value) (hd : (as.map NsAttr.key).Nodup) :
    as.Forall₂ NsAttr.Same (cloneAttrs out as).attrs := by
  rw [attrs_cloneAttrs hk hp hv hd (ho ▸ nofun), ho]
  exact forall₂_copied

-- The attributes that are put on a new element, which is all that changes.
theorem exists_cloneAttrs_new (hk : out.kind = .element) (ho : out.attrs = []) (hp : ∀ a ∈ as, a.Proper) :
    ∃ l, cloneAttrs out as = { out with attrs := l } ∧
      ((∀ a ∈ as, '\x00' ∉ a.value) → (as.map NsAttr.key).Nodup → as.Forall₂ NsAttr.Same l) := by
  obtain ⟨l, hl⟩ : ∃ l, cloneAttrs out as = { out with attrs := l } := exists_cloneAttrs
  refine ⟨l, hl, fun hv hd => ?_⟩
  have hf := forall₂_cloneAttrs hk ho hp hv hd
  rwa [hl] at hf

theorem clone_element (h : n.Proper) (hk : n.kind = .element) :
    ∃ l, n.clone = { kind := .element, name := n.name, attrs := l, flags := n.contentFlags } ∧
      ((∀ a ∈ n.attrs, '\x00' ∉ a.value) → (n.attrs.map NsAttr.key).Nodup → n.attrs.Forall₂ NsAttr.Same l) := by
  have hnew : ∀ out : NodeData, out.kind = .element → out.attrs = [] → _ := fun out hk ho =>
    exists_cloneAttrs_new hk ho h.attrs
  obtain ⟨l, hl, hf⟩ := hnew
    { kind  := .element
      name  := n.name
      flags :=
        { svgNs              := n.flags.svgNs
          foreignNs          := n.flags.foreignNs
          keepCase           := n.flags.keepCase
          inputIndeterminate := n.flags.inputIndeterminate } } rfl rfl
  refine ⟨l, ?_, hf⟩
  rw [clone, hk, contentFlags, if_pos hk]
  exact congrArg (fun out : NodeData =>
    { out with flags := { out.flags with fragment := n.flags.fragment, cdata := n.flags.cdata, pi := n.flags.pi } }) hl

theorem clone_doctype (h : n.Proper) (hk : n.kind = .doctype) :
    ∃ l, n.clone = { kind := .doctype, name := n.name, attrs := l, flags := n.contentFlags } ∧
      ((∀ a ∈ n.attrs, '\x00' ∉ a.value) → (n.attrs.map NsAttr.key).Nodup → n.attrs.Forall₂ NsAttr.Same l) := by
  have hnew : ∀ out : NodeData, out.kind = .element → out.attrs = [] → _ := fun out hk ho =>
    exists_cloneAttrs_new hk ho h.attrs
  obtain ⟨l, hl, hf⟩ := hnew { kind := .element, name := n.name } rfl rfl
  refine ⟨l, ?_, hf⟩
  rw [clone, hk, contentFlags, if_neg (by simp [hk])]
  exact congrArg (fun out : NodeData =>
    { out with
      kind  := .doctype
      flags := { out.flags with fragment := n.flags.fragment, cdata := n.flags.cdata, pi := n.flags.pi } }) hl

theorem cloneAttrs_of_ne (h : out.kind ≠ .element) : cloneAttrs out as = out := by
  induction as
  case nil => rfl
  case cons a as hi => rwa [cloneAttrs, List.foldl_cons, setAttrNs, if_neg h]

-- The other nodes have no attributes, and a text has no name.
theorem clone_bare (h : n.Proper) (he : n.kind ≠ .element) (hd : n.kind ≠ .doctype) :
    n.clone = { kind := n.kind, name := n.name, text := n.text, flags := n.contentFlags } := by
  rw [contentFlags, if_neg he]
  cases hk : n.kind
  case element  => exact absurd hk he
  case doctype  => exact absurd hk hd
  case text     => rw [clone, hk, h.name hk]; rfl
  case document => rw [clone, hk]; dsimp only; rw [cloneAttrs_of_ne (by simp)]
  case comment  => rw [clone, hk]; dsimp only; rw [cloneAttrs_of_ne (by simp)]

theorem contentFlags_mk {l : List NsAttr} {text : CString} :
    contentFlags { kind := n.kind, name, text, attrs := l, flags := n.contentFlags } = n.contentFlags := by
  cases hk : n.kind <;> simp [contentFlags, hk]

theorem copiedTo_clone (h : n.Proper) : n.CopiedTo n.clone := by
  by_cases he : n.kind = .element
  case pos =>
    obtain ⟨l, hc, hf⟩ := clone_element h he
    rw [hc, ← he]
    exact ⟨rfl, rfl, (h.text (.inl he)).symm, contentFlags_mk, hf⟩
  case neg =>
    by_cases hd : n.kind = .doctype
    case pos =>
      obtain ⟨l, hc, hf⟩ := clone_doctype h hd
      rw [hc, ← hd]
      exact ⟨rfl, rfl, (h.text (.inr hd)).symm, contentFlags_mk, hf⟩
    case neg =>
      rw [clone_bare h he hd]
      exact ⟨rfl, rfl, rfl, contentFlags_mk, fun _ _ => by rw [h.bare he hd]; exact .nil⟩

end NodeData

end Attrs

section Fresh

variable {src : Nodes (Node × NodeData)}

-- Different nodes, all of which are new between two moments.
structure Fresh (lo hi : Node) (l : List Node) : Prop where
  le    : lo ≤ hi
  mem   : ∀ x ∈ l, lo ≤ x ∧ x < hi
  nodup : l.Nodup

theorem Fresh.nil {lo : Node} : Fresh lo lo [] :=
  ⟨Nat.le_refl _, nofun, .nil⟩

theorem Fresh.append {lo mid hi : Node} {l l' : List Node} (h : Fresh lo mid l) (h' : Fresh mid hi l') :
    Fresh lo hi (l ++ l') where
  le      := h.le.trans h'.le
  mem x hx := by
    obtain hx | hx := List.mem_append.mp hx
    · exact ⟨(h.mem x hx).left, (h.mem x hx).right.trans_le h'.le⟩
    · exact ⟨h.le.trans (h'.mem x hx).left, (h'.mem x hx).right⟩
  nodup   := List.nodup_append.mpr ⟨h.nodup, h'.nodup, fun x hx y hy =>
    ((h.mem x hx).right.trans_le (h'.mem y hy).left).ne⟩

theorem Fresh.cons {lo hi : Node} {l : List Node} (h : Fresh (lo + 1) hi l) : Fresh lo hi (lo :: l) :=
  have hone : Fresh lo (lo + 1) [lo] :=
    ⟨Nat.le_succ _, fun _ hx => List.mem_singleton.mp hx ▸ ⟨Nat.le_refl _, Nat.lt_succ_self _⟩, List.nodup_singleton _⟩
  hone.append h

-- The copies are new nodes, each of which is used once.
theorem fresh_cloneRow :
    Fresh next (cloneRow depth next src).2 ((cloneRow depth next src).1.labels.map (·.1)) := by
  induction src generalizing depth next
  case nil => exact .nil
  case node a tpl kids sibs ht hk hs =>
    obtain ⟨x, n⟩ := a
    rw [cloneRow]
    split
    case isTrue => exact hs
    case isFalse =>
      simp only [Nodes.labels, List.map_cons, List.map_append]
      exact .cons ((hk.append ht).append hs)

-- Down to the limit, the copy of a row has its shape.
theorem rel_cloneRow (hp : ∀ a ∈ src.labels, a.2.Proper) (hh : src.height + depth ≤ domMaxDepth) :
    src.Rel (fun a b => a.2.CopiedTo b.2) (cloneRow depth next src).1 := by
  induction src generalizing depth next
  case nil => trivial
  case node a tpl kids sibs ht hk hs =>
    obtain ⟨x, n⟩ := a
    obtain ⟨hn, hrest⟩ := List.forall_mem_cons.mp hp
    obtain ⟨hbelow, hps⟩ := List.forall_mem_append.mp hrest
    obtain ⟨hpk, hpt⟩ := List.forall_mem_append.mp hbelow
    rw [Nodes.height] at hh
    have hd : ¬ depth ≥ domMaxDepth := by omega
    rw [cloneRow, if_neg hd]
    exact ⟨NodeData.copiedTo_clone hn, ht hpt (by omega), hk hpk (by omega), hs hps (by omega)⟩

variable {x : Node} {tpl kids : Nodes (Node × NodeData)}

-- A copy of a tree that is not too deep has the same nodes in the same places, and shares none with it.
theorem copied_nodeClone (hp : ∀ a ∈ (Nodes.node (x, n) tpl kids .nil).labels, a.2.Proper)
    (hh : (Nodes.node (x, n) tpl kids .nil).height ≤ domMaxDepth)
    (hf : ∀ a ∈ (Nodes.node (x, n) tpl kids .nil).labels, a.1 < next) :
    (Nodes.node (x, n) tpl kids .nil).Rel (fun a b => a.2.CopiedTo b.2) (nodeClone true next n tpl kids) ∧
      ((nodeClone true next n tpl kids).labels.map (·.1)).Nodup ∧
      ∀ b ∈ (nodeClone true next n tpl kids).labels, ∀ a ∈ (Nodes.node (x, n) tpl kids .nil).labels, a.1 ≠ b.1 := by
  have hc : nodeClone true next n tpl kids = (cloneRow 0 next (.node (x, n) tpl kids .nil)).1 := rfl
  rw [hc]
  refine ⟨rel_cloneRow hp hh, fresh_cloneRow.nodup, fun b hb a ha => ?_⟩
  exact ((hf a ha).trans_le (fresh_cloneRow.mem b.1 (List.mem_map_of_mem hb)).left).ne

-- A template with an attribute, the text in its contents, and a comment below it.
def templateData : NodeData :=
  (NodeData.newElement "template".toList).setAttr "id".toList "t".toList

def templateContents : Nodes (Node × NodeData) :=
  .node (1, { NodeData.newDocument with flags := { fragment := true } }) .nil
    (.node (2, NodeData.newText "a".toList) .nil .nil .nil) .nil

def templateKids : Nodes (Node × NodeData) :=
  .node (3, NodeData.newComment "c".toList) .nil .nil .nil

theorem copied_template :
    (Nodes.node (0, templateData) templateContents templateKids .nil).Rel (fun a b => a.2.CopiedTo b.2)
      (nodeClone true 4 templateData templateContents templateKids) := by
  refine (copied_nodeClone (x := 0) ?_ (by decide) (by decide)).left
  simp only [Nodes.labels, templateContents, templateKids, List.append_nil, List.cons_append, List.nil_append,
    List.forall_mem_cons]
  exact ⟨NodeData.proper_newElement.setAttr, NodeData.proper_newComment, ⟨nofun, nofun, fun _ _ => rfl, nofun⟩,
    NodeData.proper_newText, fun _ h => absurd h List.not_mem_nil⟩

-- What has happened to a node has not happened to its copy.
def clicked : NodeData :=
  { NodeData.newElement "a".toList with flags := { clickInProgress := true } }

theorem not_same_clicked : (nodeClone true 1 clicked .nil .nil).labels.map (·.2.flags) ≠ [clicked.flags] := by
  decide

end Fresh

end Nordstjernen.Dom
