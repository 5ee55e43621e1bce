import Nordstjernen.Xml.Serialize
import Nordstjernen.Xml.Theorems.Parse

open Nordstjernen.Glib Nordstjernen.Dom

namespace Nordstjernen.Xml

variable {input s t e rest name text q d v pat : CString} {c : Char} {tag : StartTag} {n root doc : NodeData}
  {row kids sibs tpl : Nodes NodeData} {ns : Bindings} {a new : NsAttr} {l : List NsAttr} {p : NsAttr → Bool}

-- What is read of a written start tag.
section Read

theorem nameChar_of_first (h : nameChar true c) : nameChar false c := by
  simp only [nameChar, Bool.not_true, Bool.false_and, Bool.or_false, Bool.not_false, Bool.true_and] at h ⊢
  rw [h, Bool.true_or]

theorem nameChar_of_readName (h : readName s = some (name, rest)) : ∀ c ∈ name, nameChar false c := by
  cases s
  case nil => cases h
  case cons c cs =>
    rw [readName] at h
    split at h
    case isTrue hc =>
      obtain ⟨rfl, -⟩ := Prod.mk.inj (Option.some.inj h)
      intro x hx
      obtain rfl | hx := List.mem_cons.mp hx
      · exact nameChar_of_first hc
      · exact List.mem_takeWhile_imp hx
    case isFalse => cases h

-- A text of name characters is read as one name, if it is read as a name at all.
theorem readName_append (hq : ∀ x ∈ q, nameChar false x) (hc : nameChar false c = false)
    (h : readName (q ++ c :: t) = some (name, rest)) : name = q ∧ rest = c :: t := by
  cases q
  case nil =>
    rw [List.nil_append, readName] at h
    split at h
    case isTrue hf => rw [nameChar_of_first hf] at hc; cases hc
    case isFalse   => cases h
  case cons x xs =>
    have hxs : ∀ y ∈ xs, nameChar false y := fun y hy => hq y (List.mem_cons_of_mem _ hy)
    have htake : (xs ++ c :: t).takeWhile (nameChar false) = xs := by
      rw [List.takeWhile_append_of_pos hxs, List.takeWhile_cons_of_neg (by simp [hc]), List.append_nil]
    have hdrop : (xs ++ c :: t).dropWhile (nameChar false) = c :: t := by
      rw [List.dropWhile_append_of_pos hxs, List.dropWhile_cons_of_neg (by simp [hc])]
    rw [List.cons_append, readName] at h
    split at h
    case isTrue =>
      obtain ⟨rfl, rfl⟩ := Prod.mk.inj (Option.some.inj h)
      rw [htake, hdrop]
      exact ⟨rfl, rfl⟩
    case isFalse => cases h

theorem readName_first (hd : ∀ x ∈ d, nameChar false x) (hx : nameChar true c) :
    readName (c :: d ++ '=' :: t) = some (c :: d, '=' :: t) := by
  have htake : (d ++ '=' :: t).takeWhile (nameChar false) = d := by
    rw [List.takeWhile_append_of_pos hd, List.takeWhile_cons_of_neg (by decide), List.append_nil]
  have hdrop : (d ++ '=' :: t).dropWhile (nameChar false) = '=' :: t := by
    rw [List.dropWhile_append_of_pos hd, List.dropWhile_cons_of_neg (by decide)]
  rw [List.cons_append, readName, if_pos hx, htake, hdrop]

theorem not_mem_escape : '"' ∉ escape true s := by
  simp only [escape, List.mem_flatMap, not_exists, not_and]
  intro x _ hx
  simp only [escapeChar] at hx
  split_ifs at hx with h₁ h₂ h₃ h₄
  · revert hx; decide
  · revert hx; decide
  · revert hx; decide
  · revert hx; decide
  · exact h₄ ⟨(List.mem_singleton.mp hx).symm, trivial⟩

-- The attribute that is written first is the one that is read first.
theorem parseAttributes_written {attrs : List (CString × CString)} (hd : ∀ x ∈ d, nameChar false x)
    (hc : nameChar true c) (h : parseAttributes (writeAttr (c :: d, v) ++ t) = some (attrs, rest)) :
    ∃ v' as, attrs = (c :: d, v') :: as := by
  have hw : writeAttr (c :: d, v) ++ t = ' ' :: (c :: d ++ '=' :: '"' :: (escape true v ++ '"' :: t)) := by
    simp [writeAttr]
  have hspace : isSpace c = false := by
    cases hs : isSpace c
    case false => rfl
    case true =>
      simp only [isSpace, Bool.or_eq_true, beq_iff_eq] at hs
      obtain ((rfl | rfl) | rfl) | rfl := hs <;> exact absurd hc (by decide)
  have hskip : skipSpace (' ' :: (c :: d ++ '=' :: '"' :: (escape true v ++ '"' :: t))) =
      c :: d ++ '=' :: '"' :: (escape true v ++ '"' :: t) := by
    rw [skipSpace, List.dropWhile_cons_of_pos (by decide), List.cons_append,
      List.dropWhile_cons_of_neg (by simp [hspace])]
  have hattr : readAttribute (c :: d ++ '=' :: '"' :: (escape true v ++ '"' :: t)) =
      some ((c :: d, decodeText (escape true v)), t) := by
    have heq : skipSpace ('=' :: '"' :: (escape true v ++ '"' :: t)) = '=' :: '"' :: (escape true v ++ '"' :: t) := rfl
    have hquote : skipSpace ('"' :: (escape true v ++ '"' :: t)) = '"' :: (escape true v ++ '"' :: t) := rfl
    simp only [readAttribute, readName_first hd hc, Option.bind_eq_bind, Option.bind_some, heq, hquote,
      span_ne_append_cons not_mem_escape]
    rfl
  rw [hw, parseAttributes_eq, hskip, List.cons_append] at h
  dsimp only at h
  have hne : ¬ (c = '>' ∨ c = '/') := by
    rintro (rfl | rfl) <;> exact absurd hc (by decide)
  rw [if_neg hne, ← List.cons_append, hattr, Option.bind_some] at h
  obtain ⟨⟨as, r⟩, _, he⟩ := Option.map_eq_some_iff.mp h
  obtain ⟨rfl, -⟩ := Prod.mk.inj he
  exact ⟨_, as, rfl⟩

end Read

-- What `xml_decode_text` reads of a text that `ns_xml_escape_append` has written.
section Decode

theorem decodeFrom_append : decodeFrom s.length (s ++ t) = decodeFrom 0 t := by
  induction s
  case nil => rfl
  case cons c s hi => rw [List.length_cons, List.cons_append, decodeFrom, hi]

theorem decodeFrom_reference (he : ';' ∉ e) (h : reference e = some text) :
    decodeFrom 0 ('&' :: e ++ ';' :: t) = text ++ decodeFrom 0 t := by
  have hskip : decodeFrom (e.length + 1) (e ++ ';' :: t) = decodeFrom 0 t := by
    have h := decodeFrom_append (s := e ++ [';']) (t := t)
    rw [List.length_append, List.append_assoc] at h
    exact h
  rw [List.cons_append, decodeFrom]
  simp only [if_pos, span_ne_append_cons he, h, hskip]

theorem decodeFrom_cons (h : c ≠ '&') : decodeFrom 0 (c :: t) = c :: decodeFrom 0 t := by
  rw [decodeFrom]
  exact if_neg h

-- Every character is read back from what is written for it.
theorem decodeFrom_escapeChar (attr : Bool) (c : Char) :
    decodeFrom 0 (escapeChar attr c ++ t) = c :: decodeFrom 0 t := by
  rw [escapeChar]
  split_ifs with hamp hlt hgt hquot
  case pos => rw [hamp]; exact decodeFrom_reference (e := "amp".toList) (by decide) rfl
  case pos => rw [hlt]; exact decodeFrom_reference (e := "lt".toList) (by decide) rfl
  case pos => rw [hgt]; exact decodeFrom_reference (e := "gt".toList) (by decide) rfl
  case pos => rw [hquot.1]; exact decodeFrom_reference (e := "quot".toList) (by decide) rfl
  case neg => exact decodeFrom_cons hamp

theorem decodeFrom_escape (attr : Bool) :
    decodeFrom 0 (s.flatMap (escapeChar attr) ++ t) = s ++ decodeFrom 0 t := by
  induction s
  case nil => rfl
  case cons c s hi => rw [List.flatMap_cons, List.append_assoc, decodeFrom_escapeChar, hi, List.cons_append]

theorem decodeText_escape (attr : Bool) (s : CString) (h : '\x00' ∉ s) : decodeText (escape attr s) = s := by
  have hs : gStrndup s = s := gStrndup_eq_self h
  have hd := decodeFrom_escape (s := s) (t := []) attr
  rw [List.append_nil, decodeFrom, List.append_nil] at hd
  rw [escape, hs, decodeText, hd, hs]

theorem decodeText_escape_quoted : '\x00' ∉ "\"R&amp;D\" < 1".toList ∧
    decodeText (escape true "\"R&amp;D\" < 1".toList) = "\"R&amp;D\" < 1".toList :=
  ⟨by decide, decodeText_escape true _ (by decide)⟩

end Decode

section Element

-- No attribute loses its name where one is set.
theorem exists_mem_putNsAttr (h : a ∈ l) : ∃ a' ∈ putNsAttr p new l, a'.name = a.name := by
  induction l
  case nil => cases h
  case cons b l hi =>
    rw [putNsAttr]
    split
    case isTrue =>
      obtain rfl | h := List.mem_cons.mp h
      · exact ⟨_, List.mem_cons_self, rfl⟩
      · exact ⟨a, List.mem_cons_of_mem _ h, rfl⟩
    case isFalse =>
      obtain rfl | h := List.mem_cons.mp h
      · exact ⟨a, List.mem_cons_self, rfl⟩
      · obtain ⟨a', ha, hn⟩ := hi h
        exact ⟨a', List.mem_cons_of_mem _ ha, hn⟩

theorem exists_mem_of_fresh (h : ∀ a ∈ l, p a = false) : new ∈ putNsAttr p new l := by
  induction l
  case nil => exact List.mem_singleton_self _
  case cons b l hi =>
    rw [putNsAttr, if_neg (by simp [h b List.mem_cons_self])]
    exact List.mem_cons_of_mem _ (hi fun a ha => h a (List.mem_cons_of_mem _ ha))

-- What the setters leave alone.
structure Alike (n n' : NodeData) : Prop where
  kind : n'.kind = n.kind
  name : n'.name = n.name
  kept : ∀ a ∈ n.attrs, ∃ a' ∈ n'.attrs, a'.name = a.name

theorem Alike.refl : Alike n n :=
  ⟨rfl, rfl, fun a ha => ⟨a, ha, rfl⟩⟩

theorem Alike.trans {n₁ n₂ n₃ : NodeData} (h : Alike n₁ n₂) (h' : Alike n₂ n₃) : Alike n₁ n₃ where
  kind := h'.kind.trans h.kind
  name := h'.name.trans h.name
  kept a ha :=
    have ⟨_, hb, hn⟩ := h.kept a ha
    have ⟨c, hc, hn'⟩ := h'.kept _ hb
    ⟨c, hc, hn'.trans hn⟩

theorem alike_setAttr : Alike n (n.setAttr name v) := by
  rw [NodeData.setAttr]
  split
  case isTrue  => exact ⟨rfl, rfl, fun _ => exists_mem_putNsAttr⟩
  case isFalse => exact .refl

theorem alike_setAttrNs {uri pfx : Option CString} {localName : CString} :
    Alike n (n.setAttrNs uri pfx localName name v) := by
  rw [NodeData.setAttrNs]
  split
  case isTrue  => exact ⟨rfl, rfl, fun _ => exists_mem_putNsAttr⟩
  case isFalse => exact .refl

theorem alike_applyAttribute {a : CString × CString} : Alike n (applyAttribute ns n a) := by
  rw [applyAttribute]
  split
  case isTrue => exact alike_setAttrNs
  case isFalse =>
    split
    case h_1 => exact alike_setAttrNs
    case h_2 => exact alike_setAttrNs

theorem alike_applyAttributes {as : List (CString × CString)} : Alike n (as.foldl (applyAttribute ns) n) := by
  induction as generalizing n
  case nil => exact .refl
  case cons a as hi => exact alike_applyAttribute.trans hi

theorem alike_applyNamespace {uri : Option CString} : Alike n (applyNamespace n name uri) := by
  have hflags : ∀ {n : NodeData} {flags : NodeFlags}, Alike n { n with flags } :=
    ⟨rfl, rfl, fun a ha => ⟨a, ha, rfl⟩⟩
  simp only [applyNamespace]
  split
  case isTrue =>
    split
    case h_1 => exact hflags.trans alike_setAttr
    case h_2 => exact hflags
  case isFalse =>
    split
    case h_1 =>
      refine .trans ?_ alike_setAttr
      split <;> exact hflags.trans hflags
    case h_2 => split <;> exact hflags.trans hflags

theorem namespaceUri_putNsAttr (hl : ∀ a ∈ l, a.namespaceUri = none) (hn : new.namespaceUri = none) :
    ∀ a ∈ putNsAttr p new l, a.namespaceUri = none := by
  induction l
  case nil => exact fun a ha => List.mem_singleton.mp ha ▸ hn
  case cons b l hi =>
    have hb : b.namespaceUri = none := hl b List.mem_cons_self
    have hl' : ∀ a ∈ l, a.namespaceUri = none := fun a ha => hl a (List.mem_cons_of_mem _ ha)
    rw [putNsAttr]
    split
    case isTrue  => exact List.forall_mem_cons.mpr ⟨hb, hl'⟩
    case isFalse => exact List.forall_mem_cons.mpr ⟨hb, hi hl'⟩

theorem namespaceUri_setAttr (hn : ∀ a ∈ n.attrs, a.namespaceUri = none) :
    ∀ a ∈ (n.setAttr name v).attrs, a.namespaceUri = none := by
  rw [NodeData.setAttr]
  split
  case isTrue  => exact namespaceUri_putNsAttr hn rfl
  case isFalse => exact hn

-- The attributes that an element begins with are in no namespace.
theorem namespaceUri_applyNamespace {uri : Option CString} (hn : ∀ a ∈ n.attrs, a.namespaceUri = none) :
    ∀ a ∈ (applyNamespace n name uri).attrs, a.namespaceUri = none := by
  simp only [applyNamespace]
  split
  case isTrue =>
    split
    case h_1 => exact namespaceUri_setAttr hn
    case h_2 => exact hn
  case isFalse =>
    split
    case h_1 =>
      refine namespaceUri_setAttr ?_
      split <;> exact hn
    case h_2 => split <;> exact hn

theorem kind_elementNode : (elementNode ns tag).kind = .element :=
  (alike_applyNamespace.trans alike_applyAttributes).kind

theorem mem_splitQname (h : c ∈ (splitQname q).2) : c ∈ q := by
  rw [splitQname, List.span_eq_takeWhile_dropWhile] at h
  split at h
  case h_1 localName hs =>
    obtain ⟨-, hd⟩ := Prod.mk.inj hs
    exact (List.dropWhile_sublist _).mem (hd ▸ List.mem_cons_of_mem _ h)
  case h_2 => exact h

theorem elementNode_name :
    (elementNode ns tag).name =
      if lookupPrefix ns (splitQname tag.qname).1 = some nsXhtml ∧ (splitQname tag.qname).1.isSome then
        (splitQname tag.qname).2
      else tag.qname :=
  (alike_applyNamespace.trans alike_applyAttributes).name

theorem name_elementNode (h :
    ∀ x ∈ tag.qname, nameChar false x) : ∀ x ∈ (elementNode ns tag).name, nameChar false x := by
  rw [elementNode_name]
  split
  case isTrue  => exact fun x hx => h x (mem_splitQname hx)
  case isFalse => exact h

theorem mem_setAttrNs {pfx : Option CString} {localName : CString} (hk : n.kind = .element)
    (hn : ∀ a ∈ n.attrs, a.namespaceUri = none) (hd : d ≠ []) :
    ∃ a ∈ (n.setAttrNs (some nsXmlns) pfx localName d v).attrs, a.name = d := by
  have hfresh : ∀ a ∈ n.attrs, a.matchesNs (some nsXmlns) localName = false := by
    intro a ha
    have hne : Attr.normalizeNamespace a.namespaceUri ≠ Attr.normalizeNamespace (some nsXmlns) := by
      rw [hn a ha]
      decide
    rw [Attr.matchesNs, beq_eq_false_iff_ne.mpr hne, Bool.false_and]
  rw [NodeData.setAttrNs, if_pos hk]
  exact ⟨_, exists_mem_of_fresh hfresh, if_neg hd⟩

-- A namespace declaration that a start tag begins with is an attribute of its element.
theorem exists_declared {as : List (CString × CString)} {pfx : CString}
    (h : tag.attrs = (d, v) :: as) (hd : d = "xmlns".toList ∨ d = "xmlns:".toList ++ pfx) :
    ∃ a ∈ (elementNode ns tag).attrs, a.name = d := by
  have hset : ∀ {n : NodeData}, n.kind = .element → (∀ a ∈ n.attrs, a.namespaceUri = none) →
      ∃ a ∈ (applyAttribute ns n (d, v)).attrs, a.name = d := by
    intro n hk hn
    rw [applyAttribute]
    split
    case isTrue he =>
      obtain rfl : d = "xmlns".toList := he
      exact mem_setAttrNs hk hn (by decide)
    case isFalse he =>
      obtain rfl : d = "xmlns:".toList ++ pfx := hd.resolve_left he
      have hsplit : splitQname ("xmlns:".toList ++ pfx) = (some "xmlns".toList, pfx) := rfl
      rw [hsplit]
      exact mem_setAttrNs hk hn (by simp)
  have hel : ∃ n, n.kind = .element ∧ (∀ a ∈ n.attrs, a.namespaceUri = none) ∧
      elementNode ns tag = tag.attrs.foldl (applyAttribute ns) n :=
    ⟨_, alike_applyNamespace.kind, namespaceUri_applyNamespace fun _ ha => absurd ha List.not_mem_nil, rfl⟩
  obtain ⟨n, hk, hn, he⟩ := hel
  rw [he, h, List.foldl_cons]
  obtain ⟨a, ha, hname⟩ := hset hk hn
  obtain ⟨a', ha', hname'⟩ := alike_applyAttributes.kept a ha
  exact ⟨a', ha', hname'.trans hname⟩

end Element

-- The first element that a parse returns.
section Root

theorem startTag_eq (h : startTag s = some (tag, t)) :
    ∃ s₁ s₂, readName (s.drop 1) = some (tag.qname, s₁) ∧ parseAttributes s₁ = some (tag.attrs, s₂) := by
  obtain ⟨⟨qname, s₁⟩, hn, h'⟩ := Option.bind_eq_some_iff.mp h
  obtain ⟨⟨attrs, s₂⟩, ha, hend⟩ := Option.bind_eq_some_iff.mp h'
  dsimp only at hend
  split at hend
  case h_1 => obtain ⟨rfl, -⟩ := Prod.mk.inj (Option.some.inj hend); exact ⟨s₁, s₂, hn, ha⟩
  case h_2 => obtain ⟨rfl, -⟩ := Prod.mk.inj (Option.some.inj hend); exact ⟨s₁, s₂, hn, ha⟩
  case h_3 => cases hend

theorem documentElement_leaves {l : List NodeData} (h : ∀ n ∈ l, n.kind ≠ .element) :
    documentElement ((Nodes.leaves l).append row) = documentElement row := by
  induction l
  case nil => rfl
  case cons n l hi =>
    have hn : n.kind ≠ .element := h n List.mem_cons_self
    exact (if_neg hn).trans (hi fun n hm => h n (List.mem_cons_of_mem _ hm))

theorem kind_doctypeNode (h : doctypeNode s = some n) : n.kind = .doctype := by
  rw [doctypeNode] at h
  split at h
  case isTrue  => cases h
  case isFalse => exact Option.some.inj h ▸ rfl

theorem kind_skipMiscFrom {rounds : Nat} : ∀ n ∈ (skipMiscFrom rounds s).1, n.kind ≠ .element := by
  induction rounds generalizing s
  case zero =>
    intro n hn
    rw [skipMiscFrom] at hn
    cases hn
  case succ rounds hi =>
    have hcomment : ∀ {n : NodeData}, n.kind = .comment → n.kind ≠ .element := fun h he => by cases h.symm.trans he
    rw [skipMiscFrom]
    split
    case h_1 cs _ =>
      split
      case isTrue =>
        cases breakAt "?>".toList (cs.drop 1)
        case none => exact fun n hn => absurd hn List.not_mem_nil
        case some p =>
          dsimp only
          split
          case isTrue  => exact hi
          case isFalse => exact List.forall_mem_cons.mpr ⟨hcomment rfl, hi⟩
      case isFalse =>
        split
        case isTrue =>
          cases breakAt "-->".toList (cs.drop 3)
          case none   => exact fun n hn => absurd hn List.not_mem_nil
          case some p => exact List.forall_mem_cons.mpr ⟨hcomment rfl, hi⟩
        case isFalse =>
          split
          case isTrue =>
            intro n hn
            obtain hn | hn := List.mem_append.mp hn
            · have hk : n.kind = .doctype := kind_doctypeNode (Option.mem_toList.mp hn)
              exact fun he => by cases hk.symm.trans he
            · exact hi n hn
          case isFalse => exact fun n hn => absurd hn List.not_mem_nil
    case h_2 => exact fun n hn => absurd hn List.not_mem_nil

theorem parseElement_eq {fuel depth : Nat} {el : NodeData × Nodes NodeData}
    (h : parseElement fuel depth ns s = some (el, rest)) :
    ∃ tag t, startTag s = some (tag, t) ∧ el.1 = elementNode (tag.attrs.foldl bindAttribute ns) tag := by
  cases fuel
  case zero =>
    rw [parseElement] at h
    cases h
  case succ fuel =>
    rw [parseElement] at h
    split at h
    case isTrue => cases h
    case isFalse =>
      split at h
      case h_1 => cases h
      case h_2 tag t ht =>
        refine ⟨tag, t, ht, ?_⟩
        split at h
        case isTrue => exact congrArg (·.1.1) (Option.some.inj h).symm
        case isFalse =>
          obtain ⟨_, _, he⟩ := Option.map_eq_some_iff.mp h
          exact congrArg (·.1.1) he.symm

theorem parse_eq (h : parse input = some (doc, row)) :
    ∃ ns tag t kids after, startTag (rootText input) = some (tag, t) ∧
      row = (Nodes.leaves (skipMisc (skipBom input)).1).append (.node (elementNode ns tag) .nil kids after) := by
  rw [parse] at h
  dsimp only at h
  split at h
  case h_1 s hs =>
    obtain ⟨⟨⟨el, kids⟩, rest⟩, he, hr⟩ := Option.map_eq_some_iff.mp h
    obtain ⟨tag, t, ht, rfl⟩ := parseElement_eq he
    obtain ⟨-, rfl⟩ := Prod.mk.inj hr
    exact ⟨_, tag, t, kids, _, ht, rfl⟩
  case h_2 => cases h

theorem documentElement_parse (h : parse input = some (doc, row)) :
    ∃ ns tag t kids, startTag (rootText input) = some (tag, t) ∧
      documentElement row = .node (elementNode ns tag) .nil kids .nil := by
  obtain ⟨ns, tag, t, kids, after, ht, rfl⟩ := parse_eq h
  exact ⟨ns, tag, t, kids, ht, (documentElement_leaves kind_skipMiscFrom).trans (if_pos kind_elementNode)⟩

end Root

-- The name of the namespace declaration that the outermost element is written with.
def declaredName (n : NodeData) : CString :=
  if elementPrefix n = [] then "xmlns".toList else "xmlns:".toList ++ elementPrefix n

theorem xmlOuterHtml_eq (hk : root.kind = .element) :
    ∃ t, xmlOuterHtml (.node root tpl kids .nil) =
      '<' :: (qualifiedName root ++ (writeAttr (declaredName root, elementNs root) ++ t)) := by
  have hw : ∃ t, writeStart none root =
      '<' :: (qualifiedName root ++ (writeAttr (declaredName root, elementNs root) ++ t)) := ⟨_, rfl⟩
  obtain ⟨t, ht⟩ := hw
  have hd : ¬ 0 ≥ domMaxDepth := by decide
  have happend : ∀ u, (writeStart none root ++ u) ++ [] =
      '<' :: (qualifiedName root ++ (writeAttr (declaredName root, elementNs root) ++ (t ++ u))) := by
    intro u
    rw [ht, List.append_nil, List.cons_append, List.append_assoc, List.append_assoc]
  cases kids
  case nil  => exact ⟨_, by simp only [xmlOuterHtml, serialize, if_neg hd, hk]; exact happend _⟩
  case node => exact ⟨_, by simp only [xmlOuterHtml, serialize, if_neg hd, hk]; exact happend _⟩

theorem skipMisc_of_tag (hq : c ≠ '?') (hb : c ≠ '!') :
    skipMisc (skipBom ('<' :: c :: s)) = ([], '<' :: c :: s) := by
  have hskip : skipSpace ('<' :: c :: s) = '<' :: c :: s := rfl
  have hbom : skipBom ('<' :: c :: s) = '<' :: c :: s := rfl
  have hno : ∀ {d : Char} {p : CString}, d ≠ c → ¬ gStrHasPrefix (c :: s) (d :: p) := fun hd => by
    simp [gStrHasPrefix, List.isPrefixOf, hd]
  have hpi : ¬ gStrHasPrefix (c :: s) "?".toList := hno hq.symm
  have hcomment : ¬ gStrHasPrefix (c :: s) "!--".toList := hno hb.symm
  have hdoctype : ¬ hasCasePrefix (c :: s) "!DOCTYPE".toList := fun h =>
    hb ((gAsciiTolower_eq_iff (by decide)).mp (List.cons.inj (beq_iff_eq.mp h)).left)
  rw [hbom, skipMisc, skipMiscFrom, hskip]
  split
  case h_1 cs hs =>
    obtain rfl := (List.cons.inj hs).right
    rw [if_neg hpi, if_neg hcomment, if_neg hdoctype]
  case h_2 h => exact absurd rfl (h _)

theorem declaredName_cases (n : NodeData) :
    ∃ p, (declaredName n = "xmlns".toList ∨ declaredName n = "xmlns:".toList ++ p) ∧
      ∃ d, declaredName n = 'x' :: d ∧ ((∀ x ∈ elementPrefix n, nameChar false x) → ∀ x ∈ d, nameChar false x) := by
  rw [declaredName]
  have hall : ∀ x ∈ "mlns:".toList, nameChar false x := List.all_eq_true.mp (by decide)
  split
  case isTrue  => exact ⟨[], .inl rfl, _, rfl, fun _ x hx => hall x (List.mem_append_left [':'] hx)⟩
  case isFalse =>
    refine ⟨elementPrefix n, .inr rfl, "mlns:".toList ++ elementPrefix n, rfl, fun h x hx => ?_⟩
    obtain hx | hx := List.mem_append.mp hx
    · exact hall x hx
    · exact h x hx

theorem nameChar_qualifiedName (hn : ∀ x ∈ n.name, nameChar false x) (hp : ∀ x ∈ elementPrefix n, nameChar false x) :
    ∀ x ∈ qualifiedName n, nameChar false x := by
  intro x hx
  rw [qualifiedName] at hx
  split at hx
  case isTrue  => exact hn x hx
  case isFalse =>
    obtain hx | hx := List.mem_append.mp hx
    · exact hp x hx
    · obtain rfl | hx := List.mem_cons.mp hx
      · decide
      · exact hn x hx

-- A written element is read as one that has its namespace declaration among its attributes.
theorem exists_declared_of_parse (hk : root.kind = .element) (hn : ∀ x ∈ root.name, nameChar false x)
    (hp : ∀ x ∈ elementPrefix root, nameChar false x)
    (h : parse (xmlOuterHtml (.node root tpl kids .nil)) = some (doc, row)) :
    ∃ n kids' after, row = .node n .nil kids' after ∧ n.kind = .element ∧ ∃ a ∈ n.attrs, a.name = declaredName root := by
  obtain ⟨t, ht⟩ : ∃ t, xmlOuterHtml (.node root tpl kids .nil) = _ := xmlOuterHtml_eq hk
  obtain ⟨pfx, hpfx, d, hd, hdn⟩ := declaredName_cases root
  have hq := nameChar_qualifiedName hn hp
  have hblank : ∃ u, writeAttr (declaredName root, elementNs root) ++ t = ' ' :: u := ⟨_, rfl⟩
  obtain ⟨u, hu⟩ := hblank
  have hfirst : ∃ c w, qualifiedName root ++ ' ' :: u = c :: w ∧ c ≠ '?' ∧ c ≠ '!' := by
    cases hqn : qualifiedName root
    case nil => exact ⟨' ', u, rfl, by decide, by decide⟩
    case cons c w =>
      have hc : nameChar false c := hq c (hqn ▸ List.mem_cons_self)
      refine ⟨c, w ++ ' ' :: u, rfl, ?_, ?_⟩ <;> rintro rfl <;> exact absurd hc (by decide)
  obtain ⟨c, w, hw, hc₁, hc₂⟩ := hfirst
  obtain ⟨ns, tag, t', kids', after, hs, hrow⟩ := parse_eq h
  rw [rootText, ht, hu, hw, skipMisc_of_tag hc₁ hc₂] at hs
  rw [ht, hu, hw, skipMisc_of_tag hc₁ hc₂] at hrow
  obtain ⟨s₁, s₂, hname, hattrs⟩ := startTag_eq hs
  obtain ⟨-, rfl⟩ := readName_append hq (by decide) (hw ▸ hname)
  rw [← hu, hd] at hattrs
  obtain ⟨v', as, has⟩ := parseAttributes_written (hdn hp) (by decide) hattrs
  rw [← hd] at has
  exact ⟨elementNode ns tag, kids', after, hrow, kind_elementNode, exists_declared has hpfx⟩

theorem Mark.Same.perm {qname ns qname' ns' : CString} {attrs attrs' : List (CString × Option CString × CString)}
    (h : Mark.Same (.start qname ns attrs) (.start qname' ns' attrs')) : attrs.Perm attrs' := by
  cases h
  case start h => exact h

theorem not_isInternal_declaredName : isInternal (declaredName n) = false := by
  obtain ⟨_, _, d, hd, -⟩ := declaredName_cases n
  rw [hd, isInternal, hasCasePrefix, beq_eq_false_iff_ne]
  intro he
  exact absurd (List.cons.inj he).left (by decide)

-- An attribute with the name of the outermost namespace declaration is written beside it.
theorem not_distinctNames (hk : root.kind = .element) (ha : a ∈ root.attrs) (hn : a.name = declaredName root) :
    ¬ DistinctNames none (.node root tpl kids sibs) := by
  rintro ⟨h, -⟩
  obtain ⟨hd, -⟩ := h hk
  have hw : (writtenAttrs none root).map (·.1) =
      declaredName root :: ((root.attrs.filter (!isInternal ·.name)).map fun a => (a.name, a.value)).map (·.1) := rfl
  rw [hw] at hd
  have hf : a ∈ root.attrs.filter (!isInternal ·.name) :=
    List.mem_filter.mpr ⟨ha, by rw [hn, not_isInternal_declaredName]; rfl⟩
  refine (List.nodup_cons.mp hd).left ?_
  rw [List.map_map]
  exact List.mem_map.mpr ⟨a, hf, hn⟩

-- A tree that is written and read again has its outermost namespace declaration among its attributes,
-- so that it had it before, and it has been written twice.
theorem not_roundTrips_of_root (ht : startTag s = some (tag, t)) (hf : ¬ Forged (elementNode ns tag)) :
    ¬ RoundTrips (.node (elementNode ns tag) tpl kids .nil) := by
  intro hr
  obtain ⟨⟨doc, row⟩, hp, hs⟩ := hr.reads
  have hprefix : ∀ x ∈ elementPrefix (elementNode ns tag), nameChar false x := fun x hx =>
    Bool.not_eq_false _ ▸ fun hc => hf ⟨x, hx, hc⟩
  obtain ⟨_, _, hqname, -⟩ := startTag_eq ht
  obtain ⟨n, kids', after, rfl, hk, a, ha, hname⟩ :=
    exists_declared_of_parse kind_elementNode (name_elementNode (nameChar_of_readName hqname)) hprefix hp
  simp only [outline, kind_elementNode, hk, List.cons_append] at hs
  have hperm : (attrMarks (elementNode ns tag)).Perm (attrMarks n) := (List.forall₂_cons.mp hs).left.perm
  obtain ⟨b, hb, he⟩ := List.mem_map.mp (hperm.mem_iff.mpr (List.mem_map.mpr ⟨a, ha, rfl⟩))
  exact not_distinctNames kind_elementNode hb ((Prod.mk.inj he).left.trans hname) hr.distinct

section Forged

-- A prefix may be forged such that the start tag that it is written into reads as the root again.
def forgedPrefix : CString :=
  "a data-nd-q=' data-nd-ns-prefix".toList

def forgedAttrs : List (CString × CString) :=
  [("data-nd-q".toList, " data-nd-ns-prefix:a xmlns:a data-nd-q=".toList), ("data-nd-ns-prefix".toList, forgedPrefix)]

def forgedRoot : NodeData :=
  elementNode [(none, forgedPrefix)]
    { qname := "a".toList, attrs := ("xmlns".toList, forgedPrefix) :: forgedAttrs, empty := true }

def rereadRoot : NodeData :=
  elementNode [(none, forgedPrefix)]
    { qname := "a".toList, attrs := forgedAttrs ++ [("xmlns".toList, forgedPrefix)], empty := true }

theorem roundTrips_forgedRoot : RoundTrips (.node forgedRoot .nil .nil .nil) where
  reads := by
    have hp : parse (xmlOuterHtml (.node forgedRoot .nil .nil .nil)) =
        some (NodeData.newDocument, .node rereadRoot .nil .nil .nil) := by decide +kernel
    have hq : qualifiedName forgedRoot = qualifiedName rereadRoot := by decide +kernel
    have hn : elementNs forgedRoot = elementNs rereadRoot := by decide +kernel
    have hperm : (attrMarks forgedRoot).Perm (attrMarks rereadRoot) := by decide +kernel
    refine ⟨_, hp, .cons ?_ (.cons .stop .nil)⟩
    rw [hq, hn]
    exact .start hperm
  distinct := ⟨fun _ => ⟨by decide +kernel, trivial⟩, trivial⟩

theorem exists_roundTrips : ∃ input doc row, parse input = some (doc, row) ∧ RoundTrips (documentElement row) := by
  have hp : parse ("<a".toList ++ (("xmlns".toList, forgedPrefix) :: forgedAttrs).flatMap writeAttr ++ "/>".toList) =
      some (NodeData.newDocument, .node forgedRoot .nil .nil .nil) := by decide +kernel
  exact ⟨_, _, _, hp, roundTrips_forgedRoot⟩

end Forged

def htmlRoot : NodeData :=
  elementNode [(none, nsXhtml)] { qname := "html".toList, attrs := [("xmlns".toList, nsXhtml)], empty := true }

end Nordstjernen.Xml
