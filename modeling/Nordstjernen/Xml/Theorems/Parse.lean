import Nordstjernen.Xml.Parse

open Nordstjernen.Glib Nordstjernen.Dom

namespace Nordstjernen.Xml

-- The equations of what is matched on most are derived here, once for all the proofs below.
section
attribute [local simp] nextItem parseElement breakAt skipMiscFrom attributesFrom parseContent doctypeBody
  readName
end

-- What a whole XML document is. A text is described by how it begins and what rest it leaves.

mutual

-- An element: a start tag, which ends itself or whose contents an end tag of the same name ends.
inductive Element : Nat → CString → CString → Prop
  | empty {depth s tag rest} :
    depth ≤ maxDepth → startTag ('<' :: s) = some (tag, rest) → tag.empty → Element depth ('<' :: s) rest
  | tags {depth s tag t rest} :
    depth ≤ maxDepth → startTag ('<' :: s) = some (tag, t) → tag.empty = false →
    Contents depth tag.qname t rest → Element depth ('<' :: s) rest

-- The contents of an element and its end tag.
inductive Contents : Nat → CString → CString → CString → Prop
  | endTag {depth name s t rest} :
    readName s = some (name, t) → skipSpace t = '>' :: rest → Contents depth name ('<' :: '/' :: s) rest
  | comment {depth name s b t rest} :
    breakAt "-->".toList s = some (b, t) → Contents depth name t rest →
    Contents depth name ('<' :: '!' :: '-' :: '-' :: s) rest
  | cdata {depth name s b t rest} :
    breakAt "]]>".toList s = some (b, t) → Contents depth name t rest →
    Contents depth name ("<![CDATA[".toList ++ s) rest
  | pi {depth name s b t rest} :
    breakAt "?>".toList s = some (b, t) → Contents depth name t rest →
    Contents depth name ('<' :: '?' :: s) rest
  | child {depth name s t rest} :
    Element (depth + 1) s t → Contents depth name t rest → Contents depth name s rest
  | text {depth name c s rest} :
    c ≠ '<' → Contents depth name (s.dropWhile (· != '<')) rest → Contents depth name (c :: s) rest

end

mutual

-- An element inside which the text ends.
inductive OpenElement : Nat → CString → Prop
  | intro {depth s tag t} :
    depth ≤ maxDepth → startTag ('<' :: s) = some (tag, t) → tag.empty = false →
    OpenContents depth t → OpenElement depth ('<' :: s)

inductive OpenContents : Nat → CString → Prop
  | nil {depth} : OpenContents depth []
  | comment {depth s b t} :
    breakAt "-->".toList s = some (b, t) → OpenContents depth t → OpenContents depth ('<' :: '!' :: '-' :: '-' :: s)
  | cdata {depth s b t} :
    breakAt "]]>".toList s = some (b, t) → OpenContents depth t → OpenContents depth ("<![CDATA[".toList ++ s)
  | pi {depth s b t} :
    breakAt "?>".toList s = some (b, t) → OpenContents depth t → OpenContents depth ('<' :: '?' :: s)
  | inside {depth s} : OpenElement (depth + 1) s → OpenContents depth s
  | child {depth s t} : Element (depth + 1) s t → OpenContents depth t → OpenContents depth s
  | text {depth c s} : c ≠ '<' → OpenContents depth (s.dropWhile (· != '<')) → OpenContents depth (c :: s)

end

-- What may follow the root element.
inductive MiscOnly : CString → Prop
  | nil : MiscOnly []
  | space {c s} : isSpace c → MiscOnly s → MiscOnly (c :: s)
  | comment {s b t} : breakAt "-->".toList s = some (b, t) → MiscOnly t → MiscOnly ('<' :: '!' :: '-' :: '-' :: s)
  | pi {s b t} : breakAt "?>".toList s = some (b, t) → MiscOnly t → MiscOnly ('<' :: '?' :: s)

-- An input behind what may precede the root element.
def rootText (input : CString) : CString :=
  (skipMisc (skipBom input)).2

def WellFormed (input : CString) : Prop :=
  ∃ rest, Element 0 (rootText input) rest ∧ MiscOnly rest

def Truncated (input : CString) : Prop :=
  OpenElement 0 (rootText input)

def Trailing (input : CString) : Prop :=
  ∃ rest, Element 0 (rootText input) rest ∧ ¬ MiscOnly rest

variable {s t rest b name qname pat : CString} {c : Char} {depth fuel : Nat} {ns : Bindings} {tag : StartTag}
  {n : NodeData} {node : CString → NodeData} {el : NodeData × Nodes NodeData} {kids : Nodes NodeData}

theorem length_skipSpace : (skipSpace s).length ≤ s.length :=
  (List.dropWhile_sublist _).length_le

theorem length_of_skipSpace (h : skipSpace s = c :: t) : t.length < s.length := by
  have hl : (skipSpace s).length ≤ s.length := length_skipSpace
  rw [h] at hl
  exact hl

theorem readName_cons (h : readName s = some (name, rest)) :
    ∃ c cs, s = c :: cs ∧ nameChar true c ∧ rest.length < s.length := by
  cases s
  case nil => cases h
  case cons c cs =>
    rw [readName] at h
    split at h
    case isTrue hc  =>
      obtain ⟨-, rfl⟩ := Prod.mk.inj (Option.some.inj h)
      exact ⟨c, cs, rfl, hc, Nat.lt_succ_of_le (List.dropWhile_sublist _).length_le⟩
    case isFalse => cases h

theorem length_of_readName (h : readName s = some (name, rest)) : rest.length < s.length :=
  have ⟨_, _, _, _, hl⟩ := readName_cons h
  hl

theorem length_of_breakAt (h : breakAt pat s = some (b, rest)) : rest.length ≤ s.length := by
  induction s generalizing b
  case nil => cases h
  case cons c cs hi =>
    rw [breakAt] at h
    split at h
    case isTrue =>
      obtain ⟨-, rfl⟩ := Prod.mk.inj (Option.some.inj h)
      exact (List.drop_sublist _ _).length_le
    case isFalse =>
      obtain ⟨⟨b', r⟩, hb, he⟩ := Option.map_eq_some_iff.mp h
      obtain ⟨-, rfl⟩ := Prod.mk.inj he
      exact Nat.le_succ_of_le (hi hb)

theorem length_of_readAttribute {a : CString × CString} (h : readAttribute s = some (a, rest)) :
    rest.length < s.length := by
  obtain ⟨⟨aname, s'⟩, hn, h⟩ := Option.bind_eq_some_iff.mp h
  refine Nat.lt_trans ?_ (length_of_readName hn)
  dsimp only at h
  split at h
  case h_1 s₁ he =>
    split at h
    case h_1 q s₂ hq =>
      split at h
      case isTrue =>
        have hspan := s₂.takeWhile_append_dropWhile (p := (· != q))
        rw [List.span_eq_takeWhile_dropWhile] at h
        split at h
        case h_1 hd =>
          obtain ⟨-, rfl⟩ := Prod.mk.inj (Option.some.inj h)
          obtain ⟨-, hd⟩ := Prod.mk.inj hd
          have hl := (s₂.dropWhile_sublist (· != q)).length_le
          rw [hd] at hl
          exact Nat.lt_trans (Nat.lt_of_lt_of_le (Nat.lt_succ_self _) hl)
            (Nat.lt_trans (length_of_skipSpace hq) (length_of_skipSpace he))
        case h_2 => cases h
      case isFalse => cases h
    case h_2 => cases h
  case h_2 => cases h

theorem length_of_attributesFrom {rounds : Nat} {as : List (CString × CString)}
    (h : attributesFrom rounds s = some (as, rest)) : rest.length ≤ s.length := by
  induction rounds generalizing s as
  case zero => cases h
  case succ rounds hi =>
    rw [attributesFrom] at h
    split at h
    case h_1 => cases h
    case h_2 c cs hs =>
      split at h
      case isTrue =>
        obtain ⟨-, rfl⟩ := Prod.mk.inj (Option.some.inj h)
        exact hs ▸ length_skipSpace
      case isFalse =>
        obtain ⟨⟨a, s₁⟩, ha, h⟩ := Option.bind_eq_some_iff.mp h
        obtain ⟨⟨as', r⟩, has, he⟩ := Option.map_eq_some_iff.mp h
        obtain ⟨-, rfl⟩ := Prod.mk.inj he
        exact ((hi has).trans (length_of_readAttribute ha).le).trans (hs ▸ length_skipSpace)

theorem attributesFrom_congr {m n : Nat} (hm : s.length < m) (hn : s.length < n) :
    attributesFrom m s = attributesFrom n s := by
  induction m generalizing s n
  case zero => cases hm
  case succ m hi =>
    obtain ⟨n, rfl⟩ := Nat.exists_eq_succ_of_ne_zero (Nat.ne_zero_of_lt hn)
    rw [attributesFrom, attributesFrom]
    cases hs : skipSpace s
    case nil => rfl
    case cons c cs =>
      dsimp only
      split
      case isTrue => rfl
      case isFalse =>
        refine Option.bind_congr fun ⟨a, s₁⟩ ha => ?_
        have hl : s₁.length < s.length := (length_of_readAttribute ha).trans_le (hs ▸ length_skipSpace)
        dsimp only
        rw [hi (hl.trans_le (Nat.le_of_lt_succ hm)) (hl.trans_le (Nat.le_of_lt_succ hn))]

-- The rounds of the loop over the attributes do not run out.
theorem parseAttributes_eq :
    parseAttributes s = match skipSpace s with
      | []      => none
      | c :: cs =>
        if c = '>' ∨ c = '/' then some ([], c :: cs)
        else
          (readAttribute (c :: cs)).bind fun (a, s) =>
            (parseAttributes s).map fun (as, s) => (a :: as, s) := by
  rw [parseAttributes, attributesFrom]
  cases hs : skipSpace s
  case nil => rfl
  case cons c cs =>
    dsimp only
    split
    case isTrue => rfl
    case isFalse =>
      refine Option.bind_congr fun ⟨a, s₁⟩ ha => ?_
      have hl : s₁.length < s.length := (length_of_readAttribute ha).trans_le (hs ▸ length_skipSpace)
      dsimp only
      rw [parseAttributes, attributesFrom_congr hl (Nat.lt_succ_self _)]

theorem startTag_cons (h : startTag ('<' :: s) = some (tag, rest)) :
    ∃ c cs, s = c :: cs ∧ nameChar true c ∧ rest.length < s.length := by
  obtain ⟨⟨qname, s₁⟩, hn, h'⟩ := Option.bind_eq_some_iff.mp h
  obtain ⟨⟨attrs, s₂⟩, ha, hend⟩ := Option.bind_eq_some_iff.mp h'
  obtain ⟨c, cs, rfl, hc, hl⟩ := readName_cons hn
  refine ⟨c, cs, rfl, hc, Nat.lt_of_lt_of_le ?_ ((length_of_attributesFrom ha).trans hl.le)⟩
  dsimp only at hend
  split at hend
  case h_1 hs =>
    obtain ⟨-, rfl⟩ := Prod.mk.inj (Option.some.inj hend)
    exact Nat.lt_of_succ_lt (length_of_skipSpace hs)
  case h_2 hs =>
    obtain ⟨-, rfl⟩ := Prod.mk.inj (Option.some.inj hend)
    exact length_of_skipSpace hs
  case h_3 => cases hend

theorem length_of_startTag (h : startTag ('<' :: s) = some (tag, rest)) : rest.length < ('<' :: s).length :=
  have ⟨_, _, _, _, hl⟩ := startTag_cons h
  Nat.lt_succ_of_lt hl

theorem length_doctypeBody (bracket : Nat) (s : CString) : (doctypeBody bracket s).2.length ≤ s.length := by
  induction s generalizing bracket
  case nil => exact Nat.le_refl _
  case cons c cs hi =>
    rw [doctypeBody]
    split
    case isTrue  => exact Nat.le_succ _
    case isFalse => exact Nat.le_succ_of_le (hi _)

-- The rounds of the loop in front of and behind the root element do not run out.
theorem skipMiscFrom_congr {m n : Nat} (hm : s.length < m) (hn : s.length < n) :
    skipMiscFrom m s = skipMiscFrom n s := by
  induction m generalizing s n
  case zero => cases hm
  case succ m hi =>
    obtain ⟨n, rfl⟩ := Nat.exists_eq_succ_of_ne_zero (Nat.ne_zero_of_lt hn)
    have hnext : ∀ {cs t : CString}, skipSpace s = '<' :: cs → t.length ≤ cs.length →
        skipMiscFrom m t = skipMiscFrom n t := fun hs ht =>
      have hl := ht.trans_lt (length_of_skipSpace hs)
      hi (hl.trans_le (Nat.le_of_lt_succ hm)) (hl.trans_le (Nat.le_of_lt_succ hn))
    have hdrop : ∀ {cs : CString} {k : Nat}, (cs.drop k).length ≤ cs.length := (List.drop_sublist _ _).length_le
    rw [skipMiscFrom, skipMiscFrom]
    split
    case h_1 cs hs =>
      split
      case isTrue =>
        cases hb : breakAt "?>".toList (cs.drop 1)
        case none   => rfl
        case some p => simp only [hnext hs ((length_of_breakAt hb).trans hdrop)]
      case isFalse =>
        split
        case isTrue =>
          cases hb : breakAt "-->".toList (cs.drop 3)
          case none   => rfl
          case some p => simp only [hnext hs ((length_of_breakAt hb).trans hdrop)]
        case isFalse =>
          split
          case isTrue  => simp only [hnext hs ((length_doctypeBody 0 (cs.drop 8)).trans hdrop)]
          case isFalse => rfl
    case h_2 => rfl

section NextItem

theorem nextItem_slash : nextItem ('<' :: '/' :: s) = readEndTag s :=
  rfl

theorem nextItem_comment :
    nextItem ('<' :: '!' :: '-' :: '-' :: s) = readLeaf "-->".toList commentNode s :=
  rfl

theorem nextItem_cdata : nextItem ("<![CDATA[".toList ++ s) = readLeaf "]]>".toList cdataNode s :=
  rfl

theorem nextItem_pi : nextItem ('<' :: '?' :: s) = readLeaf "?>".toList piNode s :=
  rfl

theorem nextItem_text (h : c ≠ '<') :
    nextItem (c :: s) =
      .leaf (NodeData.newText (decodeText ((c :: s).takeWhile (· != '<')))) (s.dropWhile (· != '<')) := by
  rw [nextItem, List.dropWhile_cons_of_pos (by simpa using h)]
  · exact nofun
  · exact fun cs he => h (List.cons.inj he).left

theorem nextItem_child_of (hslash : ¬ gStrHasPrefix s "/".toList) (hcomment : ¬ gStrHasPrefix s "!--".toList)
    (hcdata : ¬ gStrHasPrefix s "![CDATA[".toList) (hpi : ¬ gStrHasPrefix s "?".toList) :
    nextItem ('<' :: s) = .child := by
  rw [nextItem, if_neg hslash, if_neg hcomment, if_neg hcdata, if_neg hpi]

theorem nextItem_child (h : startTag ('<' :: s) = some (tag, rest)) : nextItem ('<' :: s) = .child := by
  obtain ⟨c, cs, rfl, hc, -⟩ := startTag_cons h
  have hne : ∀ {d : Char} {p : CString}, nameChar true d = false → ¬ gStrHasPrefix (c :: cs) (d :: p) := by
    intro d p hd
    have hdc : d ≠ c := fun he => by rw [← he, hd] at hc; cases hc
    simp [gStrHasPrefix, List.isPrefixOf, hdc]
  exact nextItem_child_of (hne (by decide)) (hne (by decide)) (hne (by decide)) (hne (by decide))

theorem exists_append (h : gStrHasPrefix s pat) : ∃ t, s = pat ++ t ∧ s.drop pat.length = t := by
  obtain ⟨t, rfl⟩ := List.isPrefixOf_iff_prefix.mp h
  exact ⟨t, rfl, List.drop_left⟩

-- How the contents of an element may go on.
inductive Next : CString → Prop
  | nil : Next []
  | slash (s : CString) : Next ('<' :: '/' :: s)
  | comment (s : CString) : Next ('<' :: '!' :: '-' :: '-' :: s)
  | cdata (s : CString) : Next ("<![CDATA[".toList ++ s)
  | pi (s : CString) : Next ('<' :: '?' :: s)
  | child (s : CString) : nextItem ('<' :: s) = .child → Next ('<' :: s)
  | text (c : Char) (s : CString) : c ≠ '<' → Next (c :: s)

theorem next (s : CString) : Next s := by
  cases s
  case nil => exact .nil
  case cons c cs =>
    by_cases hc : c = '<'
    case neg => exact .text c cs hc
    case pos =>
      subst hc
      by_cases hslash : gStrHasPrefix cs "/".toList
      case pos =>
        obtain ⟨t, rfl, -⟩ := exists_append hslash
        exact .slash t
      by_cases hcomment : gStrHasPrefix cs "!--".toList
      case pos =>
        obtain ⟨t, rfl, -⟩ := exists_append hcomment
        exact .comment t
      by_cases hcdata : gStrHasPrefix cs "![CDATA[".toList
      case pos =>
        obtain ⟨t, rfl, -⟩ := exists_append hcdata
        exact .cdata t
      by_cases hpi : gStrHasPrefix cs "?".toList
      case pos =>
        obtain ⟨t, rfl, -⟩ := exists_append hpi
        exact .pi t
      case neg => exact .child cs (nextItem_child_of hslash hcomment hcdata hpi)

theorem nextItem_readLeaf (h : breakAt pat s = some (b, t)) : readLeaf pat node s = .leaf (node b) t := by
  rw [readLeaf, h]

theorem nextItem_of_element (h : Element depth s rest) : nextItem s = .child := by
  cases h
  case empty _ _ ht  => exact nextItem_child ht
  case tags ht _ _ _ => exact nextItem_child ht

theorem nextItem_of_openElement (h : OpenElement depth s) : nextItem s = .child := by
  cases h
  case intro ht _ _ _ => exact nextItem_child ht

theorem readEndTag_eq (hn : readName s = some (name, t)) (hs : skipSpace t = '>' :: rest) :
    readEndTag s = .endTag name rest := by
  simp only [readEndTag, hn, hs]

theorem readEndTag_cases (s : CString) :
    readEndTag s = .bad ∨ ∃ name t rest, readName s = some (name, t) ∧ skipSpace t = '>' :: rest ∧
      readEndTag s = .endTag name rest := by
  cases hn : readName s
  case none => exact .inl (by rw [readEndTag, hn])
  case some p =>
    cases hs : skipSpace p.2
    case nil => exact .inl (by simp only [readEndTag, hn, hs])
    case cons c rest =>
      by_cases hc : c = '>'
      case pos => exact .inr ⟨_, _, rest, rfl, hc ▸ hs, readEndTag_eq hn (hc ▸ hs)⟩
      case neg =>
        refine .inl ?_
        simp only [readEndTag, hn, hs]
        split
        case h_1 he => exact absurd (List.cons.inj he).left hc
        case h_2    => rfl

theorem readLeaf_cases (pat : CString) (node : CString → NodeData) (s : CString) :
    readLeaf pat node s = .bad ∨ ∃ b t, breakAt pat s = some (b, t) ∧ readLeaf pat node s = .leaf (node b) t := by
  cases hb : breakAt pat s
  case none   => exact .inl (by rw [readLeaf, hb])
  case some p => exact .inr ⟨_, _, rfl, nextItem_readLeaf hb⟩

theorem contents_iff :
    Contents depth name s rest ↔ match nextItem s with
      | .endTag n r => n = name ∧ r = rest
      | .leaf _ t   => Contents depth name t rest
      | .child      => ∃ t, Element (depth + 1) s t ∧ Contents depth name t rest
      | _           => False := by
  constructor
  case mp =>
    intro h
    cases h
    case endTag hn hs   => rw [nextItem_slash, readEndTag_eq hn hs]; exact ⟨rfl, rfl⟩
    case comment hb h   => rw [nextItem_comment, nextItem_readLeaf hb]; exact h
    case cdata hb h     => rw [nextItem_cdata, nextItem_readLeaf hb]; exact h
    case pi hb h        => rw [nextItem_pi, nextItem_readLeaf hb]; exact h
    case child t he h   => rw [nextItem_of_element he]; exact ⟨t, he, h⟩
    case text c s hc h  => rw [nextItem_text hc]; exact h
  case mpr =>
    intro h
    cases next s
    case nil => exact h.elim
    case slash s =>
      rw [nextItem_slash] at h
      obtain hb | ⟨n, t, r, hn, hs, he⟩ := readEndTag_cases s
      · rw [hb] at h; exact h.elim
      · rw [he] at h; exact .endTag (h.left ▸ hn) (h.right ▸ hs)
    case comment s =>
      rw [nextItem_comment] at h
      obtain hb | ⟨b, t, hb, he⟩ := readLeaf_cases "-->".toList commentNode s
      · rw [hb] at h; exact h.elim
      · rw [he] at h; exact .comment hb h
    case cdata s =>
      rw [nextItem_cdata] at h
      obtain hb | ⟨b, t, hb, he⟩ := readLeaf_cases "]]>".toList cdataNode s
      · rw [hb] at h; exact h.elim
      · rw [he] at h; exact .cdata hb h
    case pi s =>
      rw [nextItem_pi] at h
      obtain hb | ⟨b, t, hb, he⟩ := readLeaf_cases "?>".toList piNode s
      · rw [hb] at h; exact h.elim
      · rw [he] at h; exact .pi hb h
    case child s hs =>
      rw [hs] at h
      obtain ⟨t, he, h⟩ := h
      exact .child he h
    case text c s hc =>
      rw [nextItem_text hc] at h
      exact .text hc h

theorem openContents_iff :
    OpenContents depth s ↔ match nextItem s with
      | .done     => True
      | .leaf _ t => OpenContents depth t
      | .child    => OpenElement (depth + 1) s ∨ ∃ t, Element (depth + 1) s t ∧ OpenContents depth t
      | _         => False := by
  constructor
  case mp =>
    intro h
    cases h
    case nil            => exact trivial
    case comment hb h   => rw [nextItem_comment, nextItem_readLeaf hb]; exact h
    case cdata hb h     => rw [nextItem_cdata, nextItem_readLeaf hb]; exact h
    case pi hb h        => rw [nextItem_pi, nextItem_readLeaf hb]; exact h
    case inside h       => rw [nextItem_of_openElement h]; exact .inl h
    case child t h he   => rw [nextItem_of_element he]; exact .inr ⟨t, he, h⟩
    case text c s hc h  => rw [nextItem_text hc]; exact h
  case mpr =>
    intro h
    cases next s
    case nil => exact .nil
    case slash s =>
      rw [nextItem_slash] at h
      obtain hb | ⟨n, t, r, _, _, he⟩ := readEndTag_cases s
      · rw [hb] at h; exact h.elim
      · rw [he] at h; exact h.elim
    case comment s =>
      rw [nextItem_comment] at h
      obtain hb | ⟨b, t, hb, he⟩ := readLeaf_cases "-->".toList commentNode s
      · rw [hb] at h; exact h.elim
      · rw [he] at h; exact .comment hb h
    case cdata s =>
      rw [nextItem_cdata] at h
      obtain hb | ⟨b, t, hb, he⟩ := readLeaf_cases "]]>".toList cdataNode s
      · rw [hb] at h; exact h.elim
      · rw [he] at h; exact .cdata hb h
    case pi s =>
      rw [nextItem_pi] at h
      obtain hb | ⟨b, t, hb, he⟩ := readLeaf_cases "?>".toList piNode s
      · rw [hb] at h; exact h.elim
      · rw [he] at h; exact .pi hb h
    case child s hs =>
      rw [hs] at h
      obtain h | ⟨t, he, h⟩ := h
      · exact .inside h
      · exact .child he h
    case text c s hc =>
      rw [nextItem_text hc] at h
      exact .text hc h

theorem length_of_nextItem (h : nextItem s = .leaf n t) : t.length < s.length := by
  cases next s
  case nil => cases h
  case slash s =>
    obtain hb | ⟨n, t, r, _, _, he⟩ := readEndTag_cases s
    · cases (nextItem_slash.symm.trans h).symm.trans hb
    · cases (nextItem_slash.symm.trans h).symm.trans he
  case comment s =>
    obtain hb | ⟨b, t, hb, he⟩ := readLeaf_cases "-->".toList commentNode s
    · cases (nextItem_comment.symm.trans h).symm.trans hb
    · cases (nextItem_comment.symm.trans h).symm.trans he
      exact (length_of_breakAt hb).trans_lt (by simp only [List.length_cons]; omega)
  case cdata s =>
    obtain hb | ⟨b, t, hb, he⟩ := readLeaf_cases "]]>".toList cdataNode s
    · cases (nextItem_cdata.symm.trans h).symm.trans hb
    · cases (nextItem_cdata.symm.trans h).symm.trans he
      refine (length_of_breakAt hb).trans_lt ?_
      rw [List.length_append]
      exact Nat.lt_add_of_pos_left (by decide)
  case pi s =>
    obtain hb | ⟨b, t, hb, he⟩ := readLeaf_cases "?>".toList piNode s
    · cases (nextItem_pi.symm.trans h).symm.trans hb
    · cases (nextItem_pi.symm.trans h).symm.trans he
      exact (length_of_breakAt hb).trans_lt (by simp only [List.length_cons]; omega)
  case child s hs => cases hs.symm.trans h
  case text c s hc =>
    cases (nextItem_text hc).symm.trans h
    exact Nat.lt_succ_of_le (List.dropWhile_sublist _).length_le

end NextItem

theorem element_iff :
    Element depth s rest ↔ ∃ t tag u, s = '<' :: t ∧ depth ≤ maxDepth ∧ startTag s = some (tag, u) ∧
      if tag.empty then u = rest else Contents depth tag.qname u rest := by
  constructor
  case mp =>
    intro h
    cases h
    case empty he hd ht => exact ⟨_, _, _, rfl, hd, ht, by rw [if_pos he]⟩
    case tags ht he hd hc => exact ⟨_, _, _, rfl, hd, ht, by rw [he]; exact hc⟩
  case mpr =>
    rintro ⟨t, tag, u, rfl, hd, ht, h⟩
    cases he : tag.empty
    case true  => rw [he] at h; obtain rfl : u = rest := h; exact .empty hd ht he
    case false => rw [he] at h; exact .tags hd ht he h

theorem openElement_iff :
    OpenElement depth s ↔ ∃ t tag u, s = '<' :: t ∧ depth ≤ maxDepth ∧ startTag s = some (tag, u) ∧
      tag.empty = false ∧ OpenContents depth u := by
  constructor
  case mp =>
    intro h
    cases h
    case intro ht he hd hc => exact ⟨_, _, _, rfl, hd, ht, he, hc⟩
  case mpr =>
    rintro ⟨t, tag, u, rfl, hd, ht, he, h⟩
    exact .intro hd ht he h

-- Induction on elements and contents, where all items that are no child go alike.
theorem Element.items {P : Nat → CString → CString → Prop} {Q : Nat → CString → CString → CString → Prop}
    (empty : ∀ {depth s tag rest}, depth ≤ maxDepth → startTag ('<' :: s) = some (tag, rest) → tag.empty →
      P depth ('<' :: s) rest)
    (tags : ∀ {depth s tag t rest}, depth ≤ maxDepth → startTag ('<' :: s) = some (tag, t) → tag.empty = false →
      Q depth tag.qname t rest → P depth ('<' :: s) rest)
    (endTag : ∀ {depth name s rest}, nextItem s = .endTag name rest → rest.length < s.length → Q depth name s rest)
    (leaf : ∀ {depth name s n t rest}, nextItem s = .leaf n t → Q depth name t rest → Q depth name s rest)
    (child : ∀ {depth name s t rest}, nextItem s = .child → Element (depth + 1) s t → P (depth + 1) s t →
      Q depth name t rest → Q depth name s rest) :
    (∀ {depth s rest}, Element depth s rest → P depth s rest) ∧
      ∀ {depth name s rest}, Contents depth name s rest → Q depth name s rest := by
  have hend : ∀ {depth name s t rest}, readName s = some (name, t) → skipSpace t = '>' :: rest →
      Q depth name ('<' :: '/' :: s) rest := fun hn hs =>
    endTag (nextItem_slash.trans (readEndTag_eq hn hs))
      (((length_of_skipSpace hs).trans (length_of_readName hn)).trans (by simp only [List.length_cons]; omega))
  have hcomment : ∀ {depth name s b t rest}, breakAt "-->".toList s = some (b, t) → Q depth name t rest →
      Q depth name ('<' :: '!' :: '-' :: '-' :: s) rest := fun hb =>
    leaf (nextItem_comment.trans (nextItem_readLeaf hb))
  have hcdata : ∀ {depth name s b t rest}, breakAt "]]>".toList s = some (b, t) → Q depth name t rest →
      Q depth name ("<![CDATA[".toList ++ s) rest := fun hb =>
    leaf (nextItem_cdata.trans (nextItem_readLeaf hb))
  have hpi : ∀ {depth name s b t rest}, breakAt "?>".toList s = some (b, t) → Q depth name t rest →
      Q depth name ('<' :: '?' :: s) rest := fun hb =>
    leaf (nextItem_pi.trans (nextItem_readLeaf hb))
  constructor <;> intro depth
  · intro s rest h
    exact @Element.rec (fun depth s rest _ => P depth s rest) (fun depth name s rest _ => Q depth name s rest)
      empty (fun hd ht he _ hc => tags hd ht he hc) hend (fun hb _ h => hcomment hb h) (fun hb _ h => hcdata hb h)
      (fun hb _ h => hpi hb h) (fun he _ hp hq => child (nextItem_of_element he) he hp hq)
      (fun hc _ h => leaf (nextItem_text hc) h) _ _ _ h
  · intro name s rest h
    exact @Contents.rec (fun depth s rest _ => P depth s rest) (fun depth name s rest _ => Q depth name s rest)
      empty (fun hd ht he _ hc => tags hd ht he hc) hend (fun hb _ h => hcomment hb h) (fun hb _ h => hcdata hb h)
      (fun hb _ h => hpi hb h) (fun he _ hp hq => child (nextItem_of_element he) he hp hq)
      (fun hc _ h => leaf (nextItem_text hc) h) _ _ _ _ h

-- The same for what the text ends inside.
theorem OpenElement.items {P : Nat → CString → Prop} {Q : Nat → CString → Prop}
    (intro : ∀ {depth s tag t}, depth ≤ maxDepth → startTag ('<' :: s) = some (tag, t) → tag.empty = false →
      Q depth t → P depth ('<' :: s))
    (nil : ∀ {depth}, Q depth [])
    (leaf : ∀ {depth s n t}, nextItem s = .leaf n t → Q depth t → Q depth s)
    (inside : ∀ {depth s}, nextItem s = .child → P (depth + 1) s → Q depth s)
    (child : ∀ {depth s t}, nextItem s = .child → Element (depth + 1) s t → Q depth t → Q depth s)
    (h : OpenElement depth s) : P depth s :=
  @OpenElement.rec (fun depth s _ => P depth s) (fun depth s _ => Q depth s)
    (fun hd ht he _ hc => intro hd ht he hc) nil
    (fun hb _ h => leaf (nextItem_comment.trans (nextItem_readLeaf hb)) h)
    (fun hb _ h => leaf (nextItem_cdata.trans (nextItem_readLeaf hb)) h)
    (fun hb _ h => leaf (nextItem_pi.trans (nextItem_readLeaf hb)) h)
    (fun ho hp => inside (nextItem_of_openElement ho) hp) (fun he _ hq => child (nextItem_of_element he) he hq)
    (fun hc _ h => leaf (nextItem_text hc) h) _ _ h

theorem Element.length_lt (h : Element depth s rest) : rest.length < s.length := by
  refine (Element.items (P := fun _ s rest => rest.length < s.length) (Q := fun _ _ s rest => rest.length < s.length)
    ?empty ?tags ?endTag ?leaf ?child).left h
  case empty  => exact fun _ ht _ => length_of_startTag ht
  case tags   => exact fun _ ht _ hl => hl.trans (length_of_startTag ht)
  case endTag => exact fun _ hl => hl
  case leaf   => exact fun hi hl => hl.trans (length_of_nextItem hi)
  case child  => exact fun _ _ hle hlc => hlc.trans hle

-- An element ends at one place, and not with the text.
theorem Element.unique (h : Element depth s rest) :
    (∀ rest', Element depth s rest' → rest' = rest) ∧ ¬ OpenElement depth s := by
  refine (Element.items
    (P := fun depth s rest => (∀ rest', Element depth s rest' → rest' = rest) ∧ ¬ OpenElement depth s)
    (Q := fun depth name s rest => (∀ rest', Contents depth name s rest' → rest' = rest) ∧ ¬ OpenContents depth s)
    ?empty ?tags ?endTag ?leaf ?child).left h
  case empty =>
    intro depth s tag rest _ ht he
    refine ⟨fun rest' h => ?_, fun h => ?_⟩
    · obtain ⟨_, _, _, _, _, ht', h⟩ := element_iff.mp h
      cases ht.symm.trans ht'
      rw [if_pos he] at h
      exact h.symm
    · obtain ⟨_, _, _, _, _, ht', he', _⟩ := openElement_iff.mp h
      cases ht.symm.trans ht'
      cases he.symm.trans he'
  case tags =>
    intro depth s tag t rest _ ht he hu
    refine ⟨fun rest' h => ?_, fun h => ?_⟩
    · obtain ⟨_, _, _, _, _, ht', h⟩ := element_iff.mp h
      cases ht.symm.trans ht'
      rw [he] at h
      exact hu.left rest' h
    · obtain ⟨_, _, _, _, _, ht', _, h⟩ := openElement_iff.mp h
      cases ht.symm.trans ht'
      exact hu.right h
  case endTag =>
    intro depth name s rest hi _
    rw [openContents_iff, hi]
    refine ⟨fun rest' h => ?_, id⟩
    rw [contents_iff, hi] at h
    exact h.right.symm
  case leaf =>
    intro depth name s n t rest hi hu
    rw [openContents_iff, hi]
    refine ⟨fun rest' h => ?_, hu.right⟩
    rw [contents_iff, hi] at h
    exact hu.left rest' h
  case child =>
    intro depth name s t rest hi _ hue huc
    rw [openContents_iff, hi]
    refine ⟨fun rest' h => ?_, ?_⟩
    · rw [contents_iff, hi] at h
      obtain ⟨t', he, hc⟩ := h
      cases hue.left t' he
      exact huc.left rest' hc
    · rintro (h | ⟨t', he, hc⟩)
      · exact hue.right h
      · cases hue.left t' he
        exact huc.right hc

-- The parser takes every element, on which the number of calls that it may make suffices.
theorem Element.parse (h : Element depth s rest) (hf : s.length ≤ fuel) :
    ∃ el, parseElement fuel depth ns s = some (el, rest) := by
  refine (Element.items
    (P := fun depth s rest => ∀ fuel ns, s.length ≤ fuel → ∃ el, parseElement fuel depth ns s = some (el, rest))
    (Q := fun depth name s rest => ∀ fuel ns, s.length < fuel →
      ∃ kids, parseContent fuel depth ns name s = some (kids, rest))
    ?empty ?tags ?endTag ?leaf ?child).left h fuel ns hf
  case empty =>
    intro depth s tag rest hd ht he fuel ns hf
    obtain ⟨fuel, rfl⟩ := Nat.exists_eq_succ_of_ne_zero (Nat.ne_zero_of_lt hf)
    rw [parseElement, if_neg hd.not_gt, ht]
    exact ⟨_, if_pos he⟩
  case tags =>
    intro depth s tag t rest hd ht he hc fuel ns hf
    obtain ⟨fuel, rfl⟩ := Nat.exists_eq_succ_of_ne_zero (Nat.ne_zero_of_lt hf)
    obtain ⟨_, _, _, _, hl⟩ := startTag_cons ht
    obtain ⟨kids, hk⟩ := hc fuel (tag.attrs.foldl bindAttribute ns) (hl.trans_le (Nat.le_of_succ_le_succ hf))
    rw [parseElement, if_neg hd.not_gt, ht]
    exact ⟨_, by dsimp only; rw [he, if_neg Bool.false_ne_true, hk]; rfl⟩
  case endTag =>
    intro depth name s rest hi _ fuel ns hf
    obtain ⟨fuel, rfl⟩ := Nat.exists_eq_succ_of_ne_zero (Nat.ne_zero_of_lt hf)
    rw [parseContent, hi]
    exact ⟨_, if_pos rfl⟩
  case leaf =>
    intro depth name s n t rest hi hc fuel ns hf
    obtain ⟨fuel, rfl⟩ := Nat.exists_eq_succ_of_ne_zero (Nat.ne_zero_of_lt hf)
    obtain ⟨kids, hk⟩ := hc fuel ns ((length_of_nextItem hi).trans_le (Nat.le_of_lt_succ hf))
    rw [parseContent, hi]
    exact ⟨_, by dsimp only; rw [hk]; rfl⟩
  case child =>
    intro depth name s t rest hi h he hc fuel ns hf
    obtain ⟨fuel, rfl⟩ := Nat.exists_eq_succ_of_ne_zero (Nat.ne_zero_of_lt hf)
    obtain ⟨el, hel⟩ := he fuel ns (Nat.le_of_lt_succ hf)
    obtain ⟨kids, hk⟩ := hc fuel ns (h.length_lt.trans_le (Nat.le_of_lt_succ hf))
    rw [parseContent, hi]
    exact ⟨_, by dsimp only; rw [hel, Option.bind_some, hk]; rfl⟩

theorem exists_cons_of_child (h : nextItem s = .child) : ∃ t, s = '<' :: t := by
  cases s
  case nil => cases h
  case cons c t =>
    by_cases hc : c = '<'
    case pos => exact ⟨t, hc ▸ rfl⟩
    case neg => cases h.symm.trans (nextItem_text hc)

-- It also takes what the text ends inside.
theorem OpenElement.parse (h : OpenElement depth s) (hf : s.length ≤ fuel) :
    ∃ el, parseElement fuel depth ns s = some (el, []) := by
  refine OpenElement.items
    (P := fun depth s => ∀ fuel ns, s.length ≤ fuel → ∃ el, parseElement fuel depth ns s = some (el, []))
    (Q := fun depth s => ∀ fuel ns name, s.length < fuel →
      ∃ kids, parseContent fuel depth ns name s = some (kids, []))
    ?intro ?nil ?leaf ?inside ?child h fuel ns hf
  case intro =>
    intro depth s tag t hd ht he hc fuel ns hf
    obtain ⟨fuel, rfl⟩ := Nat.exists_eq_succ_of_ne_zero (Nat.ne_zero_of_lt hf)
    obtain ⟨_, _, _, _, hl⟩ := startTag_cons ht
    obtain ⟨kids, hk⟩ :=
      hc fuel (tag.attrs.foldl bindAttribute ns) tag.qname (hl.trans_le (Nat.le_of_succ_le_succ hf))
    rw [parseElement, if_neg hd.not_gt, ht]
    exact ⟨_, by dsimp only; rw [he, if_neg Bool.false_ne_true, hk]; rfl⟩
  case nil =>
    intro depth fuel ns name hf
    obtain ⟨fuel, rfl⟩ := Nat.exists_eq_succ_of_ne_zero (Nat.ne_zero_of_lt hf)
    exact ⟨.nil, rfl⟩
  case leaf =>
    intro depth s n t hi hc fuel ns name hf
    obtain ⟨fuel, rfl⟩ := Nat.exists_eq_succ_of_ne_zero (Nat.ne_zero_of_lt hf)
    obtain ⟨kids, hk⟩ := hc fuel ns name ((length_of_nextItem hi).trans_le (Nat.le_of_lt_succ hf))
    rw [parseContent, hi]
    exact ⟨_, by dsimp only; rw [hk]; rfl⟩
  case inside =>
    intro depth s hi ho fuel ns name hf
    obtain ⟨fuel, rfl⟩ := Nat.exists_eq_succ_of_ne_zero (Nat.ne_zero_of_lt hf)
    obtain ⟨el, hel⟩ := ho fuel ns (Nat.le_of_lt_succ hf)
    obtain ⟨t, rfl⟩ := exists_cons_of_child hi
    obtain ⟨fuel, rfl⟩ := Nat.exists_eq_succ_of_ne_zero (Nat.ne_zero_of_lt (Nat.le_of_lt_succ hf))
    rw [parseContent, hi]
    exact ⟨_, by dsimp only; rw [hel]; rfl⟩
  case child =>
    intro depth s t hi h hc fuel ns name hf
    obtain ⟨fuel, rfl⟩ := Nat.exists_eq_succ_of_ne_zero (Nat.ne_zero_of_lt hf)
    obtain ⟨el, hel⟩ := h.parse (Nat.le_of_lt_succ hf)
    obtain ⟨kids, hk⟩ := hc fuel ns name (h.length_lt.trans_le (Nat.le_of_lt_succ hf))
    rw [parseContent, hi]
    exact ⟨_, by dsimp only; rw [hel, Option.bind_some, hk]; rfl⟩

-- What the parser takes is an element, or the text ends inside it.
theorem element_of_parse (fuel : Nat) :
    (∀ depth ns s el rest, parseElement fuel depth ns ('<' :: s) = some (el, rest) →
      Element depth ('<' :: s) rest ∨ OpenElement depth ('<' :: s) ∧ rest = []) ∧
    ∀ depth ns name s kids rest, parseContent fuel depth ns name s = some (kids, rest) →
      Contents depth name s rest ∨ OpenContents depth s ∧ rest = [] := by
  induction fuel
  case zero =>
    constructor
    · intro _ _ _ _ _ h
      rw [parseElement] at h
      cases h
    · intro _ _ _ _ _ _ h
      rw [parseContent] at h
      cases h
  case succ fuel hi =>
    obtain ⟨hel, hco⟩ := hi
    constructor
    · intro depth ns s el rest h
      rw [parseElement] at h
      split at h
      case isTrue => cases h
      case isFalse hd =>
        split at h
        case h_1 => cases h
        case h_2 tag t ht =>
          split at h
          case isTrue he =>
            cases h
            exact .inl (.empty (Nat.le_of_not_gt hd) ht he)
          case isFalse he =>
            obtain ⟨⟨kids, r⟩, hc, hr⟩ := Option.map_eq_some_iff.mp h
            cases hr
            refine (hco _ _ _ _ _ _ hc).imp ?_ (And.imp_left ?_)
            · exact .tags (Nat.le_of_not_gt hd) ht (Bool.eq_false_iff.mpr he)
            · exact .intro (Nat.le_of_not_gt hd) ht (Bool.eq_false_iff.mpr he)
    · intro depth ns name s kids rest h
      rw [contents_iff, openContents_iff]
      rw [parseContent] at h
      cases hn : nextItem s
      case done =>
        rw [hn] at h
        cases h
        exact .inr ⟨trivial, rfl⟩
      case endTag n r =>
        rw [hn] at h
        obtain ⟨hname, he⟩ := Option.ite_none_right_eq_some.mp h
        cases he
        exact .inl ⟨hname, rfl⟩
      case leaf n t =>
        rw [hn] at h
        obtain ⟨⟨kids, r⟩, hc, hr⟩ := Option.map_eq_some_iff.mp h
        cases hr
        exact hco _ _ _ _ _ _ hc
      case child =>
        rw [hn] at h
        obtain ⟨t, rfl⟩ := exists_cons_of_child hn
        obtain ⟨⟨el, u⟩, he, h⟩ := Option.bind_eq_some_iff.mp h
        obtain ⟨⟨kids, r⟩, hc, hr⟩ := Option.map_eq_some_iff.mp h
        cases hr
        have hc := hco _ _ _ _ _ _ hc
        obtain he | ⟨ho, rfl⟩ := hel _ _ _ _ _ he
        · exact hc.imp (fun h => ⟨u, he, h⟩) (And.imp_left fun h => .inr ⟨u, he, h⟩)
        · obtain hc | ⟨-, rfl⟩ := hc
          · exact (contents_iff.mp hc).elim
          · exact .inr ⟨.inl ho, rfl⟩
      case bad =>
        rw [hn] at h
        cases h

variable {input : CString}

theorem isSome_of_element {rest : CString} (hs : ∃ t, rootText input = '<' :: t)
    (h : ∃ el, parseElement ((rootText input).length + 1) 0 [] (rootText input) = some (el, rest)) :
    (parse input).isSome := by
  obtain ⟨t, ht⟩ := hs
  obtain ⟨el, he⟩ := h
  rw [rootText] at ht he
  rw [ht] at he
  simp only [parse, ht]
  rw [he]
  rfl

theorem Element.exists_cons (h : Element depth s rest) : ∃ t, s = '<' :: t :=
  exists_cons_of_child (nextItem_of_element h)

theorem OpenElement.exists_cons (h : OpenElement depth s) : ∃ t, s = '<' :: t :=
  exists_cons_of_child (nextItem_of_openElement h)

theorem parse_isSome_iff : (parse input).isSome ↔ WellFormed input ∨ Truncated input ∨ Trailing input := by
  constructor
  case mp =>
    intro h
    rw [parse] at h
    dsimp only at h
    split at h
    case h_1 t hs =>
      rw [Option.isSome_map] at h
      obtain ⟨⟨el, rest⟩, he⟩ := Option.isSome_iff_exists.mp h
      rw [WellFormed, Truncated, Trailing, rootText, hs]
      rw [hs] at he
      obtain he | ⟨ho, -⟩ := (element_of_parse _).left _ _ _ _ _ he
      · by_cases hm : MiscOnly rest
        case pos => exact .inl ⟨rest, he, hm⟩
        case neg => exact .inr (.inr ⟨rest, he, hm⟩)
      · exact .inr (.inl ho)
    case h_2 => cases h
  case mpr =>
    rintro (⟨rest, h, -⟩ | h | ⟨rest, h, -⟩)
    · exact isSome_of_element h.exists_cons (h.parse (Nat.le_succ _))
    · exact isSome_of_element (OpenElement.exists_cons h) (OpenElement.parse h (Nat.le_succ _))
    · exact isSome_of_element h.exists_cons (h.parse (Nat.le_succ _))

-- The parser reports success for well-formed documents alone, save where the text ends inside an
-- element or goes on behind the root element.
theorem wellFormed_of_parse_iff :
    ((parse input).isSome → WellFormed input) ↔ ¬ Truncated input ∧ ¬ Trailing input := by
  rw [parse_isSome_iff]
  constructor
  case mp =>
    intro h
    refine ⟨fun ht => ?_, fun hr => ?_⟩
    · obtain ⟨rest, he, -⟩ := h (.inr (.inl ht))
      exact he.unique.right ht
    · obtain ⟨rest, he, hm⟩ := h (.inr (.inr hr))
      obtain ⟨rest', he', hm'⟩ := hr
      exact hm' (he.unique.left rest' he' ▸ hm)
  case mpr =>
    rintro ⟨ht, hr⟩ (h | h | h)
    · exact h
    · exact absurd h ht
    · exact absurd h hr

theorem not_wellFormed_unclosed : ¬ ((parse "<a>".toList).isSome → WellFormed "<a>".toList) := by
  intro h
  obtain ⟨rest, he, -⟩ := h (by decide)
  exact he.unique.right (.intro (by decide) rfl rfl .nil)

end Nordstjernen.Xml
