import Nordstjernen.Css.Gather.Matches

open Nordstjernen.Glib

namespace Nordstjernen.Css.Gather

section Tables

variable {table : GHashTable (List Candidate)} {key : CString} {cand cand' : Candidate}

theorem cssIndexLookupCi_eq (name : CString) :
    cssIndexLookupCi table name = table.lookup (gAsciiStrdown name) := by
  rw [cssIndexLookupCi]
  split
  case isTrue    => rfl
  case isFalse h =>
    have hn : ∀ c ∈ name, gAsciiTolower c = c := fun c hc => by
      simp only [List.any_eq_true, not_exists, not_and] at h
      exact if_neg (h c hc)
    rw [gAsciiStrdown, List.map_congr_left hn, List.map_id']

theorem mem_indexAddCandidateArray {bucket : List Candidate} :
    cand ∈ indexAddCandidateArray bucket cand' ↔ cand ∈ bucket ∨ cand = cand' := by
  rw [indexAddCandidateArray]
  split
  case isTrue h =>
    have hm : cand' ∈ bucket := List.mem_of_getLast? h
    grind
  case isFalse => simp

-- A candidate is in the bucket of a key.
def Holds (table : GHashTable (List Candidate)) (key : CString) (cand : Candidate) : Prop :=
  ∃ bucket, table.lookup key = some bucket ∧ cand ∈ bucket

theorem Holds.indexAdd (h : Holds table key cand) (key' : CString) (cand' : Candidate) :
    Holds (indexAdd table key' cand') key cand := by
  obtain ⟨bucket, hl, hm⟩ := h
  by_cases he : key = key'
  case pos =>
    subst he
    exact ⟨_, AList.lookup_insert table, mem_indexAddCandidateArray.mpr (.inl (by simpa [hl] using hm))⟩
  case neg => exact ⟨bucket, (AList.lookup_insert_ne he).trans hl, hm⟩

theorem holds_indexAdd : Holds (indexAdd table key cand) key cand :=
  ⟨_, AList.lookup_insert table, mem_indexAddCandidateArray.mpr (.inr rfl)⟩

end Tables

namespace RuleIndex

variable {π : Type*} {idx idx' idx'' : RuleIndex} {counts : Counts} {subj : Simple π}
  {cand cand' : Candidate}

-- Nothing is taken out of an index.
structure Le (idx idx' : RuleIndex) : Prop where
  byId      : ∀ key cand, Holds idx.byId key cand → Holds idx'.byId key cand
  byClass   : ∀ key cand, Holds idx.byClass key cand → Holds idx'.byClass key cand
  byTag     : ∀ key cand, Holds idx.byTag key cand → Holds idx'.byTag key cand
  byAttr    : ∀ key cand, Holds idx.byAttr key cand → Holds idx'.byAttr key cand
  universal : idx.universal ⊆ idx'.universal

theorem Le.refl (idx : RuleIndex) : idx.Le idx :=
  ⟨fun _ _ => id, fun _ _ => id, fun _ _ => id, fun _ _ => id, List.Subset.refl _⟩

theorem Le.trans (h : idx.Le idx') (h' : idx'.Le idx'') : idx.Le idx'' where
  byId _ _ hc    := h'.byId _ _ (h.byId _ _ hc)
  byClass _ _ hc := h'.byClass _ _ (h.byClass _ _ hc)
  byTag _ _ hc   := h'.byTag _ _ (h.byTag _ _ hc)
  byAttr _ _ hc  := h'.byAttr _ _ (h.byAttr _ _ hc)
  universal      := List.Subset.trans h.universal h'.universal

theorem le_universal :
    idx.Le { idx with universal := indexAddCandidateArray idx.universal cand } :=
  { Le.refl idx with universal := fun _ hc => mem_indexAddCandidateArray.mpr (.inl hc) }

theorem le_file : idx.Le (idx.file counts subj cand) := by
  rw [file]
  split
  case h_1   => exact { Le.refl idx with byId := fun _ _ hc => hc.indexAdd _ _ }
  case h_2 i =>
    split
    · exact { Le.refl idx with byClass := fun _ _ hc => hc.indexAdd _ _ }
    · exact le_universal
  case h_3   => exact { Le.refl idx with byTag := fun _ _ hc => hc.indexAdd _ _ }
  case h_4 i =>
    split
    · exact { Le.refl idx with byAttr := fun _ _ hc => hc.indexAdd _ _ }
    · exact le_universal
  case h_5   => exact le_universal

theorem le_add {subj : Option (Simple π)} : idx.Le (idx.add counts subj cand) := by
  cases subj <;> rw [add]
  case none => exact le_universal
  case some =>
    split
    · exact Le.refl idx
    · exact le_file

-- A candidate is filed under something that every element which its last compound matches has.
inductive Filed (idx : RuleIndex) (subj : Simple π) (cand : Candidate) : Prop
  | byId {id} (h : subj.indexId = some id) (hc : Holds idx.byId id cand)
  | byClass {cls} (h : cls ∈ subj.classes) (hn : cls ≠ []) (hc : Holds idx.byClass cls cand)
  | byTag {type} (h : subj.indexType = some type) (hc : Holds idx.byTag (gAsciiStrdown type) cand)
  | byAttr {a} (h : a ∈ subj.attrs) (hc : Holds idx.byAttr (gAsciiStrdown a.name) cand)
  | universal (hc : cand ∈ idx.universal)

theorem Filed.mono (h : idx.Filed subj cand) (hl : idx.Le idx') : idx'.Filed subj cand := by
  cases h
  case byId h hc         => exact .byId h (hl.byId _ _ hc)
  case byClass h hn hc   => exact .byClass h hn (hl.byClass _ _ hc)
  case byTag h hc        => exact .byTag h (hl.byTag _ _ hc)
  case byAttr h hc       => exact .byAttr h (hl.byAttr _ _ hc)
  case universal hc      => exact .universal (hl.universal hc)

end RuleIndex

section Kind

variable {π : Type*} {counts : Counts} {subj : Simple π}

-- The feature that a kind names is there.
def IndexKind.Valid (subj : Simple π) : IndexKind → Prop
  | .id  => subj.indexId.isSome
  | .tag => subj.indexType.isSome
  | _    => True

theorem Choice.take_valid {c : Choice} {count : UInt32} {kind : IndexKind} (hc : c.kind.Valid subj)
    (hk : kind.Valid subj) : (c.take count kind).kind.Valid subj := by
  rw [take]
  split
  · exact hc
  · exact hk

theorem Choice.elim_valid {α : Type*} {o : Option α} {c : Choice} {count : α → UInt32}
    {kind : IndexKind} (hc : c.kind.Valid subj) (hk : o.isSome → kind.Valid subj) :
    (o.elim c fun x => c.take (count x) kind).kind.Valid subj := by
  cases o
  case none   => exact hc
  case some x => exact take_valid hc (hk rfl)

theorem Choice.ite_valid {p : Prop} [Decidable p] {c : Choice} {count : UInt32} {kind : IndexKind}
    (hc : c.kind.Valid subj) (hk : kind.Valid subj) :
    (if p then c else c.take count kind).kind.Valid subj := by
  split
  · exact hc
  · exact take_valid hc hk

theorem Choice.foldl_valid {α : Type*} {f : Choice → α → Choice} {xs : List α} {c : Choice}
    (hc : c.kind.Valid subj) (hf : ∀ c x, c.kind.Valid subj → (f c x).kind.Valid subj) :
    (xs.foldl f c).kind.Valid subj :=
  List.foldlRecOn (motive := fun c => c.kind.Valid subj) xs f hc fun c hc x _ => hf c x hc

theorem indexSubjectKind_valid : (indexSubjectKind counts subj).Valid subj := by
  rw [indexSubjectKind]
  split
  case isTrue  => trivial
  case isFalse =>
    refine Choice.foldl_valid (Choice.elim_valid (Choice.foldl_valid (Choice.elim_valid ?_ ?_) ?_) ?_) ?_
    · trivial
    · exact id
    · exact fun _ _ hc => Choice.ite_valid hc trivial
    · exact id
    · exact fun _ _ hc => Choice.ite_valid hc trivial

end Kind

namespace RuleIndex

variable {π : Type*} {idx : RuleIndex} {counts : Counts} {subj : Simple π} {cand : Candidate}

theorem filed_universal {subj : Simple π} :
    Filed { idx with universal := indexAddCandidateArray idx.universal cand } subj cand :=
  .universal (mem_indexAddCandidateArray.mpr (.inr rfl))

theorem filed_file : (idx.file counts subj cand).Filed subj cand := by
  have hv : (indexSubjectKind counts subj).Valid subj := indexSubjectKind_valid
  rw [file]
  split
  case h_1 hk =>
    rw [hk] at hv
    obtain ⟨id, hi⟩ := Option.isSome_iff_exists.mp hv
    have hs : subj.id.getD [] = id := by
      rw [(Option.filter_eq_some_iff.mp hi).left, Option.getD_some]
    exact .byId hi (hs ▸ holds_indexAdd)
  case h_2 i hk =>
    split
    case h_1 cls hc =>
      obtain ⟨hm, hn⟩ := Option.filter_eq_some_iff.mp hc
      exact .byClass (List.mem_of_getElem? hm) (by simpa using hn) holds_indexAdd
    case h_2 => exact filed_universal
  case h_3 hk =>
    rw [hk] at hv
    obtain ⟨type, ht⟩ := Option.isSome_iff_exists.mp hv
    have hs : subj.type.getD [] = type := by
      rw [(Option.filter_eq_some_iff.mp ht).left, Option.getD_some]
    exact .byTag ht (hs ▸ holds_indexAdd)
  case h_4 i hk =>
    split
    case h_1 name hc =>
      obtain ⟨a, ha, rfl⟩ := Option.map_eq_some_iff.mp (Option.filter_eq_some_iff.mp hc).left
      exact .byAttr (List.mem_of_getElem? ha) holds_indexAdd
    case h_2 => exact filed_universal
  case h_5 => exact filed_universal

-- What is filed stays filed.
theorem filed_foldl {α : Type*} {subjOf : α → Option (Simple π)} {candOf : α → Candidate} {xs : List α}
    {x : α} (hx : x ∈ xs) (hs : subjOf x = some subj) (hn : subj.neverMatch = false) :
    (xs.foldl (fun idx x => idx.add counts (subjOf x) (candOf x)) idx).Filed subj (candOf x) := by
  induction xs using List.reverseRecOn
  case nil => cases hx
  case append_singleton xs y hi =>
    rw [List.foldl_concat]
    cases List.mem_append.mp hx
    case inl hx => exact (hi hx).mono le_add
    case inr hx =>
      obtain rfl := List.mem_singleton.mp hx
      rw [hs, add, if_neg (by simp [hn])]
      exact filed_file

end RuleIndex

-- The names of an element that a compound matches.
namespace Simple

variable {π : Type*} {sel : Simple π} {el : Node}

structure Matched (sel : Simple π) (el : Node) : Prop where
  neverMatch : sel.neverMatch = false
  element    : el.kind = .element
  type       : sel.matchesType el
  id         : sel.matchesId el
  classes    : ∀ cls ∈ sel.classes, el.hasClass cls
  attrs      : ∀ a ∈ sel.attrs, a.matchesOn el

theorem matched_of_matchesNames (h : sel.matchesNames el) : sel.Matched el := by
  simp only [matchesNames, Bool.and_eq_true, Bool.not_eq_true', decide_eq_true_eq, List.all_eq_true] at h
  obtain ⟨⟨⟨⟨⟨⟨hn, he⟩, -⟩, ht⟩, hi⟩, hc⟩, ha⟩ := h
  exact ⟨hn, he, ht, hi, hc, ha⟩

theorem Matched.getAttr_id (h : sel.Matched el) {id : CString} (hi : sel.indexId = some id) :
    (el.getAttr "id".toList).filter (· ≠ []) = some id := by
  obtain ⟨hs, hn⟩ := Option.filter_eq_some_iff.mp hi
  have hm := h.id
  rw [matchesId, hs] at hm
  rw [eq_of_beq hm, Option.filter_some, if_pos hn]

theorem Matched.name (h : sel.Matched el) {type : CString} (ht : sel.indexType = some type) :
    ∃ name, el.name.filter (· ≠ []) = some name ∧ gAsciiStrdown name = gAsciiStrdown type := by
  obtain ⟨hs, hn⟩ := Option.filter_eq_some_iff.mp ht
  have hm := h.type
  simp only [ne_eq, decide_not, Bool.and_eq_true, Bool.not_eq_true', decide_eq_false_iff_not] at hn
  simp only [matchesType, hs, hn.right, decide_false, Bool.false_or] at hm
  split at hm
  case h_1 => cases hm
  case h_2 name he =>
    have hd : gAsciiStrdown name = gAsciiStrdown type := by
      split at hm
      · rw [eq_of_beq hm]
      · exact (strcaseEq_iff.mp hm).symm
    have hne : name ≠ [] := by
      rintro rfl
      exact hn.left (List.length_eq_zero_iff.mp (by simpa using (congrArg List.length hd).symm))
    exact ⟨name, by simp [he, hne], hd⟩

theorem Matched.class (h : sel.Matched el) {cls : CString} (hc : cls ∈ sel.classes) :
    cls ∈ classTokens ((el.getAttr "class".toList).getD []) := by
  have hm := h.classes cls hc
  simp only [Node.hasClass, Bool.and_eq_true, List.contains_iff_mem] at hm
  exact hm.right

theorem Matched.attr (h : sel.Matched el) {a : AttrPred} (ha : a ∈ sel.attrs) :
    ∃ attr ∈ el.attrs, gAsciiStrdown attr.name = gAsciiStrdown a.name := by
  have hm := h.attrs a ha
  rw [AttrPred.matchesOn, Bool.and_eq_true] at hm
  have hs : ∃ attr, el.findAttr a.name = some attr := by
    cases hf : el.findAttr a.name
    case none      => simp [Node.getAttr, hf] at hm
    case some attr => exact ⟨attr, rfl⟩
  obtain ⟨attr, hf⟩ := hs
  rw [Node.findAttr, if_neg (not_not.mpr h.element)] at hf
  refine ⟨attr, ?_, ?_⟩
  · split at hf <;> [skip; split at hf] <;> exact List.mem_of_find?_eq_some hf
  · split at hf <;> [skip; split at hf] <;> have hp := List.find?_some hf
    · rw [eq_of_beq hp]
    · split at hp
      · rw [eq_of_beq hp]
      · exact strcaseEq_iff.mp hp
    · exact strcaseEq_iff.mp hp

end Simple

namespace RuleIndex

variable {π : Type*} {idx : RuleIndex} {subj : Simple π} {cand : Candidate} {el : Node}

theorem mem_buckets {bucket : List Candidate} (he : el.kind = .element) :
    bucket ∈ idx.buckets el ↔
      (∃ id, (el.getAttr "id".toList).filter (· ≠ []) = some id ∧ idx.byId.lookup id = some bucket) ∨
      (∃ cls ∈ classTokens ((el.getAttr "class".toList).getD []), idx.byClass.lookup cls = some bucket) ∨
      (∃ name, el.name.filter (· ≠ []) = some name ∧
        idx.byTag.lookup (gAsciiStrdown name) = some bucket) ∨
      (∃ attr ∈ el.attrs, idx.byAttr.lookup (gAsciiStrdown attr.name) = some bucket) ∨
      bucket = idx.universal := by
  have htag : (bucket ∈ (el.name.filter (· ≠ [])).elim []
      fun name => (idx.byTag.lookup (gAsciiStrdown name)).toList) ↔
      ∃ name, el.name.filter (· ≠ []) = some name ∧
        idx.byTag.lookup (gAsciiStrdown name) = some bucket := by
    cases el.name.filter (· ≠ []) <;> simp
  have hattr : (bucket ∈ if idx.byAttr.keys = [] then []
      else el.attrs.filterMap fun a => idx.byAttr.lookup (gAsciiStrdown a.name)) ↔
      ∃ attr ∈ el.attrs, idx.byAttr.lookup (gAsciiStrdown attr.name) = some bucket := by
    split
    case isFalse   => simp
    case isTrue hk =>
      have hn : ∀ key, idx.byAttr.lookup key = none := fun key =>
        AList.lookup_eq_none.mpr (by simp [AList.mem_keys, hk])
      simp [hn]
  simp only [buckets, if_pos he, cssIndexLookupCi_eq, List.mem_append, htag, hattr, Option.mem_toList,
    Option.bind_eq_some_iff, List.mem_filterMap, List.mem_singleton, or_assoc]

theorem Filed.mem_buckets (h : idx.Filed subj cand) (hm : subj.Matched el) :
    ∃ bucket ∈ idx.buckets el, cand ∈ bucket := by
  simp only [RuleIndex.mem_buckets hm.element]
  cases h
  case byId id hi hc =>
    obtain ⟨bucket, hl, hb⟩ := hc
    exact ⟨bucket, .inl ⟨id, hm.getAttr_id hi, hl⟩, hb⟩
  case byClass cls hm' hn hc =>
    obtain ⟨bucket, hl, hb⟩ := hc
    exact ⟨bucket, .inr (.inl ⟨cls, hm.class hm', hl⟩), hb⟩
  case byTag type ht hc =>
    obtain ⟨bucket, hl, hb⟩ := hc
    obtain ⟨name, hname, he⟩ := hm.name ht
    exact ⟨bucket, .inr (.inr (.inl ⟨name, hname, he ▸ hl⟩)), hb⟩
  case byAttr a ha hc =>
    obtain ⟨bucket, hl, hb⟩ := hc
    obtain ⟨attr, hattr, he⟩ := hm.attr ha
    exact ⟨bucket, .inr (.inr (.inr (.inl ⟨attr, hattr, he ▸ hl⟩))), hb⟩
  case universal hc => exact ⟨idx.universal, .inr (.inr (.inr (.inr rfl))), hc⟩

end RuleIndex

namespace Page

variable {ι ρ σ ν π : Type*} {P : Page ι ρ σ ν π} {q : Request ι ν} {cand : Candidate} {dst : Dest}
  {el : ν} {pe : PseudoElement} {r : ρ} {sel : Option σ} {k : Key}

theorem matched_of_structural {scope : Option ν} {sel : Selector π}
    (h : P.matchSelectorStructural scope sel el) :
    ∃ subj, sel.compounds.getLast? = some subj ∧ subj.Matched (P.node el) := by
  rw [matchSelectorStructural] at h
  split at h
  case h_1 => cases h
  case h_2 subj hs =>
    refine ⟨subj, hs, Simple.matched_of_matchesNames ?_⟩
    rw [matchSimple] at h
    by_contra hn
    rw [if_neg hn] at h
    cases h

theorem matched_of_matchSelectorOrPe {scope : Option ν} (h : P.matchSelectorOrPe scope sel el pe) :
    ∃ subj, P.subject sel = some subj ∧ subj.Matched (P.node el) := by
  cases sel
  case none   => cases h
  case some s =>
    rw [matchSelectorOrPe] at h
    split at h
    · rw [matchSelector, Bool.and_eq_true] at h
      exact matched_of_structural h.right
    · rw [matchSelectorForPe, Bool.and_eq_true] at h
      exact matched_of_structural h.right

variable [DecidableEq ν]

theorem matched_of_ruleSelectorMatches {order : Int} (h : P.ruleSelectorMatches r sel el pe = some order) :
    ∃ subj, P.subject sel = some subj ∧ subj.Matched (P.node el) := by
  rw [ruleSelectorMatches] at h
  split at h
  case h_1 =>
    split at h
    case isTrue hm => exact matched_of_matchSelectorOrPe hm
    case isFalse   => cases h
  case h_2 inner _ =>
    dsimp only at h
    split at h
    case isTrue     => cases h
    case isFalse hb =>
      by_contra hn
      have hf : ∀ scope, P.matchSelectorOrPe scope sel el pe = false := fun _ =>
        Bool.eq_false_iff.mpr fun hm => hn (matched_of_matchSelectorOrPe hm)
      refine hb ?_
      -- No node counts as the root of the scope.
      rw [List.filterMap_eq_nil_iff.mpr fun root _ => if_neg (by simp [hf])]
      rfl

theorem keyOf?_eq_some (h : P.keyOf? el pe r sel = some k) :
    ∃ s order, sel = some s ∧ (P.selector s).pseudoElement = pe ∧
      P.ruleSelectorMatches r sel el pe = some order ∧ (P.selector s).key order = k := by
  rw [keyOf?] at h
  split at h
  case isTrue  => cases h
  case isFalse =>
    obtain ⟨s, rfl, h⟩ := Option.bind_eq_some_iff.mp h
    split at h
    case isFalse   => cases h
    case isTrue hp =>
      obtain ⟨order, ho, hk⟩ := Option.map_eq_some_iff.mp h
      exact ⟨s, order, rfl, hp, ho, hk⟩

-- No match is missed, whatever its selector is filed under.
theorem exists_bucket (hr : (P.sheet q.sheet).rules[cand.ruleIdx]? = some r)
    (hs : (P.rule r).selectors[cand.selectorIdx]? = some sel) (hk : P.keyOf? q.el pe r sel = some k) :
    ∃ bucket ∈ (P.ruleIndexBuild q.sheet).buckets (P.node q.el), cand ∈ bucket := by
  have hm : (cand, sel) ∈ P.sheetSelectors q.sheet := by
    simp only [sheetSelectors, List.mem_flatMap, List.mem_map, Prod.exists, List.mem_zipIdx_iff_getElem?]
    exact ⟨r, _, hr, sel, _, hs, rfl⟩
  obtain ⟨-, order, -, -, ho, -⟩ := keyOf?_eq_some hk
  obtain ⟨subj, hs, hsm⟩ := matched_of_ruleSelectorMatches ho
  exact (RuleIndex.filed_foldl hm hs hsm.neverMatch).mem_buckets hsm

end Page

end Nordstjernen.Css.Gather
