import Nordstjernen.Css.Selector.Specificity
import Nordstjernen.Css.Selector.Theorems.Lists

open Nordstjernen.Glib Nordstjernen.Css.Syntax

namespace Nordstjernen.Css.Selector

namespace Specificity

@[simp] theorem add_zero (s : Specificity) : s.add {} = s := by simp [add]
@[simp] theorem zero_add (s : Specificity) : ({} : Specificity).add s = s := by simp [add]

theorem add_assoc (s t u : Specificity) : (s.add t).add u = s.add (t.add u) := by
  simp [add, Int.add_assoc]

theorem foldl_add (s : Specificity) (ss : List Specificity) : ss.foldl add s = s.add (sum ss) := by
  induction ss generalizing s
  case nil          => simp [sum]
  case cons t ss hi =>
    have hs : sum (t :: ss) = ss.foldl add (({} : Specificity).add t) := rfl
    rw [List.foldl_cons, hi, hs, hi, zero_add, add_assoc]

theorem sum_cons (s : Specificity) (ss : List Specificity) : sum (s :: ss) = s.add (sum ss) := by
  rw [sum, List.foldl_cons, foldl_add, zero_add]

theorem ofGroup_eq (group : List Sel) : ofGroup group = maximum (group.map (·.specificity)) := by
  rw [maximum, List.foldl_map]
  rfl

end Specificity

variable {group : Context → CString → List Sel × Raised} {meaning : Context → CString → Meaning} {ctx : Context}

-- Whether lists in parentheses are counted as they have to be if they are regular.
def Counts (group : Context → CString → List Sel × Raised) (meaning : Context → CString → Meaning) : Prop :=
  ∀ ctx arg, (meaning ctx arg).regular → Specificity.ofGroup (group ctx arg).fst = (meaning ctx arg).maximum

section Compound

namespace Compound

variable {c : Compound} {t : SimpleToken} {name arg : CString}

@[simp] theorem raise_spec {r : Raised} : (c.raise r).spec = c.spec := rfl
@[simp] theorem error_spec : c.error.spec = c.spec := rfl
@[simp] theorem neverMatch_spec : c.neverMatch.spec = c.spec := rfl
@[simp] theorem addSpec_spec {s : Specificity} : (c.addSpec s).spec = c.spec.add s := rfl
@[simp] theorem setType_spec {t : CString} : (c.setType t).spec = c.spec := rfl
@[simp] theorem setTests_spec {t : Tests Sel} : (c.setTests t).spec = c.spec := rfl

theorem ofGroup_of_isEmpty {gs : List Sel} (h : gs.isEmpty) : Specificity.ofGroup gs = {} := by
  rw [List.isEmpty_iff.mp h]
  rfl

theorem spec_has : (c.has group ctx arg).spec = c.spec.add (.ofGroup (group ctx.inHasList arg).fst) := by
  rw [has]
  dsimp only
  split
  case isTrue h  =>
    simp only [neverMatch_spec, raise_spec, Context.inHasList, ofGroup_of_isEmpty h, Specificity.add_zero]
  case isFalse h => rfl

theorem spec_isOrWhere {isWhere : Bool} : (c.isOrWhere group ctx isWhere arg).spec =
    if isWhere then c.spec else c.spec.add (.ofGroup (group ctx.inList arg).fst) := by
  rw [isOrWhere]
  dsimp only
  split
  case isTrue h  =>
    simp only [neverMatch_spec, raise_spec, Context.inList, ofGroup_of_isEmpty h, Specificity.add_zero, ite_self]
  case isFalse h => split <;> rfl

theorem spec_not : (c.not group ctx arg).spec = c.spec.add (.ofGroup (group ctx.inList arg).fst) := by
  rw [not]
  dsimp only
  split
  case isTrue h  => simp only [raise_spec, Context.inList, ofGroup_of_isEmpty h, Specificity.add_zero]
  case isFalse h => rfl

theorem spec_pseudoElementNamed (h : (lookup pseudoElements name).isSome) :
    (c.pseudoElementNamed name).spec = c.spec.add { c := 1 } := by
  obtain ⟨pe, h⟩ := Option.isSome_iff_exists.mp h
  rw [pseudoElementNamed, h]
  rfl

end Compound

section Keywords

variable {g : CString → List Sel × Raised} {name : CString} {arg : Option CString} {pc : PseudoPred Sel}

-- The list behind the `of`, if there is one.
def nthList (name : CString) (arg : Option CString) : Option CString :=
  (nthArg name arg).bind fun nth => nthOf nth.fst nth.snd

theorem nthArg_of_keyword (h : (lookup pseudoKeywords name).isSome) : nthArg name arg = none := by
  rw [nthArg, h, Bool.true_or, if_pos rfl]

theorem nthArg_of_heading (h : strcaseEq name "heading".toList) : nthArg name arg = none := by
  rw [nthArg, h, Bool.or_true, if_pos rfl]

theorem nthArg_of_not (hk : lookup pseudoKeywords name = none) (hh : ¬strcaseEq name "heading".toList) :
    nthArg name arg = arg.bind fun arg => (lookup nthKeywords name).map fun kind => (kind, arg) := by
  rw [nthArg, hk, Bool.of_not_eq_true hh]
  rfl

theorem ofGroup_parseHeading (h : parseHeading arg = some pc) : pc.ofGroup = none := by
  unfold parseHeading at h
  split at h
  · cases h; rfl
  · dsimp only at h
    split at h <;> cases h; rfl

theorem ofGroup_parseLang {arg : CString} (h : parseLang arg = some pc) : pc.ofGroup = none := by
  rw [parseLang] at h
  split at h <;> cases h; rfl

theorem ofGroup_parseDir {arg : CString} (h : parseDir arg = some pc) : pc.ofGroup = none := by
  rw [parseDir] at h
  split at h <;> cases h; rfl

theorem ofGroup_parseNth {kind : Pseudo} {arg : CString} (h : (parseNth g kind arg).fst = some pc) :
    pc.ofGroup.getD [] = (nthOf kind arg).elim [] fun of => (g of).fst := by
  rw [parseNth] at h
  rw [nthOf]
  by_cases hk : kind = .nthChild || kind = .nthLastChild
  case neg =>
    rw [if_neg hk] at h ⊢
    dsimp only at h
    split at h <;> cases h
    rfl
  case pos =>
    rw [if_pos hk] at h ⊢
    dsimp only at h
    cases hf : cssFindNthOf arg
    case none =>
      rw [hf] at h
      dsimp only at h
      split at h <;> cases h
      rfl
    case some of =>
      rw [hf] at h
      dsimp only at h
      split at h
      · cases h
      · split at h <;> cases h
        rfl

theorem ofGroup_parsePseudoKeyword (h : (parsePseudoKeyword g name arg).fst = some pc) :
    pc.ofGroup.getD [] = (nthList name arg).elim [] fun of => (g of).fst := by
  unfold parsePseudoKeyword at h
  cases hk : lookup pseudoKeywords name
  case some kind =>
    rw [hk] at h
    cases h
    rw [nthList, nthArg_of_keyword (by rw [hk]; rfl)]
    rfl
  case none =>
    rw [hk] at h
    dsimp only at h
    by_cases hh : strcaseEq name "heading".toList
    case pos =>
      rw [if_pos hh] at h
      rw [nthList, nthArg_of_heading hh, ofGroup_parseHeading h]
      rfl
    case neg =>
      rw [if_neg hh] at h
      rw [nthList, nthArg_of_not hk hh]
      cases arg
      case none     => cases h
      case some arg =>
        dsimp only at h
        cases hn : lookup nthKeywords name
        case some kind =>
          rw [hn] at h
          exact ofGroup_parseNth h
        case none =>
          rw [hn] at h
          dsimp only at h
          split at h
          · rw [ofGroup_parseLang h]
            rfl
          · split at h
            · rw [ofGroup_parseDir h]
              rfl
            · cases h

end Keywords

namespace Compound

variable {c : Compound} {t : SimpleToken} {name : CString} {arg : Option CString}

theorem spec_pseudoClass (h : (c.pseudoClass group ctx name arg).raised.error = false)
    (hr : (lookup pseudoKeywords name).isSome || !isStandardPseudoClass name) :
    (c.pseudoClass group ctx name arg).spec = c.spec.add (({ b := 1 } : Specificity).add
      ((nthList name arg).elim {} fun of => .ofGroup (group ctx.inNthList of).fst)) := by
  rw [pseudoClass] at h ⊢
  dsimp only at h ⊢
  cases hp : (parsePseudoKeyword (group { ctx with depth := 1, relative := false }) name arg).fst
  case none =>
    rw [hp] at h
    dsimp only at h
    split at h
    case isFalse => simp at h
    case isTrue hs =>
      have hk : (lookup pseudoKeywords name).isSome := by simpa [hs] using hr
      obtain ⟨kind, hk⟩ := Option.isSome_iff_exists.mp hk
      unfold parsePseudoKeyword at hp
      rw [hk] at hp
      cases hp
  case some pc =>
    have ho := ofGroup_parsePseudoKeyword hp
    simp only [addSpec_spec, raise_spec, setTests_spec, Specificity.add_assoc, ho]
    cases nthList name arg <;> rfl

theorem pseudo_of_nil {isElement : Bool} (hn : name = []) :
    c.pseudo group ctx isElement name arg = c.neverMatch.error := by
  unfold pseudo
  rw [if_pos hn]

theorem pseudo_eq_role {isElement : Bool} (hn : name ≠ []) : c.pseudo group ctx isElement name arg =
    match role isElement name arg with
    | .element => c.pseudoElementNamed name
    | .has arg => if ctx.inHas then c.neverMatch.error else c.has group ctx arg
    | .is arg => c.isOrWhere group ctx false arg
    | .where arg => c.isOrWhere group ctx true arg
    | .not arg => c.not group ctx arg
    | .simple => c.pseudoClass group ctx name arg := by
  unfold pseudo role
  rw [if_neg hn]
  split
  · rfl
  · cases arg
    case none     => rfl
    case some arg =>
      dsimp only
      split
      · rfl
      · split
        · rfl
        · split
          · rfl
          · split <;> rfl

theorem spec_pseudo {isElement : Bool} (hc : Counts group meaning)
    (h : (c.pseudo group ctx isElement name arg).raised.error = false)
    (hr : tokenRegular meaning ctx (.pseudo isElement name arg)) : (c.pseudo group ctx isElement name arg).spec =
      c.spec.add (tokenSpecificity meaning ctx (.pseudo isElement name arg)) := by
  by_cases hn : name = []
  case pos =>
    rw [pseudo_of_nil hn] at h
    simp at h
  case neg =>
    rw [pseudo_eq_role hn] at h ⊢
    rw [tokenRegular] at hr
    rw [tokenSpecificity]
    cases hrole : role isElement name arg <;> rw [hrole] at h hr <;> dsimp only at h hr ⊢
    case element => exact spec_pseudoElementNamed hr
    case has arg =>
      split at h
      case isTrue      => simp at h
      case isFalse hin => rw [if_neg hin, spec_has, hc _ _ hr]
    case «is» arg    => rw [spec_isOrWhere, if_neg Bool.false_ne_true, hc _ _ hr]
    case «where» arg => rw [spec_isOrWhere, if_pos rfl, Specificity.add_zero]
    case not arg     => rw [spec_not, hc _ _ hr]
    case simple =>
      obtain ⟨hk, hl⟩ := Bool.and_eq_true_iff.mp hr
      rw [spec_pseudoClass h hk]
      change (nthList name arg).all _ = true at hl
      change _ = c.spec.add (Specificity.add _ ((nthList name arg).elim _ _))
      cases hof : nthList name arg
      case none    => rfl
      case some of =>
        rw [hof] at hl
        simp only [Option.elim_some, hc _ _ hl]

-- What a simple selector adds, unless it raises an error.
theorem spec_apply (hc : Counts group meaning) (h : (c.apply group ctx t).raised.error = false)
    (hr : tokenRegular meaning ctx t)
    (ht : ∀ nsNone type, t = .inNamespace nsNone (some type) → c.simple.type = none) :
    (c.apply group ctx t).spec = c.spec.add (tokenSpecificity meaning ctx t) := by
  cases t
  case universal =>
    rw [apply]
    dsimp only
    split <;> simp [tokenSpecificity]
  case inNamespace nsNone type =>
    cases type
    case none      => simp [apply, inNamespace, tokenSpecificity]
    case some type =>
      have hty := ht nsNone type rfl
      cases type
      case nil       => simp [apply, inNamespace] at h
      case cons d ds => simp [apply, inNamespace, hty, tokenSpecificity]
  case id name =>
    rw [apply] at h ⊢
    dsimp only at h ⊢
    split at h
    case isTrue      => simp at h
    case isFalse hne => rw [if_neg hne]; rfl
  case «class» badStart name =>
    rw [apply] at h ⊢
    dsimp only at h ⊢
    split at h
    case isTrue      => simp at h
    case isFalse hne => rw [if_neg hne]; rfl
  case type name =>
    rw [apply] at h ⊢
    dsimp only at h ⊢
    split at h
    case isTrue      => simp at h
    case isFalse hne => rw [if_neg hne]; rfl
  case prefixed => cases hr
  case pseudo isElement name arg => exact spec_pseudo hc h hr
  case attr nsPrefix error pred =>
    rw [apply]
    dsimp only
    split <;> rfl
  case nameless nsPrefix =>
    rw [apply]
    split <;> simp [tokenSpecificity]

theorem type_pseudo {isElement : Bool} : (c.pseudo group ctx isElement name arg).simple.type = c.simple.type := by
  by_cases hn : name = []
  case pos => rw [pseudo_of_nil hn]; rfl
  case neg =>
    rw [pseudo_eq_role hn]
    split
    · rw [pseudoElementNamed]
      split
      · rfl
      · split <;> rfl
    · split
      · rfl
      · rw [has]
        dsimp only
        split <;> rfl
    · rw [isOrWhere]
      dsimp only
      split <;> rfl
    · rw [isOrWhere]
      dsimp only
      split <;> rfl
    · rw [not]
      dsimp only
      split <;> rfl
    · rw [pseudoClass]
      dsimp only
      split
      · rfl
      · split <;> rfl

theorem type_apply_eq (h : t.isType = false) : (c.apply group ctx t).simple.type = c.simple.type := by
  cases t
  case pseudo isElement name arg => exact type_pseudo
  case id name =>
    rw [apply]
    dsimp only
    split <;> rfl
  case «class» badStart name =>
    rw [apply]
    dsimp only
    split <;> rfl
  case attr nsPrefix error pred =>
    rw [apply]
    dsimp only
    split <;> rfl
  case nameless nsPrefix =>
    rw [apply]
    split <;> rfl
  case prefixed => rfl
  all_goals cases h

theorem type_apply (h : (c.apply group ctx t).simple.type.isSome) : c.simple.type.isSome || t.isType := by
  cases ht : t.isType
  case true  => exact Bool.or_true _
  case false => rwa [type_apply_eq ht, ← Bool.or_false c.simple.type.isSome] at h

end Compound

variable {c : Compound} {ts : List SimpleToken}

theorem spec_foldl_apply {typed : Bool} (hc : Counts group meaning)
    (h : (ts.foldl (Compound.apply group ctx) c).raised.error = false) (hr : ts.all (tokenRegular meaning ctx))
    (hf : namespaceFirst typed ts) (ht : c.simple.type.isSome → typed) :
    (ts.foldl (Compound.apply group ctx) c).spec =
      c.spec.add (.sum (ts.map (tokenSpecificity meaning ctx))) := by
  induction ts generalizing c typed
  case nil          => exact (Specificity.add_zero _).symm
  case cons t ts hi =>
    rw [List.foldl_cons] at h ⊢
    obtain ⟨hrt, hrs⟩ := Bool.and_eq_true_iff.mp hr
    have het : (c.apply group ctx t).raised.error = false := by
      by_contra he
      rw [foldl_apply_error (Bool.of_not_eq_false he)] at h
      cases h
    have hfirst : (∀ nsNone type, t = .inNamespace nsNone (some type) → typed = false) ∧
        namespaceFirst (typed || t.isType) ts := by
      unfold namespaceFirst at hf
      split at hf
      case h_1 => contradiction
      case h_2 heq =>
        cases heq
        obtain ⟨hty, hf⟩ := Bool.and_eq_true_iff.mp hf
        exact ⟨fun _ _ _ => by simpa using hty, by simpa [SimpleToken.isType] using hf⟩
      case h_3 hne heq =>
        cases heq
        exact ⟨fun _ _ he => (hne _ _ he).elim, hf⟩
    rw [hi h hrs hfirst.right, Compound.spec_apply hc het hrt, List.map_cons, Specificity.sum_cons,
      Specificity.add_assoc]
    · intro nsNone type he
      by_contra hs
      have := ht (Option.isSome_iff_ne_none.mpr hs)
      rw [hfirst.left nsNone type he] at this
      cases this
    · intro hs
      have := Compound.type_apply hs
      cases hct : c.simple.type.isSome
      case true  => rw [ht hct, Bool.true_or]
      case false => rw [hct, Bool.false_or] at this; rw [this, Bool.or_true]

theorem spec_compound (hc : Counts group meaning) (h : (compound group ctx ts).raised.error = false)
    (hr : compoundRegular meaning ctx ts) :
    (compound group ctx ts).spec = .sum (ts.map (tokenSpecificity meaning ctx)) := by
  obtain ⟨hr, hf⟩ := Bool.and_eq_true_iff.mp hr
  rw [compound, spec_foldl_apply hc h hr hf (by simp), Specificity.zero_add]

end Compound

section Selector

variable {b : Building} {n : Nat} {p rest : CString} {ts : List Tok}

def Building.specificity (b : Building) : Specificity :=
  ⟨b.sel.specA, b.sel.specB, b.sel.specC⟩

theorem Building.specificity_push {d : Compound} : (b.push d).specificity = b.specificity.add d.spec :=
  rfl

theorem Building.specificity_space {hadWs : Bool} : (b.space hadWs).specificity = b.specificity := by
  rw [Building.space]
  split <;> rfl

theorem Building.specificity_combinator {comb : Gather.Comb} :
    (b.combinator ctx comb).specificity = b.specificity := by
  rw [Building.combinator]
  dsimp only
  split
  · rfl
  · split <;> rfl

theorem compoundsOf_dropGap {g : Bool} : compoundsOf (.gap g :: ts) = compoundsOf ts :=
  rfl

-- Past white space and comments, the compounds of a text are those of its first token and what is behind it.
theorem compoundsOf_of_skip {c : Char} {cs : CString} (h : cssSkipWsComments p = c :: cs) :
    compoundsOf (tokens p) = compoundsOf ((tokAt c cs).fst :: tokens (tokAt c cs).snd) := by
  have ⟨hg, hn⟩ := tokens_of_skip h
  by_cases hl : (c :: cs).length < p.length
  case pos =>
    obtain ⟨g, ht⟩ := hg hl
    rw [ht, compoundsOf_dropGap]
  case neg => rw [hn hl]

-- A text of white space and comments has no token, or one.
theorem tokens_of_nil (h : cssSkipWsComments p = []) : tokens p = [] ∨ ∃ g, tokens p = [.gap g] := by
  cases noGap_or p
  case inl hn =>
    obtain rfl : p = [] := hn.symm.trans h
    exact .inl rfl
  case inr hl => exact .inr ⟨_, by rw [tokens_gap hl, h]; rfl⟩

theorem compoundsOf_of_nil (h : cssSkipWsComments p = []) : compoundsOf (tokens p) = [] := by
  obtain ht | ⟨g, ht⟩ := tokens_of_nil h <;> rw [ht] <;> rfl

theorem error_of_flags (h : b.flags.error = false) : b.raised.error = false := by
  by_contra he
  have hf : b.raised.fails false := Raised.fails_of_error (Bool.of_not_eq_false he)
  have := flags_fails hf
  simp [Raised.fails, h] at this

theorem error_of_selectorLoop (h : (selectorLoop group ctx n b p).fst.raised.error = false) :
    b.raised.error = false := by
  by_contra he
  have hf : b.raised.fails false := Raised.fails_of_error (Bool.of_not_eq_false he)
  have := @selectorLoop_fails group ctx b n p false hf
  simp [Raised.fails, h] at this

-- The loop over the compounds of a selector sums up what they count, unless there is an error.
theorem specificity_selectorLoop (hc : Counts group meaning) (hn : p.length ≤ n)
    (h : (selectorLoop group ctx n b p).fst.flags.error = false)
    (hr : itemRegular meaning ctx (tokens p)) :
    (selectorLoop group ctx n b p).fst.specificity =
      b.specificity.add (itemSpecificity meaning ctx (tokens p)) := by
  induction n generalizing b p
  case zero =>
    obtain rfl := List.eq_nil_of_length_eq_zero (Nat.le_zero.mp hn)
    exact (Specificity.add_zero _).symm
  case succ n hi =>
    cases hs : cssSkipWsComments p
    case nil =>
      rw [selectorLoop_nil hs hn, itemSpecificity, compoundsOf_of_nil hs]
      exact (Specificity.add_zero _).symm
    case cons c cs =>
      have hle : (c :: cs).length ≤ n + 1 := hs ▸ cssSkipWsComments_suffix.length_le.trans hn
      rw [itemRegular, compoundsOf_of_skip hs] at hr
      rw [itemSpecificity, compoundsOf_of_skip hs]
      cases ht : tokAt c cs
      case mk t rest =>
      rw [ht] at hr
      cases t
      case comma        => rw [selectorLoop_stop hs (.inl (by rw [ht]))]; exact (Specificity.add_zero _).symm
      case brace        => rw [selectorLoop_stop hs (.inr (by rw [ht]))]; exact (Specificity.add_zero _).symm
      case gap g        => exact absurd (congrArg Prod.fst ht) tokAt_ne_gap
      case other d      =>
        rw [selectorLoop_other hs (d := d) (by rw [ht]), Building.specificity_space]
        exact (Specificity.add_zero _).symm
      case comb comb    =>
        rw [selectorLoop_comb hs ht] at h ⊢
        obtain ⟨-, -, rfl⟩ := tokAt_eq_comb ht
        rw [hi (Nat.le_of_succ_le_succ hle) h hr, Building.specificity_combinator]
        rfl
      case compound cs' =>
        rw [selectorLoop_compound hs ht] at h ⊢
        dsimp only at h ⊢
        have hrest : rest.length ≤ n := by
          have := @tokAt_length_le c cs
          rw [ht] at this
          exact this.trans (Nat.le_of_succ_le_succ hle)
        cases hall : cs'.all SimpleToken.isNameless
        case true =>
          have hany : (compound group ctx cs').any = false := by rw [compound_any, hall]; rfl
          have hcs : compoundsOf (.compound cs' :: tokens rest) = [] := by simp [compoundsOf, hall]
          rw [if_neg (by simp [hany]), hcs]
          exact (Building.specificity_space (b := b)).trans (Specificity.add_zero _).symm
        case false =>
          have hany : (compound group ctx cs').any = true := by rw [compound_any, hall]; rfl
          have hcs : compoundsOf (.compound cs' :: tokens rest) = cs' :: compoundsOf (tokens rest) := by
            simp [compoundsOf, hall]
          rw [if_pos hany] at h ⊢
          rw [hcs] at hr ⊢
          obtain ⟨hr, hrs⟩ := Bool.and_eq_true_iff.mp hr
          have he := (Bool.or_eq_false_iff.mp (error_of_selectorLoop (error_of_flags h))).right
          rw [hi hrest h hrs, Building.specificity_push, Building.specificity_space, spec_compound hc he hr,
            List.map_cons, Specificity.sum_cons, Specificity.add_assoc]
          rfl

end Selector

-- Whether lists in parentheses are no error if they are valid, and then not empty up to the depth that is allowed.
def Accepts (group : Context → CString → List Sel × Raised) (meaning : Context → CString → Meaning) : Prop :=
  ∀ ctx arg, (meaning ctx arg).valid →
    (group ctx arg).snd.error = false ∧ (ctx.depth ≤ maxSelectorNesting → (group ctx arg).fst ≠ [])

section Valid

variable {c : Compound} {t : SimpleToken} {ts : List SimpleToken} {name : CString} {arg : Option CString}

theorem error_parseNth (ha : Accepts group meaning) {kind : Pseudo} {arg : CString}
    (hf : (parseAnb (nthFormula kind arg)).isSome)
    (hv : (nthOf kind arg).all fun of => (meaning ctx.inNthList of).valid) :
    (parseNth (group ctx.inNthList) kind arg).snd.error = false ∧
      (parseNth (group ctx.inNthList) kind arg).fst.isSome := by
  obtain ⟨ab, hf⟩ := Option.isSome_iff_exists.mp hf
  rw [parseNth]
  rw [nthFormula] at hf
  rw [nthOf] at hv
  by_cases hk : kind = .nthChild || kind = .nthLastChild
  case neg =>
    rw [if_neg hk] at hf
    simp only [if_neg hk, Option.elim_none, hf]
    exact ⟨trivial, rfl⟩
  case pos =>
    rw [if_pos hk] at hf hv
    simp only [if_pos hk, hf]
    cases hof : cssFindNthOf arg
    case none    => exact ⟨rfl, rfl⟩
    case some of =>
      rw [hof] at hv
      obtain ⟨he, hne⟩ := ha ctx.inNthList _ hv
      have hne := hne (by decide : 1 ≤ maxSelectorNesting)
      dsimp only
      rw [if_neg (by simpa using hne)]
      exact ⟨he, rfl⟩

theorem error_parsePseudoKeyword (ha : Accepts group meaning) (hv : classValid meaning ctx name arg) :
    (parsePseudoKeyword (group ctx.inNthList) name arg).snd.error = false ∧
      ((parsePseudoKeyword (group ctx.inNthList) name arg).fst = none → isStandardPseudoClass name) := by
  unfold classValid at hv
  unfold parsePseudoKeyword
  cases hk : lookup pseudoKeywords name
  case some kind => exact ⟨rfl, by simp⟩
  case none =>
    rw [hk, Option.isSome_none, if_neg Bool.false_ne_true] at hv
    dsimp only
    by_cases hh : strcaseEq name "heading".toList
    case pos =>
      rw [if_pos hh] at hv ⊢
      refine ⟨rfl, fun h => ?_⟩
      rw [show parseHeading arg = none from h] at hv
      cases hv
    case neg =>
      rw [if_neg hh] at hv ⊢
      cases arg
      case none     => exact ⟨rfl, fun _ => hv⟩
      case some arg =>
        dsimp only at hv ⊢
        cases hn : lookup nthKeywords name
        case some kind =>
          rw [hn] at hv
          obtain ⟨hf, hl⟩ := Bool.and_eq_true_iff.mp hv
          obtain ⟨he, hs⟩ := error_parseNth ha hf hl
          refine ⟨he, fun h => ?_⟩
          rw [h] at hs
          cases hs
        case none =>
          rw [hn] at hv
          dsimp only at hv ⊢
          split at hv
          case isTrue hl =>
            rw [if_pos hl]
            refine ⟨rfl, fun h => ?_⟩
            rw [show parseLang arg = none from h] at hv
            cases hv
          case isFalse hl =>
            rw [if_neg hl]
            split at hv
            case isTrue hd =>
              rw [if_pos hd]
              refine ⟨rfl, fun h => ?_⟩
              rw [show parseDir arg = none from h] at hv
              cases hv
            case isFalse hd =>
              rw [if_neg hd]
              exact ⟨rfl, fun _ => hv⟩

namespace Compound

theorem error_isOrWhere (hc : c.raised.error = false) {isWhere : Bool} {arg : CString}
    (h : ctx.strict → (group ctx.inList arg).snd.error = false) :
    (c.isOrWhere group ctx isWhere arg).raised.error = false := by
  have hr : (c.raised.or { (group ctx.inList arg).snd with
      error := ctx.strict && (group ctx.inList arg).snd.error, nsPrefix := false }).error = false := by
    cases hs : ctx.strict
    case true  => simp [hc, h hs]
    case false => simp [hc]
  rw [isOrWhere]
  dsimp only
  split
  · exact hr
  · split <;> exact hr

theorem error_pseudoClass (hc : c.raised.error = false)
    (h : (parsePseudoKeyword (group ctx.inNthList) name arg).snd.error = false)
    (hs : (parsePseudoKeyword (group ctx.inNthList) name arg).fst = none → isStandardPseudoClass name) :
    (c.pseudoClass group ctx name arg).raised.error = false := by
  have hr : (c.raised.or (parsePseudoKeyword (group ctx.inNthList) name arg).snd).error = false := by
    rw [Raised.or_error, hc, h]
    rfl
  rw [pseudoClass]
  dsimp only
  split
  case h_1 pc hp => simpa [Context.inNthList] using hr
  case h_2 hp    => rw [if_pos (hs hp)]; exact hr

theorem error_pseudo (ha : Accepts group meaning) (hc : c.raised.error = false) {isElement : Bool}
    (hv : tokenValid meaning ctx (.pseudo isElement name arg)) :
    (c.pseudo group ctx isElement name arg).raised.error = false := by
  obtain ⟨hn, hv⟩ := Bool.and_eq_true_iff.mp hv
  rw [pseudo_eq_role (by simpa using hn)]
  cases hrole : role isElement name arg <;> rw [hrole] at hv <;> dsimp only at hv ⊢
  case element => cases hv
  case has arg =>
    obtain ⟨hin, hv⟩ := Bool.and_eq_true_iff.mp hv
    have hr : (c.raised.or (group ctx.inHasList arg).snd).error = false := by
      rw [Raised.or_error, hc, (ha _ _ hv).left]
      rfl
    rw [if_neg (by simpa using hin), has]
    dsimp only
    split <;> exact hr
  case «is» arg    =>
    refine error_isOrWhere hc fun hs => (ha _ _ ?_).left
    simpa [hs] using hv
  case «where» arg =>
    refine error_isOrWhere hc fun hs => (ha _ _ ?_).left
    simpa [hs] using hv
  case not arg =>
    have hr : (c.raised.or (group ctx.inList arg).snd).error = false := by
      rw [Raised.or_error, hc, (ha _ _ hv).left]
      rfl
    rw [not]
    dsimp only
    split <;> exact hr
  case simple =>
    obtain ⟨he, hs⟩ := error_parsePseudoKeyword ha hv
    exact error_pseudoClass hc he hs

-- A valid simple selector raises no error, if it is no second type.
theorem error_apply (ha : Accepts group meaning) (hc : c.raised.error = false) (hv : tokenValid meaning ctx t)
    (ht : t.isType → c.simple.type = none) : (c.apply group ctx t).raised.error = false := by
  cases t
  case universal =>
    rw [apply]
    simp [ht rfl, hc]
  case inNamespace nsNone type =>
    cases type
    case none      => exact hc
    case some type =>
      cases type
      case nil       => simp [tokenValid] at hv
      case cons d ds => simpa [apply, inNamespace, ht rfl] using hc
  case id name =>
    rw [apply]
    have hn : name ≠ [] := by simpa [tokenValid] using hv
    simpa [hn] using hc
  case «class» badStart name =>
    rw [apply]
    have hn : badStart = false ∧ name ≠ [] := by simpa [tokenValid] using hv
    simpa [hn] using hc
  case type name =>
    rw [apply]
    simp [ht rfl, hc]
  case pseudo isElement name arg => exact error_pseudo (c := { c with any := true }) ha hc hv
  case attr nsPrefix error pred =>
    have hn : nsPrefix = false ∧ error = false := by simpa [tokenValid] using hv
    rw [apply]
    simp [hn, hc]
  all_goals cases hv

end Compound

theorem error_foldl_apply (ha : Accepts group meaning) (hc : c.raised.error = false)
    (hv : ts.all (tokenValid meaning ctx)) (ht : ts.all (!·.isType)) :
    (ts.foldl (Compound.apply group ctx) c).raised.error = false := by
  induction ts generalizing c
  case nil          => exact hc
  case cons t ts hi =>
    obtain ⟨hv, hvs⟩ := Bool.and_eq_true_iff.mp hv
    obtain ⟨ht, hts⟩ := Bool.and_eq_true_iff.mp ht
    refine hi (Compound.error_apply ha hc hv fun h => ?_) hvs hts
    simp [h] at ht

-- A valid compound selector is one, and raises no error.
theorem error_compound (ha : Accepts group meaning) (hv : compoundValid meaning ctx ts) :
    (compound group ctx ts).raised.error = false ∧ (compound group ctx ts).any := by
  rw [compoundValid, Bool.and_eq_true_iff, Bool.and_eq_true_iff] at hv
  obtain ⟨⟨hne, hv⟩, ht⟩ := hv
  cases ts
  case nil       => simp at hne
  case cons t ts =>
    obtain ⟨hvt, hvs⟩ := Bool.and_eq_true_iff.mp hv
    constructor
    · have he : (({} : Compound).apply group ctx t).raised.error = false :=
        Compound.error_apply ha rfl hvt fun _ => rfl
      show (ts.foldl (Compound.apply group ctx) (({} : Compound).apply group ctx t)).raised.error = false
      exact error_foldl_apply ha he hvs ht
    · have hn : t.isNameless = false := by
        cases t
        case nameless => cases hvt
        all_goals rfl
      rw [compound_any, List.all_cons, hn]
      rfl

end Valid

section Item

variable {b : Building} {n : Nat} {p : CString} {φ : Phase} {item tail : List Tok}

-- Where the loop over a selector is in an item that is valid.
def Building.Before (b : Building) : Phase → Prop
  | .item     => b = {}
  | .compound => AtCompound b
  | .comb     => b.pending ≠ .none ∧ b.expectCompound = true
  | _         => False

theorem before_combinator {comb : Gather.Comb} (hc : comb ≠ .none) (hb : b.Before φ) {ts : List Tok}
    {ok : List SimpleToken → Bool} (hf : fits ok ctx.relative φ (.comb comb :: ts)) :
    (b.combinator ctx comb).Before .comb ∧ (b.combinator ctx comb).raised = b.raised ∧
      fits ok ctx.relative .comb ts := by
  cases φ
  case item =>
    obtain rfl := hb
    obtain ⟨hr, hf⟩ := Bool.and_eq_true_iff.mp hf
    have he : ({} : Building).combinator ctx comb = { pending := comb, leadingCombUsed := true } := by
      simp [Building.combinator, hr]
    rw [he]
    exact ⟨⟨hc, rfl⟩, rfl, hf⟩
  case compound =>
    have he : b.sel.compounds.isEmpty = false := by simpa using hb.some
    have he : b.combinator ctx comb = { b with pending := comb, expectCompound := true } := by
      simp [Building.combinator, he, hb.expect]
    rw [he]
    exact ⟨⟨hc, rfl⟩, rfl, hf⟩
  case gap => exact hb.elim
  all_goals cases hf

section Fits

variable {ok : List SimpleToken → Bool} {relative : Bool} {ts : List Tok} {cs : List SimpleToken} {g : Bool}

def Phase.afterGap : Phase → Phase
  | .compound => .gap
  | φ         => φ

theorem fits_gap (h : fits ok relative φ (.gap g :: ts)) : fits ok relative φ.afterGap ts := by
  cases φ
  case item     => exact h
  case compound => exact h
  case comb     => exact h
  all_goals cases h

theorem fits_nil (h : fits ok relative φ []) : φ = .compound ∨ φ = .gap := by
  cases φ
  case compound => exact .inl rfl
  case gap      => exact .inr rfl
  all_goals cases h

theorem fits_compound (h : fits ok relative φ (.compound cs :: ts)) :
    ok cs ∧ fits ok relative .compound ts := by
  cases φ
  case item => exact Bool.and_eq_true_iff.mp h
  case gap  => exact Bool.and_eq_true_iff.mp h
  case comb => exact Bool.and_eq_true_iff.mp h
  all_goals cases h

theorem fits_comb_afterGap {comb : Gather.Comb} (h : fits ok relative φ.afterGap (.comb comb :: ts)) :
    fits ok relative φ (.comb comb :: ts) := by
  cases φ
  case compound => exact h
  all_goals exact h

end Fits

-- The tokens up to a comma, and those from there on.
def upToComma (ts : List Tok) : List Tok :=
  ts.takeWhile (!·.isComma)

def fromComma (ts : List Tok) : List Tok :=
  ts.dropWhile (!·.isComma)

-- Behind white space or not, there is the first token that is none.
theorem exists_phase {c : Char} {cs : CString} (hs : cssSkipWsComments p = c :: cs) {ok : List SimpleToken → Bool}
    {relative : Bool} (hf : fits ok relative φ (upToComma (tokens p))) : ∃ ψ, (ψ = φ ∨ ψ = φ.afterGap) ∧
      fits ok relative ψ (upToComma ((tokAt c cs).fst :: tokens (tokAt c cs).snd)) ∧
      fromComma (tokens p) = fromComma ((tokAt c cs).fst :: tokens (tokAt c cs).snd) := by
  have ⟨hg, hn⟩ := tokens_of_skip hs
  by_cases hl : (c :: cs).length < p.length
  case pos =>
    obtain ⟨g, ht⟩ := hg hl
    rw [ht] at hf ⊢
    exact ⟨φ.afterGap, .inr rfl, fits_gap hf, rfl⟩
  case neg => exact ⟨φ, .inl rfl, hn hl ▸ hf, by rw [hn hl]⟩

-- What the loop over a selector leaves of a text that begins with a valid item.
structure Taken (p : CString) (r : Building × CString) : Prop where
  error  : r.fst.flags.error = false
  some   : r.fst.sel.compounds ≠ []
  tokens : tokens r.snd = fromComma (tokens p)
  noGap  : NoGap r.snd
  le     : r.snd.length ≤ p.length

theorem taken_of_atCompound (hb : AtCompound b) (he : b.raised.error = false) {rest : CString} (hn : NoGap rest)
    (hle : rest.length ≤ p.length) (ht : tokens rest = fromComma (tokens p)) : Taken p (b, rest) where
  error  := by rw [flags_of_none hb.pending, he]
  some   := hb.some
  tokens := ht
  noGap  := hn
  le     := hle

theorem before_of_nil {ok : List SimpleToken → Bool} {relative : Bool} {ψ : Phase} (hψ : ψ = φ ∨ ψ = φ.afterGap)
    (hb : b.Before φ) (hf : fits ok relative ψ []) : AtCompound b := by
  cases φ
  case compound => exact hb
  case item     => rcases hψ with rfl | rfl <;> cases hf
  case comb     => rcases hψ with rfl | rfl <;> cases hf
  all_goals exact hb.elim

-- The loop takes a valid item up to its end.
theorem selectorLoop_item (ha : Accepts group meaning) (hn : p.length ≤ n) (hb : b.Before φ)
    (he : b.raised.error = false)
    (hf : fits (compoundValid meaning ctx) ctx.relative φ (upToComma (tokens p))) :
    Taken p (selectorLoop group ctx n b p) := by
  induction n generalizing b p φ
  case zero =>
    obtain rfl := List.eq_nil_of_length_eq_zero (Nat.le_zero.mp hn)
    exact taken_of_atCompound (before_of_nil (.inl rfl) hb hf) he rfl (Nat.le_refl _) rfl
  case succ n hi =>
    cases hs : cssSkipWsComments p
    case nil =>
      rw [selectorLoop_nil hs hn]
      obtain ht | ⟨g, ht⟩ := tokens_of_nil hs <;> rw [ht] at hf
      · exact taken_of_atCompound (before_of_nil (.inl rfl) hb hf) he rfl (Nat.zero_le _) (by rw [ht]; rfl)
      · have hb' := before_of_nil (.inr rfl) hb (fits_gap hf)
        exact taken_of_atCompound hb' he rfl (Nat.zero_le _) (by rw [ht]; rfl)
    case cons c cs =>
      have hle : (c :: cs).length ≤ p.length := hs ▸ cssSkipWsComments_suffix.length_le
      obtain ⟨ψ, hψ, hfψ, hfrom⟩ := exists_phase hs hf
      have hstop (hcomma : (tokAt c cs).fst = .comma) : Taken p (b, c :: cs) := by
        rw [hcomma] at hfψ
        refine taken_of_atCompound (before_of_nil hψ hb hfψ) he (hs ▸ noGap_cssSkipWsComments) hle ?_
        rw [hfrom, hcomma, tokens_of_noGap (hs ▸ noGap_cssSkipWsComments), hcomma]
        rfl
      have hstep {r : Building × CString} {rest : CString} (h : Taken rest r) (hr : rest.length ≤ cs.length)
          (hrest : fromComma (tokens p) = fromComma (tokens rest)) : Taken p r :=
        ⟨h.error, h.some, h.tokens.trans hrest.symm, h.noGap, h.le.trans (hr.trans (Nat.le_of_succ_le hle))⟩
      have hlen := @tokAt_length_le c cs
      cases ht : tokAt c cs
      case mk t rest =>
      rw [ht] at hfψ hfrom hlen hstop
      cases t
      case comma        => rw [selectorLoop_stop hs (.inl (by rw [ht]))]; exact hstop rfl
      case brace        => cases ψ <;> cases hfψ
      case gap g        => exact absurd (congrArg Prod.fst ht) tokAt_ne_gap
      case other d      => cases ψ <;> cases hfψ
      case comb comb    =>
        rw [selectorLoop_comb hs ht]
        have hfφ : fits (compoundValid meaning ctx) ctx.relative φ (.comb comb :: upToComma (tokens rest)) := by
          obtain rfl | rfl := hψ
          · exact hfψ
          · exact fits_comb_afterGap hfψ
        obtain ⟨hb', he', hf'⟩ := before_combinator (comb?_ne_none (tokAt_eq_comb ht).right.left) hb hfφ
        exact hstep (hi (hlen.trans (Nat.le_of_succ_le_succ (hle.trans hn))) hb' (he'.symm ▸ he) hf') hlen hfrom
      case compound ts' =>
        obtain ⟨hok, hf'⟩ := fits_compound hfψ
        obtain ⟨hce, hca⟩ := error_compound ha hok
        rw [selectorLoop_compound hs ht]
        dsimp only
        rw [if_pos hca]
        have hb' : Building.Before _ .compound := atCompound_push (b := b.space ((c :: cs).length < p.length))
          (d := compound group ctx ts')
        refine hstep (hi (hlen.trans (Nat.le_of_succ_le_succ (hle.trans hn))) hb' ?_ hf') hlen hfrom
        rw [Building.push, Raised.or_error, raised_space, he, hce]
        rfl

end Item

section List

variable {n : Nat} {p rest : CString} {ts ts' : List Tok} {t : Tok} {sel : Sel} {raised : Raised}

theorem items_of_fromComma_nil (h : fromComma ts = []) : items ts = [upToComma ts] := by
  induction ts
  case nil          => rfl
  case cons t ts hi =>
    cases ht : t.isComma
    case true  => simp [fromComma, ht] at h
    case false =>
      have hts := hi (by simpa [fromComma, ht] using h)
      obtain ⟨first, others, he, hc⟩ := @items_cons ts t ht
      obtain ⟨rfl, rfl⟩ := List.cons.inj (he.symm.trans hts)
      rw [hc]
      simp [upToComma, ht]

theorem items_of_fromComma_cons (h : fromComma ts = t :: ts') : items ts = upToComma ts :: items ts' := by
  induction ts
  case nil          => cases h
  case cons u ts hi =>
    cases hu : u.isComma
    case true =>
      obtain rfl : u = .comma := by cases u <;> first | rfl | cases hu
      obtain ⟨-, rfl⟩ : Tok.comma = t ∧ ts = ts' := by simpa [fromComma, hu] using h
      exact items_comma
    case false =>
      have hts := hi (by simpa [fromComma, hu] using h)
      obtain ⟨first, others, he, hc⟩ := @items_cons ts u hu
      obtain ⟨rfl, rfl⟩ := List.cons.inj (he.symm.trans hts)
      rw [hc]
      simp [upToComma, hu]

theorem compoundsOf_upToComma : compoundsOf (upToComma ts) = compoundsOf ts := by
  induction ts
  case nil          => rfl
  case cons t ts hi =>
    rw [upToComma] at hi ⊢
    cases t
    case compound cs =>
      rw [List.takeWhile_cons_of_pos rfl, compoundsOf, compoundsOf, hi]
    case gap g   => rw [List.takeWhile_cons_of_pos rfl, compoundsOf, compoundsOf, hi]
    case comb c  => rw [List.takeWhile_cons_of_pos rfl, compoundsOf, compoundsOf, hi]
    all_goals rfl

theorem tokens_skip (p : CString) : tokens p = tokens (cssSkipWsComments p) ∨
    ∃ g, tokens p = .gap g :: tokens (cssSkipWsComments p) := by
  cases noGap_or p
  case inl h => exact .inl (by rw [show cssSkipWsComments p = p from h])
  case inr h => exact .inr ⟨_, tokens_gap h⟩

theorem specificity_of_parseOneWith (hc : Counts group meaning)
    (h : parseOneWith group ctx p = (some sel, rest, raised)) (he : raised.error = false)
    (hr : itemRegular meaning ctx (tokens p)) : sel.specificity = itemSpecificity meaning ctx (tokens p) := by
  rw [parseOneWith] at h
  obtain ⟨hsel, -, rfl⟩ : _ ∧ _ ∧ _ := by simpa using h
  have hs := specificity_selectorLoop (b := {}) hc (Nat.le_refl _) he hr
  rw [show Building.specificity {} = {} from rfl, Specificity.zero_add] at hs
  rw [← hs, ← hsel.right]
  rfl

-- What is parsed of a text that begins with a valid item.
structure Parsed (group : Context → CString → List Sel × Raised) (meaning : Context → CString → Meaning)
    (ctx : Context) (p : CString) (sel : Sel) (rest : CString) (raised : Raised) : Prop where
  eq          : parseOneWith group ctx p = (some sel, rest, raised)
  error       : raised.error = false
  tokens      : tokens rest = fromComma (tokens p)
  noGap       : NoGap rest
  le          : rest.length ≤ p.length
  specificity : itemRegular meaning ctx (upToComma (Selector.tokens p)) →
    sel.specificity = itemSpecificity meaning ctx (upToComma (Selector.tokens p))

theorem exists_parsed (hc : Counts group meaning) (ha : Accepts group meaning)
    (hv : itemValid meaning ctx (upToComma (tokens p))) :
    ∃ sel rest raised, Parsed group meaning ctx p sel rest raised := by
  have ht := selectorLoop_item ha (Nat.le_refl _) (show Building.Before {} .item from rfl) rfl hv
  have hne : (selectorLoop group ctx p.length {} p).fst.sel.compounds.isEmpty = false := by simpa using ht.some
  have he : parseOneWith group ctx p = (some (.mk (selectorLoop group ctx p.length {} p).fst.sel),
      (selectorLoop group ctx p.length {} p).snd, (selectorLoop group ctx p.length {} p).fst.flags) := by
    rw [parseOneWith]
    simp [hne]
  refine ⟨_, _, _, he, ht.error, ht.tokens, ht.noGap, ht.le, fun hr => ?_⟩
  rw [itemRegular, compoundsOf_upToComma] at hr
  rw [itemSpecificity, compoundsOf_upToComma]
  exact specificity_of_parseOneWith hc he ht.error hr

theorem itemValid_of_isGap (h : ts.all Tok.isGap) : itemValid meaning ctx ts = false := by
  induction ts
  case nil          => rfl
  case cons t ts hi =>
    obtain ⟨ht, hts⟩ := Bool.and_eq_true_iff.mp h
    cases t
    case gap g => exact hi hts
    all_goals cases ht

-- What the loop over a list counts of it, and whether it is an error.
structure Listed (meaning : Context → CString → Meaning) (ctx : Context) (args : List (List Tok))
    (r : List Sel × Raised) : Prop where
  counts  :
    (args.all fun item => item.all Tok.isGap || itemValid meaning ctx item && itemRegular meaning ctx item) →
    r.fst.map (·.specificity) = (args.filter (itemValid meaning ctx)).map (itemSpecificity meaning ctx)
  accepts : args.all (itemValid meaning ctx) → r.snd.error = false ∧ r.fst ≠ []

theorem listed_blank {item : List Tok} {raised : Raised} (h : item.all Tok.isGap) :
    Listed meaning ctx [item] ([], raised) where
  counts _  := by simp [itemValid_of_isGap h]
  accepts h' := by simp [itemValid_of_isGap h] at h'

theorem listed_cons_blank {item : List Tok} {args : List (List Tok)} {r : List Sel × Raised} {raised : Raised}
    (h : item.all Tok.isGap) (hr : Listed meaning ctx args r) :
    Listed meaning ctx (item :: args) (r.fst, raised) where
  counts hc  := by
    rw [List.filter_cons_of_neg (by simp [itemValid_of_isGap h])]
    exact hr.counts (Bool.and_eq_true_iff.mp hc).right
  accepts h' := by simp [itemValid_of_isGap h] at h'

theorem Listed.cons_valid {item : List Tok} {args : List (List Tok)} {r : List Sel × Raised}
    (h : itemValid meaning ctx item) (he : raised.error = false)
    (hs : itemRegular meaning ctx item → sel.specificity = itemSpecificity meaning ctx item)
    (hr : args ≠ [] → Listed meaning ctx args r) (hn : args = [] → r = ([], {})) :
    Listed meaning ctx (item :: args) (sel :: r.fst, raised.or r.snd) where
  counts hc := by
    obtain ⟨hi, hcs⟩ := Bool.and_eq_true_iff.mp hc
    have hg : item.all Tok.isGap = false := by
      by_contra hg
      rw [itemValid_of_isGap (Bool.of_not_eq_false hg)] at h
      cases h
    have hi : itemRegular meaning ctx item := by simpa [hg, h] using hi
    rw [List.filter_cons_of_pos h, List.map_cons, List.map_cons, hs hi]
    by_cases ha : args = []
    case pos => rw [hn ha, ha]; rfl
    case neg => rw [(hr ha).counts hcs]
  accepts h' := by
    refine ⟨?_, List.cons_ne_nil _ _⟩
    rw [Raised.or_error, he]
    by_cases ha : args = []
    case pos => rw [hn ha]; rfl
    case neg => exact ((hr ha).accepts (Bool.and_eq_true_iff.mp h').right).left

theorem listed_of_neither {item : List Tok} {args : List (List Tok)} {r : List Sel × Raised}
    (hg : item.all Tok.isGap = false) (hv : itemValid meaning ctx item = false) :
    Listed meaning ctx (item :: args) r where
  counts h  := by simp [hg, hv] at h
  accepts h := by simp [hv] at h

theorem isComma_of_fromComma (h : fromComma ts = t :: ts') : t = .comma := by
  induction ts
  case nil          => cases h
  case cons u ts hi =>
    rw [fromComma] at hi h
    cases u
    case comma => exact (List.cons.inj h).left.symm
    all_goals exact hi h

theorem eq_nil_of_tokens (h : tokens p = []) : p = [] := by
  by_contra hp
  rw [tokens_cons hp] at h
  cases h

theorem groupLoop_nil {one : CString → Option Sel × CString × Raised} {strict : Bool} :
    groupLoop one strict n [] = ([], {}) := by
  cases n <;> rfl

-- An item with nothing in it ends at a comma, if the text goes on.
theorem exists_comma_of_isGap {c : Char} {cs : CString} (hn : NoGap (c :: cs))
    (h : (upToComma (tokens (c :: cs))).all Tok.isGap) : ∃ cs', c :: cs = ',' :: cs' := by
  rw [tokens_of_noGap hn] at h
  by_cases hc : (tokAt c cs).fst.isComma
  case pos =>
    have ht : tokens (c :: cs) = .comma :: tokens (tokAt c cs).snd := by
      rw [tokens_of_noGap hn]
      cases ht : (tokAt c cs).fst
      case comma => rfl
      all_goals rw [ht] at hc; cases hc
    exact head_of_tokens_comma ht
  case neg =>
    rw [upToComma, List.takeWhile_cons_of_pos (by simpa using hc)] at h
    have hgap := (Bool.and_eq_true_iff.mp h).left
    cases ht : (tokAt c cs).fst
    case gap g => exact absurd ht tokAt_ne_gap
    all_goals rw [ht] at hgap; cases hgap

theorem groupLoop_listed (hc : Counts group meaning) (ha : Accepts group meaning) (hn : p.length ≤ n) :
    Listed meaning ctx (items (tokens p)) (groupLoop (parseOneWith group ctx) ctx.strict n p) := by
  induction n generalizing p
  case zero =>
    obtain rfl := List.eq_nil_of_length_eq_zero (Nat.le_zero.mp hn)
    exact listed_blank rfl
  case succ n hi =>
    cases hs : cssSkipWsComments p
    case nil =>
      rw [groupLoop, hs, if_pos rfl]
      obtain ht | ⟨g, ht⟩ := tokens_of_nil hs <;> (rw [ht]; exact listed_blank rfl)
    case cons c cs =>
      have hle : (c :: cs).length ≤ p.length := hs ▸ cssSkipWsComments_suffix.length_le
      have hng : NoGap (c :: cs) := hs ▸ noGap_cssSkipWsComments
      have hfrom : fromComma (tokens p) = fromComma (tokens (c :: cs)) := by
        obtain h | ⟨g, h⟩ := tokens_skip p <;> (rw [h, hs]; try rfl)
      -- A comma ends the item, and the rest of the list comes behind it.
      have hsplit {cs' : CString} (hcs : fromComma (tokens p) = .comma :: tokens cs') :
          items (tokens p) = upToComma (tokens p) :: items (tokens cs') :=
        items_of_fromComma_cons hcs
      have hup : upToComma (tokens p) = upToComma (tokens (c :: cs)) ∨
          ∃ g, upToComma (tokens p) = .gap g :: upToComma (tokens (c :: cs)) := by
        obtain h | ⟨g, h⟩ := tokens_skip p <;> rw [h, hs]
        · exact .inl rfl
        · exact .inr ⟨g, rfl⟩
      by_cases hg : (upToComma (tokens p)).all Tok.isGap
      case pos =>
        obtain ⟨cs', hcs'⟩ := exists_comma_of_isGap hng (by
          obtain h | ⟨g, h⟩ := hup
          · exact h ▸ hg
          · exact (Bool.and_eq_true_iff.mp (h ▸ hg)).right)
        have ht : fromComma (tokens p) = .comma :: tokens cs' := by
          rw [hfrom, hcs', tokens_comma]
          rfl
        have hone : parseOneWith group ctx (c :: cs) = (none, c :: cs, {}) := by
          refine parseOneWith_stop hng ?_
          obtain ⟨rfl, rfl⟩ := List.cons.inj hcs'
          rfl
        rw [hsplit ht, groupLoop, hs]
        dsimp only
        rw [if_neg (List.cons_ne_nil c cs), hone]
        dsimp only
        rw [show cssSkipWsComments (c :: cs) = c :: cs from hng, hcs']
        exact listed_cons_blank hg (hi (by rw [hcs'] at hle; exact Nat.le_of_succ_le_succ (hle.trans hn)))
      case neg =>
        by_cases hv : itemValid meaning ctx (upToComma (tokens p))
        case pos =>
          have hv' : itemValid meaning ctx (upToComma (tokens (c :: cs))) := by
            obtain h | ⟨g, h⟩ := hup <;> (rw [h] at hv; exact hv)
          obtain ⟨sel, rest, raised, hp⟩ := exists_parsed hc ha hv'
          have hspec (hr : itemRegular meaning ctx (upToComma (tokens p))) :
              sel.specificity = itemSpecificity meaning ctx (upToComma (tokens p)) := by
            obtain h | ⟨g, h⟩ := hup <;> (rw [h] at hr ⊢; exact hp.specificity hr)
          rw [groupLoop, hs]
          dsimp only
          rw [if_neg (List.cons_ne_nil c cs), hp.eq]
          dsimp only
          rw [show cssSkipWsComments rest = rest from hp.noGap, Option.isNone_some, Bool.and_false,
            if_neg Bool.false_ne_true]
          cases hf : fromComma (tokens p)
          case nil =>
            obtain rfl : rest = [] := eq_nil_of_tokens (hp.tokens.trans (hfrom ▸ hf))
            rw [items_of_fromComma_nil hf]
            have hnext : (if ([] : CString).head? == some ',' || ([] : CString).length = p.length then
                ([] : CString).tail else []) = [] := ite_self _
            rw [hnext, groupLoop_nil]
            exact .cons_valid hv hp.error hspec (fun h => absurd rfl h) fun _ => rfl
          case cons t ts' =>
            obtain rfl := isComma_of_fromComma hf
            obtain ⟨cs', rfl⟩ := head_of_tokens_comma (hp.tokens.trans (hfrom ▸ hf))
            have hcs' : fromComma (tokens p) = .comma :: tokens cs' := by
              rw [hfrom, ← hp.tokens, tokens_comma]
            rw [hsplit hcs']
            exact .cons_valid hv hp.error hspec
              (fun _ => hi (Nat.le_of_succ_le_succ (hp.le.trans (hle.trans hn))))
              fun h => absurd h (List.splitOnP_ne_nil _ _)
        case neg =>
          cases hf : fromComma (tokens p)
          case nil        =>
            rw [items_of_fromComma_nil hf]
            exact listed_of_neither (Bool.of_not_eq_true hg) (Bool.of_not_eq_true hv)
          case cons t ts' =>
            rw [items_of_fromComma_cons hf]
            exact listed_of_neither (Bool.of_not_eq_true hg) (Bool.of_not_eq_true hv)

end List

theorem parseSelectorGroup_counts (levels : Nat) :
    Counts (parseSelectorGroup levels) (Selector.meaning levels) ∧
      Accepts (parseSelectorGroup levels) (Selector.meaning levels) := by
  induction levels
  case zero =>
    constructor
    · intro ctx arg h
      cases h
    · intro ctx arg h
      cases h
  case succ n hi =>
    constructor
    · intro ctx arg h
      obtain ⟨hd, hr⟩ := Bool.and_eq_true_iff.mp h
      have hl : Listed (Selector.meaning n) ctx (items (tokens arg)) _ :=
        groupLoop_listed hi.left hi.right (Nat.le_refl _)
      rw [parseSelectorGroup, if_neg (Nat.not_lt.mpr (of_decide_eq_true hd)), Specificity.ofGroup_eq, hl.counts hr]
      rfl
    · intro ctx arg h
      have hl : Listed (Selector.meaning n) ctx (items (tokens arg)) _ :=
        groupLoop_listed hi.left hi.right (Nat.le_refl _)
      rw [parseSelectorGroup]
      split
      case isTrue hd  => exact ⟨rfl, fun hd' => absurd hd (Nat.not_lt.mpr hd')⟩
      case isFalse hd => exact ⟨(hl.accepts h).left, fun _ => (hl.accepts h).right⟩

end Nordstjernen.Css.Selector
