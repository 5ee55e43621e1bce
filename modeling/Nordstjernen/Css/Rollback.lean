import Nordstjernen.Css.Cascade
import Nordstjernen.Css.Syntax.Scan
import Nordstjernen.Lib.Rollback
import Nordstjernen.Css.Theorems.Cascade

open Nordstjernen.Glib Nordstjernen.Lib.Rollback

namespace Nordstjernen.Css

-- What `match_entry` and `var_match` have in common. The declarations of the style attribute stand in no layer.
structure Match (ι ν : Type) where
  source      : SourceKeys
  declOrder   : Int
  important   : Bool
  inlineStyle : Bool
  rule        : Nat
  prop        : ι
  value       : ν
  unlayered   : inlineStyle → source.layerOrder = layerNone

inductive Rollback
  | revert
  | revertLayer
  | revertRule
deriving DecidableEq

section Values

-- An `ns_css_value`, as far as the tests of keywords look at it.
inductive CssValue
  | keyword (word : Option CString)
  | other (text : CString)

def valueIsKeyword (word : CString) : Option CssValue → Bool
  | some (.keyword (some w)) => w == word
  | _                        => false

def valueIsRevert : Option CssValue → Bool :=
  valueIsKeyword "revert".toList

def valueIsRevertLayer : Option CssValue → Bool :=
  valueIsKeyword "revert-layer".toList

def valueIsRevertRule : Option CssValue → Bool :=
  valueIsKeyword "revert-rule".toList

def valueRollback (v : Option CssValue) : Option Rollback :=
  if valueIsRevertRule v then some .revertRule
  else if valueIsRevertLayer v then some .revertLayer
  else if valueIsRevert v then some .revert
  else none

-- `ns_custom_prop_wide`
inductive CustomPropWide
  | none
  | inherit
  | initial
  | unset
  | revert
  | revertLayer
  | revertRule
deriving DecidableEq

def customPropWideKind (text : CString) : CustomPropWide :=
  let word := (text.dropWhile Syntax.isWs).rdropWhile Syntax.isWs
  if strcaseEq word "inherit".toList then .inherit
  else if strcaseEq word "initial".toList then .initial
  else if strcaseEq word "unset".toList then .unset
  else if strcaseEq word "revert".toList then .revert
  else if strcaseEq word "revert-layer".toList then .revertLayer
  else if strcaseEq word "revert-rule".toList then .revertRule
  else .none

def CustomPropWide.rollback : CustomPropWide → Option Rollback
  | .revert      => some .revert
  | .revertLayer => some .revertLayer
  | .revertRule  => some .revertRule
  | _            => Option.none

def textRollback (text : CString) : Option Rollback :=
  (customPropWideKind text).rollback

end Values

def cssSameRevertOrigin (rollbackOrigin candidateOrigin : Int) : Bool :=
  if rollbackOrigin = Origin.author.code then
    candidateOrigin = Origin.author.code || candidateOrigin = Origin.presentational.code
  else rollbackOrigin = candidateOrigin

namespace Match

variable {ι ν : Type}

-- The comparison of `match_cmp` and `var_match_cmp`.
def cmp (a b : Match ι ν) : Int :=
  sourceCmp a.source b.source a.important b.important <|
  thenCmp a.source.sourceOrder b.source.sourceOrder <|
  if a.declOrder < b.declOrder then -1 else 1

-- The declarations that a `continue` passes over.
def skips (rollback : Match ι ν) (kind : Rollback) (prev : Match ι ν) : Bool :=
  match kind with
  | .revertRule  => prev.rule = rollback.rule
  | .revertLayer =>
    prev.source.origin = rollback.source.origin &&
      if rollback.inlineStyle then prev.inlineStyle
      else if rollback.source.layerOrder = layerNone then prev.source.layerOrder = layerNone
      else prev.source.layerOrder ≥ rollback.source.layerOrder
  | .revert      => cssSameRevertOrigin rollback.source.origin prev.source.origin

variable [DecidableEq ι] (kindOf : ν → Option Rollback)

-- The loop that `cascade_rollback_value` and `var_rollback_match` have in common. The matches that are left come
-- from the last one down.
def rollbackMatch : List (Match ι ν) → Match ι ν → Rollback → Option (Match ι ν)
  | [],            _,        _    => none
  | prev :: below, rollback, kind =>
    if prev.prop ≠ rollback.prop then rollbackMatch below rollback kind
    else if rollback.skips kind prev then rollbackMatch below rollback kind
    else
      match kindOf prev.value with
      | some k => rollbackMatch below prev k
      | none   => some prev

end Match

-- The matches from `before` down, for `before` one less than `n`.
def fromBefore {μ : Type} (ms : List μ) (n : Nat) : List μ :=
  (ms.take n).reverse

def cascadeRollbackValue (ms : List (Match Nat (Option CssValue))) (n : Nat)
    (rollback : Match Nat (Option CssValue)) : Option CssValue :=
  let kind := (valueRollback rollback.value).getD .revert
  (Match.rollbackMatch valueRollback (fromBefore ms n) rollback kind).bind (·.value)

def varRollbackMatch (ms : List (Match CString CString)) (n : Nat) (rollback : Match CString CString)
    (kind : Rollback) : Option (Match CString CString) :=
  Match.rollbackMatch textRollback (fromBefore ms n) rollback kind

section Spec

variable {ι ν : Type}

-- The author origin with the presentational hints.
def authorOrigin (origin : Int) : Bool :=
  origin = Origin.author.code || origin = Origin.presentational.code

namespace Match

-- The style attribute is a layer of its own.
def sameLayer (a b : Match ι ν) : Bool :=
  a.source.origin = b.source.origin && a.inlineStyle = b.inlineStyle && a.source.layerOrder = b.source.layerOrder

-- What is taken to be absent.
def rollsBack (m : Match ι ν) : Rollback → Match ι ν → Bool
  | .revertRule,  e => e.rule = m.rule
  | .revertLayer, e => m.sameLayer e
  | .revert,      e => authorOrigin e.source.origin || e.source.origin = m.source.origin

end Match

-- Sorted by the comparison, the strongest match last.
def Sorted (ms : List (Match ι ν)) : Prop :=
  ms.Pairwise fun a b => ¬b.cmp a < 0

instance (ms : List (Match ι ν)) : Decidable (Sorted ms) :=
  inferInstanceAs (Decidable (List.Pairwise _ _))

variable [DecidableEq ι]

-- The matches below a place that are of the property of the match there, each with its place.
def weaker (ms : List (Match ι ν)) (i : Nat) (m : Match ι ν) : List (Match ι ν × Nat) :=
  ((ms.take i).zipIdx.filter fun e => e.fst.prop = m.prop).reverse

variable (kindOf : ν → Option Rollback)

def placedKind (e : Match ι ν × Nat) : Option Rollback :=
  kindOf e.fst.value

def placedRollsBack (r : (Match ι ν × Nat) × Rollback) (e : Match ι ν × Nat) : Bool :=
  r.fst.fst.rollsBack r.snd e.fst

def placedSkips (r : (Match ι ν × Nat) × Rollback) (e : Match ι ν × Nat) : Bool :=
  r.fst.fst.skips r.snd e.fst

-- The matches that the cascade chooses in turn, with all absent that those before them roll back.
def chosen (ms : List (Match ι ν)) (i : Nat) (m : Match ι ν) (kind : Rollback) : List (Match ι ν × Nat) :=
  choices (placedKind kindOf) placedRollsBack ((weaker ms i m).filter fun e => !m.rollsBack kind e.fst)

-- The matches that the loop stops at.
def visited (ms : List (Match ι ν)) (i : Nat) (m : Match ι ν) (kind : Rollback) : List (Match ι ν × Nat) :=
  descend (placedKind kindOf) placedSkips ((m, i), kind) (weaker ms i m)

-- The last one of a chain, unless it rolls back as well and nothing is left.
def settled (chain : List (Match ι ν × Nat)) : Option (Match ι ν) :=
  (chain.getLast?.map (·.fst)).filter fun e => (kindOf e.value).isNone

-- Whether a match that rolls back resolves to what the cascade chooses without what it rolls back, and those in
-- between that roll back do so as well.
structure CascadeResolves (ms : List (Match Nat (Option CssValue))) (i : Nat) (m : Match Nat (Option CssValue))
    (kind : Rollback) : Prop where
  chain : visited valueRollback ms i m kind = chosen valueRollback ms i m kind
  value : cascadeRollbackValue ms i m = (settled valueRollback (chosen valueRollback ms i m kind)).bind (·.value)

structure VarResolves (ms : List (Match CString CString)) (i : Nat) (m : Match CString CString) (kind : Rollback) :
    Prop where
  chain : visited textRollback ms i m kind = chosen textRollback ms i m kind
  found : varRollbackMatch ms i m kind = settled textRollback (chosen textRollback ms i m kind)

-- What a revert to the layer below passes over although it is not of the layer.
def PassesOver (r e : Match ι ν) : Prop :=
  e.source.origin = r.source.origin ∧ r.inlineStyle = false ∧
    (r.important ∧ r.source.layerOrder ≠ layerNone ∧ r.source.layerOrder < e.source.layerOrder ∨
      r.source.layerOrder = layerNone ∧ e.inlineStyle)

-- Whether on the way down to the choice that is made, with `r` the last of those that roll back, nothing is passed
-- over that none of them rolls back, and nothing met that only those before `r` do.
def Followed (ms : List (Match ι ν)) (i : Nat) (m : Match ι ν) (kind : Rollback) : Prop :=
  ∀ above e below, weaker ms i m = above ++ e :: below →
    ∀ r rs, trail (placedKind kindOf) placedRollsBack [((m, i), kind)] above = some (r :: rs) →
      (r.snd = .revertLayer → PassesOver r.fst.fst e.fst → ∃ s ∈ r :: rs, placedRollsBack s e) ∧
      ((∃ s ∈ r :: rs, placedRollsBack s e) → placedSkips r e)

end Spec

variable {ι ν : Type} {kindOf : ν → Option Rollback} {ms : List (Match ι ν)} {m r e : Match ι ν}
  {i : Nat} {kind : Rollback}

section Loop

theorem settled_cons_of_kind {x : Match ι ν × Nat} {chain : List (Match ι ν × Nat)} {k : Rollback}
    (h : kindOf x.fst.value = some k) : settled kindOf (x :: chain) = settled kindOf chain := by
  cases chain
  case nil    => simp [settled, h]
  case cons y chain => simp only [settled, List.getLast?_cons_cons]

variable [DecidableEq ι]

theorem rollbackMatch_eq (l : List (Match ι ν × Nat)) (n : Nat) :
    Match.rollbackMatch kindOf (l.map (·.fst)) r kind = settled kindOf
      (descend (placedKind kindOf) placedSkips ((r, n), kind) (l.filter fun e => e.fst.prop = r.prop)) := by
  induction l generalizing r n kind
  case nil          => rfl
  case cons x l hi =>
    rw [List.map_cons, Match.rollbackMatch]
    by_cases hp : x.fst.prop = r.prop
    case neg =>
      rw [if_pos hp, List.filter_cons_of_neg (by simpa using hp), hi n]
    case pos =>
      rw [if_neg (not_not_intro hp), List.filter_cons_of_pos (by simpa using hp), descend]
      by_cases hs : r.skips kind x.fst
      case pos => rw [if_pos hs, if_pos (show placedSkips ((r, n), kind) x from hs), hi n]
      case neg =>
        rw [if_neg hs, if_neg (show ¬placedSkips ((r, n), kind) x from hs)]
        cases hk : kindOf x.fst.value
        case none   => simp [placedKind, hk, settled, Option.filter]
        case some k =>
          have hx : placedKind kindOf x = some k := hk
          rw [hx, Option.elim_some, settled_cons_of_kind hk]
          simp only [hi x.snd, hp]

theorem rollbackMatch_fromBefore : Match.rollbackMatch kindOf (fromBefore ms i) m kind =
    settled kindOf (visited kindOf ms i m kind) := by
  have hl : fromBefore ms i = ((ms.take i).zipIdx.reverse).map (·.fst) := by
    rw [List.map_reverse, List.zipIdx_map_fst, fromBefore]
  rw [hl, rollbackMatch_eq _ i, visited, weaker, List.filter_reverse]

end Loop

section Order

-- Between matches of one origin, the ranks of the layers go up to the stronger one if it is not important.
theorem important_of_layerOrder_lt (h : ¬r.cmp e < 0) (ho : e.source.origin = r.source.origin)
    (hl : r.source.layerOrder < e.source.layerOrder) : r.important := by
  by_contra hr
  simp only [Bool.not_eq_true] at hr
  refine h (thenCmp_neg_iff.mpr ?_)
  rw [hr]
  cases he : e.important
  case true  => exact .inl (by decide)
  case false =>
    refine .inr ⟨rfl, thenCmp_neg_iff.mpr (.inr ⟨by simp [reversed, ho], thenCmp_neg_iff.mpr (.inl ?_)⟩)⟩
    simpa [reversed] using hl

theorem rollsBack_or_passesOver (h : ¬r.cmp e < 0) (hs : r.skips kind e) :
    r.rollsBack kind e ∨ kind = .revertLayer ∧ PassesOver r e := by
  cases kind
  case revertRule => exact .inl hs
  case revert =>
    refine .inl ?_
    simp only [Match.skips, cssSameRevertOrigin] at hs
    simp only [Match.rollsBack, authorOrigin]
    split at hs <;> simp_all
  case revertLayer =>
    simp only [Match.skips, Bool.and_eq_true, decide_eq_true_eq] at hs
    obtain ⟨ho, hs⟩ := hs
    have hsame (hi : r.inlineStyle = e.inlineStyle) (hl : r.source.layerOrder = e.source.layerOrder) :
        r.rollsBack .revertLayer e := by
      simp [Match.rollsBack, Match.sameLayer, ho, hi, hl]
    cases hr : r.inlineStyle
    case true =>
      rw [hr, if_pos rfl] at hs
      exact .inl (hsame (hr.trans hs.symm) ((r.unlayered hr).trans (e.unlayered hs).symm))
    case false =>
      rw [hr, if_neg Bool.false_ne_true] at hs
      by_cases hn : r.source.layerOrder = layerNone
      case pos =>
        rw [if_pos hn, decide_eq_true_eq] at hs
        cases he : e.inlineStyle
        case true  => exact .inr ⟨rfl, ho, hr, .inr ⟨hn, he⟩⟩
        case false => exact .inl (hsame (hr.trans he.symm) (hn.trans hs.symm))
      case neg =>
        rw [if_neg hn, decide_eq_true_eq] at hs
        cases lt_or_eq_of_le hs
        case inl hlt => exact .inr ⟨rfl, ho, hr, .inl ⟨important_of_layerOrder_lt h ho hlt, hn, hlt⟩⟩
        case inr heq =>
          cases he : e.inlineStyle
          case true  => exact absurd (heq.trans (e.unlayered he)) hn
          case false => exact .inl (hsame (hr.trans he.symm) heq)

theorem PassesOver.skips (h : PassesOver r e) : r.skips .revertLayer e := by
  obtain ⟨ho, hr, hl⟩ := h
  simp only [Match.skips, ho, hr, decide_true, Bool.true_and, Bool.false_eq_true, if_false]
  cases hl
  case inl hl => simpa [hl.right.left] using hl.right.right.le
  case inr hl => simp [hl.left, e.unlayered hl.right]

end Order

section Places

variable [DecidableEq ι]

theorem nodup_weaker : (weaker ms i m).Nodup := by
  refine List.nodup_reverse.mpr (List.Nodup.filter _ (List.Nodup.of_map Prod.snd ?_))
  rw [List.zipIdx_map_snd]
  exact List.nodup_range'

theorem Sorted.weaker (h : Sorted ms) (hm : ms[i]? = some m) :
    (((m, i) :: weaker ms i m).map (·.fst)).Pairwise fun r e => ¬r.cmp e < 0 := by
  have hsub : ((Css.weaker ms i m).map (·.fst)).Sublist (ms.take i).reverse := by
    have hz : ((ms.take i).zipIdx.map (·.fst)).reverse = (ms.take i).reverse := by rw [List.zipIdx_map_fst]
    rw [← hz, ← List.map_reverse, Css.weaker, ← List.filter_reverse]
    exact List.filter_sublist.map _
  have htake : ms.take (i + 1) = ms.take i ++ [m] := by
    rw [List.take_add_one, hm, Option.toList_some]
  have hp : (ms.take (i + 1)).reverse.Pairwise fun r e => ¬r.cmp e < 0 :=
    List.pairwise_reverse.mpr (List.Pairwise.sublist (List.take_sublist _ _) h)
  rw [htake, List.reverse_append, List.reverse_singleton, List.singleton_append] at hp
  exact hp.sublist (hsub.cons_cons m)

-- What rolls back is stronger than what the walk comes to behind it.
theorem not_cmp_of_trail (h : Sorted ms) (hm : ms[i]? = some m) {above below : List (Match ι ν × Nat)}
    {e : Match ι ν × Nat} (hl : weaker ms i m = above ++ e :: below)
    {rs : List ((Match ι ν × Nat) × Rollback)}
    (ht : trail (placedKind kindOf) placedRollsBack [((m, i), kind)] above = some rs)
    {r : (Match ι ν × Nat) × Rollback} (hr : r ∈ rs) : ¬r.fst.fst.cmp e.fst < 0 := by
  have hs := h.weaker hm
  rw [hl, ← List.cons_append, List.map_append, List.pairwise_append] at hs
  refine hs.right.right r.fst.fst ?_ e.fst (by simp)
  cases mem_trail ht hr
  case inl hr => simp [List.mem_singleton.mp hr]
  case inr hr => exact List.mem_map_of_mem (List.mem_cons_of_mem _ hr)

theorem visited_eq_chosen_iff (h : Sorted ms) (hm : ms[i]? = some m) :
    visited kindOf ms i m kind = chosen kindOf ms i m kind ↔ Followed kindOf ms i m kind := by
  have hleft : (weaker ms i m).filter (fun e => !m.rollsBack kind e.fst) =
      left placedRollsBack [((m, i), kind)] (weaker ms i m) := by
    simp [left, placedRollsBack]
  rw [visited, chosen, hleft, descend_eq_choices_iff nodup_weaker, Followed]
  refine forall₄_congr fun above e below hl => forall₃_congr fun r rs ht => ?_
  constructor
  case mp =>
    intro heq
    refine ⟨fun hk hp => heq.mp ?_, heq.mpr⟩
    have := hp.skips
    rwa [← hk] at this
  case mpr =>
    intro hf
    refine ⟨fun hs => ?_, hf.right⟩
    cases rollsBack_or_passesOver (not_cmp_of_trail h hm hl ht List.mem_cons_self) hs
    case inl hg => exact ⟨r, List.mem_cons_self, hg⟩
    case inr hp => exact hf.left hp.left hp.right

end Places

-- A declaration of a layer of the author.
def layered {ι ν : Type} (rank : Int) (important : Bool) (prop : ι) (value : ν) : Match ι ν :=
  ⟨⟨Origin.author.code, 0, 0, 0, 1, rank, 0, 0⟩, 0, important, false, 0, prop, value, by simp⟩

def redUnderRevertLayer (important : Bool) (below above : Int) : List (Match Nat (Option CssValue)) :=
  [layered below important 0 (some (.keyword (some "red".toList))),
    layered above important 0 (some (.keyword (some "revert-layer".toList)))]

-- A revert resolves as it has to, just if what it passes over is what it and those before it roll back.
theorem rollbacks_resolve_iff {ms : List (Match Nat (Option CssValue))} {vs : List (Match CString CString)}
    (hms : Sorted ms) (hvs : Sorted vs) {i j : Nat} {m : Match Nat (Option CssValue)} {v : Match CString CString}
    (hi : ms[i]? = some m) (hj : vs[j]? = some v) {kind : Rollback} (hk : valueRollback m.value = some kind)
    (kind' : Rollback) :
    (CascadeResolves ms i m kind ↔ Followed valueRollback ms i m kind) ∧
      (VarResolves vs j v kind' ↔ Followed textRollback vs j v kind') := by
  rw [← visited_eq_chosen_iff hms hi, ← visited_eq_chosen_iff hvs hj]
  refine ⟨⟨fun h => h.chain, fun h => ⟨h, ?_⟩⟩, ⟨fun h => h.chain, fun h => ⟨h, ?_⟩⟩⟩
  · rw [cascadeRollbackValue, hk, Option.getD_some, rollbackMatch_fromBefore, h]
  · rw [varRollbackMatch, rollbackMatch_fromBefore, h]

theorem rollbacks_resolve_twoLayers :
    (CascadeResolves (redUnderRevertLayer false 0 1) 1
        (layered 1 false 0 (some (.keyword (some "revert-layer".toList)))) .revertLayer ↔
      Followed valueRollback (redUnderRevertLayer false 0 1) 1
        (layered 1 false 0 (some (.keyword (some "revert-layer".toList)))) .revertLayer) ∧
    (VarResolves [layered 0 false "--a".toList "1".toList, layered 1 false "--a".toList "revert".toList] 1
        (layered 1 false "--a".toList "revert".toList) .revert ↔
      Followed textRollback
        [layered 0 false "--a".toList "1".toList, layered 1 false "--a".toList "revert".toList] 1
        (layered 1 false "--a".toList "revert".toList) .revert) :=
  rollbacks_resolve_iff (by decide +kernel) (by decide +kernel) rfl rfl rfl .revert

-- With `!important` the layer of the higher rank is the weaker one.
theorem not_cascadeResolves_importantLayers :
    ¬∀ (ms : List (Match Nat (Option CssValue))) (i : Nat) (m : Match Nat (Option CssValue)) (kind : Rollback),
      Sorted ms → ms[i]? = some m → valueRollback m.value = some kind → CascadeResolves ms i m kind := by
  intro h
  have hv := (h (redUnderRevertLayer true 1 0) 1 _ .revertLayer (by decide +kernel) rfl rfl).value
  have hc : chosen valueRollback (redUnderRevertLayer true 1 0) 1
      (layered 0 true 0 (some (.keyword (some "revert-layer".toList)))) .revertLayer =
      [(layered 1 true 0 (some (.keyword (some "red".toList))), 0)] := by
    exact choices_cons
  rw [hc] at hv
  cases hv

end Nordstjernen.Css
