import Mathlib.Data.List.Basic
import Nordstjernen.Glib.Strings

open Nordstjernen.Glib

namespace Nordstjernen.Css.Gather

inductive NodeKind
  | document
  | element
  | text
  | comment
  | doctype
deriving DecidableEq

-- `nameLower` is the flag `NS_ATTR_NAME_LOWER`.
structure Attr where
  name      : CString
  nameLower : Bool
  value     : Option CString

structure Node where
  kind      : NodeKind
  name      : Option CString := none
  attrs     : List Attr := []
  svgNs     : Bool := false
  foreignNs : Bool := false
  xmlDoc    : Bool := false

inductive AttrOp
  | present
  | eq
  | prefixOf
  | suffixOf
  | substr
  | word
  | hyphen

-- `ns_css_attr_pred`
structure AttrPred where
  name            : CString
  op              : AttrOp := .present
  value           : Option CString := none
  caseInsensitive : Bool := false
  caseSensitive   : Bool := false
  nameBit         : UInt64 := 0

-- A compound selector. `tests` are its pseudo-classes and its `:is()`, `:not()` and `:has()`.
structure Simple (π : Type*) where
  type       : Option CString := none
  id         : Option CString := none
  classes    : List CString := []
  attrs      : List AttrPred := []
  tests      : π
  neverMatch : Bool := false
  nsNone     : Bool := false

inductive Comb
  | none
  | descendant
  | child
  | adjacent
  | sibling

inductive PseudoElement
  | none
  | before
  | after
  | firstLetter
  | firstLine
  | selection
  | marker
  | backdrop
  | placeholder
  | fileSelectorButton
deriving DecidableEq

-- The number of an enumerator of `ns_css_pseudo_element`.
def PseudoElement.code : PseudoElement → Nat
  | none               => 0
  | before             => 1
  | after              => 2
  | firstLetter        => 3
  | firstLine          => 4
  | selection          => 5
  | marker             => 6
  | backdrop           => 7
  | placeholder        => 8
  | fileSelectorButton => 9

-- The combinator at `i` stands before the compound at `i`.
structure Selector (π : Type*) where
  compounds     : List (Simple π)
  combinators   : List Comb := []
  pseudoElement : PseudoElement := .none
  specA         : Int := 0
  specB         : Int := 0
  specC         : Int := 0

structure Scope (σ : Type*) where
  roots  : List σ
  limits : List σ

structure Decl where
  prop      : Nat
  value     : CString
  important : Bool
deriving DecidableEq

structure PendingDecl where
  pname     : CString
  rawVtext  : CString
  important : Bool
  declIndex : Int
  declRank  : Int
deriving DecidableEq

-- `vars` lists its table in the order in which it is iterated.
structure Rule (σ : Type*) where
  selectors          : List (Option σ)
  decls              : List Decl := []
  vars               : List (CString × CString) := []
  varImportant       : List CString := []
  pending            : List PendingDecl := []
  layerName          : Option CString := none
  containerCondition : Option CString := none
  scopes             : List (Scope σ) := []
  sourceOrder        : Int := 0

-- Each rule of a sheet is made for it.
structure Sheet (ρ : Type*) where
  rules : List ρ
  nodup : rules.Nodup

-- What the pointers to sheets, rules, selectors and nodes stand for while the styles of a document are
-- computed. `parents` and `prevSiblings` are the nodes that a walk along these links meets.
structure Page (ι ρ σ ν π : Type*) where
  sheet        : ι → Sheet ρ
  rule         : ρ → Rule σ
  selector     : σ → Selector π
  node         : ν → Node
  parents      : ν → List ν
  prevSiblings : ν → List ν
  -- `g_css_match_scope`
  matchScope   : Option ν
  -- The end of `match_simple`, which counts its operations against the budget as well.
  tests        : π → Option ν → ν → Nat → Bool × Nat
  -- `container_cond_matches`
  containerCondMatches : CString → Bool

def isWs (c : Char) : Bool :=
  c == ' ' || c == '\t' || c == '\n' || c == '\r' || c == '\x0c'

-- The loop of `ns_class_set_build`, and of `gather_matches_multi` over the classes of an element.
def classTokens (cls : CString) : List CString :=
  (cls.splitOnP isWs).filter (· ≠ [])

def attrNameBloomBit (name : CString) : UInt64 :=
  let h := name.foldl (fun (h : UInt32) c => (h ^^^ UInt32.ofNat c.toNat) * 16777619) 2166136261
  1 <<< (h &&& 63).toUInt64

def strIsAsciiLower (s : CString) : Bool :=
  s.all fun c => !c.isUpper

namespace Node

variable (el : Node)

def attrBloom : UInt64 :=
  el.attrs.foldl (fun b a => b ||| attrNameBloomBit a.name) 0

def findAttr (name : CString) : Option Attr :=
  if el.kind ≠ .element then none
  else if el.svgNs then el.attrs.find? (·.name == name)
  else if strIsAsciiLower name then
    el.attrs.find? fun a => if a.nameLower then a.name == name else strcaseEq a.name name
  else el.attrs.find? fun a => strcaseEq a.name name

def getAttr (name : CString) : Option CString :=
  (el.findAttr name).bind (·.value)

def hasClass (name : CString) : Bool :=
  el.kind = .element && (classTokens ((el.getAttr "class".toList).getD [])).contains name

end Node

-- `ns_css_html_ci_attr`
def htmlCiAttr (name : CString) : Bool :=
  ["accept", "accept-charset", "align", "alink", "axis", "bgcolor", "charset", "checked", "clear",
    "codetype", "color", "compact", "declare", "defer", "dir", "direction", "disabled", "enctype",
    "face", "frame", "hreflang", "http-equiv", "lang", "language", "link", "media", "method",
    "multiple", "nohref", "noresize", "noshade", "nowrap", "readonly", "rel", "rev", "rules",
    "scope", "scrolling", "selected", "shape", "target", "text", "type", "valign", "valuetype",
    "vlink"].any fun s => strcaseEq name s.toList

-- The comparison of two texts of one length.
def textEq (ci : Bool) (a b : CString) : Bool :=
  if ci then strcaseEq a b else a == b

-- The tokens that the loop of `NS_CSS_ATTR_WORD` compares. Blanks at the end leave an empty one.
def attrWords (v : CString) : List CString :=
  (v.splitOnP isWs).filter (· ≠ []) ++ if v.getLast?.any isWs then [[]] else []

namespace AttrPred

variable (a : AttrPred)

def holds (htmlDoc : Bool) (v : CString) : Bool :=
  match a.op, a.value with
  | .present, _    => true
  | _,        none => false
  | op,       some w =>
    let ci := a.caseInsensitive || (!a.caseSensitive && htmlDoc && htmlCiAttr a.name)
    match op with
    | .present  => true
    | .eq       => textEq ci v w
    | .prefixOf => w ≠ [] && w.length ≤ v.length && textEq ci (v.take w.length) w
    | .suffixOf => w ≠ [] && w.length ≤ v.length && textEq ci (v.drop (v.length - w.length)) w
    | .substr   => w ≠ [] && v.tails.any fun t => w.length ≤ t.length && textEq ci (t.take w.length) w
    | .word     => (attrWords v).any fun t => t.length = w.length && textEq ci t w
    | .hyphen   =>
      w.length ≤ v.length && textEq ci (v.take w.length) w &&
        (v.drop w.length).head?.all (· == '-')

-- One round of the loop of `match_simple` over the attributes of a selector.
def matchesOn (el : Node) : Bool :=
  (a.nameBit = 0 || el.attrBloom &&& a.nameBit ≠ 0) &&
    match el.getAttr a.name with
    | none   => false
    | some v => a.holds (!el.xmlDoc && !el.foreignNs && !el.svgNs) v

end AttrPred

namespace Simple

variable {π : Type*} (sel : Simple π)

def matchesNs (el : Node) : Bool :=
  !sel.nsNone ||
    (el.foreignNs && !el.svgNs && (el.getAttr "data-nd-ns-uri".toList).isNone)

def matchesType (el : Node) : Bool :=
  match sel.type with
  | none   => true
  | some t =>
    t = ['*'] ||
      match el.name with
      | none      => false
      | some name => if el.svgNs || el.foreignNs then t == name else strcaseEq t name

def matchesId (el : Node) : Bool :=
  match sel.id with
  | none    => true
  | some id => el.getAttr "id".toList == some id

-- The part of `match_simple` before the pseudo-classes.
def matchesNames (el : Node) : Bool :=
  !sel.neverMatch && el.kind = .element && sel.matchesNs el && sel.matchesType el &&
    sel.matchesId el && sel.classes.all el.hasClass && sel.attrs.all (·.matchesOn el)

end Simple

-- `NS_DOM_MAX_DEPTH`
def domMaxDepth : Nat := 512

-- `NS_SEL_MATCH_BUDGET`
def selMatchBudget : Nat := 8000000

-- The loops of `match_complex_chain`, with the number of operations so far.
def tryEach {ν : Type*} (step : ν → Nat → Bool × Nat) : List ν → Nat → Bool × Nat
  | [],      ops => (false, ops)
  | n :: ns, ops =>
    if ops + 1 > selMatchBudget then (false, ops + 1)
    else
      match step n (ops + 1) with
      | (true,  ops) => (true, ops)
      | (false, ops) => tryEach step ns ops

namespace Page

variable {ι ρ σ ν π : Type*} (P : Page ι ρ σ ν π)

def isElement (n : ν) : Bool :=
  (P.node n).kind = .element

section Structural

variable (scope : Option ν)

def matchSimple (sel : Simple π) (el : ν) (ops : Nat) : Bool × Nat :=
  if sel.matchesNames (P.node el) then P.tests sel.tests scope el ops else (false, ops)

def matchComplexChain (sel : Selector π) : Nat → ν → Nat → Bool × Nat
  | 0,       _,   ops => (true, ops)
  | idx + 1, cur, ops =>
    match sel.combinators[idx + 1]?, sel.compounds[idx]? with
    | some comb, some prev =>
      let step n ops :=
        match P.matchSimple scope prev n ops with
        | (true,  ops) => matchComplexChain sel idx n ops
        | (false, ops) => (false, ops)
      match comb with
      | .child    => if ops + 1 > selMatchBudget then (false, ops + 1) else
        match P.parents cur with
        | []     => (false, ops + 1)
        | p :: _ => step p (ops + 1)
      | .adjacent => if ops + 1 > selMatchBudget then (false, ops + 1) else
        match (P.prevSiblings cur).find? P.isElement with
        | none   => (false, ops + 1)
        | some s => step s (ops + 1)
      | .sibling  =>
        tryEach (fun s ops => if P.isElement s then step s ops else (false, ops))
          ((P.prevSiblings cur).take domMaxDepth) ops
      | _         =>
        tryEach step
          (((P.parents cur).take domMaxDepth).takeWhile fun p => (P.node p).kind ≠ .document) ops
    | _, _ => (false, ops)

def matchSelectorStructural (sel : Selector π) (el : ν) : Bool :=
  match sel.compounds.getLast? with
  | none      => false
  | some subj =>
    match P.matchSimple scope subj el 0 with
    | (true,  ops) => (P.matchComplexChain scope sel (sel.compounds.length - 1) el ops).fst
    | (false, _)   => false

def matchSelector (sel : Selector π) (el : ν) : Bool :=
  sel.pseudoElement = .none && P.matchSelectorStructural scope sel el

def matchSelectorForPe (sel : Selector π) (el : ν) (pe : PseudoElement) : Bool :=
  sel.pseudoElement = pe && P.matchSelectorStructural scope sel el

-- The selector of a rule, which may be null, for the element itself or for a pseudo-element.
def matchSelectorOrPe (sel : Option σ) (el : ν) (pe : PseudoElement) : Bool :=
  match sel with
  | none     => false
  | some sel =>
    if pe = .none then P.matchSelector scope (P.selector sel) el
    else P.matchSelectorForPe scope (P.selector sel) el pe

-- `selector_group_matches_with_scope`
def selectorGroupMatches (group : List σ) (el : ν) : Bool :=
  group.any fun sel => P.matchSelector scope (P.selector sel) el

end Structural

section Scopes

variable [DecidableEq ν]

-- `none` is `INT_MAX`.
def cssScopeHops (root el : ν) : Option Nat :=
  (el :: P.parents el).idxOf? root

def cssScopeLimitExcludes (scope : Scope σ) (root el : ν) : Bool :=
  let upToRoot := ((el :: P.parents el).takeWhile (· ≠ root)) ++ [root]
  upToRoot.any fun n => P.isElement n && P.selectorGroupMatches (some root) scope.limits n

def cssScopeContains (scope : Scope σ) (root el : ν) : Bool :=
  (P.cssScopeHops root el).isSome && !P.cssScopeLimitExcludes scope root el

def cssScopeRootMatches (scope : Scope σ) (el : ν) : Bool :=
  P.selectorGroupMatches P.matchScope scope.roots el

def cssScopeAppliesTo (scope : Scope σ) (el : ν) : Bool :=
  (el :: P.parents el).any fun root =>
    P.isElement root && P.cssScopeRootMatches scope root && P.cssScopeContains scope root el

def ruleOuterScopesApply (outer : List (Scope σ)) (root el : ν) : Bool :=
  outer.all fun scope => P.cssScopeAppliesTo scope root && P.cssScopeAppliesTo scope el

def intMax : Nat := 2147483647

-- `none` is the result `FALSE`, and the value otherwise the scope order.
def ruleSelectorMatches (r : ρ) (sel : Option σ) (el : ν) (pe : PseudoElement) : Option Int :=
  match (P.rule r).scopes.getLast? with
  | none       => if P.matchSelectorOrPe P.matchScope sel el pe then some 0 else none
  | some inner =>
    let outer := (P.rule r).scopes.dropLast
    let order (root : ν) : Option Nat :=
      if P.isElement root && P.cssScopeRootMatches inner root && P.cssScopeContains inner root el &&
          P.ruleOuterScopesApply outer root el && P.matchSelectorOrPe (some root) sel el pe then
        (P.cssScopeHops root el).map fun hops => intMax - hops
      else none
    let best := ((el :: P.parents el).filterMap order).foldl max 0
    if best = 0 then none else some best

end Scopes

end Page

end Nordstjernen.Css.Gather
