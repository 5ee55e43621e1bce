import Nordstjernen.Css.Selector.Grammar

open Nordstjernen.Glib Nordstjernen.Css.Syntax

namespace Nordstjernen.Css.Selector

namespace Specificity

def Exceeds (s t : Specificity) : Prop :=
  s.a > t.a ∨ (s.a = t.a ∧ s.b > t.b) ∨ (s.a = t.a ∧ s.b = t.b ∧ s.c > t.c)

instance (s t : Specificity) : Decidable (s.Exceeds t) :=
  inferInstanceAs (Decidable (_ ∨ _ ∨ _))

def sum (ss : List Specificity) : Specificity :=
  ss.foldl add {}

def maximum (ss : List Specificity) : Specificity :=
  ss.foldl (fun m s => if s.Exceeds m then s else m) {}

end Specificity

-- What a text in parentheses comes to as a list of selectors: whether all of them are valid, and the largest
-- specificity of those that are. It is regular if the parser counts it so.
structure Meaning where
  valid   : Bool := false
  maximum : Specificity := {}
  regular : Bool := false

-- What a pseudo-class or a pseudo-element is for its specificity.
inductive Role
  | element
  | simple
  | has (arg : CString)
  | is (arg : CString)
  | where (arg : CString)
  | not (arg : CString)

def role (isElement : Bool) (name : CString) (arg : Option CString) : Role :=
  if isElement || isLegacyPseudoElement name then .element
  else
    match arg with
    | none     => .simple
    | some arg =>
      if strcaseEq name "has".toList then .has arg
      else if strcaseEq name "is".toList then .is arg
      else if strcaseEq name "where".toList then .where arg
      else if strcaseEq name "not".toList then .not arg
      else .simple

-- The selectors behind the `of` of `:nth-child()`.
def nthOf (kind : Pseudo) (arg : CString) : Option CString :=
  if kind = .nthChild || kind = .nthLastChild then
    (cssFindNthOf arg).map fun of => cssSkipWsComments (of.snd.drop 2)
  else none

def nthFormula (kind : Pseudo) (arg : CString) : CString :=
  if kind = .nthChild || kind = .nthLastChild then (cssFindNthOf arg).elim arg (·.fst) else arg

-- The kind and the argument of `:nth-child()` and those like it.
def nthArg (name : CString) (arg : Option CString) : Option (Pseudo × CString) :=
  if (lookup pseudoKeywords name).isSome || strcaseEq name "heading".toList then none
  else arg.bind fun arg => (lookup nthKeywords name).map fun kind => (kind, arg)

namespace Context

variable (ctx : Context)

def inList : Context :=
  { ctx with depth := ctx.depth + 1, relative := false }

def inHasList : Context :=
  { ctx with depth := ctx.depth + 1, relative := true, inHas := true }

def inNthList : Context :=
  { ctx with depth := 1, relative := false }

end Context

def SimpleToken.isType : SimpleToken → Bool
  | universal       => true
  | inNamespace _ _ => true
  | type _          => true
  | _               => false

-- The compounds of the selector that a text begins with.
def compoundsOf : List Tok → List (List SimpleToken)
  | .gap _ :: ts       => compoundsOf ts
  | .comb _ :: ts      => compoundsOf ts
  | .compound cs :: ts => if cs.all SimpleToken.isNameless then [] else cs :: compoundsOf ts
  | _                  => []

-- Whether an item of a list is a selector, which may begin with a combinator if it is relative.
def fits (ok : List SimpleToken → Bool) (relative : Bool) : Phase → List Tok → Bool
  | .item,     .gap _ :: ts       => fits ok relative .item ts
  | .item,     .comb _ :: ts      => relative && fits ok relative .comb ts
  | .item,     .compound cs :: ts => ok cs && fits ok relative .compound ts
  | .compound, []                 => true
  | .compound, .gap _ :: ts       => fits ok relative .gap ts
  | .compound, .comb _ :: ts      => fits ok relative .comb ts
  | .gap,      []                 => true
  | .gap,      .comb _ :: ts      => fits ok relative .comb ts
  | .gap,      .compound cs :: ts => ok cs && fits ok relative .compound ts
  | .comb,     .gap _ :: ts       => fits ok relative .comb ts
  | .comb,     .compound cs :: ts => ok cs && fits ok relative .compound ts
  | _,         _                  => false

section Simple

-- What the texts in parentheses come to.
variable (meaning : Context → CString → Meaning) (ctx : Context)

def tokenSpecificity : SimpleToken → Specificity
  | .id _                      => { a := 1 }
  | .class _ _                 => { b := 1 }
  | .attr _ _ _                => { b := 1 }
  | .type _                    => { c := 1 }
  | .inNamespace _ (some _)    => { c := 1 }
  | .pseudo isElement name arg =>
    match role isElement name arg with
    | .element => { c := 1 }
    | .has arg => (meaning ctx.inHasList arg).maximum
    | .is arg  => (meaning ctx.inList arg).maximum
    | .where _ => {}
    | .not arg => (meaning ctx.inList arg).maximum
    | .simple  =>
      let of := (nthArg name arg).bind fun nth => nthOf nth.fst nth.snd
      ({ b := 1 } : Specificity).add (of.elim {} fun of => (meaning ctx.inNthList of).maximum)
  | _                          => {}

-- Whether there is such a pseudo-class with such an argument.
def classValid (name : CString) (arg : Option CString) : Bool :=
  if (lookup pseudoKeywords name).isSome then arg.isNone
  else if strcaseEq name "heading".toList then (parseHeading arg).isSome
  else
    match arg with
    | none     => isStandardPseudoClass name
    | some arg =>
      match lookup nthKeywords name with
      | some kind =>
        (parseAnb (nthFormula kind arg)).isSome &&
          (nthOf kind arg).all fun of => (meaning ctx.inNthList of).valid
      | none      =>
        if strcaseEq name "lang".toList then (parseLang arg).isSome
        else if strcaseEq name "dir".toList then (parseDir arg).isSome
        else isStandardPseudoClass name

-- Whether a simple selector may stand in parentheses. The lists of `:is()` and `:where()` may hold anything.
def tokenValid : SimpleToken → Bool
  | .universal                 => true
  | .type _                    => true
  | .inNamespace _ type        => type ≠ some []
  | .id name                   => name ≠ []
  | .class badStart name       => !badStart && name ≠ []
  | .attr nsPrefix error _     => !nsPrefix && !error
  | .prefixed                  => false
  | .nameless _                => false
  | .pseudo isElement name arg =>
    name ≠ [] &&
      match role isElement name arg with
      | .element   => false
      | .has arg   => !ctx.inHas && (meaning ctx.inHasList arg).valid
      | .is arg    => !ctx.strict || (meaning ctx.inList arg).valid
      | .where arg => !ctx.strict || (meaning ctx.inList arg).valid
      | .not arg   => (meaning ctx.inList arg).valid
      | .simple    => classValid meaning ctx name arg

-- A type comes first in a compound selector.
def compoundValid (cs : List SimpleToken) : Bool :=
  cs ≠ [] && cs.all (tokenValid meaning ctx) && cs.tail.all (!·.isType)

-- Whether the parser knows more of a pseudo-class or pseudo-element than its name, and counts its list right.
def tokenRegular : SimpleToken → Bool
  | .pseudo isElement name arg =>
    match role isElement name arg with
    | .element => (lookup pseudoElements name).isSome
    | .has arg => (meaning ctx.inHasList arg).regular
    | .is arg  => (meaning ctx.inList arg).regular
    | .where _ => true
    | .not arg => (meaning ctx.inList arg).regular
    | .simple  =>
      ((lookup pseudoKeywords name).isSome || !isStandardPseudoClass name) &&
        ((nthArg name arg).bind fun nth => nthOf nth.fst nth.snd).all fun of => (meaning ctx.inNthList of).regular
  -- With a namespace that is not declared there is no such selector.
  | .prefixed                  => false
  | _                          => true

-- Whether no name with a namespace stands behind another type.
def namespaceFirst : Bool → List SimpleToken → Bool
  | _,     []                              => true
  | typed, .inNamespace _ (some _) :: ts => !typed && namespaceFirst true ts
  | typed, t :: ts                         => namespaceFirst (typed || t.isType) ts

def compoundRegular (cs : List SimpleToken) : Bool :=
  cs.all (tokenRegular meaning ctx) && namespaceFirst false cs

def itemSpecificity (item : List Tok) : Specificity :=
  .sum ((compoundsOf item).map fun cs => .sum (cs.map (tokenSpecificity meaning ctx)))

def itemRegular (item : List Tok) : Bool :=
  (compoundsOf item).all (compoundRegular meaning ctx)

def itemValid (item : List Tok) : Bool :=
  fits (compoundValid meaning ctx) ctx.relative .item item

end Simple

-- Texts in so many levels of parentheses.
def meaning : Nat → Context → CString → Meaning
  | 0,     _,   _ => {}
  | n + 1, ctx, p =>
    let args := items (tokens p)
    let valid := itemValid (meaning n) ctx
    { valid   := args.all valid
      maximum := .maximum ((args.filter valid).map (itemSpecificity (meaning n) ctx))
      regular :=
        ctx.depth ≤ maxSelectorNesting &&
          args.all fun item => item.all Tok.isGap || valid item && itemRegular (meaning n) ctx item }

-- The specificity of the selector that a text begins with.
def specificity (levels : Nat) (ctx : Context) (p : CString) : Specificity :=
  itemSpecificity (meaning levels) ctx (tokens p)

def Regular (levels : Nat) (ctx : Context) (p : CString) : Prop :=
  itemRegular (meaning levels) ctx (tokens p)

instance (levels : Nat) (ctx : Context) (p : CString) : Decidable (Regular levels ctx p) :=
  inferInstanceAs (Decidable (_ = true))

-- The specificity that the parser stores.
def Sel.specificity (sel : Sel) : Specificity :=
  ⟨sel.get.specA, sel.get.specB, sel.get.specC⟩

end Nordstjernen.Css.Selector
