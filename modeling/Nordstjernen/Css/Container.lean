import Nordstjernen.Css.Syntax.Scan

open Nordstjernen.Glib Nordstjernen.Css.Syntax

namespace Nordstjernen.Css.Container

-- What the loop of `cq_eval_expr` comes to: a word, or what stands between two parentheses.
inductive Item
  | word (w : CString)
  | group (inner : CString)
deriving DecidableEq

-- Where the loop is: between two items, in a word, or in a group, some parentheses deep.
inductive Place
  | between
  | word (w : CString)
  | group (depth : Nat) (inner : CString)
deriving DecidableEq

def itemsFrom : Place → CString → List Item
  | .between,      []      => []
  | .between,      c :: cs =>
    if isWs c then itemsFrom .between cs
    else if c = '(' then itemsFrom (.group 1 []) cs
    else itemsFrom (.word [c]) cs
  | .word w,       []      => [.word w]
  | .word w,       c :: cs =>
    if isWs c then .word w :: itemsFrom .between cs
    else if c = '(' then .word w :: itemsFrom (.group 1 []) cs
    else itemsFrom (.word (w ++ [c])) cs
  | .group _ g,    []      => [.group g]
  | .group d g,    c :: cs =>
    if c = '(' then itemsFrom (.group (d + 1) (g ++ [c])) cs
    else if c = ')' then
      if d = 1 then .group g :: itemsFrom .between cs else itemsFrom (.group (d - 1) (g ++ [c])) cs
    else itemsFrom (.group d (g ++ [c])) cs

def items (q : CString) : List Item :=
  itemsFrom .between q

-- The variables of `cq_eval_expr`.
structure Verdict where
  haveOr     : Bool := false
  any        : Bool := false
  pendingNot : Bool := false
  accAnd     : Bool := true
  accOr      : Bool := false

namespace Verdict

-- What the loop does at an item, with the values of the groups.
def step (value : CString → Bool) (v : Verdict) : Item → Verdict
  | .group inner =>
    let g := value inner != v.pendingNot
    if !v.any then { v with pendingNot := false, accAnd := g, accOr := g, any := true }
    else { v with pendingNot := false, accAnd := v.accAnd && g, accOr := v.accOr || g }
  | .word w      =>
    if strcaseEq w "or".toList then { v with haveOr := true }
    else if strcaseEq w "not".toList then { v with pendingNot := !v.pendingNot }
    else v

def result (v : Verdict) : Bool :=
  if !v.any then true else if v.haveOr then v.accOr else v.accAnd

end Verdict

def evalItems (value : CString → Bool) (its : List Item) : Bool :=
  (its.foldl (Verdict.step value) {}).result

-- `size` stands for the width, the height and the type of a container.
structure CqContainer (σ : Type) where
  names : Option CString
  size  : σ
deriving DecidableEq

variable {σ : Type} (featureMatches : CString → σ → Bool)

-- `cq_eval_expr`, which may still go down `depth` groups.
def cqEvalExpr (c : CqContainer σ) : Nat → CString → Bool
  | 0,         _ => false
  | depth + 1, q =>
    evalItems (fun inner => if inner.contains '(' then cqEvalExpr c depth inner else featureMatches inner c.size)
      (items q)

-- What a group is worth in a condition.
def groupValue (c : CqContainer σ) (inner : CString) : Bool :=
  if inner.contains '(' then cqEvalExpr featureMatches c 64 inner else featureMatches inner c.size

def cqNamesContain (names : Option CString) (name : CString) : Bool :=
  match names with
  | none    => false
  | some ns => (ns.splitOnP fun c => c == ' ' || c == '\t').contains name

-- The containers from the outermost to the innermost one.
def cqSelectContainer (stack : List (CqContainer σ)) (name : Option CString) : Option (CqContainer σ) :=
  stack.reverse.find? fun c => match name with
    | none      => true
    | some name => cqNamesContain c.names name

-- A condition that begins with a word other than `not` begins with a name.
def splitName : List Item → Option CString × List Item
  | .word w :: its => if strcaseEq w "not".toList then (none, .word w :: its) else (some w, its)
  | its            => (none, its)

def containerCondMatches (stack : List (CqContainer σ)) (cond : CString) : Bool :=
  let (name, its) := splitName (items cond)
  match cqSelectContainer stack name with
  | none   => false
  | some c => evalItems (groupValue featureMatches c) its

-- The condition of a rule in some `@container` blocks, with the prelude of the outermost one first.
def containerCondition : List CString → Option CString
  | []              => none
  | prelude :: rest =>
    match containerCondition rest with
    | some cond => some (gStrstrip prelude ++ " and ".toList ++ cond)
    | none      => some (gStrstrip prelude)

-- Whether the conditions of a rule let it apply.
def ruleApplies (stack : List (CqContainer σ)) (cond : Option CString) : Bool :=
  cond.all (containerCondMatches featureMatches stack)

end Nordstjernen.Css.Container
