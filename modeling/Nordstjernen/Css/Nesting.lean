import Nordstjernen.Css.Syntax.Scan
import Nordstjernen.Lib.Hoist

open Nordstjernen.Glib Nordstjernen.Css.Syntax

namespace Nordstjernen.Css.Nesting

section Scan

-- `css_skip_to_block_end`, at the brace that opens a block: the block, and the text behind it.
def skipToBlockEnd : Nat → Option Char → Nat → CString → CString × CString
  | _,     _,     _,     []      => ([], [])
  | k + 1, quote, depth, c :: cs => (skipToBlockEnd k quote depth cs).map (c :: ·) id
  | 0,     quote, depth, c :: cs =>
    match passOver quote c cs with
    | some (quote', k) => (skipToBlockEnd k quote' depth cs).map (c :: ·) id
    | none             =>
      if c == '}' && depth ≤ 1 then ([c], cs)
      else
        let depth := if c == '{' then depth + 1 else if c == '}' then depth - 1 else depth
        (skipToBlockEnd 0 none depth cs).map (c :: ·) id

-- What a block has between its braces. The one at the end need not be there.
def blockBody (block : CString) : CString :=
  let body := block.tail
  if body.getLast? = some '}' then body.dropLast else body

-- The loop over a comment in a body, behind `/*`. It leaves the last character if the comment is not closed.
def bodyComment : CString → CString × CString
  | []           => ([], [])
  | [c]          => ([], [c])
  | c :: d :: cs =>
    if c == '*' && d == '/' then ([c, d], cs) else (bodyComment (d :: cs)).map (c :: ·) id

-- White space behind an odd number of backslashes is escaped.
def trimEnd : CString → CString
  | []      => []
  | c :: cs =>
    if isWs c && (cs.takeWhile (· == '\\')).length % 2 = 0 then trimEnd cs else c :: cs

def cssTrimSelector (sel : CString) : CString :=
  (trimEnd (sel.dropWhile isWs).reverse).reverse

end Scan

section Combine

-- The loop of `css_append_nested_selector`: what is appended, and whether a `&` was replaced.
def appendNested (parentExpr : CString) : Nat → Option Char → Nat → CString → CString × Bool
  | _,     _,     _,       []      => ([], false)
  | k + 1, quote, bracket, c :: cs => (appendNested parentExpr k quote bracket cs).map (c :: ·) id
  | 0,     quote, bracket, c :: cs =>
    match quote with
    | some q =>
      if c == '\\' && cs ≠ [] then (appendNested parentExpr 1 quote bracket cs).map (c :: ·) id
      else (appendNested parentExpr 0 (if c == q then none else quote) bracket cs).map (c :: ·) id
    | none   =>
      if c == '/' && cs.head? == some '*' then
        (appendNested parentExpr (commentLength (c :: cs)) none bracket cs).map (c :: ·) id
      else if c == '\\' && cs ≠ [] then (appendNested parentExpr 1 none bracket cs).map (c :: ·) id
      else if c == '"' || c == '\'' then (appendNested parentExpr 0 (some c) bracket cs).map (c :: ·) id
      else
        let bracket := if c == '[' then bracket + 1 else if c == ']' then bracket - 1 else bracket
        if c == '&' && bracket = 0 then
          (appendNested parentExpr 0 none bracket cs).map (parentExpr ++ ·) fun _ => true
        else (appendNested parentExpr 0 none bracket cs).map (c :: ·) id

def cssAppendNestedSelector (part parentExpr : CString) : CString × Bool :=
  appendNested parentExpr 0 none 0 part

-- The parts of a list of selectors, as they are between the commas.
def listParts : Nat → CString → List CString
  | 0,     _ => []
  | n + 1, p =>
    if p = [] then []
    else
      let s := cssScanUntil p [',']
      s.taken :: listParts n (if s.term = ',' then s.rest.tail else s.rest)

def isParent (parent : CString) : CString :=
  ":is(".toList ++ parent ++ [')']

def combinePart (pc part : CString) : CString :=
  let (piece, replaced) := cssAppendNestedSelector part (isParent pc)
  if replaced then piece else isParent pc ++ ' ' :: part

def cssCombineSelectors (parent child : CString) : CString :=
  let pc := gStrstrip parent
  let cc := gStrstrip child
  ", ".toList.intercalate (((listParts cc.length cc).map cssTrimDupRange).filter (· ≠ []) |>.map (combinePart pc))

end Combine

section Body

-- What the loop over the body of a style rule comes to.
inductive BodyItem
  | comment (text : CString)
  | decl (text : CString) (term : Char)
  | rule (sel body : CString)
deriving DecidableEq

def bodyItems : Nat → CString → List BodyItem
  | 0,     _ => []
  | n + 1, p =>
    let p := p.dropWhile isWs
    if p = [] then []
    else if p.head? == some '/' && p.tail.head? == some '*' then
      let (text, rest) := bodyComment p.tail.tail
      .comment ('/' :: '*' :: text) :: bodyItems n rest
    else
      let s := cssScanSegment p
      if s.term = '{' then
        let (block, rest) := skipToBlockEnd 0 none 0 s.rest
        .rule (cssTrimSelector (gStrndup s.taken)) (blockBody block) :: bodyItems n rest
      else .decl s.taken s.term :: bodyItems n s.rest.tail

def items (body : CString) : List BodyItem :=
  bodyItems body.length body

-- The loop of `css_body_has_nested_rule`, which also ends at a character `\x00`.
def hasNestedRule : Nat → CString → Bool
  | 0,     _ => false
  | n + 1, p =>
    let p := p.dropWhile isWs
    if p = [] then false
    else if p.head? == some '/' && p.tail.head? == some '*' then hasNestedRule n (bodyComment p.tail.tail).snd
    else
      let s := cssScanSegment p
      if s.term = '{' then true
      else if s.term = '\x00' then false
      else hasNestedRule n s.rest.tail

def cssBodyHasNestedRule (body : CString) : Bool :=
  hasNestedRule body.length body

-- What is appended to the declarations of a rule.
def BodyItem.declText : BodyItem → CString
  | comment text   => text
  | decl text term => if term = ';' then text ++ [';'] else text
  | rule _ _       => []

end Body

-- What is appended to the flat sheet.
inductive Flat
  | rule (sel body : CString)
  | group (prelude : CString) (content : List Flat)
  | raw (text : CString)

def Flat.text : Flat → CString
  | rule sel body          => sel ++ '{' :: body ++ ['}']
  | group prelude content => prelude ++ '{' :: content.flatMap text ++ ['}']
  | raw text               => text

-- The at-rules whose blocks hold rules.
def isGroup (prelude : CString) : Bool :=
  ["@media", "@supports", "@container", "@layer", "@scope"].any fun name => hasCasePrefix prelude name.toList

-- `css_flatten_style_rule`, with so many levels left up to `NS_CSS_NEST_MAX_DEPTH`.
def flattenStyleRule : Nat → CString → CString → List Flat
  | 0,     _,   _    => []
  | k + 1, sel, body =>
    if !cssBodyHasNestedRule body then [.rule sel body]
    else
      let decls := (items body).flatMap (·.declText)
      let deferred := (items body).flatMap fun
        | .rule nsel nbody =>
          if nsel.head? = some '@' then
            if isGroup nsel then [.group nsel (flattenStyleRule k sel nbody)] else []
          else flattenStyleRule k (cssCombineSelectors sel nsel) nbody
        | _                => []
      (if decls = [] then [] else [.rule sel decls]) ++ deferred

-- What the loop over a list of rules comes to.
inductive RuleItem
  | statement (text : CString)
  | group (prelude body : CString)
  | block (text : CString)
  | style (sel body : CString)

def ruleItems : Nat → CString → List RuleItem
  | 0,     _ => []
  | n + 1, p =>
    let p := cssSkipWsComments p
    if p = [] then []
    else if gStrHasPrefix p "<!--".toList then ruleItems n (p.drop 4)
    else if gStrHasPrefix p "-->".toList then ruleItems n (p.drop 3)
    else if p.head? = some '}' then ruleItems n p.tail
    else
      let s := cssScanSegment p
      if p.head? = some '@' then
        if s.term = '{' then
          let (block, rest) := skipToBlockEnd 0 none 0 s.rest
          (if isGroup p then .group s.taken (blockBody block) else .block (s.taken ++ block)) :: ruleItems n rest
        else if s.term = ';' then .statement (s.taken ++ [';']) :: ruleItems n s.rest.tail
        else .statement s.taken :: ruleItems n s.rest
      else if s.term = '{' then
        let (block, rest) := skipToBlockEnd 0 none 0 s.rest
        .style (cssTrimSelector (gStrndup s.taken)) (blockBody block) :: ruleItems n rest
      else ruleItems n s.rest.tail

def rules (text : CString) : List RuleItem :=
  ruleItems text.length text

-- `css_flatten_rule_list`
def flattenRuleList : Nat → CString → List Flat
  | 0,     _    => []
  | k + 1, text => (rules text).flatMap fun
    | .statement text     => [.raw text]
    | .group prelude body => [.group prelude (flattenRuleList k body)]
    | .block text         => [.raw text]
    | .style sel body     => flattenStyleRule k sel body

-- `NS_CSS_NEST_MAX_DEPTH`
def nestMaxDepth : Nat := 128

def flatSheet (text : CString) : List Flat :=
  flattenRuleList (nestMaxDepth + 1) text

def cssFlattenNesting (text : CString) : CString :=
  (flatSheet text).flatMap Flat.text

end Nordstjernen.Css.Nesting

open Nordstjernen.Lib.Hoist

namespace Nordstjernen.Css.Nesting

-- A declaration where it comes to apply: in which groups, and for which selectors.
structure Appearance where
  groups : List CString
  sel    : CString
  decl   : CString
deriving DecidableEq

namespace BodyItem

def isRule : BodyItem → Bool
  | rule _ _ => true
  | _        => false

def decls : BodyItem → List CString
  | decl text _ => if text = [] then [] else [text]
  | _           => []

end BodyItem

section Bind

-- Whether the characters of a selector are a `&` that stands for the parent. In strings, comments, escapes and
-- brackets there is none.
def nestings : Nat → Option Char → Nat → CString → List (Char × Bool)
  | _,     _,     _,       []      => []
  | k + 1, quote, bracket, c :: cs => (c, false) :: nestings k quote bracket cs
  | 0,     quote, bracket, c :: cs =>
    match quote with
    | some q =>
      if c == '\\' && cs ≠ [] then (c, false) :: nestings 1 quote bracket cs
      else (c, false) :: nestings 0 (if c == q then none else quote) bracket cs
    | none   =>
      if c == '/' && cs.head? == some '*' then (c, false) :: nestings (commentLength (c :: cs)) none bracket cs
      else if c == '\\' && cs ≠ [] then (c, false) :: nestings 1 none bracket cs
      else if c == '"' || c == '\'' then (c, false) :: nestings 0 (some c) bracket cs
      else
        let bracket := if c == '[' then bracket + 1 else if c == ']' then bracket - 1 else bracket
        (c, c == '&' && bracket = 0) :: nestings 0 none bracket cs

-- A complex selector with the parent put in, as an ancestor if it is not named.
def bindPart (parent part : CString) : CString :=
  let marked := nestings 0 none 0 part
  if marked.any (·.snd) then marked.flatMap fun c => if c.snd then isParent parent else [c.fst]
  else isParent parent ++ ' ' :: part

-- The selectors of a nested rule with its parent put in.
def bindSelectors (parent child : CString) : CString :=
  ", ".toList.intercalate
    ((((listParts child.length child).map cssTrimSelector).filter (· ≠ [])).map (bindPart parent))

end Bind

-- Whether what is in a body is read: groups and style rules are.
def opens (nsel : CString) : Bool :=
  nsel.head? ≠ some '@' || isGroup nsel

-- The groups and the selectors of what is in a nested group or rule.
def innerGroups (groups : List CString) (nsel : CString) : List CString :=
  if nsel.head? = some '@' then groups ++ [nsel] else groups

def innerSel (sel nsel : CString) : CString :=
  if nsel.head? = some '@' then sel else bindSelectors sel nsel

-- What a body declares in the order of the text.
def styleMeaning : Nat → List CString → CString → CString → List Appearance
  | 0,     _,      _,   _    => []
  | k + 1, groups, sel, body => (items body).flatMap fun item =>
    item.decls.map (⟨groups, sel, ·⟩) ++
      match item with
      | .rule nsel nbody =>
        if opens nsel then styleMeaning k (innerGroups groups nsel) (innerSel sel nsel) nbody else []
      | _                => []

def BodyItem.meaning (k : Nat) (groups : List CString) (sel : CString) : BodyItem → List Appearance
  | rule nsel nbody =>
    if opens nsel then styleMeaning k (innerGroups groups nsel) (innerSel sel nsel) nbody else []
  | _               => []

def ruleMeaning : Nat → List CString → CString → List Appearance
  | 0,     _,      _    => []
  | k + 1, groups, text => (rules text).flatMap fun
    | .group prelude body => ruleMeaning k (groups ++ [prelude]) body
    | .style sel body     => styleMeaning k groups sel body
    | _                   => []

-- The same with the declarations of a rule itself in front of what is nested in it.
def styleHoisted : Nat → List CString → CString → CString → List Appearance
  | 0,     _,      _,   _    => []
  | k + 1, groups, sel, body =>
    ((items body).flatMap fun item => item.decls.map (⟨groups, sel, ·⟩)) ++
      (items body).flatMap fun
        | .rule nsel nbody =>
          if opens nsel then styleHoisted k (innerGroups groups nsel) (innerSel sel nsel) nbody else []
        | _                => []

def ruleHoisted : Nat → List CString → CString → List Appearance
  | 0,     _,      _    => []
  | k + 1, groups, text => (rules text).flatMap fun
    | .group prelude body => ruleHoisted k (groups ++ [prelude]) body
    | .style sel body     => styleHoisted k groups sel body
    | _                   => []

-- What the pieces of a flat sheet declare.
def Flat.declared (groups : List CString) : Flat → List Appearance
  | rule sel body         => ((items body).flatMap (·.decls)).map (⟨groups, sel, ·⟩)
  | group prelude content => content.flatMap (declared (groups ++ [prelude]))
  | raw _                 => []

def declaredBy (text : CString) : List Appearance :=
  (flatSheet text).flatMap (Flat.declared [])

-- Whether a sheet of so many levels keeps its meaning.
def KeepsMeaning (levels : Nat) (text : CString) : Prop :=
  declaredBy text = ruleMeaning levels [] text

section Tidy

-- Every comment is closed, and every declaration but the last one ends with a semicolon.
def terminated : List BodyItem → Bool
  | []                  => true
  | .comment text :: is => "*/".toList.isSuffixOf (text.drop 2) && terminated is
  | .decl _ term :: is  => (term = ';' || is.isEmpty && term = '\x00') && terminated is
  | .rule _ _ :: is     => terminated is

-- There are selectors, and nothing in them ends in white space, which only an escape leaves there.
structure Named (parent child : CString) : Prop where
  bound : bindSelectors parent child ≠ []
  outer : gStrstrip parent = parent
  inner : gStrstrip child = child
  parts : ∀ part ∈ listParts child.length child, cssTrimDupRange part = cssTrimSelector part

-- A style rule that is well formed. Below so many levels it declares nothing.
def StyleTidy : Nat → CString → CString → Prop
  | 0,     sel, body => ∀ k groups, styleMeaning k groups sel body = []
  | k + 1, sel, body => (items body).any BodyItem.isRule → '\x00' ∉ body ∧ terminated (items body) ∧
    ∀ nsel nbody, .rule nsel nbody ∈ items body → opens nsel →
      (nsel.head? ≠ some '@' → Named sel nsel) ∧ StyleTidy k (innerSel sel nsel) nbody

def SheetTidy : Nat → CString → Prop
  | 0,     text => ∀ k groups, ruleMeaning k groups text = []
  | k + 1, text => ∀ item ∈ rules text,
    match item with
    | .group _ body   => SheetTidy k body
    | .style sel body => StyleTidy k sel body
    | _               => True

end Tidy

-- The declarations of a rule come before the rules and groups in it that declare something.
def StyleOrdered : Nat → CString → CString → Prop
  | 0,     _,   _    => True
  | k + 1, sel, body =>
    Ahead BodyItem.decls (BodyItem.meaning k [] sel) (items body) ∧
      ∀ nsel nbody, .rule nsel nbody ∈ items body → opens nsel → StyleOrdered k (innerSel sel nsel) nbody

def SheetOrdered : Nat → CString → Prop
  | 0,     _    => True
  | k + 1, text => ∀ item ∈ rules text,
    match item with
    | .group _ body   => SheetOrdered k body
    | .style sel body => StyleOrdered k sel body
    | _               => True

end Nordstjernen.Css.Nesting
