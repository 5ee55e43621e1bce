import Nordstjernen.Css.Selector.Parse

open Nordstjernen.Glib Nordstjernen.Css.Syntax
open Nordstjernen.Css.Gather (Comb)

namespace Nordstjernen.Css.Selector

-- What the text of a list of selectors consists of. `other` begins nothing that may stand in a selector.
inductive Tok
  | gap (comment : Bool)
  | comma
  | brace
  | comb (comb : Comb)
  | compound (ts : List SimpleToken)
  | other (c : Char)

namespace Tok

def isGap : Tok → Bool
  | gap _ => true
  | _     => false

def isComb : Tok → Bool
  | comb _ => true
  | _      => false

def isComma : Tok → Bool
  | comma => true
  | _     => false

def isCompound : Tok → Bool
  | compound _ => true
  | _          => false

end Tok

-- The token that begins with a character.
def tokAt (c : Char) (cs : CString) : Tok × CString :=
  if c == ',' then (.comma, cs)
  else if c == '{' then (.brace, cs)
  else
    match comb? c with
    | some comb => (.comb comb, cs)
    | none      =>
      let (ts, rest) := readCompound (cs.length + 1) (c :: cs)
      if ts.isEmpty then (.other c, cs) else (.compound ts, rest)

-- The first token of a text that has one.
def nextTok (p : CString) : Tok × CString :=
  let rest := cssSkipWsComments p
  if rest.length < p.length then (.gap (p.dropWhile isWs ≠ rest), rest)
  else
    match p with
    | []      => (.gap false, [])
    | c :: cs => tokAt c cs

def tokensFrom : Nat → CString → List Tok
  | 0,     _ => []
  | n + 1, p =>
    if p = [] then []
    else
      let (t, rest) := nextTok p
      t :: tokensFrom n rest

def tokens (p : CString) : List Tok :=
  tokensFrom p.length p

namespace SimpleToken

def isNameless : SimpleToken → Bool
  | nameless _ => true
  | _          => false

-- Every name is there, and a class name does not begin as a number does.
def wellFormed : SimpleToken → Bool
  | inNamespace _ t => t ≠ some []
  | id n            => n ≠ []
  | .class bad n    => !bad && n ≠ []
  | pseudo _ n _    => n ≠ []
  | attr _ error _  => !error
  | nameless _      => false
  | _               => true

end SimpleToken

section List

variable (ts : List Tok)

-- White space, comments, and at most one of `>`, `+` and `~`.
structure IsJoint : Prop where
  nonempty : ts ≠ []
  joins    : ∀ t ∈ ts, t.isGap ∨ t.isComb
  single   : ts.countP Tok.isComb ≤ 1

-- A complex selector.
inductive IsComplex : List Tok → Prop
  | compound {cs : List SimpleToken} (nonempty : cs ≠ []) (wellFormed : ∀ t ∈ cs, t.wellFormed) :
    IsComplex [.compound cs]
  | join {cs : List SimpleToken} {j r : List Tok} (nonempty : cs ≠ []) (wellFormed : ∀ t ∈ cs, t.wellFormed)
    (joint : IsJoint j) (rest : IsComplex r) : IsComplex (.compound cs :: (j ++ r))

-- A complex selector with white space and comments around it.
def IsItem : Prop :=
  ∃ lead r trail, ts = lead ++ r ++ trail ∧ IsComplex r ∧
    (∀ t ∈ lead, t.isGap) ∧ ∀ t ∈ trail, t.isGap

def items : List (List Tok) :=
  ts.splitOnP Tok.isComma

-- A list of selectors, with commas in between.
def IsSelectorList : Prop :=
  ∀ item ∈ items ts, IsItem item

end List

-- What makes a text no list, though the parser may not flag it: a character that does not belong there, brackets
-- with no name in them, and an item with no selector.

def Tok.isFlaw : Tok → Bool
  | brace       => true
  | other _     => true
  | compound cs => cs.any SimpleToken.isNameless
  | _           => false

structure Flawless (ts : List Tok) : Prop where
  tokens : ∀ t ∈ ts, t.isFlaw = false
  items  : ∀ item ∈ items ts, ∃ t ∈ item, t.isCompound

-- Where a text stands in an item: before its selector, behind a comment or brackets that stand there,
-- in a selector behind a compound, white space or a combinator.
inductive Phase
  | item
  | blank
  | brackets
  | compound
  | gap
  | comb

-- Whether the tokens are a list apart from flaws that the parser overlooks. `checked` is for
-- `ns_css_parse_selector_list_checked`, and otherwise it is for the loop of `parse_rules_until`; `ok` is whether a
-- compound selector raises no flag, and `seen` whether there was a selector.
def overlooks (checked : Bool) (ok : List SimpleToken → Bool) : Bool → Phase → List Tok → Bool
  | seen, .item,     []                => !checked && seen
  | seen, .item,     .comma :: ts      => !checked && overlooks checked ok seen .item ts
  | seen, .item,     .gap comment :: ts =>
    overlooks checked ok seen (if checked && comment then .blank else .item) ts
  | seen, .item,     .compound cs :: ts =>
    ok cs &&
      if cs.all SimpleToken.isNameless then overlooks checked ok seen (if checked then .blank else .brackets) ts
      else overlooks checked ok true .compound ts
  | seen, .item,     .brace :: _       => !checked && seen
  | seen, .item,     .other _ :: _     => !checked && seen
  | seen, .blank,    .comma :: ts      => overlooks checked ok seen .item ts
  | seen, .blank,    .gap _ :: ts      => overlooks checked ok seen .blank ts
  | seen, .blank,    .compound cs :: ts =>
    ok cs && overlooks checked ok (seen || !cs.all SimpleToken.isNameless)
      (if cs.all SimpleToken.isNameless then .blank else .compound) ts
  | seen, .brackets, .comma :: ts      => overlooks checked ok seen .item ts
  | seen, .brackets, .gap false :: ts  => overlooks checked ok seen .brackets ts
  | seen, .brackets, _                 => seen
  | _,    .compound, []                => true
  | _,    .compound, .comma :: ts      => overlooks checked ok true .item ts
  | _,    .compound, .gap _ :: ts      => overlooks checked ok true .gap ts
  | _,    .compound, .comb _ :: ts     => overlooks checked ok true .comb ts
  | _,    .compound, .brace :: _       => true
  | _,    .compound, .other _ :: _     => true
  | _,    .gap,      []                => true
  | _,    .gap,      .comma :: ts      => overlooks checked ok true .item ts
  | _,    .gap,      .comb _ :: ts     => overlooks checked ok true .comb ts
  | _,    .gap,      .brace :: _       => true
  | _,    .gap,      .compound cs :: ts =>
    ok cs && !cs.all SimpleToken.isNameless && overlooks checked ok true .compound ts
  | _,    .comb,     .gap _ :: ts      => overlooks checked ok true .comb ts
  | _,    .comb,     .compound cs :: ts =>
    ok cs && !cs.all SimpleToken.isNameless && overlooks checked ok true .compound ts
  | _,    _,         _                 => false

end Nordstjernen.Css.Selector

namespace Nordstjernen.Css.Selector

def IsN (c : Char) : Prop :=
  c = 'n' ∨ c = 'N'

def IsSignChar (c : Char) : Prop :=
  c = '+' ∨ c = '-'

def IsSign (s : CString) : Prop :=
  s = [] ∨ s = ['+'] ∨ s = ['-']

def IsDigits (ds : CString) : Prop :=
  ds ≠ [] ∧ ∀ c ∈ ds, c.isDigit

def IsBlank (s : CString) : Prop :=
  ∀ c ∈ s, isWs c

def signed (sign : CString) (n : Nat) : Int :=
  if sign = ['-'] then -n else n

def number (ds : CString) : Nat :=
  Nat.ofDigitChars 10 ds 0

-- What stands in front of the `n`.
inductive Coefficient : CString → Int → Prop
  | one {sign} (hs : IsSign sign) : Coefficient sign (signed sign 1)
  | digits {sign ds} (hs : IsSign sign) (hd : IsDigits ds) : Coefficient (sign ++ ds) (signed sign (number ds))

-- The An+B microsyntax, with white space only around the sign behind the `n`.
inductive AnB : CString → Int → Int → Prop
  | odd {s} (h : strcaseEq s "odd".toList) : AnB s 2 1
  | even {s} (h : strcaseEq s "even".toList) : AnB s 2 0
  | integer {sign ds} (hs : IsSign sign) (hd : IsDigits ds) : AnB (sign ++ ds) 0 (signed sign (number ds))
  | step {s a n} (h : Coefficient s a) (hn : IsN n) : AnB (s ++ [n]) a 0
  | offset {s a n ws sign ws' ds} (h : Coefficient s a) (hn : IsN n) (hw : IsBlank ws) (hs : IsSignChar sign)
    (hw' : IsBlank ws') (hd : IsDigits ds) :
    AnB (s ++ n :: (ws ++ sign :: (ws' ++ ds))) a (signed [sign] (number ds))

-- The same with white space around it.
def IsAnPlusB (text : CString) (a b : Int) : Prop :=
  ∃ lead s trail, text = lead ++ s ++ trail ∧ IsBlank lead ∧ IsBlank trail ∧ AnB s a b

-- The bounds that the code sets to the numbers.
def clampAnb (n : Int) : Int :=
  max (-1000000) (min 1000000 n)

-- Whether `parse_anb` accepts a text if it is in the microsyntax, with its numbers.
def AnbExact (text : CString) : Prop :=
  ∀ a b, parseAnb text = some (a, b) ↔ ∃ a' b', IsAnPlusB text a' b' ∧ a = clampAnb a' ∧ b = clampAnb b'

def squeeze (s : CString) : CString :=
  s.filter fun c => !isWs c

def BehindN (u : CString) : Prop :=
  ∃ r n, IsN n ∧ (u = r ++ [n] ∨ ∃ sign, IsSignChar sign ∧ u = r ++ [n, sign])

-- White space inside a text is only behind the `n` or the sign that follows it.
def BlanksPlaced (t : CString) : Prop :=
  ∀ u w v, t = u ++ w :: v → isWs w → BehindN (squeeze u)

-- The condition under which it makes no difference that `parse_anb` drops the white space.
def AnbRegular (text : CString) : Prop :=
  (∃ a b, AnB (squeeze (gStrstrip (gStrndup text))) a b) → '\x00' ∉ text ∧ BlanksPlaced (gStrstrip text)

end Nordstjernen.Css.Selector
