import Mathlib.Algebra.Field.Rat
import Mathlib.Algebra.Order.Ring.Rat
import Nordstjernen.Glib.Strtod

open Nordstjernen.Glib

namespace Nordstjernen.Css.Media

-- The arithmetic of `double`, with the double that is nearest to a number of the source and the one that a text
-- stands for. No law of it is relied on.
class Double (D : Type) extends Zero D, Add D, Neg D, Mul D, Div D where
  lt     : D → D → Bool
  le     : D → D → Bool
  beq    : D → D → Bool
  isNan  : D → Bool
  lit    : ℚ → D
  ofText : CString → D

-- Exact arithmetic, for texts that are whole numbers.
scoped instance : Double ℚ where
  lt x y   := decide (x < y)
  le x y   := decide (x ≤ y)
  beq x y  := decide (x = y)
  isNan _  := false
  lit x    := x
  ofText s := Nat.ofDigitChars 10 (s.filter Char.isDigit) 0

-- What `mq_vw` and `mq_vh` give.
structure Viewport (D : Type) where
  vw : D
  vh : D

-- A pointer into a value, with the character before it and the text from it to the end of the value.
structure Cursor where
  prev : Char
  rest : CString

def mqIsWs (c : Char) : Bool :=
  c == ' ' || c == '\t' || c == '\n' || c == '\r' || c == '\x0c'

-- `MQ_MAX_DEPTH`
def mqMaxDepth : Nat :=
  32

namespace Cursor

variable (p : Cursor)

def advance (n : Nat) : Cursor where
  prev := ((p.prev :: p.rest)[n]?).getD p.prev
  rest := p.rest.drop n

-- `mq_skip_ws`
def skipWs : Cursor :=
  p.advance (p.rest.takeWhile mqIsWs).length

def close : Cursor :=
  let q := p.skipWs
  if q.rest.head? = some ')' then q.advance 1 else q

-- How much opens an expression of its own there. The text goes on with `after` behind the end of the value.
def opener (after : CString) : Option Nat :=
  if p.rest.head? = some '(' then some 1
  else if p.rest ≠ [] ∧ hasCasePrefix (p.rest ++ after) "calc(".toList then some 5
  else none

end Cursor

section Units

variable {D : Type} [Double D]

open Double

def min' (a b : D) : D :=
  if lt a b then a else b

def max' (a b : D) : D :=
  if lt b a then a else b

def unitIs (unit : CString) (s : String) : Bool :=
  strcaseEq unit s.toList

-- The unit functions give `none` for `NAN`.
def mqLengthUnitPx (view : Viewport D) (v : D) (unit : CString) : Option D :=
  if unit = [] || unitIs unit "px" then some v
  else if unitIs unit "em" || unitIs unit "rem" then some (v * lit 16)
  else if unitIs unit "ex" || unitIs unit "ch" then some (v * lit 8)
  else if unitIs unit "cm" then some (v * lit 96 / lit 2.54)
  else if unitIs unit "mm" then some (v * lit 96 / lit 25.4)
  else if unitIs unit "q" then some (v * lit 96 / lit 101.6)
  else if unitIs unit "in" then some (v * lit 96)
  else if unitIs unit "pt" then some (v * lit 96 / lit 72)
  else if unitIs unit "pc" then some (v * lit 16)
  else if unitIs unit "vw" then some (v * view.vw / lit 100)
  else if unitIs unit "vh" then some (v * view.vh / lit 100)
  else if unitIs unit "vmin" then some (v * min' view.vw view.vh / lit 100)
  else if unitIs unit "vmax" then some (v * max' view.vw view.vh / lit 100)
  else none

def mqResolutionUnitDppx (v : D) (unit : CString) : Option D :=
  if unitIs unit "dppx" || unitIs unit "x" then some v
  else if unitIs unit "dpi" then some (v / lit 96)
  else if unitIs unit "dpcm" then some (v * lit 2.54 / lit 96)
  else none

-- What a value is a quantity of.
inductive Quantity
  | length
  | resolution
deriving DecidableEq

-- The unit function of a quantity, with the test of its result.
def Quantity.unitFn (view : Viewport D) (v : D) (unit : CString) : Quantity → Option D
  | .length     => (mqLengthUnitPx view v unit).filter (!isNan ·)
  | .resolution => (mqResolutionUnitDppx v unit).filter (!isNan ·)

end Units

section Calc

variable {D : Type} [Double D] (view : Viewport D) (quantity : Quantity) (after : CString)

open Double

def isUnitChar (c : Char) : Bool :=
  c.isAlpha || c == '%'

-- The part of `mq_calc_primary` that reads a number, for `char unit[8]`.
def mqCalcNumber (p : Cursor) : Option (D × Bool × Cursor) :=
  let text := p.rest ++ after
  let n := strtodSpan text
  if n = 0 ∨ p.rest.length < n then none
  else
    let v : D := ofText (text.take n)
    let q := p.advance n
    let unit := (q.rest.takeWhile isUnitChar).take 7
    if unit = [] then some (v, true, q)
    else (quantity.unitFn view v unit).map fun c => (c, false, q.advance unit.length)

-- Past the end, where the name of a function may lead, there is nothing to read.
def mqCalcPrimary (sum : Cursor → Option (D × Cursor)) (p : Cursor) : Option (D × Bool × Cursor) :=
  let p := p.skipWs
  match p.opener after with
  | none   => mqCalcNumber view quantity after p
  | some n =>
    if p.rest.length < n then none
    else (sum (p.advance n)).map fun s => (s.fst, false, s.snd.close)

variable (primary product : Cursor → Option (D × Bool × Cursor))

-- Every turn reads an operator at least.
def mqCalcProductLoop : Nat → D × Bool × Cursor → Option (D × Bool × Cursor)
  | 0,        _                  => none
  | fuel + 1, (out, isNumber, q) =>
    let p := q.skipWs
    match p.rest with
    | '*' :: _ =>
      (primary (p.advance 1)).bind fun (rhs, rhsNum, p) =>
        if !isNumber && !rhsNum then none
        else mqCalcProductLoop fuel (out * rhs, isNumber && rhsNum, p)
    | '/' :: _ =>
      (primary (p.advance 1)).bind fun (rhs, rhsNum, p) =>
        if !rhsNum || beq rhs 0 then none
        else mqCalcProductLoop fuel (out / rhs, isNumber, p)
    | _ => some (out, isNumber, q)

def mqCalcProduct (p : Cursor) : Option (D × Bool × Cursor) :=
  (primary p).bind fun s => mqCalcProductLoop primary (s.snd.snd.rest.length + 1) s

-- Both sides of an operator of a sum are blank.
def mqCalcSumLoop (isNumber : Bool) : Nat → D × Cursor → Option (D × Cursor)
  | 0,        _        => none
  | fuel + 1, (out, q) =>
    let p := q.skipWs
    match p.rest with
    | op :: t =>
      if op ≠ '+' ∧ op ≠ '-' then some (out, q)
      else if !mqIsWs p.prev || !t.head?.any mqIsWs then none
      else
        (product (p.advance 1)).bind fun (rhs, rhsNum, p) =>
          if rhsNum ≠ isNumber then none
          else mqCalcSumLoop isNumber fuel (out + (if op = '+' then rhs else -rhs), p)
    | [] => some (out, q)

-- The sum at some depth, by how many depths there are from there on.
def mqCalcSum : Nat → Cursor → Option (D × Cursor)
  | 0,          _ => none
  | levels + 1, p =>
    let product := mqCalcProduct (mqCalcPrimary view quantity after (mqCalcSum levels))
    (product p).bind fun (out, isNumber, p) => mqCalcSumLoop product isNumber (p.rest.length + 1) (out, p)

def mqParseCalc (s : CString) : Option D :=
  if ¬hasCasePrefix (s ++ after) "calc(".toList ∨ s.length < 5 then none
  else
    (mqCalcSum view quantity after (mqMaxDepth + 1) { prev := '(', rest := s.drop 5 }).bind fun (out, p) =>
      if p.close.skipWs.rest = [] then some out else none

end Calc

end Nordstjernen.Css.Media

namespace Nordstjernen.Css.Media

-- Blanks, none of which are asked for.
structure Blanks where
  text  : CString
  blank : ∀ c ∈ text, mqIsWs c

-- Blanks that stand around the operator of a sum.
structure Gap extends Blanks where
  nonempty : text ≠ []

-- A number with its unit, which is empty for a plain number. The number is what `g_ascii_strtod` takes it to be,
-- so that `0xa` is no literal.
structure Literal where
  number : CString
  unit   : CString
  starts : ∃ c t, number = c :: t ∧ (c.isDigit ∨ c = '+' ∨ c = '-' ∨ c = '.')
  plain  : ∀ c ∈ number, c ≠ '('
  units  : ∀ c ∈ unit, isUnitChar c
  read   : strtodSpan (number ++ unit) = number.length

-- The operators of a product and those of a sum.
inductive Scale
  | times
  | per

inductive Shift
  | plus
  | minus

def Scale.char : Scale → Char
  | times => '*'
  | per   => '/'

def Shift.char : Shift → Char
  | plus  => '+'
  | minus => '-'

-- What opens an expression of its own.
structure Opener where
  name : CString
  nest : name = [] ∨ strcaseEq name "calc".toList

mutual

inductive Operand
  | literal (l : Literal)
  | closed (opener : Opener) (lead : Blanks) (first : Operand) (factors : Factors) (terms : Terms) (trail : Blanks)

-- What a product goes on with.
inductive Factors
  | nil
  | cons (before : Blanks) (op : Scale) (lead : Blanks) (operand : Operand) (rest : Factors)

-- What a sum goes on with.
inductive Terms
  | nil
  | cons (before : Gap) (op : Shift) (lead : Gap) (operand : Operand) (factors : Factors) (rest : Terms)

end

mutual

def Operand.text : Operand → CString
  | .literal l => l.number ++ l.unit
  | .closed opener lead first factors terms trail =>
    opener.name ++ '(' :: (lead.text ++ (first.text ++ (factors.text ++ (terms.text ++ (trail.text ++ [')'])))))

def Factors.text : Factors → CString
  | .nil => []
  | .cons before op lead operand rest =>
    before.text ++ op.char :: (lead.text ++ (operand.text ++ rest.text))

def Terms.text : Terms → CString
  | .nil => []
  | .cons before op lead operand factors rest =>
    before.text ++ op.char :: (lead.text ++ (operand.text ++ (factors.text ++ rest.text)))

end

section Typing

-- A number, or a quantity with a unit.
inductive Kind
  | number
  | dimension
deriving DecidableEq

-- Two dimensions have no product, and nothing is divided by a dimension.
def Scale.kind : Scale → Kind → Kind → Option Kind
  | times, .number,    k          => some k
  | times, .dimension, .number    => some .dimension
  | times, .dimension, .dimension => none
  | per,   k,          .number    => some k
  | per,   _,          .dimension => none

-- A sum is one of numbers or one of dimensions.
def sumKind (a b : Kind) : Option Kind :=
  if a = b then some a else none

variable {D : Type} [Double D] (view : Viewport D) (quantity : Quantity)

open Double

namespace Literal

variable (l : Literal)

def amount : D :=
  ofText l.number

def measure : Option D :=
  quantity.unitFn view (l.amount : D) l.unit

-- Units of another quantity have no meaning.
def kind : Option Kind :=
  if l.unit = [] then some .number else (l.measure view quantity).map fun _ => .dimension

def value : D :=
  if l.unit = [] then l.amount else (l.measure view quantity).getD 0

end Literal

variable (closed : Kind → Kind)

mutual

-- The kind of an expression, given the one that an expression of its own has for what is in it.
def Operand.kindWith : Operand → Option Kind
  | .literal l => l.kind view quantity
  | .closed _ _ first factors terms _ =>
    ((first.kindWith).bind fun k => (factors.kindWith k).bind fun k => terms.kindWith k).map closed

def Factors.kindWith (k : Kind) : Factors → Option Kind
  | .nil => some k
  | .cons _ op _ operand rest =>
    (operand.kindWith).bind fun k' => (op.kind k k').bind fun k => rest.kindWith k

def Terms.kindWith (k : Kind) : Terms → Option Kind
  | .nil => some k
  | .cons _ _ _ operand factors rest =>
    ((operand.kindWith).bind fun k => factors.kindWith k).bind fun k' =>
      (sumKind k k').bind fun k => rest.kindWith k

end

mutual

def Operand.value : Operand → D
  | .literal l => l.value view quantity
  | .closed _ _ first factors terms _ => terms.value (factors.value first.value)

def Factors.value (v : D) : Factors → D
  | .nil => v
  | .cons _ .times _ operand rest => rest.value (v * operand.value)
  | .cons _ .per  _ operand rest => rest.value (v / operand.value)

def Terms.value (v : D) : Terms → D
  | .nil => v
  | .cons _ .plus  _ operand factors rest => rest.value (v + factors.value operand.value)
  | .cons _ .minus _ operand factors rest => rest.value (v + -factors.value operand.value)

end

mutual

def Operand.dividesByZero : Operand → Bool
  | .literal _ => false
  | .closed _ _ first factors terms _ => first.dividesByZero || factors.dividesByZero || terms.dividesByZero

def Factors.dividesByZero : Factors → Bool
  | .nil => false
  | .cons _ .times _ operand rest => operand.dividesByZero || rest.dividesByZero
  | .cons _ .per  _ operand rest =>
    operand.dividesByZero || beq (operand.value view quantity) 0 || rest.dividesByZero

def Terms.dividesByZero : Terms → Bool
  | .nil => false
  | .cons _ _ _ operand factors rest => operand.dividesByZero || factors.dividesByZero || rest.dividesByZero

end

end Typing

mutual

def Operand.nesting : Operand → Nat
  | .literal _ => 0
  | .closed _ _ first factors terms _ => max first.nesting (max factors.nesting terms.nesting) + 1

def Factors.nesting : Factors → Nat
  | .nil => 0
  | .cons _ _ _ operand rest => max operand.nesting rest.nesting

def Terms.nesting : Terms → Nat
  | .nil => 0
  | .cons _ _ _ operand factors rest => max operand.nesting (max factors.nesting rest.nesting)

end

-- A whole `calc()`.
structure CalcExpr where
  name    : CString
  isCalc  : strcaseEq name "calc".toList
  lead    : Blanks
  first   : Operand
  factors : Factors
  terms   : Terms
  trail   : Blanks

namespace CalcExpr

variable (e : CalcExpr)

def operand : Operand :=
  .closed ⟨e.name, .inr e.isCalc⟩ e.lead e.first e.factors e.terms e.trail

def text : CString :=
  e.operand.text

variable {D : Type} [Double D] (view : Viewport D) (quantity : Quantity)

def dividesByZero : Bool :=
  e.operand.dividesByZero view quantity

-- An expression is typed where it stands between parentheses as it is without them.
def typed : Bool :=
  (e.operand.kindWith view quantity id).isSome

-- The same where all that is between parentheses counts as a dimension.
def typedAsDimensions : Bool :=
  (e.operand.kindWith view quantity fun _ => .dimension).isSome

-- How many expressions of their own are in one another, without the whole one.
def nesting : Nat :=
  max e.first.nesting (max e.factors.nesting e.terms.nesting)

-- The result of standard arithmetic, if there is one.
def meaning : Option D :=
  if e.typed view quantity && !e.dividesByZero view quantity then some (e.operand.value view quantity) else none

end CalcExpr

end Nordstjernen.Css.Media
