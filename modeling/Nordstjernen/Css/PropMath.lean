import Mathlib.Algebra.Order.Round
import Mathlib.Data.Rat.Floor
import Nordstjernen.Glib.Strings

open Nordstjernen.Glib

namespace Nordstjernen.Css.PropMath

-- `ns_css_component` with what the evaluation reads of it.
inductive Component
  | whitespace
  | comma
  | number (n : ℚ)
  | percentage (n : ℚ)
  | dimension (n : ℚ) (unit : CString)
  | delim (delimiter : Char)
  | function (name : CString) (children : List Component)
  | block (delimiter : Char) (children : List Component)
  | other

-- `ns_len_unit`
inductive LenUnit
  | px | cm | mm | q | inch | pt | pc
  | em | ex | ch | ic | cap | lh
  | rem | rex | rch | ric | rcap | rlh
  | vw | vh | vi | vb | vmin | vmax
  | cqw | cqh | cqi | cqb | cqmin | cqmax
deriving DecidableEq

def LenUnit.all : List LenUnit := [
  px, cm, mm, q, inch, pt, pc, em, ex, ch, ic, cap, lh, rem, rex, rch, ric, rcap, rlh, vw, vh, vi, vb, vmin, vmax,
  cqw, cqh, cqi, cqb, cqmin, cqmax]

def kLengthUnits : List (CString × LenUnit) := [
  ("px".toList, .px), ("cm".toList, .cm), ("mm".toList, .mm), ("q".toList, .q), ("in".toList, .inch),
  ("pt".toList, .pt), ("pc".toList, .pc),
  ("em".toList, .em), ("ex".toList, .ex), ("ch".toList, .ch), ("ic".toList, .ic), ("cap".toList, .cap),
  ("lh".toList, .lh), ("rem".toList, .rem), ("rex".toList, .rex), ("rch".toList, .rch), ("ric".toList, .ric),
  ("rcap".toList, .rcap), ("rlh".toList, .rlh),
  ("vw".toList, .vw), ("vh".toList, .vh), ("vi".toList, .vi), ("vb".toList, .vb), ("vmin".toList, .vmin),
  ("vmax".toList, .vmax), ("svw".toList, .vw), ("svh".toList, .vh), ("svi".toList, .vi), ("svb".toList, .vb),
  ("svmin".toList, .vmin), ("svmax".toList, .vmax), ("lvw".toList, .vw), ("lvh".toList, .vh), ("lvi".toList, .vi),
  ("lvb".toList, .vb), ("lvmin".toList, .vmin), ("lvmax".toList, .vmax), ("dvw".toList, .vw), ("dvh".toList, .vh),
  ("dvi".toList, .vi), ("dvb".toList, .vb), ("dvmin".toList, .vmin), ("dvmax".toList, .vmax),
  ("cqw".toList, .cqw), ("cqh".toList, .cqh), ("cqi".toList, .cqi), ("cqb".toList, .cqb), ("cqmin".toList, .cqmin),
  ("cqmax".toList, .cqmax)]

inductive MathKind
  | invalid | number | length | percent | angle | time | resolution | flex
deriving DecidableEq

-- `ns_math_value`. The doubles are rationals: what is done to them here is exact but for scales and sums.
structure MathValue where
  kind       : MathKind
  number     : ℚ := 0
  percent    : ℚ := 0
  hasPercent : Bool := false
  len        : LenUnit → ℚ := fun _ => 0

section Values

def mathHasLengthTerms (v : MathValue) : Bool :=
  LenUnit.all.any (v.len · ≠ 0)

def mathIsZero (v : MathValue) : Bool :=
  if v.hasPercent && v.percent ≠ 0 then false
  else if mathHasLengthTerms v then false
  else v.number = 0

def mathScale (v : MathValue) (f : ℚ) : MathValue :=
  { v with number := v.number * f, percent := v.percent * f, len := fun i => v.len i * f }

-- The kind of a sum, if there is one.
def sumKind (a b : MathValue) : Option MathKind :=
  if a.kind = b.kind then some a.kind
  else if a.kind = .length ∧ b.kind = .percent then some a.kind
  else if a.kind = .percent ∧ b.kind = .length then some .length
  else if mathIsZero a ∧ a.kind = .number then some b.kind
  else if mathIsZero b ∧ b.kind = .number then some a.kind
  else none

def mathAdd (a b : MathValue) (sign : ℚ) : Option MathValue :=
  if a.kind = .invalid ∨ b.kind = .invalid then none
  else (sumKind a b).map fun kind => {
    kind
    number     := a.number + sign * b.number
    percent    := a.percent + sign * b.percent
    hasPercent := a.hasPercent || b.hasPercent
    len        := fun i => a.len i + sign * b.len i }

end Values

section Names

def nameIs (name : CString) (s : String) : Bool :=
  strcaseEq name s.toList

def mathFunctionName (name : CString) : Bool :=
  ["calc", "min", "max", "clamp", "round", "mod", "rem", "abs", "sign", "sin", "cos", "tan", "asin", "acos",
    "atan", "atan2", "pow", "sqrt", "hypot", "log", "exp", "calc-size"].any (nameIs name)

end Names

-- `G_PI`
def gPi : ℚ :=
  3.1415926535897932384626433832795028841971693993751

def mathEvalDimension : Component → Option MathValue
  | .number n         => some { kind := .number, number := n }
  | .percentage n     => some { kind := .percent, percent := n, hasPercent := true }
  | .dimension n unit =>
    match kLengthUnits.find? fun u => strcaseEq unit u.fst with
    | some (_, u) => some { kind := .length, len := fun i => if i = u then n else 0 }
    | none        =>
      if nameIs unit "deg" || nameIs unit "grad" || nameIs unit "rad" || nameIs unit "turn" then
        let scale :=
          if nameIs unit "deg" then 1 else if nameIs unit "grad" then 9 / 10
          else if nameIs unit "rad" then 180 / gPi else 360
        some { kind := .angle, number := n * scale }
      else if nameIs unit "s" || nameIs unit "ms" then
        some { kind := .time, number := if nameIs unit "s" then n else n / 1000 }
      else if nameIs unit "dppx" || nameIs unit "x" || nameIs unit "dpi" || nameIs unit "dpcm" then
        let scale := if nameIs unit "dpi" then 1 / 96 else if nameIs unit "dpcm" then 254 / 9600 else 1
        some { kind := .resolution, number := n * scale }
      else if nameIs unit "fr" then some { kind := .flex, number := n }
      else none
  | _                 => none

def componentIsWs : Component → Bool
  | .whitespace => true
  | _           => false

def skipWs (items : List Component) : List Component :=
  items.dropWhile componentIsWs

-- What stands between the commas.
def mathSplitArgs : List Component → List (List Component)
  | []               => [[]]
  | .comma :: items => [] :: mathSplitArgs items
  | c :: items       => (mathSplitArgs items).modifyHead (c :: ·)

-- The functions of the mathematics library.
structure LibM where
  sqrt  : ℚ → ℚ
  sin   : ℚ → ℚ
  cos   : ℚ → ℚ
  tan   : ℚ → ℚ
  exp   : ℚ → ℚ
  log   : ℚ → ℚ
  pow   : ℚ → ℚ → ℚ
  asin  : ℚ → ℚ
  acos  : ℚ → ℚ
  atan  : ℚ → ℚ
  atan2 : ℚ → ℚ → ℚ

section Eval

variable (libm : LibM)

-- What `min`, `max`, `clamp` and `hypot` have after one more argument.
def pick (name : CString) (acc v : MathValue) : MathValue :=
  if mathHasLengthTerms v || v.hasPercent || mathHasLengthTerms acc || acc.hasPercent then
    { acc with
      len        := fun k => if v.len k ≠ 0 then v.len k else acc.len k
      hasPercent := if v.hasPercent then true else acc.hasPercent }
  else if nameIs name "min" then { acc with number := min acc.number v.number }
  else if nameIs name "max" then { acc with number := max acc.number v.number }
  else if nameIs name "hypot" then
    { acc with number := libm.sqrt (acc.number * acc.number + v.number * v.number) }
  else { acc with number := v.number }

def foldArg (name : CString) (acc v : MathValue) : Option MathValue :=
  (mathAdd acc v 1).map fun probe => pick libm name { acc with kind := probe.kind } v

-- The first two arguments of a function of the mathematics library.
def plainArgs (number : MathValue → ℚ) (vs : List (Option MathValue)) : Option (ℚ × ℚ) :=
  ((vs.take 2).mapM fun (v : Option MathValue) => v.bind fun v =>
    if mathHasLengthTerms v || v.hasPercent then none else some (number v)).map fun args =>
      (args.getD 0 0, args.getD 1 0)

-- A function of the values of its arguments.
def evalFunction (name : CString) (args : List (Option MathValue)) : Option MathValue :=
  let nargs := args.length
  if nameIs name "calc" && nargs = 1 then args.getD 0 none
  else if (nameIs name "min" || nameIs name "max" || nameIs name "clamp" || nameIs name "hypot") && nargs ≥ 1 then
    (args.mapM id).bind fun
      | []      => none
      | v :: vs => vs.foldlM (foldArg libm name) v
  else if (nameIs name "abs" || nameIs name "sign") && nargs = 1 then
    (args.getD 0 none).map fun out =>
      if nameIs name "abs" then (if out.number < 0 then mathScale out (-1) else out)
      else { kind := .number, number := if out.number > 0 then 1 else if out.number < 0 then -1 else 0 }
  else if (nameIs name "round" || nameIs name "mod" || nameIs name "rem") && nargs ≥ 2 then
    (args.getD (nargs - 2) none).bind fun a =>
      (args.getD (nargs - 1) none).bind fun b =>
        (mathAdd a b 1).map fun _ => a
  else if (nameIs name "sin" || nameIs name "cos" || nameIs name "tan" || nameIs name "sqrt" ||
      nameIs name "exp" || nameIs name "log" || nameIs name "pow") && nargs ≥ 1 then
    (plainArgs (fun v => if v.kind = .angle then v.number * gPi / 180 else v.number) args).map fun (x, y) => {
      kind   := .number
      number :=
        if nameIs name "sin" then libm.sin x else if nameIs name "cos" then libm.cos x
        else if nameIs name "tan" then libm.tan x else if nameIs name "sqrt" then libm.sqrt x
        else if nameIs name "exp" then libm.exp x
        else if nameIs name "log" then (if nargs > 1 then libm.log x / libm.log y else libm.log x)
        else libm.pow x y }
  else if (nameIs name "asin" || nameIs name "acos" || nameIs name "atan" || nameIs name "atan2") && nargs ≥ 1 then
    (plainArgs (·.number) args).map fun (x, y) =>
      let radians :=
        if nameIs name "asin" then libm.asin x else if nameIs name "acos" then libm.acos x
        else if nameIs name "atan" then libm.atan x else libm.atan2 x y
      { kind := .angle, number := radians * 180 / gPi }
  else none

-- `sum` is `math_eval_sum` one level deeper.
def mathEvalFunction (sum : List Component → Option MathValue) (name : CString) (children : List Component) :
    Option MathValue :=
  evalFunction libm name ((mathSplitArgs children).map sum)

def mathEvalTerm (sum : List Component → Option MathValue) (items : List Component) :
    Option (MathValue × List Component) :=
  match skipWs items with
  | []         => none
  | c :: items =>
    (match c with
      | .block delimiter children => if delimiter = ')' then sum children else none
      | .function name children   =>
        if mathFunctionName name then mathEvalFunction libm sum name children else none
      | c                         => mathEvalDimension c).map (·, items)

-- A number without a unit.
def isPlain (v : MathValue) : Bool :=
  v.kind = .number && !mathHasLengthTerms v && !v.hasPercent

def productStep (op : Char) (out rhs : MathValue) : Option MathValue :=
  if op == '*' then
    if isPlain out then some (mathScale rhs out.number)
    else if isPlain rhs then some (mathScale out rhs.number)
    else none
  else if !isPlain rhs || rhs.number = 0 then none
  else some (mathScale out (1 / rhs.number))

def productLoop (sum : List Component → Option MathValue) :
    Nat → MathValue → List Component → Option (MathValue × List Component)
  | 0,     out, items => some (out, items)
  | n + 1, out, items =>
    match skipWs items with
    | .delim op :: rest =>
      if op == '*' || op == '/' then
        (mathEvalTerm libm sum rest).bind fun (rhs, rest) =>
          (productStep op out rhs).bind fun out => productLoop sum n out rest
      else some (out, items)
    | _                 => some (out, items)

def mathEvalProduct (sum : List Component → Option MathValue) (items : List Component) :
    Option (MathValue × List Component) :=
  (mathEvalTerm libm sum items).bind fun (out, rest) => productLoop libm sum rest.length out rest

def sumLoop (sum : List Component → Option MathValue) : Nat → MathValue → List Component → Option MathValue
  | 0,     out, _     => some out
  | n + 1, out, items =>
    match skipWs items with
    | []                => some out
    | .delim op :: rest =>
      if (op == '+' || op == '-') && items.head?.any componentIsWs && rest.head?.any componentIsWs then
        (mathEvalProduct libm sum rest).bind fun (rhs, rest) =>
          (mathAdd out rhs (if op == '+' then 1 else -1)).bind fun out => sumLoop sum n out rest
      else none
    | _                 => none

-- `math_eval_sum`, with so many levels left.
def mathEvalSum : Nat → List Component → Option MathValue
  | 0,     _     => none
  | k + 1, items =>
    (mathEvalProduct libm (mathEvalSum k) items).bind fun (out, rest) =>
      sumLoop libm (mathEvalSum k) rest.length out rest

-- An argument may be this deep.
def maxDepth : Nat := 32

def mathEvalComponent : Component → Option MathValue
  | .function name children =>
    if mathFunctionName name then mathEvalFunction libm (mathEvalSum libm maxDepth) name children else none
  | c                       => mathEvalDimension c

end Eval

inductive MathUnit
  | number | percent | length (unit : LenUnit) | angle | time | resolution | flex
deriving DecidableEq

-- What an expression stands for.
structure Quantity where
  unit : MathUnit
  size : ℚ
deriving DecidableEq

def Quantity.value (q : Quantity) : MathValue :=
  match q.unit with
  | .number      => { kind := .number, number := q.size }
  | .percent     => { kind := .percent, percent := q.size, hasPercent := true }
  | .length unit => { kind := .length, len := fun i => if i = unit then q.size else 0 }
  | .angle       => { kind := .angle, number := q.size }
  | .time        => { kind := .time, number := q.size }
  | .resolution  => { kind := .resolution, number := q.size }
  | .flex        => { kind := .flex, number := q.size }

namespace MathUnit

-- Quantities in some units are only a number with a kind.
def isScalar : MathUnit → Bool
  | percent | length _ => false
  | _                  => true

-- The argument that is left of several ones where they are not compared.
def left : MathUnit → List ℚ → ℚ
  | percent,  xs => xs.headD 0
  | length _, xs => (xs.filter (· ≠ 0)).getLastD 0
  | _,        xs => xs.getLastD 0

end MathUnit

-- The multiple that is nearest. A number between two of them is rounded up.
def nearestMultiple (x step : ℚ) : ℚ :=
  |step| * round (x / |step|)

def modulo (x step : ℚ) : ℚ :=
  x - step * ⌊x / step⌋

def clamped (lo x hi : ℚ) : ℚ :=
  max lo (min x hi)

inductive MathFn
  | min | max | clamp | abs | sign | round | mod
deriving DecidableEq

namespace MathFn

def name : MathFn → String
  | min   => "min"
  | max   => "max"
  | clamp => "clamp"
  | abs   => "abs"
  | sign  => "sign"
  | round => "round"
  | mod   => "mod"

-- The result of a function for sizes in one unit.
def apply (unit : MathUnit) : MathFn → List ℚ → Option Quantity
  | min,   xs          => xs.min?.map (⟨unit, ·⟩)
  | max,   xs          => xs.max?.map (⟨unit, ·⟩)
  | clamp, [lo, x, hi] => some ⟨unit, clamped lo x hi⟩
  | abs,   [x]         => some ⟨unit, |x|⟩
  | sign,  [x]         => some ⟨.number, if x > 0 then 1 else if x < 0 then -1 else 0⟩
  | round, [x, step]   => if step = 0 then none else some ⟨unit, nearestMultiple x step⟩
  | mod,   [x, step]   => if step = 0 then none else some ⟨unit, modulo x step⟩
  | _,     _           => none

-- Where it is computed: the comparisons only look at scalars, and nothing is rounded.
def Exact (unit : MathUnit) : MathFn → List ℚ → Prop
  | min,   xs          => unit.isScalar ∨ ∀ x ∈ xs, unit.left xs ≤ x
  | max,   xs          => unit.isScalar ∨ ∀ x ∈ xs, x ≤ unit.left xs
  | clamp, [lo, x, hi] => unit.left [lo, x, hi] = clamped lo x hi
  | abs,   [x]         => unit.isScalar ∨ 0 ≤ x
  | sign,  [x]         => unit.isScalar ∨ x = 0
  | round, [x, step]   => ∃ z : ℤ, x = z * step
  | mod,   [x, step]   => 0 ≤ x / step ∧ x / step < 1
  | _,     _           => True

end MathFn

section Expressions

-- White space around a component.
def spaced (blank : Nat × Nat) (c : Component) : List Component :=
  List.replicate blank.fst .whitespace ++ c :: List.replicate blank.snd .whitespace

def commaSeparated : List (List Component) → List Component
  | []      => []
  | [a]     => a
  | a :: as => a ++ .comma :: commaSeparated as

-- An expression with its spelling.
inductive Expr
  | literal (q : Quantity) (c : Component) (h : mathEvalDimension c = some q.value)
  | app (fn : MathFn) (name : CString) (h : nameIs name fn.name) (n : Nat) (args : Fin n → Expr)
      (blanks : Fin n → Nat × Nat)

def Expr.component : Expr → Component
  | literal _ c _              => c
  | app _ name _ _ args blanks =>
    .function name (commaSeparated (List.ofFn fun i => spaced (blanks i) (args i).component))

-- The arguments of a function are in one unit.
inductive Denotes : Expr → Quantity → Prop
  | literal {q : Quantity} {c : Component} {h : mathEvalDimension c = some q.value} : Denotes (.literal q c h) q
  | app {fn : MathFn} {name : CString} {h : nameIs name fn.name} {n : Nat} {args : Fin n → Expr}
      {blanks : Fin n → Nat × Nat} {unit : MathUnit} {xs : Fin n → ℚ} {q : Quantity}
      (hargs : ∀ i, Denotes (args i) ⟨unit, xs i⟩) (hq : fn.apply unit (List.ofFn xs) = some q) :
      Denotes (.app fn name h n args blanks) q

inductive Part : Expr → Expr → Prop
  | refl {e : Expr} : Part e e
  | arg {e : Expr} {fn : MathFn} {name : CString} {h : nameIs name fn.name} {n : Nat} {args : Fin n → Expr}
      {blanks : Fin n → Nat × Nat} (i : Fin n) (he : Part e (args i)) : Part e (.app fn name h n args blanks)

def Computed (libm : LibM) (e : Expr) : Prop :=
  ∀ q, Denotes e q → mathEvalComponent libm e.component = some q.value

-- Expressions of so many levels whose functions are computed.
def Expr.Regular : Expr → Nat → Prop
  | literal _ _ _,          _     => True
  | app _ _ _ _ _ _,        0     => False
  | app fn _ _ _ args _,    k + 1 =>
    (∀ i, (args i).Regular k) ∧
      ∀ unit xs, (∀ i, Denotes (args i) ⟨unit, xs i⟩) → fn.Exact unit (List.ofFn xs)

end Expressions

section Sums

-- What is added in a sum, with white space around the sign.
structure Summand where
  op     : Char
  isOp   : op = '+' ∨ op = '-'
  before : Nat
  after  : Nat
  expr   : Expr

def Summand.text (s : Summand) : List Component :=
  List.replicate (s.before + 1) .whitespace ++ .delim s.op :: List.replicate (s.after + 1) .whitespace ++
    [s.expr.component]

def Summand.factor (s : Summand) : ℚ :=
  if s.op == '+' then 1 else -1

-- `calc()` of a sum.
def calcOf (name : CString) (blank : Nat × Nat) (first : Expr) (rest : List Summand) : Component :=
  .function name (List.replicate blank.fst .whitespace ++ first.component :: rest.flatMap Summand.text ++
    List.replicate blank.snd .whitespace)

-- Whether the numbers in a sum add nothing to the dimensions: those in front of the first one cancel out, and the
-- others are zero.
def Negligible (terms : List (ℚ × Quantity)) : Prop :=
  ((terms.takeWhile (·.snd.unit = .number)).map fun t => t.fst * t.snd.size).sum = 0 ∧
    ∀ t ∈ terms.dropWhile (·.snd.unit = .number), t.snd.unit = .number → t.snd.size = 0

-- Numbers and quantities in one other unit.
structure Mixes (unit : MathUnit) (qs : List Quantity) : Prop where
  ne        : unit ≠ .number
  units     : ∀ q ∈ qs, q.unit = .number ∨ q.unit = unit
  number    : ∃ q ∈ qs, q.unit = .number
  dimension : ∃ q ∈ qs, q.unit = unit

end Sums

end Nordstjernen.Css.PropMath
