import Nordstjernen.Css.Media.Calc

open Nordstjernen.Glib

namespace Nordstjernen.Css.Media

-- `mq_feature_type`
inductive FeatureType
  | length
  | ratio
  | resolution
  | integer
  | discrete
deriving DecidableEq

structure FeatureDef where
  name : CString
  type : FeatureType
  kw   : List CString := []
deriving DecidableEq

def discrete (name : String) (kw : List String) : FeatureDef where
  name := name.toList
  type := .discrete
  kw   := kw.map String.toList

def gMqFeatures : List FeatureDef := [
  { name := "width".toList, type := .length },
  { name := "height".toList, type := .length },
  { name := "device-width".toList, type := .length },
  { name := "device-height".toList, type := .length },
  { name := "inline-size".toList, type := .length },
  { name := "block-size".toList, type := .length },
  { name := "aspect-ratio".toList, type := .ratio },
  { name := "device-aspect-ratio".toList, type := .ratio },
  { name := "resolution".toList, type := .resolution },
  { name := "color".toList, type := .integer },
  { name := "color-index".toList, type := .integer },
  { name := "monochrome".toList, type := .integer },
  { name := "grid".toList, type := .integer },
  discrete "orientation" ["portrait", "landscape"],
  discrete "scan" ["interlace", "progressive"],
  discrete "overflow-block" ["none", "scroll", "paged"],
  discrete "overflow-inline" ["none", "scroll"],
  discrete "update" ["none", "slow", "fast"],
  discrete "hover" ["none", "hover"],
  discrete "any-hover" ["none", "hover"],
  discrete "pointer" ["none", "coarse", "fine"],
  discrete "any-pointer" ["none", "coarse", "fine"],
  discrete "prefers-color-scheme" ["light", "dark"],
  discrete "prefers-reduced-motion" ["no-preference", "reduce"],
  discrete "prefers-reduced-transparency" ["no-preference", "reduce"],
  discrete "prefers-contrast" ["no-preference", "less", "more", "custom"],
  discrete "prefers-reduced-data" ["no-preference", "reduce"],
  discrete "forced-colors" ["none", "active"],
  discrete "inverted-colors" ["none", "inverted"],
  discrete "color-gamut" ["srgb", "p3", "rec2020"],
  discrete "scripting" ["none", "initial-only", "enabled"],
  discrete "display-mode" ["fullscreen", "standalone", "minimal-ui", "browser", "picture-in-picture",
    "window-controls-overlay"],
  discrete "dynamic-range" ["standard", "high"],
  discrete "video-dynamic-range" ["standard", "high"]]

def mqFeatureLookup (name : CString) : Option FeatureDef :=
  gMqFeatures.find? fun f => strcaseEq name f.name

def FeatureDef.isGrid (f : FeatureDef) : Bool :=
  strcaseEq f.name "grid".toList

-- `mq_op`
inductive Op
  | eq
  | lt
  | le
  | gt
  | ge
deriving DecidableEq

def Op.flip : Op → Op
  | lt => gt
  | le => ge
  | gt => lt
  | ge => le
  | eq => eq

-- `mq_value` with what the evaluation reads of it.
structure Value (D : Type) where
  num   : D
  denom : D
  ident : CString := []

-- A node of the kind `MQN_FEATURE`. There are none, one or two comparisons in it.
structure Feature (D : Type) where
  feature : FeatureDef
  minmax  : Nat := 0
  nops    : Nat
  op1     : Op := .eq
  op2     : Op := .eq
  v1      : Value D
  v2      : Value D

section Text

-- The text from a pointer to another one is a list, and so is what comes behind it.

def trimWs (s : CString) : CString :=
  (s.dropWhile mqIsWs).rdropWhile mqIsWs

def mqIdentChar (c : Char) : Bool :=
  c.isAlphanum || c == '-' || c == '_'

-- An identifier in lower case, if it fits the buffer, with what comes behind it.
def mqReadIdent (buflen : Nat) (p : CString) : Option (CString × CString) :=
  let ident := p.takeWhile mqIdentChar
  if ident = [] ∨ buflen ≤ ident.length then none
  else some (gAsciiStrdown ident, p.drop ident.length)

def skipWs (p : CString) : CString :=
  p.dropWhile mqIsWs

end Text

section Values

variable {D : Type} [Double D] (view : Viewport D)

open Double

-- `mq_parse_number`
def mqParseNumber (s after : CString) : Option (D × CString) :=
  let n := strtodSpan (s ++ after)
  if n = 0 ∨ s.length < n then none else some (ofText ((s ++ after).take n), s.drop n)

def parseUnit (p : CString) : CString × CString :=
  let unit := (p.takeWhile Char.isAlpha).take 7
  (gAsciiStrdown unit, p.drop unit.length)

def parseDiscrete (f : FeatureDef) (s : CString) : Option (Value D) :=
  (mqReadIdent 24 s).bind fun (ident, p) =>
    if skipWs p ≠ [] then none
    else if f.kw.contains ident then some { num := 0, denom := lit 1, ident } else none

-- The number is read to where it ends, whatever the text of the value is.
def parseInteger (f : FeatureDef) (s after : CString) : Option (Value D) :=
  let p := if s.head? = some '+' ∨ s.head? = some '-' then s.drop 1 else s
  if p = [] ∨ !p.all Char.isDigit then none
  else
    let num := ofText ((s ++ after).take (strtodSpan (s ++ after)))
    if f.isGrid && !beq num 0 && !beq num (lit 1) then none else some { num, denom := lit 1 }

def parseRatio (s after : CString) : Option (Value D) :=
  (mqParseNumber s after).bind fun (a, p) =>
    if lt a 0 then none
    else
      match skipWs p with
      | []     => some { num := a, denom := lit 1 }
      | c :: p =>
        if c ≠ '/' then none
        else
          (mqParseNumber (skipWs p) after).bind fun (b, q) =>
            if lt b 0 || !(skipWs q).isEmpty then none else some { num := a, denom := b }

def isCalc (s after : CString) : Bool :=
  hasCasePrefix (s ++ after) "calc(".toList

def parseResolution (s after : CString) : Option (Value D) :=
  if isCalc s after then (mqParseCalc view .resolution after s).map fun num => { num, denom := lit 1 }
  else
    (mqParseNumber s after).bind fun (v, p) =>
      if lt v 0 then none
      else
        let (unit, p) := parseUnit p
        if p ≠ [] ∨ unit = [] then none
        else (Quantity.resolution.unitFn view v unit).map fun num => { num, denom := lit 1 }

def parseLength (s after : CString) : Option (Value D) :=
  if isCalc s after then (mqParseCalc view .length after s).map fun num => { num, denom := lit 1 }
  else
    (mqParseNumber s after).bind fun (v, p) =>
      let (unit, p) := parseUnit p
      if p ≠ [] then none
      else if unit = [] then if beq v 0 then some { num := 0, denom := lit 1 } else none
      else (Quantity.length.unitFn view v unit).map fun num => { num, denom := lit 1 }

-- `mq_value_parse` without the blanks around a value.
def parseValue (f : FeatureDef) (s after : CString) : Option (Value D) :=
  match f.type with
  | .discrete   => parseDiscrete f s
  | .integer    => parseInteger f s after
  | .ratio      => parseRatio s after
  | .resolution => parseResolution view s after
  | .length     => parseLength view s after

def mqValueParse (f : FeatureDef) (s after : CString) : Option (Value D) :=
  let t := trimWs s
  if t = [] then none else parseValue view f t ((s.dropWhile mqIsWs).drop t.length ++ after)

end Values

section Parse

-- Where the operator is that is in no parentheses: what is before it, and what is behind it.
def mqFindOp (depth : Nat) : CString → Option (CString × Op × CString)
  | []     => none
  | c :: t =>
    if c = '(' then (mqFindOp (depth + 1) t).map fun r => (c :: r.1, r.2)
    else if c = ')' then (mqFindOp (depth - 1) t).map fun r => (c :: r.1, r.2)
    else if depth = 0 ∧ (c = '<' ∨ c = '>' ∨ c = '=') then
      if c = '<' then
        if t.head? = some '=' then some ([], .le, t.drop 1) else some ([], .lt, t)
      else if c = '>' then
        if t.head? = some '=' then some ([], .ge, t.drop 1) else some ([], .gt, t)
      else some ([], .eq, t)
    else (mqFindOp depth t).map fun r => (c :: r.1, r.2)

-- The part before a colon that is in no parentheses, and the one behind it.
def findColon (depth : Nat) : CString → Option (CString × CString)
  | []     => none
  | c :: t =>
    if c = '(' then (findColon (depth + 1) t).map fun r => (c :: r.1, r.2)
    else if c = ')' then (findColon (depth - 1) t).map fun r => (c :: r.1, r.2)
    else if c = ':' ∧ depth = 0 then some ([], t)
    else (findColon depth t).map fun r => (c :: r.1, r.2)

def mqSideIsFeature (s : CString) : Option FeatureDef :=
  (mqReadIdent 40 (trimWs s)).bind fun (ident, p) =>
    if p ≠ [] then none
    else (mqFeatureLookup ident).filter fun f => f.type ≠ .discrete && !f.isGrid

variable {D : Type} [Double D] (view : Viewport D)

open Double

def noValue : Value D where
  num   := 0
  denom := 0

-- A feature with a colon.
def parsePlain (name value after : CString) : Option (Feature D) :=
  (mqReadIdent 40 name).bind fun (name, p) =>
    if skipWs p ≠ [] then none
    else
      let minmax :=
        if gStrHasPrefix name "min-".toList then 1 else if gStrHasPrefix name "max-".toList then 2 else 0
      (mqFeatureLookup (if minmax = 0 then name else name.drop 4)).bind fun feature =>
        if minmax ≠ 0 ∧ (feature.type = .discrete ∨ feature.isGrid) then none
        else
          (mqValueParse view feature value after).map fun v1 => {
            feature, minmax, v1
            nops := 1
            op1  := if minmax = 1 then .ge else if minmax = 2 then .le else .eq
            v2   := noValue }

-- Whether an operator is `<` or `<=`, or `>` or `>=`.
def Op.isLt (op : Op) : Bool :=
  op = .lt || op = .le

def Op.isGt (op : Op) : Bool :=
  op = .gt || op = .ge

-- A feature between two operators, of which `s` is the whole text.
def parseChain (s after a : CString) (op1 : Op) (name : CString) (op2 : Op) (b : CString) : Option (Feature D) :=
  (mqSideIsFeature name).bind fun feature =>
    if !(op1.isLt && op2.isLt || op1.isGt && op2.isGt) then none
    else
      (mqValueParse view feature a (s.drop a.length ++ after)).bind fun v1 =>
        (mqValueParse view feature b after).map fun v2 => { feature, op1, op2, v1, v2, nops := 2 }

def parseSingle (s after a : CString) (op : Op) (b : CString) : Option (Feature D) :=
  match mqSideIsFeature a with
  | some feature =>
    (mqValueParse view feature b after).map fun v1 => { feature, v1, nops := 1, op1 := op, v2 := noValue }
  | none =>
    (mqSideIsFeature b).bind fun feature =>
      (mqValueParse view feature a (s.drop a.length ++ after)).map fun v1 =>
        { feature, v1, nops := 1, op1 := op.flip, v2 := noValue }

def mqParseFeature (s after : CString) : Option (Feature D) :=
  let t := trimWs s
  let after := (s.dropWhile mqIsWs).drop t.length ++ after
  if t = [] then none
  else
    match findColon 0 t with
    | some (name, value) => parsePlain view name value after
    | none =>
      match mqFindOp 0 t with
      | some (a, op1, rest) =>
        match mqFindOp 0 rest with
        | some (name, op2, b) => parseChain view t after a op1 name op2 b
        | none                => parseSingle view t after a op1 rest
      | none =>
        (mqReadIdent 40 t).bind fun (ident, p) =>
          if skipWs p ≠ [] then none
          else (mqFeatureLookup ident).map fun feature => { feature, nops := 0, v1 := noValue, v2 := noValue }

end Parse

end Nordstjernen.Css.Media

namespace Nordstjernen.Css.Media

-- `mq_tri`
inductive Tri
  | no
  | yes
  | dunno
deriving DecidableEq

namespace Tri

def not : Tri → Tri
  | yes   => no
  | no    => yes
  | dunno => dunno

def and (a b : Tri) : Tri :=
  if a = no ∨ b = no then no else if a = yes ∧ b = yes then yes else dunno

def or (a b : Tri) : Tri :=
  if a = yes ∨ b = yes then yes else if a = no ∧ b = no then no else dunno

def ofBool (b : Bool) : Tri :=
  if b then yes else no

end Tri

-- `mq_node`. A feature in parentheses is that feature.
inductive Node (D : Type)
  | not (kid : Node D)
  | and (kids : List (Node D))
  | or (kids : List (Node D))
  | feature (f : Feature D)
  | enclosed

structure Query (D : Type) where
  cond    : Option (Node D) := none
  type    : Option CString  := none
  negated : Bool            := false
  valid   : Bool            := false

-- What queries are evaluated against.
structure Context (D : Type) extends Viewport D where
  deviceW       : D
  deviceH       : D
  dark          : Bool
  reducedMotion : Bool
  printing      : Bool

section Text

def mqKwAt (p kw : CString) : Bool :=
  kw.length ≤ p.length && hasCasePrefix p kw &&
    (p.drop kw.length).head?.all fun c => mqIsWs c || c == '('

-- The text up to the parenthesis that closes, and the one from it on, which is empty where none does.
def mqCloseParen (depth : Nat) : CString → CString × CString
  | []     => ([], [])
  | c :: t =>
    if c = '(' then let r := mqCloseParen (depth + 1) t; (c :: r.1, r.2)
    else if c = ')' then
      if depth = 1 then ([], c :: t) else let r := mqCloseParen (depth - 1) t; (c :: r.1, r.2)
    else let r := mqCloseParen depth t; (c :: r.1, r.2)

def mqAnyValueOk (paren bracket brace : Nat) : CString → Bool
  | []     => true
  | c :: t =>
    if c = '(' then mqAnyValueOk (paren + 1) bracket brace t
    else if c = ')' then paren ≠ 0 && mqAnyValueOk (paren - 1) bracket brace t
    else if c = '[' then mqAnyValueOk paren (bracket + 1) brace t
    else if c = ']' then bracket ≠ 0 && mqAnyValueOk paren (bracket - 1) brace t
    else if c = '\x7b' then mqAnyValueOk paren bracket (brace + 1) t
    else if c = '\x7d' then brace ≠ 0 && mqAnyValueOk paren bracket (brace - 1) t
    else if c = ';' ∨ c = '!' then false
    else mqAnyValueOk paren bracket brace t

end Text

section Parse

variable {D : Type} [Double D] (view : Viewport D)

-- What goes on behind a condition in parentheses, one operand after the other.
def conditionLoop (parens : CString → Option (Node D × CString)) (word : CString) :
    Nat → List (Node D) → CString → Option (List (Node D) × CString)
  | 0,        _,    _ => none
  | fuel + 1, kids, p =>
    let q := skipWs p
    if q = [] ∨ !mqKwAt q word then some (kids, p)
    else
      (parens (q.drop word.length)).bind fun (next, p) =>
        conditionLoop parens word fuel (kids ++ [next]) p

-- A feature in parentheses, or what is there for later, with the text behind the parenthesis.
def parseEnclosed (body close after : CString) : Option (Node D × CString) :=
  match mqParseFeature view body (close ++ after) with
  | some f => some (.feature f, close.drop 1)
  | none   => if mqAnyValueOk 0 0 0 body then some (.enclosed, close.drop 1) else none

-- Behind the text there is `after`.
def mqParseInParens (condition : CString → CString → Option (Node D × CString)) (p after : CString) :
    Option (Node D × CString) :=
  let p := skipWs p
  if p.head? = some '(' then
    let (body, close) := mqCloseParen 1 (p.drop 1)
    match condition body (close ++ after) with
    | some (cond, cp) =>
      if skipWs cp = [] then some (.and [cond], close.drop 1) else parseEnclosed view body close after
    | none => parseEnclosed view body close after
  else
    (mqReadIdent 40 p).bind fun (_, q) =>
      if q.head? = some '(' then
        let (body, close) := mqCloseParen 1 (q.drop 1)
        if mqAnyValueOk 0 0 0 body then some (.enclosed, close.drop 1) else none
      else none

-- The depths that are left are counted.
def mqParseCondition : Nat → Bool → CString → CString → Option (Node D × CString)
  | 0,          _,       _, _     => none
  | levels + 1, allowOr, p, after =>
    let parens (p : CString) : Option (Node D × CString) :=
      if levels = 0 then none else mqParseInParens view (mqParseCondition levels true) p after
    let p := skipWs p
    if mqKwAt p "not".toList then (parens (p.drop 3)).map fun (child, q) => (.not child, q)
    else
      (parens p).bind fun (first, p) =>
        let q := skipWs p
        if q = [] then some (first, p)
        else if mqKwAt q "and".toList then
          (conditionLoop parens "and".toList (p.length + 1) [first] p).map fun (kids, p) => (.and kids, p)
        else if allowOr && mqKwAt q "or".toList then
          (conditionLoop parens "or".toList (p.length + 1) [first] p).map fun (kids, p) => (.or kids, p)
        else some (first, p)

def mqTypeReserved (ident : CString) : Bool :=
  ["not", "only", "and", "or", "layer"].any fun s => ident == s.toList

-- A query with a media type.
def parseTyped (p after : CString) : Option (Query D) :=
  (mqReadIdent 64 p).bind fun (ident, q) =>
    let negated := ident == "not".toList
    let only := ident == "only".toList
    (mqReadIdent 64 (skipWs (if negated || only then q else p))).bind fun (type, q) =>
      if mqTypeReserved type then none
      else
        let p := skipWs q
        if p = [] then some { type := some type, negated, valid := true }
        else if !mqKwAt p "and".toList then none
        else
          (mqParseCondition view (mqMaxDepth + 1) false (p.drop 3) after).bind fun (tail, p) =>
            if skipWs p = [] then some { cond := some tail, type := some type, negated, valid := true } else none

def mqParseQuery (s after : CString) : Query D :=
  let p := trimWs s
  let after := (s.dropWhile mqIsWs).drop p.length ++ after
  if p = [] then {}
  else
    match mqParseCondition view (mqMaxDepth + 1) true p after with
    | some (cond, q) =>
      if skipWs q = [] then { cond := some cond, valid := true } else (parseTyped view p after).getD {}
    | none => (parseTyped view p after).getD {}

end Parse

section Evaluation

variable {D : Type} [Double D] (ctx : Context D)

open Double

def nameIs (name : CString) (s : String) : Bool :=
  name == s.toList

def mqDiscreteCurrent (f : FeatureDef) : Option CString :=
  let n := nameIs f.name
  if n "orientation" then some (if le ctx.vh ctx.vw then "landscape".toList else "portrait".toList)
  else if n "hover" || n "any-hover" then some "hover".toList
  else if n "pointer" || n "any-pointer" then some "fine".toList
  else if n "update" then some "fast".toList
  else if n "overflow-block" then some "scroll".toList
  else if n "overflow-inline" then some "scroll".toList
  else if n "scripting" then some "enabled".toList
  else if n "display-mode" then some "browser".toList
  else if n "forced-colors" then some "none".toList
  else if n "inverted-colors" then some "none".toList
  else if n "color-gamut" then some "srgb".toList
  else if n "dynamic-range" || n "video-dynamic-range" then some "standard".toList
  else if n "prefers-color-scheme" then some (if ctx.dark then "dark".toList else "light".toList)
  else if n "prefers-reduced-motion" then
    some (if ctx.reducedMotion then "reduce".toList else "no-preference".toList)
  else if n "prefers-reduced-transparency" then some "no-preference".toList
  else if n "prefers-contrast" then some "no-preference".toList
  else if n "prefers-reduced-data" then some "no-preference".toList
  else none

-- The numerator and the denominator.
def mqFeatureCurrent (f : FeatureDef) : Option (D × D) :=
  let n := nameIs f.name
  if n "width" || n "inline-size" then some (ctx.vw, lit 1)
  else if n "height" || n "block-size" then some (ctx.vh, lit 1)
  else if n "device-width" then some (ctx.deviceW, lit 1)
  else if n "device-height" then some (ctx.deviceH, lit 1)
  else if n "aspect-ratio" then some (ctx.vw, ctx.vh)
  else if n "device-aspect-ratio" then some (ctx.deviceW, ctx.deviceH)
  else if n "resolution" then some (lit 1, lit 1)
  else if n "color" then some (lit 8, lit 1)
  else if n "monochrome" || n "color-index" || n "grid" then some (0, lit 1)
  else none

def mqCompare (a ad : D) (op : Op) (b bd : D) : Tri :=
  let lhs := a * bd
  let rhs := b * ad
  match op with
  | .eq => .ofBool (beq lhs rhs)
  | .lt => .ofBool (lt lhs rhs)
  | .le => .ofBool (le lhs rhs)
  | .gt => .ofBool (lt rhs lhs)
  | .ge => .ofBool (le rhs lhs)

def mqEvalFeature (n : Feature D) : Tri :=
  let f := n.feature
  if f.type = .discrete then
    match mqDiscreteCurrent ctx f with
    | none     => .no
    | some cur =>
      if n.nops = 0 then .ofBool !(nameIs cur "none" || nameIs cur "no-preference")
      else .ofBool (cur == n.v1.ident)
  else
    match mqFeatureCurrent ctx f with
    | none             => .dunno
    | some (cur, curd) =>
      if n.nops = 0 then
        if n.minmax ≠ 0 then .dunno
        else if f.type = .ratio then .ofBool (lt 0 cur && lt 0 curd)
        else .ofBool !beq cur 0
      else if n.nops = 2 then
        .and (mqCompare cur curd n.op1.flip n.v1.num n.v1.denom) (mqCompare cur curd n.op2 n.v2.num n.v2.denom)
      else mqCompare cur curd n.op1 n.v1.num n.v1.denom

def mqEvalNode : Nat → Node D → Tri
  | 0,          _          => .dunno
  | _ + 1,      .enclosed  => .dunno
  | _ + 1,      .feature f => mqEvalFeature ctx f
  | levels + 1, .not kid   => (mqEvalNode levels kid).not
  | levels + 1, .and kids  => kids.foldl (fun r kid => r.and (mqEvalNode levels kid)) .yes
  | levels + 1, .or kids   => kids.foldl (fun r kid => r.or (mqEvalNode levels kid)) .no

def mqEvalType (type : Option CString) : Tri :=
  match type with
  | none      => .yes
  | some type =>
    if strcaseEq type "all".toList then .yes
    else .ofBool (strcaseEq type (if ctx.printing then "print".toList else "screen".toList))

def mqEvalQuery (q : Query D) : Tri :=
  if !q.valid then .no
  else
    let r := mqEvalType ctx q.type
    let r := match q.cond with
      | some cond => r.and (mqEvalNode ctx (mqMaxDepth + 1) cond)
      | none      => r
    if q.negated then r.not else r

end Evaluation

section Lists

-- The text up to a comma that is in no parentheses or brackets, and the text from the comma on.
def mqSplitNext (paren bracket : Nat) : CString → CString × CString
  | []     => ([], [])
  | c :: t =>
    if c = ',' ∧ paren = 0 ∧ bracket = 0 then ([], c :: t)
    else
      let r :=
        if c = '(' then mqSplitNext (paren + 1) bracket t
        else if c = ')' then mqSplitNext (paren - 1) bracket t
        else if c = '[' then mqSplitNext paren (bracket + 1) t
        else if c = ']' then mqSplitNext paren (bracket - 1) t
        else mqSplitNext paren bracket t
      (c :: r.1, r.2)

variable {D : Type} [Double D] (ctx : Context D)

-- Every turn reads a character at least.
def matchLoop : Nat → CString → Bool
  | 0,        _ => false
  | fuel + 1, p =>
    if p = [] then false
    else
      let (seg, rest) := mqSplitNext 0 0 p
      if mqEvalQuery ctx (mqParseQuery ctx.toViewport seg rest) = .yes then true
      else matchLoop fuel (rest.drop 1)

-- `ns_css_media_query_matches`
def mediaQueryMatches (query : CString) : Bool :=
  let p := skipWs query
  if p = [] then true else matchLoop ctx (p.length + 1) p

end Lists

end Nordstjernen.Css.Media
