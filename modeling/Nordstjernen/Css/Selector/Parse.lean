import Nordstjernen.Css.Selector.Tree
import Nordstjernen.Css.Syntax.Scan

open Nordstjernen.Glib Nordstjernen.Css.Syntax
open Nordstjernen.Css.Gather (AttrOp AttrPred Comb PseudoElement)

namespace Nordstjernen.Css.Selector

-- The flags that parsing raises. Nothing clears them in between, so that what is raised later is added to what
-- was raised before.
structure Raised where
  error     : Bool := false
  nsPrefix  : Bool := false
  hasHover  : Bool := false
  hasActive : Bool := false
deriving DecidableEq

def Raised.or (r s : Raised) : Raised where
  error     := r.error || s.error
  nsPrefix  := r.nsPrefix || s.nsPrefix
  hasHover  := r.hasHover || s.hasHover
  hasActive := r.hasActive || s.hasActive

section Tokens

-- What one round of the loop over a compound selector reads.
inductive SimpleToken
  | universal
  -- `*|` or, with no namespace, `|`, before a name or before `*`.
  | inNamespace (nsNone : Bool) (type : Option CString)
  | id (name : CString)
  | class (badStart : Bool) (name : CString)
  | type (name : CString)
  -- A type with the prefix of a namespace, which is never declared.
  | prefixed
  | pseudo (isElement : Bool) (name : CString) (arg : Option CString)
  | attr (nsPrefix error : Bool) (pred : AttrPred)
  -- Brackets with no name in them.
  | nameless (nsPrefix : Bool)

-- Whether there is a `|` that is not the beginning of `|=`.
def beginsPipe (p : CString) : Bool :=
  p.head? == some '|' && p.tail.head? != some '='

-- The text behind the bracket that closes an attribute selector.
def closeBracket (p : CString) : CString :=
  let s := cssScanUntil p [']']
  if s.term = ']' then s.rest.tail else s.rest

def readString (quote : Char) : Nat → CString → CString × CString
  | _,     []      => ([], [])
  | k + 1, _ :: cs => readString quote k cs
  | 0,     c :: cs =>
    if c == quote then ([], cs)
    else if isNewline c then ([], c :: cs)
    else if c == '\\' && cs ≠ [] then
      if cs.head?.any isNewline then readString quote 1 cs
      else if cs.head?.any gAsciiIsxdigit then
        let (bytes, k) := cssAppendHexEscape cs
        let (text, rest) := readString quote k cs
        (bytes ++ text, rest)
      else
        let (text, rest) := readString quote 1 cs
        (cs.head?.toList ++ text, rest)
    else
      let (text, rest) := readString quote 0 cs
      (c :: text, rest)

-- `read_css_string`, at a quote.
def readCssString (p : CString) : CString × CString :=
  match p with
  | []      => ([], [])
  | c :: cs =>
    if c == '"' || c == '\'' then
      let (text, rest) := readString c 0 cs
      (gStrndup text, rest)
    else ([], p)

def attrOp (c : Char) : AttrOp :=
  if c == '^' then .prefixOf
  else if c == '$' then .suffixOf
  else if c == '*' then .substr
  else if c == '~' then .word
  else .hyphen

-- The operator and the value of an attribute selector.
def readAttrValue (p : CString) : AttrOp × Option CString × CString :=
  match p with
  | []      => (.present, none, [])
  | c :: cs =>
    if "=^$*~|".toList.contains c then
      let equals := cs.head? == some '='
      let op := if c == '=' then .eq else if equals then attrOp c else .present
      let p := cssSkipWsComments (if c ≠ '=' && equals then cs.tail else cs)
      let (value, p) := if p.head? == some '"' || p.head? == some '\'' then readCssString p else readCssIdent p
      (op, some value, p)
    else (.present, none, p)

-- The flag of an attribute selector: `i`, `s`, and whether it is an error.
def readAttrFlag (op : AttrOp) (p : CString) : Bool × Bool × Bool × CString :=
  if p = [] || p.head? == some ']' then (false, false, false, p)
  else
    let present := match op with | .present => true | _ => false
    let (flag, rest) := readCssIdent p
    if strcaseEq flag "i".toList then (true, false, present, rest)
    else if strcaseEq flag "s".toList then (false, true, present, rest)
    else (false, false, true, p)

-- The branch of `[`, behind the bracket.
def readAttr (p : CString) : SimpleToken × CString :=
  let p := cssSkipWsComments p
  let p :=
    if p.head? == some '*' && p.tail.head? == some '|' then p.tail.tail
    else if beginsPipe p then p.tail
    else p
  let (first, p) := readCssIdent p
  let nsPrefix := first ≠ [] && beginsPipe p
  let (name, p) := if nsPrefix then readCssIdent p.tail else (first, p)
  if name = [] then (.nameless nsPrefix, closeBracket p)
  else
    let (op, value, p) := readAttrValue (cssSkipWsComments p)
    let (i, s, error, p) := readAttrFlag op (cssSkipWsComments p)
    let p := cssSkipWsComments p
    let name := gAsciiStrdown name
    let pred : AttrPred :=
      { name, op, value, caseInsensitive := i, caseSensitive := s, nameBit := Gather.attrNameBloomBit name }
    (.attr nsPrefix (error || (p ≠ [] && p.head? != some ']')) pred, closeBracket p)

-- The branch of `:`, behind the first colon. Without a name, nothing more is read.
def readPseudo (p : CString) : SimpleToken × CString :=
  let isElement := p.head? == some ':'
  let (name, p) := readCssIdent (if isElement then p.tail else p)
  if name ≠ [] && p.head? == some '(' then
    let s := cssScanUntil p.tail [')']
    (.pseudo isElement name (some s.taken), if s.term = ')' then s.rest.tail else s.rest)
  else (.pseudo isElement name none, p)

def readSimple (p : CString) : Option (SimpleToken × CString) :=
  match p with
  | []      => none
  | c :: cs =>
    if c == '*' || beginsPipe p then
      let q := if c == '*' then cs else p
      if beginsPipe q then
        if q.tail.head? == some '*' then some (.inNamespace (c == '|') none, q.tail.tail)
        else
          let (type, rest) := readCssIdent q.tail
          some (.inNamespace (c == '|') (some type), rest)
      else some (.universal, q)
    else if c == '#' then
      let (name, rest) := readCssIdent cs
      some (.id name, rest)
    else if c == '.' then
      let badStart := cs.head?.any Char.isDigit || (cs.head? == some '-' && cs.tail.head?.any Char.isDigit)
      let (name, rest) := readCssIdent cs
      some (.class badStart name, rest)
    else if isIdentStart c || c == '\\' then
      let (type, rest) := readCssIdent p
      if beginsPipe rest then
        some (.prefixed, if rest.tail.head? == some '*' then rest.tail.tail else (readCssIdent rest.tail).snd)
      else some (.type type, rest)
    else if c == ':' then some (readPseudo cs)
    else if c == '[' then some (readAttr cs)
    else none

-- The loop over a compound selector, and the text where it ends.
def readCompound : Nat → CString → List SimpleToken × CString
  | 0,     p => ([], p)
  | n + 1, p =>
    match readSimple p with
    | none           => ([], p)
    | some (t, rest) =>
      let (ts, rest) := readCompound n rest
      (t :: ts, rest)

end Tokens

section AnB

def anbIntStrict (str : CString) : Option Int :=
  let p := if str.head? == some '+' || str.head? == some '-' then str.tail else str
  if p ≠ [] && p.all Char.isDigit then some (max (-1000000) (min 1000000 (gAsciiStrtoll str))) else none

def parseAnb (arg : CString) : Option (Int × Int) :=
  let s := (gStrstrip (gStrndup arg)).filter fun c => !isWs c
  if strcaseEq s "odd".toList then some (2, 1)
  else if strcaseEq s "even".toList then some (2, 0)
  else if s.contains 'n' || s.contains 'N' then
    let n := if s.contains 'n' then 'n' else 'N'
    let aStr := s.takeWhile (· ≠ n)
    let bStr := (s.dropWhile (· ≠ n)).tail
    let a := if aStr = [] || aStr = ['+'] then some 1 else if aStr = ['-'] then some (-1) else anbIntStrict aStr
    let b :=
      if bStr = [] then some 0
      else if bStr.head? == some '+' || bStr.head? == some '-' then anbIntStrict bStr
      else none
    a.bind fun a => b.map fun b => (a, b)
  else (anbIntStrict s).map fun b => (0, b)

def hasOf (prev : Option Char) (p : CString) : Bool :=
  hasCasePrefix p "of".toList && prev.all isWs && (p.drop 2).head?.all isWs

def findNthOf : Nat → Option Char → Nat → Nat → Option Char → CString → Option (CString × CString)
  | _,     _,     _,     _,       _,    []      => none
  | k + 1, quote, paren, bracket, _,    c :: cs =>
    (findNthOf k quote paren bracket (some c) cs).map (.map (c :: ·) id)
  | 0,     quote, paren, bracket, prev, c :: cs =>
    let next k quote paren bracket := (findNthOf k quote paren bracket (some c) cs).map (.map (c :: ·) id)
    match quote with
    | some q =>
      if c == '\\' && cs ≠ [] then next 1 quote paren bracket
      else next 0 (if c == q then none else quote) paren bracket
    | none   =>
      if c == '/' && cs.head? == some '*' then next (commentLength (c :: cs)) none paren bracket
      else if c == '\\' && cs ≠ [] then next 1 none paren bracket
      else if c == '"' || c == '\'' then next 0 (some c) paren bracket
      else
        let bracket := if c == '[' then bracket + 1 else if c == ']' then bracket - 1 else bracket
        let paren := if c == '(' then paren + 1 else if c == ')' then paren - 1 else paren
        if paren = 0 && bracket = 0 && hasOf prev (c :: cs) then some ([], c :: cs)
        else next 0 none paren bracket

-- The text before the word `of`, and the text from there on.
def cssFindNthOf (p : CString) : Option (CString × CString) :=
  findNthOf 0 none 0 0 none p

end AnB

section Pseudos

def pseudoKeywords : List (String × Pseudo) :=
  [("first-child", .firstChild), ("last-child", .lastChild), ("only-child", .onlyChild),
    ("first-of-type", .firstOfType), ("last-of-type", .lastOfType), ("only-of-type", .onlyOfType),
    ("empty", .empty), ("root", .root), ("checked", .checked), ("disabled", .disabled), ("enabled", .enabled),
    ("required", .required), ("optional", .optional), ("valid", .valid), ("invalid", .invalid),
    ("in-range", .inRange), ("out-of-range", .outOfRange), ("default", .default),
    ("indeterminate", .indeterminate), ("link", .link), ("visited", .visited), ("any-link", .anyLink),
    ("hover", .hover), ("active", .active), ("focus", .focus), ("focus-visible", .focus),
    ("focus-within", .focusWithin), ("target", .target), ("target-within", .targetWithin),
    ("defined", .defined), ("scope", .scope), ("placeholder-shown", .placeholderShown),
    ("read-only", .readOnly), ("read-write", .readWrite), ("blank", .blank), ("open", .open),
    ("popover-open", .popoverOpen), ("modal", .modal), ("fullscreen", .fullscreen),
    ("user-valid", .userValid), ("user-invalid", .userInvalid), ("autofill", .autofill),
    ("-webkit-autofill", .autofill), ("playing", .playing), ("paused", .paused), ("muted", .muted),
    ("seeking", .seeking), ("buffering", .buffering), ("stalled", .stalled)]

def nthKeywords : List (String × Pseudo) :=
  [("nth-child", .nthChild), ("nth-last-child", .nthLastChild), ("nth-of-type", .nthOfType),
    ("nth-last-of-type", .nthLastOfType)]

-- `css_pseudo_class_is_standard`
def isStandardPseudoClass (name : CString) : Bool :=
  ["default", "indeterminate", "in-range", "out-of-range", "fullscreen", "modal", "autofill", "blank",
    "user-valid", "user-invalid", "target-within", "focus-visible", "local-link", "current", "past", "future",
    "playing", "paused", "muted", "seeking", "buffering", "stalled", "picture-in-picture", "volume-locked",
    "host", "host-context", "nth-col", "nth-last-col", "state"].any fun s => strcaseEq name s.toList

-- `css_pseudo_element_is_standard`
def isStandardPseudoElement (name : CString) : Bool :=
  ["part", "slotted", "cue", "cue-region", "highlight", "target-text", "spelling-error", "grammar-error",
    "file-selector-button", "details-content", "view-transition", "view-transition-group",
    "view-transition-image-pair", "view-transition-old", "view-transition-new"].any
      fun s => strcaseEq name s.toList

def pseudoElements : List (String × PseudoElement) :=
  [("before", .before), ("after", .after), ("first-letter", .firstLetter), ("first-line", .firstLine),
    ("selection", .selection), ("marker", .marker), ("backdrop", .backdrop),
    ("file-selector-button", .fileSelectorButton), ("placeholder", .placeholder),
    ("-webkit-input-placeholder", .placeholder), ("-ms-input-placeholder", .placeholder),
    ("-moz-placeholder", .placeholder)]

-- The pseudo-elements that may stand behind one colon.
def isLegacyPseudoElement (name : CString) : Bool :=
  ["before", "after", "first-line", "first-letter"].any fun s => strcaseEq name s.toList

def lookup {α : Type} (table : List (String × α)) (name : CString) : Option α :=
  (table.find? fun entry => strcaseEq name entry.1.toList).map (·.2)

-- `group` parses the selectors in the parentheses of `:nth-child()`.
def parseNth (group : CString → List Sel × Raised) (kind : Pseudo) (arg : CString) :
    Option (PseudoPred Sel) × Raised :=
  let of := if kind = .nthChild || kind = .nthLastChild then cssFindNthOf arg else none
  match parseAnb (of.elim arg (·.1)) with
  | none        => (none, {})
  | some (a, b) =>
    match of with
    | none         => (some { kind, a, b }, {})
    | some (_, of) =>
      let (group, raised) := group (cssSkipWsComments (of.drop 2))
      (if group.isEmpty then none else some { kind, a, b, ofGroup := some group }, raised)

def parseHeading (arg : Option CString) : Option (PseudoPred Sel) :=
  match arg with
  | none     => some { kind := .heading }
  | some arg =>
    let items := gStrsplitAll (gStrndup arg) ','
    if items ≠ [] && items.all fun item => (anbIntStrict (gStrstrip item)).isSome then
      some { kind := .heading, arg := some (gStrndup arg) }
    else none

def parseLang (arg : CString) : Option (PseudoPred Sel) :=
  let lang := cssTrimDupRange arg
  if lang = [] then none else some { kind := .lang, arg := some lang }

def parseDir (arg : CString) : Option (PseudoPred Sel) :=
  let dir := gAsciiStrdown (cssTrimDupRange arg)
  if dir = "ltr".toList || dir = "rtl".toList then some { kind := .dir, arg := some dir } else none

def parsePseudoKeyword (group : CString → List Sel × Raised) (name : CString) (arg : Option CString) :
    Option (PseudoPred Sel) × Raised :=
  match lookup pseudoKeywords name with
  | some kind => (some { kind }, {})
  | none      =>
    if strcaseEq name "heading".toList then (parseHeading arg, {})
    else
      match arg with
      | none     => (none, {})
      | some arg =>
        match lookup nthKeywords name with
        | some kind => parseNth group kind arg
        | none      =>
          if strcaseEq name "lang".toList then (parseLang arg, {})
          else if strcaseEq name "dir".toList then (parseDir arg, {})
          else (none, {})

end Pseudos

structure Specificity where
  a : Int := 0
  b : Int := 0
  c : Int := 0
deriving DecidableEq

namespace Specificity

def add (s t : Specificity) : Specificity :=
  ⟨s.a + t.a, s.b + t.b, s.c + t.c⟩

-- `selector_group_max_specificity`
def ofGroup (group : List Sel) : Specificity :=
  group.foldl (fun m sub =>
    let s := sub.get
    if s.specA > m.a ∨ (s.specA = m.a ∧ s.specB > m.b) ∨ (s.specA = m.a ∧ s.specB = m.b ∧ s.specC > m.c) then
      ⟨s.specA, s.specB, s.specC⟩
    else m) {}

end Specificity

-- What the parser keeps of a compound selector.
structure Compound where
  simple        : Gather.Simple (Tests Sel) := { tests := {} }
  any           : Bool := false
  pseudoElement : PseudoElement := .none
  spec          : Specificity := {}
  raised        : Raised := {}

-- What the parser depends on besides the text. `inHas` is whether `g_sel_has_depth` is positive.
structure Context where
  depth    : Nat := 0
  relative : Bool := false
  inHas    : Bool := false
  strict   : Bool := false

-- The parser of the selectors in parentheses.
variable (group : Context → CString → List Sel × Raised) (ctx : Context)

namespace Compound

variable (c : Compound)

def raise (r : Raised) : Compound :=
  { c with raised := c.raised.or r }

def error : Compound :=
  c.raise { error := true }

def neverMatch : Compound :=
  { c with simple := { c.simple with neverMatch := true } }

def addSpec (s : Specificity) : Compound :=
  { c with spec := c.spec.add s }

def setType (type : CString) : Compound :=
  { c with simple := { c.simple with type := some type } }

def setTests (tests : Tests Sel) : Compound :=
  { c with simple := { c.simple with tests } }

def inNamespace (nsNone : Bool) (type : Option CString) : Compound :=
  let c := { c with simple := { c.simple with nsNone := c.simple.nsNone || nsNone } }
  match type with
  | none    => c.setType ['*']
  | some [] => c.error
  | some t  => if c.simple.type.isSome then c else (c.setType (gAsciiStrdown t)).addSpec { c := 1 }

def pseudoElementNamed (name : CString) : Compound :=
  match lookup pseudoElements name with
  | some pe => { c with pseudoElement := pe }.addSpec { c := 1 }
  | none    => if name.head? != some '-' && !isStandardPseudoElement name then c.neverMatch.error else c.neverMatch

def has (arg : CString) : Compound :=
  let (gs, raised) := group { ctx with depth := ctx.depth + 1, relative := true, inHas := true } arg
  let c := c.raise raised
  if gs.isEmpty then c.neverMatch
  else
    let tests := c.simple.tests
    (c.setTests { tests with hasGroups := tests.hasGroups ++ [gs] }).addSpec (.ofGroup gs)

-- `:is()` is forgiving, and `:where()` has no specificity of its own.
def isOrWhere (isWhere : Bool) (arg : CString) : Compound :=
  let (gs, raised) := group { ctx with depth := ctx.depth + 1, relative := false } arg
  let c := c.raise { raised with error := ctx.strict && raised.error, nsPrefix := false }
  if gs.isEmpty then c.neverMatch
  else
    let tests := c.simple.tests
    let c := c.setTests { tests with matchesAny := tests.matchesAny ++ [gs] }
    if isWhere then c else c.addSpec (.ofGroup gs)

def not (arg : CString) : Compound :=
  let (gs, raised) := group { ctx with depth := ctx.depth + 1, relative := false } arg
  let c := c.raise raised
  if gs.isEmpty then c
  else
    let tests := c.simple.tests
    (c.setTests { tests with matchesNone := tests.matchesNone ++ [gs] }).addSpec (.ofGroup gs)

def pseudoClass (name : CString) (arg : Option CString) : Compound :=
  let (pred, raised) := parsePseudoKeyword (group { ctx with depth := 1, relative := false }) name arg
  let c := c.raise raised
  match pred with
  | some pc =>
    let tests := c.simple.tests
    let c := c.setTests { tests with pseudos := tests.pseudos ++ [pc] }
    let c := c.raise { hasHover := pc.kind = .hover, hasActive := pc.kind = .active }
    (c.addSpec { b := 1 }).addSpec (.ofGroup (pc.ofGroup.getD []))
  | none    => if isStandardPseudoClass name then c.neverMatch else c.neverMatch.error

def pseudo (isElement : Bool) (name : CString) (arg : Option CString) : Compound :=
  if name = [] then c.neverMatch.error
  else if isElement || isLegacyPseudoElement name then c.pseudoElementNamed name
  else
    match arg with
    | none     => c.pseudoClass group ctx name none
    | some arg =>
      if strcaseEq name "has".toList then
        if ctx.inHas then c.neverMatch.error else c.has group ctx arg
      else if strcaseEq name "is".toList then c.isOrWhere group ctx false arg
      else if strcaseEq name "where".toList then c.isOrWhere group ctx true arg
      else if strcaseEq name "not".toList then c.not group ctx arg
      else c.pseudoClass group ctx name (some arg)

-- What a round of the loop over a compound selector does with what it has read.
def apply : SimpleToken → Compound
  | .universal                   =>
    let c := { c with any := true }
    if c.simple.type.isSome then (c.setType ['*']).neverMatch.error else c.setType ['*']
  | .inNamespace nsNone type     => { c with any := true }.inNamespace nsNone type
  | .id name                     =>
    let c := { c with any := true }
    if name = [] then c.neverMatch.error
    else { c with simple := { c.simple with id := some name } }.addSpec { a := 1 }
  | .class badStart name         =>
    let c := { c with any := true }
    if badStart || name = [] then c.neverMatch.error
    else { c with simple := { c.simple with classes := c.simple.classes ++ [name] } }.addSpec { b := 1 }
  | .type name                   =>
    let c := { c with any := true }
    if c.simple.type.isSome then c.neverMatch.error else (c.setType (gAsciiStrdown name)).addSpec { c := 1 }
  | .prefixed                    => ({ c with any := true }.raise { nsPrefix := true }).neverMatch
  | .pseudo isElement name arg   => { c with any := true }.pseudo group ctx isElement name arg
  | .attr nsPrefix error pred    =>
    let c := { c with any := true, simple := { c.simple with attrs := c.simple.attrs ++ [pred] } }
    let c := (c.raise { nsPrefix, error }).addSpec { b := 1 }
    if nsPrefix then c.neverMatch else c
  | .nameless nsPrefix           => if nsPrefix then (c.raise { nsPrefix := true }).neverMatch else c

end Compound

def compound (ts : List SimpleToken) : Compound :=
  ts.foldl (Compound.apply group ctx) {}

-- The variables of `parse_one_selector_rel`.
structure Building where
  sel             : Gather.Selector (Tests Sel) := { compounds := [] }
  pending         : Comb := .none
  expectCompound  : Bool := true
  leadingCombUsed : Bool := false
  raised          : Raised := {}

namespace Building

variable (b : Building)

def combinator (comb : Comb) : Building :=
  let b := { b with pending := comb }
  if ctx.relative && b.sel.compounds.isEmpty && !b.leadingCombUsed then
    { b with leadingCombUsed := true, expectCompound := true }
  else if b.expectCompound || b.sel.compounds.isEmpty then
    { b with raised := b.raised.or { error := true }, expectCompound := true }
  else { b with expectCompound := true }

def push (c : Compound) : Building where
  sel             :=
    { b.sel with
      compounds     := b.sel.compounds ++ [c.simple]
      combinators   := b.sel.combinators ++ [b.pending]
      pseudoElement := if c.pseudoElement = .none then b.sel.pseudoElement else c.pseudoElement
      specA         := b.sel.specA + c.spec.a
      specB         := b.sel.specB + c.spec.b
      specC         := b.sel.specC + c.spec.c }
  pending         := .none
  expectCompound  := false
  leadingCombUsed := b.leadingCombUsed
  raised          := b.raised.or c.raised

-- White space in front of a compound selector is a combinator if there is no other one.
def space (hadWs : Bool) : Building :=
  if hadWs && !b.expectCompound then { b with pending := .descendant } else b

-- The flags at the end, where no combinator may be pending.
def flags : Raised :=
  match b.pending with
  | .none => b.raised
  | _     => b.raised.or { error := true }

end Building

def comb? (c : Char) : Option Comb :=
  if c == '>' then some .child else if c == '+' then some .adjacent else if c == '~' then some .sibling else none

def selectorLoop : Nat → Building → CString → Building × CString
  | 0,     b, p => (b, p)
  | n + 1, b, p =>
    let rest := cssSkipWsComments p
    match rest with
    | []      => (b, [])
    | c :: cs =>
      if c == ',' || c == '{' then (b, rest)
      else
        match comb? c with
        | some comb => selectorLoop n (b.combinator ctx comb) cs
        | none      =>
          let b := b.space (rest.length < p.length)
          let (ts, rest) := readCompound (cs.length + 1) rest
          let c := compound group ctx ts
          if c.any then selectorLoop n (b.push c) rest else ({ b with raised := b.raised.or c.raised }, rest)

-- `parse_one_selector_rel`: the selector, the text behind it, and the flags.
def parseOneWith (p : CString) : Option Sel × CString × Raised :=
  let (b, rest) := selectorLoop group ctx p.length {} p
  (if b.sel.compounds.isEmpty then none else some (.mk b.sel), rest, b.flags)

-- The loop of `parse_selector_group_rel`.
def groupLoop (one : CString → Option Sel × CString × Raised) (strict : Bool) : Nat → CString → List Sel × Raised
  | 0,     _ => ([], {})
  | n + 1, p =>
    let start := cssSkipWsComments p
    if start = [] then ([], {})
    else
      let (sub, rest, raised) := one start
      let raised := if strict && sub.isNone then raised.or { error := true } else raised
      let rest := cssSkipWsComments rest
      let next := if rest.head? == some ',' || rest.length = p.length then rest.tail else rest
      let (subs, raised') := groupLoop one strict n next
      (sub.toList ++ subs, raised.or raised')

-- `NS_CSS_MAX_SELECTOR_NESTING`
def maxSelectorNesting : Nat := 48

-- A text in parentheses is shorter than the one around it, so that the number of levels need not be larger than
-- the length of the text.
def parseSelectorGroup : Nat → Context → CString → List Sel × Raised
  | 0,     _,   _ => ([], {})
  | n + 1, ctx, p =>
    if ctx.depth > maxSelectorNesting then ([], {})
    else groupLoop (parseOneWith (parseSelectorGroup n) ctx) ctx.strict p.length p

-- `parse_one_selector` of a selector that is in no parentheses, in a text that is no longer than `levels`.
def parseOneSelector (levels : Nat) (strict : Bool) (p : CString) : Option Sel × CString × Raised :=
  parseOneWith (parseSelectorGroup levels) { strict } p

section Lists

-- The parser of one selector.
variable (one : CString → Option Sel × CString × Raised)

-- The loop of `ns_css_parse_selector_list`, with its variable `expect_selector`.
def listLoop : Nat → Bool → CString → List Sel × Bool × Raised
  | 0,     expect, _ => ([], expect, {})
  | n + 1, expect, p =>
    let start := p.dropWhile isWs
    if start = [] then ([], expect, {})
    else if start.head? == some ',' then
      let (sels, expect, raised) := listLoop n true start.tail
      (sels, expect, raised.or { error := true })
    else
      let (sel, rest, raised) := one start
      let expect := expect && sel.isNone
      let rest := rest.dropWhile isWs
      if rest.head? == some ',' then
        let (sels, expect, raised') := listLoop n true rest.tail
        (sel.toList ++ sels, expect, raised.or raised')
      else if rest.length = start.length then (sel.toList, expect, raised)
      else
        let (sels, expect, raised') := listLoop n expect rest
        (sel.toList ++ sels, expect, raised.or raised')

-- The loop of `parse_rules_until` over the selectors of a rule.
def rulesLoop : Nat → CString → List Sel × Raised
  | 0,     _ => ([], {})
  | n + 1, p =>
    if p = [] then ([], {})
    else
      let (sel, rest, raised) := one p
      let rest := rest.dropWhile isWs
      if rest.head? == some ',' then
        let (sels, raised') := rulesLoop n rest.tail
        (sel.toList ++ sels, raised.or raised')
      else (sel.toList, raised)

end Lists

-- `ns_css_parse_selector_list_checked`: the selectors, and whether the text is valid.
def parseSelectorListChecked (strict : Bool) (text : CString) : List Sel × Bool :=
  let (sels, expect, raised) := listLoop (parseOneSelector text.length strict) text.length true text
  (sels, !(raised.error || expect) && !raised.nsPrefix && !sels.isEmpty)

-- Whether `parse_rules_until` keeps a rule with a prelude. Only `@supports` parses in strict mode.
def keepsRule (prelude : CString) : Bool :=
  let (sels, raised) := rulesLoop (parseOneSelector prelude.length false) prelude.length prelude
  !sels.isEmpty && !raised.error

end Nordstjernen.Css.Selector
