import Mathlib.Logic.Function.Basic
import Nordstjernen.Css.Syntax.Scan
import Nordstjernen.Lib.Run
import Nordstjernen.Css.Cascade

open Nordstjernen.Glib

namespace Nordstjernen.Css.Syntax

-- The last `!` that is in no string, bracket or escape since the one before it: the text before it and
-- the text after it.
def lastBang : Nat → CString → Option (CString × CString)
  | 0,     _ => none
  | n + 1, p => (cssFindTopLevelChar p '!').map fun (before, rest) =>
    match lastBang n rest.tail with
    | some (before', after) => (before ++ '!' :: before', after)
    | none                  => (before, rest.tail)

def cssStripImportant (text : CString) : CString × Bool :=
  match lastBang (text.length + 1) text with
  | none => (text, false)
  | some (before, after) =>
    let tail := cssSkipWsComments after
    if hasCasePrefix tail "important".toList then
      let after := tail.drop 9
      if after.head?.any isIdent || cssSkipWsComments after ≠ [] then (text, false)
      else (gStrchomp before, true)
    else (text, false)

def syntaxValid : Nat → Option Char → Nesting → CString → Bool
  | _,     quote, n, []      => quote = none ∧ n = {}
  | k + 1, quote, n, _ :: cs => syntaxValid k quote n cs
  | 0,     quote, n, c :: cs =>
    if quote.isSome && isNewline c then false
    else
      match passOver quote c cs with
      | some (quote', k) => syntaxValid k quote' n cs
      | none             =>
        if c == ')' && n.paren = 0 || c == ']' && n.bracket = 0 || c == '}' && n.brace = 0 then false
        else if (c == '!' || c == ';') && n = {} then false
        else syntaxValid 0 none (n.count c) cs

def cssDeclarationValueSyntaxValid (text : CString) : Bool :=
  syntaxValid 0 none {} (cssStripImportant text).fst

def containerUnits : List CString :=
  ["cqw".toList, "cqh".toList, "cqi".toList, "cqb".toList, "cqmin".toList, "cqmax".toList]

def hasContainerUnit : Option Char → CString → Bool
  | _,    []      => false
  | prev, c :: cs =>
    prev.any (fun d => d.isDigit || d == '.') && (containerUnits.any fun unit =>
      hasCasePrefix (c :: cs) unit && !((c :: cs)[unit.length]?).any isIdent) ||
    hasContainerUnit (some c) cs

def cssValueHasContainerUnit (text : CString) : Bool :=
  hasContainerUnit none text

def replaceFallbacks (sub : CString → CString) : Nat → CString → CString
  | 0,     _ => []
  | n + 1, p =>
    match cssFindFunction p "var".toList with
    | none              => p
    | some (before, fn) =>
      let args := cssScanUntil (fn.drop 4) [')']
      if args.term = ')' then
        let comma := cssScanUntil args.taken [',']
        let fallback := if comma.term = ',' then sub (cssTrimDupRange comma.rest.tail) else []
        before ++ fallback ++ replaceFallbacks sub n args.rest.tail
      else before

-- The argument is how often the substitution may still go deeper.
def substituteFallbacks : Nat → CString → CString
  | 0,        text => text
  | left + 1, text => replaceFallbacks (substituteFallbacks left) (text.length + 1) text

def substituteVarFallbacks (text : CString) : CString :=
  substituteFallbacks 17 text

structure PendingDecl where
  pname     : CString
  rawVtext  : CString
  important : Bool
  declIndex : Nat
  declRank  : Nat
deriving DecidableEq

-- What a rule keeps of its declarations besides those that are parsed right away.
structure Capture where
  vars         : CString → Option CString := fun _ => none
  varImportant : CString → Bool           := fun _ => false
  pending      : List PendingDecl         := []

-- `decls` is `decls_out`, which is the rule's own array where there is a capture.
structure Block (δ : Type*) where
  p       : CString
  decls   : List δ         := []
  capture : Option Capture := none

-- What the value of a property is parsed to, for a shorthand its longhands.
abbrev Expander (δ : Type*) :=
  CString → CString → Bool → List δ

variable {δ : Type*}

def isCustom (name : CString) : Bool :=
  gStrHasPrefix name ['-', '-']

namespace Capture

def addVar (cap : Capture) (pname rawVtext : CString) : Capture :=
  let trimmed := (rawVtext.dropWhile gAsciiIsspace).rdropWhile gAsciiIsspace
  let (value, isImportant) := cssStripImportant trimmed
  { cap with
    vars         := Function.update cap.vars pname (some value)
    varImportant := Function.update cap.varImportant pname isImportant }

def addPending (cap : Capture) (declIndex : Nat) (pname rawVtext : CString) : Capture :=
  let (value, important) := cssStripImportant rawVtext
  let declRank :=
    match cap.pending.getLast? with
    | some prev => if prev.declIndex = declIndex then prev.declRank + 1 else 0
    | none      => 0
  { cap with pending := cap.pending ++ [⟨pname, value, important, declIndex, declRank⟩] }

end Capture

namespace Block

variable (expander : Expander δ)

def expand (b : Block δ) (pname rawVtext : CString) : Block δ :=
  let (vtext, important) := cssStripImportant (substituteVarFallbacks rawVtext)
  { b with decls := b.decls ++ expander pname vtext important }

-- What a declaration adds to the arrays.
def add (b : Block δ) (pname rawVtext : CString) : Block δ :=
  if cssDeclarationValueSyntaxValid rawVtext then
    match b.capture with
    | some cap =>
      if isCustom pname && pname.length > 2 then { b with capture := some (cap.addVar pname rawVtext) }
      else if strstr rawVtext "var(".toList || cssValueHasContainerUnit rawVtext then
        { b with capture := some (cap.addPending b.decls.length pname rawVtext) }
      else b.expand expander pname rawVtext
    | none => b.expand expander pname rawVtext
  else b

-- Where the loop goes on after a declaration without a name or a colon.
def resync (p : CString) : CString :=
  let s := cssScanSegment p
  if s.term = ';' then s.rest.tail else s.rest

def afterValue (value : Scanned) : CString :=
  if value.rest.head? = some ';' then value.rest.tail else value.rest

def closed (p : CString) : Bool :=
  p.head?.all (· == '}')

-- One iteration of the loop of `parse_declaration_block`.
def iteration (b : Block δ) : ForInStep (Block δ) :=
  if closed b.p then .done b
  else
    let p := skipping (fun c => isWs c || c == ';') 0 b.p
    if closed p then .done { b with p }
    else
      let (name, p) := readCssIdent p
      if name = [] then .yield { b with p := resync p }
      else
        let pname := if isCustom name then name else gAsciiStrdown name
        let p := cssSkipWsComments p
        if p.head? ≠ some ':' then .yield { b with p := resync p }
        else
          let value := cssScanDeclarationValue p.tail
          .yield { b.add expander pname (gStrndup value.taken) with p := afterValue value }

end Block

-- The result is `none` where the loop is never left.
def parseDeclarationBlock (expander : Expander δ) (b : Block δ) : Option (Block δ) :=
  (Lib.loop (Block.iteration expander) (b.p.length + 1) b).map fun b =>
    { b with p := if b.p.head? = some '}' then b.p.tail else b.p }

def cssomProperties : List CString :=
  ["alignment-baseline".toList, "background-attachment".toList, "baseline-shift".toList,
    "baseline-source".toList, "background".toList, "border".toList, "column-rule".toList,
    "columns".toList, "empty-cells".toList, "flex".toList, "flex-flow".toList, "font".toList,
    "grid".toList, "grid-template".toList, "list-style".toList, "outline".toList,
    "page-break-after".toList, "page-break-before".toList, "page-break-inside".toList,
    "place-content".toList, "place-items".toList, "place-self".toList, "src".toList,
    "unicode-range".toList]

-- `isProp` is whether `prop_id` finds a longhand.
def nsCssNamedPropertySupported (expander : Expander δ) (isProp : CString → Bool) (name : CString) :
    Option Bool :=
  if name = [] then some false
  else if isCustom name && name.length > 2 then some true
  else if strcaseEq name "all".toList || isProp name then some true
  else if cssomProperties.any (strcaseEq name) then some true
  else
    (parseDeclarationBlock expander { p := name ++ ": initial;".toList }).map fun b => !b.decls.isEmpty

end Nordstjernen.Css.Syntax

namespace Nordstjernen.Css.Syntax

-- A custom property among what matches an element. Rules are told apart by a number.
structure VarMatch where
  source    : SourceKeys
  declOrder : Int
  important : Bool
  rule      : Nat
  name      : CString
  text      : CString

namespace Capture

-- The names in the order in which the hash table is iterated over, which can be any.
structure Enumerates (cap : Capture) (names : List CString) : Prop where
  nodup : names.Nodup
  mem   : ∀ name, name ∈ names ↔ (cap.vars name).isSome

-- What `gather_matches_multi` appends to `var_out` for a matched rule.
def varMatches (cap : Capture) (names : List CString) (source : SourceKeys) (rule : Nat) : List VarMatch :=
  (names.filterMap fun name => (cap.vars name).map (name, ·)).zipIdx.map fun ((name, text), i) =>
    { source, declOrder := i, important := cap.varImportant name, rule, name, text }

end Capture

-- What an iteration of the loop of `parse_declaration_block` comes to.
inductive Turn
  | leave (p : CString)
  | skip (p : CString)
  | declaration (pname rawVtext : CString) (p : CString)

def turn (p : CString) : Turn :=
  if Block.closed p then .leave p
  else
    let p := skipping (fun c => isWs c || c == ';') 0 p
    if Block.closed p then .leave p
    else
      let (name, p) := readCssIdent p
      if name = [] then .skip (Block.resync p)
      else
        let pname := if isCustom name then name else gAsciiStrdown name
        let p := cssSkipWsComments p
        if p.head? ≠ some ':' then .skip (Block.resync p)
        else
          let value := cssScanDeclarationValue p.tail
          .declaration pname (gStrndup value.taken) (Block.afterValue value)

-- The declarations of a block in the order of the text, as far as so many iterations come.
def declarations : Nat → CString → List (CString × CString)
  | 0,     _ => []
  | n + 1, p =>
    match turn p with
    | .leave _                      => []
    | .skip p                       => declarations n p
    | .declaration pname rawVtext p => (pname, rawVtext) :: declarations n p

-- A declaration of a custom property.
structure VarDecl where
  text      : CString
  important : Bool
deriving DecidableEq

def varDecl (name : CString) (d : CString × CString) : Option VarDecl :=
  if d.fst = name ∧ cssDeclarationValueSyntaxValid d.snd then
    let (text, important) := cssStripImportant (gStrstrip d.snd)
    some ⟨text, important⟩
  else none

def varDecls (name p : CString) : List VarDecl :=
  (declarations (p.length + 1) p).filterMap (varDecl name)

-- The one that the cascade chooses among the declarations of a block.
def winner (ds : List VarDecl) : Option VarDecl :=
  (ds.filter (·.important)).getLast?.or ds.getLast?

-- The names that are captured.
def NamesCustom (name : CString) : Prop :=
  isCustom name ∧ 2 < name.length

-- Whether the cascade gets of a custom property what is to be chosen of its declarations.
def Sees {δ : Type*} (b : Block δ) (name : CString) (ds : List VarDecl) : Prop :=
  ∃ cap, b.capture = some cap ∧ ∀ names, cap.Enumerates names → ∀ source rule,
    ((cap.varMatches names source rule).filter (·.name = name)).map (fun vm => ⟨vm.text, vm.important⟩) =
      (winner ds).toList

end Nordstjernen.Css.Syntax
