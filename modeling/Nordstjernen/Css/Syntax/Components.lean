import Nordstjernen.Css.Syntax.Scan
import Nordstjernen.Lib.ForestOrder

open Nordstjernen.Glib Nordstjernen.Lib

namespace Nordstjernen.Css.Syntax

inductive ComponentType
  | whitespace
  | ident
  | function
  | string
  | number
  | percentage
  | dimension
  | hash
  | atKeyword
  | colon
  | semicolon
  | comma
  | delim
  | block
deriving DecidableEq

-- `number` is the text of the number. `inner` is where the list of the children begins, if there is one.
structure Component where
  type      : ComponentType
  start     : Nat
  stop      : Nat
  value     : CString    := []
  number    : CString    := []
  delimiter : Char       := '\x00'
  inner     : Option Nat := none
deriving DecidableEq

section Length

-- How many characters something has that a text begins with.

def syntaxNameStart (c : Char) : Bool :=
  c.isAlpha || c == '_' || 128 ≤ c.toNat

def syntaxName (c : Char) : Bool :=
  syntaxNameStart c || c.isDigit || c == '-'

-- `css_syntax_escape_end`. Nothing is read in front of a newline.
def escapeLength : CString → Nat
  | '\\' :: p =>
    match p with
    | []     => 1
    | c :: _ =>
      if gAsciiIsxdigit c then
        let digits := ((p.take 6).takeWhile gAsciiIsxdigit).length
        1 + digits + if (p.drop digits).head?.any isWs then 1 else 0
      else if isNewline c then 0
      else 2
  | _         => 0

-- `css_syntax_name_end`, which passes over some characters first.
def nameLength : Nat → CString → Nat
  | _,     []      => 0
  | k + 1, _ :: cs => 1 + nameLength k cs
  | 0,     c :: cs =>
    if syntaxName c then 1 + nameLength 0 cs
    else
      match escapeLength (c :: cs) with
      | 0     => 0
      | k + 1 => 1 + nameLength k cs

def validEscape : CString → Bool
  | '\\' :: c :: _ => !isNewline c
  | _              => false

def startsIdent : CString → Bool
  | []     => false
  | a :: p =>
    if syntaxNameStart a then true
    else if a == '\\' then validEscape (a :: p)
    else if a != '-' then false
    else p.head?.any (fun b => syntaxNameStart b || b == '-') || validEscape p

def isSign (c : Char) : Bool :=
  c == '+' || c == '-'

def startsNumber : CString → Bool
  | []     => false
  | a :: p =>
    let b := p.head?.getD '\x00'
    let c := (p.drop 1).head?.getD '\x00'
    if a.isDigit then true
    else if a == '.' then b.isDigit
    else if isSign a then b.isDigit || b == '.' && c.isDigit
    else false

def digitsLength (p : CString) : Nat :=
  (p.takeWhile Char.isDigit).length

def signLength (p : CString) : Nat :=
  if p.head?.any isSign then 1 else 0

def fractionLength : CString → Nat
  | '.' :: cs => if digitsLength cs = 0 then 0 else 1 + digitsLength cs
  | _         => 0

def exponentLength : CString → Nat
  | []      => 0
  | e :: cs =>
    if e == 'e' || e == 'E' then
      let digits := digitsLength (cs.drop (signLength cs))
      if digits = 0 then 0 else 1 + signLength cs + digits
    else 0

-- `css_syntax_number_end`
def numberLength (p : CString) : Nat :=
  let whole := signLength p + digitsLength (p.drop (signLength p))
  let decimal := whole + fractionLength (p.drop whole)
  decimal + exponentLength (p.drop decimal)

-- The loop of `css_syntax_consume_string`, which passes over the rest of an escape first: the value, how many
-- characters are read, and whether the string is well-formed.
def stringBody (quote : Char) : Nat → CString → CString × Nat × Bool
  | _,     []      => ([], 0, true)
  | k + 1, c :: cs =>
    let (value, n, valid) := stringBody quote k cs
    (c :: value, n + 1, valid)
  | 0,     c :: cs =>
    if c == quote then ([], 1, true)
    else if isNewline c then ([], 1, false)
    else
      let next (k : Nat) :=
        let (value, n, valid) := stringBody quote k cs
        (c :: value, n + 1, valid)
      if c == '\\' && cs ≠ [] then
        match escapeLength (c :: cs) with
        | 0     => ([], 1, false)
        | k + 1 => next k
      else next 0

end Length

-- What has been read of a component. Where `closing` is given, a list of children follows.
structure Consumed where
  component : Component
  length    : Nat
  valid     : Bool        := true
  closing   : Option Char := none

def consumeString (offset : Nat) (quote : Char) (cs : CString) : Consumed :=
  let (value, n, valid) := stringBody quote 0 cs
  { component := {
      type := .string
      start := offset
      stop := offset + (n + 1)
      value := gStrndup value
      delimiter := quote }
    length    := n + 1
    valid }

def consumeNumeric (offset : Nat) (p : CString) : Consumed :=
  let n := numberLength p
  let rest := p.drop n
  let (type, unit) : ComponentType × Nat :=
    if rest.head? == some '%' then (.percentage, 1)
    else if startsIdent rest then (.dimension, nameLength 0 rest)
    else (.number, 0)
  { component := {
      type
      start := offset
      stop := offset + (n + unit)
      value := gStrndup (rest.take unit)
      number := p.take n }
    length    := n + unit }

-- `css_syntax_consume_ident` for a name behind an `@` or a `#`.
def consumeMarked (type : ComponentType) (offset : Nat) (cs : CString) : Consumed :=
  let n := nameLength 0 cs
  { component := { type, start := offset, stop := offset + (n + 1), value := gStrndup (cs.take n) }
    length    := n + 1 }

def consumeIdent (offset : Nat) (p : CString) : Consumed :=
  let n := nameLength 0 p
  let value := gStrndup (p.take n)
  if (p.drop n).head? == some '(' then
    { component :=
        { type      := .function
          start     := offset
          stop      := offset + (n + 1)
          value
          delimiter := ')'
          inner     := some (offset + (n + 1)) }
      length    := n + 1
      closing   := some ')' }
  else
    { component := { type := .ident, start := offset, stop := offset + n, value }
      length    := n }

-- The bracket that ends a block.
def closingOf (c : Char) : Option Char :=
  if c == '(' then some ')' else if c == '[' then some ']' else if c == '{' then some '}' else none

def consumeDelim (offset : Nat) (c : Char) : Consumed :=
  match closingOf c with
  | some d =>
    { component :=
        { type := .block, start := offset, stop := offset + 1, delimiter := d, inner := some (offset + 1) }
      length    := 1
      closing   := some d }
  | none   =>
    let type := if c == ':' then .colon else if c == ';' then .semicolon else if c == ',' then .comma else .delim
    { component := { type, start := offset, stop := offset + 1, delimiter := c }
      length    := 1 }

-- `css_syntax_consume`, as far as the list of the children.
def consume (offset : Nat) (c : Char) (cs : CString) : Consumed :=
  if isWs c then
    let n := ((c :: cs).takeWhile isWs).length
    { component := { type := .whitespace, start := offset, stop := offset + n }
      length    := n }
  else if c == '"' || c == '\'' then consumeString offset c cs
  else if startsNumber (c :: cs) then consumeNumeric offset (c :: cs)
  else if c == '@' && startsIdent cs then consumeMarked .atKeyword offset cs
  else if c == '#' && (cs.head?.any syntaxName || validEscape cs) then consumeMarked .hash offset cs
  else if startsIdent (c :: cs) then consumeIdent offset (c :: cs)
  else consumeDelim offset c

def isClosing (c : Char) : Bool :=
  c == ')' || c == ']' || c == '}'

-- The components of a list, how many characters are read, and whether the text is well-formed.
structure Parsed where
  components : Forest Component
  length     : Nat
  valid      : Bool

def Parsed.after (r : Parsed) (n : Nat) (valid : Bool) : Parsed :=
  { r with length := n + r.length, valid := valid && r.valid }

-- `css_syntax_parse_list`, as far as so many calls and rounds of its loop come.
def parseList : Nat → Option Char → Nat → CString → Option Parsed
  | 0,        _,       _,      _       => none
  | _ + 1,    _,       _,      []      => some ⟨.nil, 0, true⟩
  | fuel + 1, closing, offset, c :: cs =>
    if c == '/' && cs.head? == some '*' then
      let rest := cssSkipComment (c :: cs)
      let n := (c :: cs).length - rest.length
      (parseList fuel closing (offset + n) rest).map (·.after n true)
    else if closing = some c then some ⟨.nil, 1, true⟩
    else if isClosing c then
      if closing.isSome then some ⟨.nil, 1, false⟩
      else (parseList fuel closing (offset + 1) cs).map (·.after 1 false)
    else do
      let t := consume offset c cs
      let rest := (c :: cs).drop t.length
      let inner ←
        match t.closing with
        | none   => some ⟨.nil, 0, true⟩
        | some d => parseList fuel (some d) (offset + t.length) rest
      let n := t.length + inner.length
      let r ← parseList fuel closing (offset + n) (rest.drop inner.length)
      let component := { t.component with stop := offset + n }
      return { r.after n (t.valid && inner.valid) with
        components := .node component inner.components r.components }

-- `ns_css_component_values_parse`. No text is the empty one.
def cssComponentValuesParse (input : CString) : Option Parsed :=
  parseList (input.length + 1) none 0 input

section Scan

-- The brackets that are open, the last one in front. There is room for so many.
def stackMax : Nat :=
  128

def scanStack (stack : List Char) (c : Char) : List Char :=
  match closingOf c with
  | some d => if stack.length < stackMax then d :: stack else stack
  | none   => if stack.head? = some c then stack.tail else stack

def forward (n : Nat) (r : Nat × Char) : Nat × Char :=
  (n + r.1, r.2)

-- The loop of `ns_css_syntax_scan`, which passes over some characters first: how many characters are in front of
-- the terminator that it stops at, and that terminator, which is `\x00` at the end of the text.
def scanLoop (terminators : List Char) : Nat → Option Char → List Char → CString → Nat × Char
  | _,     _,      _,     []      => (0, '\x00')
  | k + 1, quote,  stack, _ :: cs => forward 1 (scanLoop terminators k quote stack cs)
  | 0,     some q, stack, c :: cs =>
    if c == '\\' && cs ≠ [] then forward 1 (scanLoop terminators 1 (some q) stack cs)
    else forward 1 (scanLoop terminators 0 (if c == q then none else some q) stack cs)
  | 0,     none,   stack, c :: cs =>
    if c == '/' && cs.head? == some '*' then
      forward 1 (scanLoop terminators (commentLength (c :: cs)) none stack cs)
    else if c == '\\' && cs ≠ [] then forward 1 (scanLoop terminators 1 none stack cs)
    else if c == '"' || c == '\'' then forward 1 (scanLoop terminators 0 (some c) stack cs)
    else if stack = [] && (terminators.contains c || c == '\x00') then (0, c)
    else forward 1 (scanLoop terminators 0 none (scanStack stack c) cs)

-- `ns_css_syntax_scan`
def cssSyntaxScan (input : CString) (terminators : List Char) : Nat × Char :=
  scanLoop terminators 0 none [] input

-- The first component of a type that is in no other component.
def firstOfType (type : ComponentType) (f : Forest Component) : Option Component :=
  f.tops.find? (·.type = type)

inductive IsDelimiter : Char → ComponentType → Prop
  | semicolon : IsDelimiter ';' .semicolon
  | comma : IsDelimiter ',' .comma

-- How deep blocks and functions are in one another.
def nesting : Forest Component → Nat
  | .nil              => 0
  | .node a kids sibs => max (if a.inner.isSome then nesting kids + 1 else 0) (nesting sibs)

end Scan

end Nordstjernen.Css.Syntax
