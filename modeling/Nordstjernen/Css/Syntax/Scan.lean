import Nordstjernen.Glib.Strings

open Nordstjernen.Glib

namespace Nordstjernen.Css.Syntax

-- A pointer into a text is what the text has from there to its end, and the byte `\x00` may be part
-- of it.

def isWs (c : Char) : Bool :=
  c == ' ' || c == '\t' || c == '\n' || c == '\r' || c == '\x0c'

def isNewline (c : Char) : Bool :=
  c == '\n' || c == '\r' || c == '\x0c'

def isIdentStart (c : Char) : Bool :=
  c.isLower || c.isUpper || c == '_' || c == '-' || 128 ≤ c.toNat

def isIdent (c : Char) : Bool :=
  isIdentStart c || c.isDigit

def gAsciiIsxdigit (c : Char) : Bool :=
  c.isDigit || 'a' ≤ c && c ≤ 'f' || 'A' ≤ c && c ≤ 'F'

def gAsciiXdigitValue (c : Char) : Nat :=
  if c.isDigit then c.toNat - 48 else if c.isLower then c.toNat - 87 else c.toNat - 55

def gStringAppendUnichar (cp : Nat) : CString :=
  (String.utf8EncodeChar (Char.ofNat cp)).map fun byte => Char.ofNat byte.toNat

def cssUnescapeCp (cp : Nat) : Nat :=
  if cp = 0 ∨ cp > 0x10FFFF ∨ (0xD800 ≤ cp ∧ cp ≤ 0xDFFF) then 0xFFFD else cp

-- `css_append_hex_escape`: what is appended, and the number of characters read.
def cssAppendHexEscape (p : CString) : CString × Nat :=
  let digits := (p.take 6).takeWhile gAsciiIsxdigit
  let cp := digits.foldl (fun cp c => cp * 16 + gAsciiXdigitValue c) 0
  let blank :=
    match p.drop digits.length with
    | []        => 0
    | c :: rest => if isWs c then (if c == '\r' && rest.head? == some '\n' then 2 else 1) else 0
  (gStringAppendUnichar (cssUnescapeCp cp), digits.length + blank)

def afterComment : CString → CString
  | []      => []
  | c :: cs => if c == '*' && cs.head? == some '/' then cs.tail else afterComment cs

def cssSkipComment (p : CString) : CString :=
  match p with
  | c :: d :: rest => if c == '/' && d == '*' then afterComment rest else p
  | _              => p

-- How many characters after the first one a comment has.
def commentLength (p : CString) : Nat :=
  p.length - (cssSkipComment p).length - 1

-- The loops over a text pass over some characters without looking at them. Their number is an
-- argument, so that the recursion is on the text.

def skipping (blank : Char → Bool) : Nat → CString → CString
  | _,     []      => []
  | k + 1, _ :: cs => skipping blank k cs
  | 0,     c :: cs =>
    if blank c then skipping blank 0 cs
    else if c == '/' && cs.head? == some '*' then skipping blank (commentLength (c :: cs)) cs
    else c :: cs

def cssSkipWsComments (p : CString) : CString :=
  skipping isWs 0 p

-- What the scanners do before they look at a character: a character in a string, an escape, a
-- comment and a quote are passed over. The results are the quote that is open afterwards, and how many
-- characters follow that are not looked at.
def passOver (quote : Option Char) (c : Char) (cs : CString) : Option (Option Char × Nat) :=
  match quote with
  | some q =>
    if c == '\\' && cs ≠ [] then some (some q, 1)
    else if c == q || isNewline c then some (none, 0)
    else some (some q, 0)
  | none =>
    if c == '/' && cs.head? == some '*' then some (none, commentLength (c :: cs))
    else if c == '\\' && cs ≠ [] then some (none, 1)
    else if c == '"' || c == '\'' then some (some c, 0)
    else none

structure Nesting where
  paren   : Nat := 0
  bracket : Nat := 0
  brace   : Nat := 0
deriving DecidableEq

def Nesting.count (n : Nesting) (c : Char) : Nesting :=
  if c == '(' then { n with paren := n.paren + 1 }
  else if c == ')' then { n with paren := n.paren - 1 }
  else if c == '[' then { n with bracket := n.bracket + 1 }
  else if c == ']' then { n with bracket := n.bracket - 1 }
  else if c == '{' then { n with brace := n.brace + 1 }
  else if c == '}' then { n with brace := n.brace - 1 }
  else n

-- The result of a scan: the text before the character where it stops, the text from there on, and
-- the terminator that it stopped at.
structure Scanned where
  taken : CString
  rest  : CString
  term  : Char
deriving DecidableEq

def Scanned.cons (c : Char) (s : Scanned) : Scanned :=
  { s with taken := c :: s.taken }

-- `strchr` finds the end of the list of terminators too, so that a `\x00` is one of them.
def scanUntil (terminators : List Char) : Nat → Option Char → Nesting → CString → Scanned
  | _,     _,     _, []      => ⟨[], [], '\x00'⟩
  | k + 1, quote, n, c :: cs => (scanUntil terminators k quote n cs).cons c
  | 0,     quote, n, c :: cs =>
    match passOver quote c cs with
    | some (quote', k) => (scanUntil terminators k quote' n cs).cons c
    | none             =>
      if n = {} && (terminators.contains c || c == '\x00') then ⟨[], c :: cs, c⟩
      else (scanUntil terminators 0 none (n.count c) cs).cons c

def cssScanUntil (p : CString) (terminators : List Char) : Scanned :=
  scanUntil terminators 0 none {} p

def cssScanSegment (p : CString) : Scanned :=
  cssScanUntil p ['{', ';', '}']

def cssScanDeclarationValue (p : CString) : Scanned :=
  cssScanUntil p [';', '}']

-- The text from the character on, and the text before it.
def cssFindTopLevelChar (p : CString) (needle : Char) : Option (CString × CString) :=
  let s := cssScanUntil p [needle]
  if s.term = needle then some (s.taken, s.rest) else none

def findFunction (name : CString) :
    Nat → Option Char → Option Char → CString → Option (CString × CString)
  | _,     _,     _,    []      => none
  | k + 1, quote, _,    c :: cs => (findFunction name k quote (some c) cs).map (.map (c :: ·) id)
  | 0,     quote, prev, c :: cs =>
    match passOver quote c cs with
    | some (quote', k) => (findFunction name k quote' (some c) cs).map (.map (c :: ·) id)
    | none             =>
      if (c :: cs)[name.length]? == some '(' && hasCasePrefix (c :: cs) name && !prev.any isIdent then
        some ([], c :: cs)
      else
        (findFunction name 0 none (some c) cs).map (.map (c :: ·) id)

-- The text before the call of a function, and the text from the call on.
def cssFindFunction (p name : CString) : Option (CString × CString) :=
  findFunction name 0 none none p

def readIdent : Nat → CString → CString × CString
  | _,     []      => ([], [])
  | k + 1, _ :: cs => readIdent k cs
  | 0,     c :: cs =>
    if c == '\\' then
      match cs.head? with
      | none     => (gStringAppendUnichar 0xFFFD, cs)
      | some esc =>
        if isNewline esc then (gStringAppendUnichar 0xFFFD, cs)
        else if gAsciiIsxdigit esc then
          let (bytes, k) := cssAppendHexEscape cs
          let (name, rest) := readIdent k cs
          (bytes ++ name, rest)
        else
          let (name, rest) := readIdent 1 cs
          (esc :: name, rest)
    else if isIdent c then
      let (name, rest) := readIdent 0 cs
      (c :: name, rest)
    else ([], c :: cs)

-- The identifier, as a C string, and the text after it.
def readCssIdent (p : CString) : CString × CString :=
  let (name, rest) := readIdent 0 p
  (gStrndup name, rest)

def cssTrimDupRange (range : CString) : CString :=
  gStrndup ((range.dropWhile isWs).rdropWhile isWs)

end Nordstjernen.Css.Syntax
