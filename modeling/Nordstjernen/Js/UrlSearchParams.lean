import Mathlib.Data.List.Basic

namespace Nordstjernen.Js

-- A JavaScript string is the list of its code points. A surrogate that stands alone is no character.
inductive CodePoint
  | char (c : Char)
  | surrogate (n : Fin 2048)
deriving DecidableEq

abbrev JsString := List CodePoint

def ofChars (cs : List Char) : JsString :=
  cs.map .char

section Decode

def hexValue (c : Char) : Option Nat :=
  if c.isDigit then some (c.toNat - 48)
  else if 'A' ≤ c ∧ c ≤ 'F' then some (c.toNat - 55)
  else if 'a' ≤ c ∧ c ≤ 'f' then some (c.toNat - 87)
  else none

-- `%` and two hexadecimal digits, and what follows.
def octetAt : JsString → Option (UInt8 × JsString)
  | .char '%' :: .char a :: .char b :: tl =>
    match hexValue a, hexValue b with
    | some x, some y => some (UInt8.ofNat (16 * x + y), tl)
    | _,      _      => none
  | _ => none

-- How many octets a first octet announces.
def octetCount (b : UInt8) : Option Nat :=
  if b.toNat < 0x80 then some 1
  else if b.toNat < 0xc0 then none
  else if b.toNat < 0xe0 then some 2
  else if b.toNat < 0xf0 then some 3
  else if b.toNat < 0xf8 then some 4
  else none

def octetsAt : Nat → JsString → Option (List UInt8 × JsString)
  | 0,     s => some ([], s)
  | n + 1, s => do
    let (b, s) ← octetAt s
    let (bs, s) ← octetsAt n s
    return (b :: bs, s)

def decodeOctets (octets : List UInt8) : Option Char :=
  (octets.toByteArray.utf8DecodeChar? 0).filter (String.utf8EncodeChar · = octets)

-- The character that an escape at the front stands for, and what follows.
def unescape (s : JsString) : Option (Char × JsString) := do
  let (b, _) ← octetAt s
  let n ← octetCount b
  let (octets, s) ← octetsAt n s
  let c ← decodeOctets octets
  return (c, s)

-- Every turn consumes a code point at least, which the fuel counts.
def decodeFrom : Nat → JsString → Option JsString
  | _,     []     => some []
  | 0,     _ :: _ => none
  | n + 1, p :: s =>
    if p = .char '%' then do
      let (c, s) ← unescape (p :: s)
      let tl ← decodeFrom n s
      return .char c :: tl
    else do
      let tl ← decodeFrom n s
      return p :: tl

-- `none` where a `URIError` is thrown.
def decodeURIComponent (s : JsString) : Option JsString :=
  decodeFrom s.length s

end Decode

section Encode

def isUnreserved (c : Char) : Bool :=
  c.isAlphanum || c == '-' || c == '_' || c == '.' || c == '!' || c == '~' || c == '*' || c == '\'' ||
    c == '(' || c == ')'

def hexDigit (n : Nat) : Char :=
  if n < 10 then Char.ofNat (48 + n) else Char.ofNat (55 + n)

def escapeOctet (b : UInt8) : List Char :=
  ['%', hexDigit (b.toNat / 16), hexDigit (b.toNat % 16)]

def escapeChar (c : Char) : List Char :=
  (String.utf8EncodeChar c).flatMap escapeOctet

def encodeCodePoint : CodePoint → Option (List Char)
  | .char c      => some (if isUnreserved c then [c] else escapeChar c)
  | .surrogate _ => none

-- `none` where a `URIError` is thrown.
def encodeURIComponent (s : JsString) : Option (List Char) := do
  let texts ← s.mapM encodeCodePoint
  return texts.flatten

end Encode

end Nordstjernen.Js

namespace Nordstjernen.Js.UrlSearchParams

-- The `_p` of a `USP`.
abbrev Pairs := List (JsString × JsString)

-- `replace(/%20/g, '+')`
def spacesToPlus : List Char → List Char
  | '%' :: '2' :: '0' :: s => '+' :: spacesToPlus s
  | c :: s                 => c :: spacesToPlus s
  | []                     => []

-- `replace(/\+/g, ' ')`
def plusToSpace (s : JsString) : JsString :=
  s.map fun p => if p = .char '+' then .char ' ' else p

def encodeKV (s : JsString) : Option JsString :=
  (encodeURIComponent s).map fun text => ofChars (spacesToPlus text)

def decodeKV (s : JsString) : Option JsString :=
  decodeURIComponent (plusToSpace s)

-- The text before the first `=`, and the text after it where there is one.
def splitPart (part : JsString) : JsString × Option JsString :=
  match part.span (· != .char '=') with
  | (name, [])         => (name, none)
  | (name, _ :: value) => (name, some value)

def parsePart (part : JsString) : Option (JsString × JsString) :=
  match splitPart part with
  | (name, none)       => do
    let name ← decodeKV name
    return (name, [])
  | (name, some value) => do
    let name ← decodeKV name
    let value ← decodeKV value
    return (name, value)

def withoutQuestionMark (init : JsString) : JsString :=
  match init with
  | .char '?' :: s => s
  | s              => s

def partsOf (init : JsString) : List JsString :=
  ((withoutQuestionMark init).splitOn (.char '&')).filter (· ≠ [])

-- `new USP(init)` for a string, where `none` stands for a `URIError`.
def parse (init : JsString) : Option Pairs :=
  if withoutQuestionMark init = [] then some [] else (partsOf init).mapM parsePart

def serializePair (p : JsString × JsString) : Option JsString := do
  let name ← encodeKV p.fst
  let value ← encodeKV p.snd
  return name ++ .char '=' :: value

-- `USP.prototype.toString`
def toString (pairs : Pairs) : Option JsString := do
  let parts ← pairs.mapM serializePair
  return [.char '&'].intercalate parts

end Nordstjernen.Js.UrlSearchParams

namespace Nordstjernen.Js.UrlSearchParams

-- A UTF-8 decoder. What it makes of bytes that are no text is left open.
structure Utf8Decoder where
  decode        : List UInt8 → List Char
  decode_encode : ∀ cs : List Char, decode (cs.flatMap String.utf8EncodeChar) = cs

-- Bytes that are no text yield none.
def strictDecoder : Utf8Decoder where
  decode bytes := (bytes.toByteArray.utf8Decode?.map Array.toList).getD []
  decode_encode cs := by
    have h : (cs.flatMap String.utf8EncodeChar).toByteArray = cs.utf8Encode := rfl
    rw [h, List.utf8Decode?_utf8Encode]
    rfl

-- Turning a string into scalar values replaces surrogates that stand alone.
def scalarOf : CodePoint → Char
  | .char c      => c
  | .surrogate _ => '\uFFFD'

-- The percent-decoded bytes of a text, where a malformed sequence stands for itself.
def percentDecode : List Char → List UInt8
  | '%' :: a :: b :: s =>
    match hexValue a, hexValue b with
    | some x, some y => UInt8.ofNat (16 * x + y) :: percentDecode s
    | _,      _      => String.utf8EncodeChar '%' ++ percentDecode (a :: b :: s)
  | c :: s => String.utf8EncodeChar c ++ percentDecode s
  | []     => []

section Parser

variable (D : Utf8Decoder)

def formDecode (s : JsString) : List Char :=
  D.decode (percentDecode ((plusToSpace s).map scalarOf))

def formPair (part : JsString) : JsString × JsString :=
  let (name, value) := splitPart part
  (ofChars (formDecode D name), ofChars (formDecode D (value.getD [])))

-- The application/x-www-form-urlencoded parser, behind the `?` that the constructor removes.
def formParse (init : JsString) : Pairs :=
  (partsOf init).map (formPair D)

end Parser

-- How octets are escaped.
inductive Escapes : JsString → List UInt8 → Prop
  | nil : Escapes [] []
  | cons {a b : Char} {x y : Nat} {s : JsString} {octets : List UInt8} :
    hexValue a = some x → hexValue b = some y → Escapes s octets →
    Escapes (.char '%' :: .char a :: .char b :: s) (UInt8.ofNat (16 * x + y) :: octets)

-- How characters are spelled: each is itself, if it is not `%`, or its escaped octets.
inductive Spells : JsString → List Char → Prop
  | nil : Spells [] []
  | char {c : Char} {s : JsString} {cs : List Char} :
    c ≠ '%' → Spells s cs → Spells (.char c :: s) (c :: cs)
  | escape {c : Char} {e s : JsString} {cs : List Char} :
    Escapes e (String.utf8EncodeChar c) → Spells s cs → Spells (e ++ s) (c :: cs)

-- Whether every `%` of a name or value begins an escaped character, and every surrogate is paired.
def WellSpelled (s : JsString) : Prop :=
  ∃ cs, Spells (plusToSpace s) cs

-- Pairs whose names and values have no surrogate that stands alone.
def ofPairs (pairs : List (List Char × List Char)) : Pairs :=
  pairs.map fun (name, value) => (ofChars name, ofChars value)

def PartWellSpelled (part : JsString) : Prop :=
  WellSpelled (splitPart part).fst ∧ WellSpelled ((splitPart part).snd.getD [])

end Nordstjernen.Js.UrlSearchParams
