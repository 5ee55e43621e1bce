import Nordstjernen.Glib.Strings
import Nordstjernen.Lib.JsonText

open Nordstjernen.Glib Nordstjernen.Lib

namespace Nordstjernen.Html

-- `ns_html_escape_append` with the quotes escaped, with that many bytes to go that have been read.
def escapeAppend : Nat → CString → CString
  | _,     []      => []
  | k + 1, _ :: cs => escapeAppend k cs
  | 0,     c :: cs =>
    if c = '&' then "&amp;".toList ++ escapeAppend 0 cs
    else if c = '<' then "&lt;".toList ++ escapeAppend 0 cs
    else if c = '>' then "&gt;".toList ++ escapeAppend 0 cs
    else if c = '"' then "&quot;".toList ++ escapeAppend 0 cs
    else if c = '\xc2' ∧ cs.head? = some '\xa0' then "&nbsp;".toList ++ escapeAppend 1 cs
    else c :: escapeAppend 0 cs

-- `ns_html_escape_text`
def escapeText (s : CString) : CString :=
  escapeAppend 0 (gStrndup s)

-- `NS_DOC_VIEWER_STYLE`
def docViewerStyle : CString :=
  ("<style>" ++
    "body\x7bmargin:0;background:#fbfbfd;color:#1a1a1a;" ++
    "font:13px/1.55 ui-monospace,SFMono-Regular,Menlo,Consolas,monospace\x7d" ++
    "pre\x7bmargin:0;padding:14px;white-space:pre;tab-size:2\x7d" ++
    ".k\x7bcolor:#9b2393\x7d.s\x7bcolor:#1a7f37\x7d.n\x7bcolor:#0b69c7\x7d.b\x7bcolor:#b35900\x7d" ++
    ".p\x7bcolor:#6e7781\x7d.tag\x7bcolor:#116329\x7d.at\x7bcolor:#6f42c1\x7d.av\x7bcolor:#1a7f37\x7d" ++
    ".cm\x7bcolor:#6a737d;font-style:italic\x7d.pi\x7bcolor:#6e7781\x7d" ++
    "</style>").toList

section Output

def docEscapeChar (c : Char) : CString :=
  if c = '<' then "&lt;".toList
  else if c = '>' then "&gt;".toList
  else if c = '&' then "&amp;".toList
  else [c]

-- What `doc_append_escaped` appends.
def docEscaped (s : CString) : CString :=
  s.flatMap docEscapeChar

-- What `doc_indent` appends.
def docIndent (depth : Nat) : CString :=
  (List.replicate (min depth 64) "  ".toList).flatten

-- A token in its `span`.
def span (cls : Char) (s : CString) : CString :=
  "<span class=".toList ++ cls :: '>' :: (s ++ "</span>".toList)

end Output

-- `json_ctx`, where `p` is the text up to its end.
structure JsonCtx where
  p  : CString
  o  : CString := []
  ok : Bool    := true

namespace JsonCtx

variable (c : JsonCtx)

def fail : JsonCtx :=
  { c with ok := false }

def append (s : CString) : JsonCtx :=
  { c with o := c.o ++ s }

-- What is read is written in a `span`.
def token (cls : Char) (s rest : CString) : JsonCtx :=
  { c with p := rest, o := c.o ++ span cls s }

-- `json_ws`
def ws : JsonCtx :=
  { c with p := c.p.dropWhile JsonText.isBlank }

end JsonCtx

-- The rest of a string behind its first quote, and what follows it, where the last character may have been a
-- backslash that takes the next one with it.
def stringRest : Bool → CString → Option (CString × CString)
  | _,     []      => none
  | true,  c :: cs => (stringRest false cs).map fun (s, rest) => (c :: s, rest)
  | false, c :: cs =>
    if c = '"' then some ([c], cs)
    else (stringRest (c == '\\') cs).map fun (s, rest) => (c :: s, rest)

-- `json_string` at a quote
def jsonString (cls : Char) (c : JsonCtx) : JsonCtx :=
  match stringRest false c.p.tail with
  | none           => { c with p := [], ok := false }
  | some (s, rest) => c.token cls (docEscaped (c.p.take 1 ++ s)) rest

-- The literals, which are tried one after another.
def jsonLiteral (c : JsonCtx) : JsonCtx :=
  match JsonText.literals.find? (·.isPrefixOf c.p) with
  | some lit => c.token 'b' lit (c.p.drop lit.length)
  | none     => c.fail

-- A character of a number behind its first one.
def isNumberChar (c : Char) : Bool :=
  c.isDigit || c == '.' || c == 'e' || c == 'E' || c == '+' || c == '-'

def jsonNumber (c : JsonCtx) : JsonCtx :=
  let sign := c.p.takeWhile (· == '-') |>.take 1
  let rest := c.p.drop sign.length
  let s    := sign ++ rest.takeWhile isNumberChar
  if s = [] then c.fail else c.token 'n' (docEscaped s) (rest.dropWhile isNumberChar)

-- The name in front of a value of an object.
def jsonKey (object : Bool) (c : JsonCtx) : JsonCtx :=
  if object then
    if c.p.head? ≠ some '"' then c.fail
    else
      let c := (jsonString 'k' c).ws
      if c.p.head? ≠ some ':' then c.fail
      else { c with p := c.p.tail }.append (span 'p' ": ".toList)
  else c

-- The loop over the values of an array or an object, which takes at least a comma each time.
def jsonItems (value : JsonCtx → JsonCtx) (object : Bool) (depth : Nat) : Nat → JsonCtx → JsonCtx
  | 0,     c => c.fail
  | k + 1, c =>
    let c := jsonKey object ((c.append ('\n' :: docIndent (depth + 1))).ws)
    if !c.ok then c
    else
      let c := value c
      if !c.ok then c
      else
        let c := c.ws
        if c.p.head? = some ',' then
          jsonItems value object depth k ({ c with p := c.p.tail }.append (span 'p' [',']))
        else c

-- The branch of an array and an object, behind the first bracket.
def jsonRow (value : JsonCtx → JsonCtx) (object : Bool) (depth : Nat) (c : JsonCtx) : JsonCtx :=
  let close := JsonText.closes object
  let c     := c.ws
  if c.p.head? = some close then c.token 'p' [close] c.p.tail
  else
    let c := jsonItems value object depth (c.p.length + 1) c
    if !c.ok then c
    else
      let c := c.append ('\n' :: docIndent depth)
      if c.p.head? ≠ some close then c.fail else c.token 'p' [close] c.p.tail

-- `json_value`, with so many levels left that may be entered.
def jsonValue : Nat → JsonCtx → JsonCtx
  | 0,          c => c.fail
  | levels + 1, c =>
    let c := c.ws
    match c.p with
    | []      => c.fail
    | ch :: cs =>
      if ch = '{' ∨ ch = '[' then jsonRow (jsonValue levels) (ch == '{') (256 - levels) (c.token 'p' [ch] cs)
      else if ch = '"' then jsonString 's' c
      else if ch = '-' ∨ ch.isDigit then jsonNumber c
      else jsonLiteral c

-- What is in front of the text of a document, and what is behind it.
def jsonHead (url : CString) : CString :=
  "<!DOCTYPE html><html><head><meta charset=\"utf-8\"><title>".toList ++ escapeText url ++ "</title>".toList ++
    docViewerStyle ++ "</head><body><pre>".toList

def jsonFoot : CString :=
  "</pre></body></html>".toList

-- `ns_html_json_document` for the bytes of a body. What has been written ends at a NUL.
def jsonDocument (url json : CString) : Option CString :=
  let c := jsonValue 257 ({ p := json : JsonCtx }.ws)
  if c.ok then some (jsonHead url ++ gStrndup c.o ++ jsonFoot) else none

end Nordstjernen.Html

namespace Nordstjernen.Html

-- What the document is for: to show a body that is JSON, and nothing else.

-- A text without its markup.
def stripTags : Bool → CString → CString
  | _,     []      => []
  | true,  c :: cs => stripTags (c != '>') cs
  | false, c :: cs => if c = '<' then stripTags true cs else c :: stripTags false cs

-- A text with its entities decoded, with that many characters to go of the last one.
def decodeFrom : Nat → CString → CString
  | _,     []      => []
  | k + 1, _ :: cs => decodeFrom k cs
  | 0,     c :: cs =>
    if gStrHasPrefix (c :: cs) "&lt;".toList then '<' :: decodeFrom 3 cs
    else if gStrHasPrefix (c :: cs) "&gt;".toList then '>' :: decodeFrom 3 cs
    else if gStrHasPrefix (c :: cs) "&amp;".toList then '&' :: decodeFrom 4 cs
    else c :: decodeFrom 0 cs

def shownText (content : CString) : CString :=
  decodeFrom 0 (stripTags false content)

-- One JSON text, encoded as it has to be.
def IsJson (json : CString) : Prop :=
  JsonText.IsText JsonText.strict json ∧ (json.map fun c => UInt8.ofNat c.toNat).toByteArray.IsValidUTF8

-- A document shows what it is made of, up to the blanks outside of strings.
def Shows (url json doc : CString) : Prop :=
  ∃ content, doc = jsonHead url ++ content ++ jsonFoot ∧
    JsonText.compact .outside (shownText content) = JsonText.compact .outside json

-- There is a document for JSON and for nothing else, and it shows the JSON.
def ShowsJson (url json : CString) : Prop :=
  ((jsonDocument url json).isSome ↔ IsJson json) ∧ ∀ doc ∈ jsonDocument url json, Shows url json doc

-- What is read as a value although it may be none: a string with anything in it, and a number that is made of
-- any characters of numbers.
def loose : JsonText.Lexemes where
  isString s := ∃ t, s = '"' :: t ∧ JsonText.LooseBody t
  isNumber s := ∃ c t, s = c :: t ∧ (c = '-' ∨ c.isDigit) ∧ ∀ d ∈ t, isNumberChar d

end Nordstjernen.Html
