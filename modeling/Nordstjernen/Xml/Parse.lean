import Nordstjernen.Glib.Strings
import Nordstjernen.Dom.NodeIndex

open Nordstjernen.Glib Nordstjernen.Dom

namespace Nordstjernen.Xml

def isSpace (c : Char) : Bool :=
  c == ' ' || c == '\t' || c == '\n' || c == '\r'

def skipSpace (s : CString) : CString :=
  s.dropWhile isSpace

def nameChar (first : Bool) (c : Char) : Bool :=
  c == ':' || c == '_' || c.isUpper || c.isLower || 0x80 ≤ c.toNat ||
    !first && (c == '-' || c == '.' || c.isDigit)

-- `xml_read_name`. A reader returns what it has read and the rest of the text.
def readName : CString → Option (CString × CString)
  | []      => none
  | c :: cs =>
    if nameChar true c then some (c :: cs.takeWhile (nameChar false), cs.dropWhile (nameChar false)) else none

-- What is in front of the first place where a text has this pattern, and what is behind the pattern.
def breakAt (pat : CString) : CString → Option (CString × CString)
  | []      => none
  | c :: cs =>
    if pat.isPrefixOf (c :: cs) then some ([], (c :: cs).drop pat.length)
    else (breakAt pat cs).map fun (before, rest) => (c :: before, rest)

-- `g_unichar_to_utf8`, for a code point.
def unicharToUtf8 (cp : Nat) : CString :=
  if cp < 0x80 then [.ofNat cp]
  else if cp < 0x800 then [.ofNat (0xc0 + cp / 0x40), .ofNat (0x80 + cp % 0x40)]
  else if cp < 0x10000 then
    [.ofNat (0xe0 + cp / 0x1000), .ofNat (0x80 + cp / 0x40 % 0x40), .ofNat (0x80 + cp % 0x40)]
  else
    [.ofNat (0xf0 + cp / 0x40000), .ofNat (0x80 + cp / 0x1000 % 0x40), .ofNat (0x80 + cp / 0x40 % 0x40),
      .ofNat (0x80 + cp % 0x40)]

-- What `xml_append_codepoint` appends.
def codepoint (cp : Nat) : CString :=
  if cp = 0 ∨ cp > 0x10ffff ∨ 0xd800 ≤ cp ∧ cp ≤ 0xdfff then ['\xef', '\xbf', '\xbd'] else unicharToUtf8 cp

def digitValue (c : Char) : Option Nat :=
  if c.isDigit then some (c.toNat - '0'.toNat)
  else if 'a' ≤ c ∧ c ≤ 'f' then some (c.toNat - 'a'.toNat + 10)
  else if 'A' ≤ c ∧ c ≤ 'F' then some (c.toNat - 'A'.toNat + 10)
  else none

-- The number that a text begins with, where `n` has been read. It ends at the first character that is no digit.
def digits (base n : Nat) : CString → Nat
  | []      => n
  | c :: cs =>
    match (digitValue c).filter (· < base) with
    | some d => digits base (n * base + d) cs
    | none   => n

-- `g_ascii_strtoull(s, NULL, base)` for one of the bases 10 and 16. The sign is applied to what the
-- digits overflow to.
def gAsciiStrtoull (base : Nat) (s : CString) : Nat :=
  let s := s.dropWhile strtollIsspace
  let (negative, s) :=
    match s with
    | '-' :: s => (true, s)
    | '+' :: s => (false, s)
    | s        => (false, s)
  let s :=
    match s with
    | '0' :: x :: rest => if base = 16 ∧ (x = 'x' ∨ x = 'X') then rest else s
    | s                => s
  let n := min (digits base 0 s) 0xffffffffffffffff
  if negative then (0x10000000000000000 - n) % 0x10000000000000000 else n

-- What a reference stands for, which has this between its `&` and its `;`.
def reference (e : CString) : Option CString :=
  match e with
  | '#' :: 'x' :: digits => some (codepoint (gAsciiStrtoull 16 digits))
  | '#' :: 'X' :: digits => some (codepoint (gAsciiStrtoull 16 digits))
  | '#' :: digits        => some (codepoint (gAsciiStrtoull 10 digits))
  | _                    =>
    if e = "amp".toList then some ['&']
    else if e = "lt".toList then some ['<']
    else if e = "gt".toList then some ['>']
    else if e = "quot".toList then some ['"']
    else if e = "apos".toList then some ['\'']
    else if e = "nbsp".toList then some ['\xc2', '\xa0']
    else none

-- The loop of `xml_decode_text`, which passes over the rest of a reference first.
def decodeFrom (skip : Nat) : CString → CString
  | []      => []
  | c :: cs =>
    match skip with
    | skip + 1 => decodeFrom skip cs
    | 0        =>
      if c = '&' then
        match cs.span (· != ';') with
        | (e, _ :: _) =>
          match reference e with
          | some text => text ++ decodeFrom (e.length + 1) cs
          | none      => c :: decodeFrom 0 cs
        | (_, [])     => c :: decodeFrom 0 cs
      else c :: decodeFrom 0 cs

-- `xml_decode_text`, whose result is read as a C string everywhere.
def decodeText (s : CString) : CString :=
  gStrndup (decodeFrom 0 s)

-- `XML_NS_XML`
def nsXml : CString :=
  "http://www.w3.org/XML/1998/namespace".toList

-- `XML_NS_XMLNS`
def nsXmlns : CString :=
  "http://www.w3.org/2000/xmlns/".toList

-- `XML_NS_XHTML`
def nsXhtml : CString :=
  "http://www.w3.org/1999/xhtml".toList

-- `XML_NS_SVG`
def nsSvg : CString :=
  "http://www.w3.org/2000/svg".toList

-- `XML_MAX_DEPTH`
def maxDepth : Nat := 256

-- `ns_stack` from its top down: the prefixes that are bound, each with its URI.
abbrev Bindings := List (Option CString × CString)

-- `xml_lookup_prefix`
def lookupPrefix (ns : Bindings) (pfx : Option CString) : Option CString :=
  if pfx = some "xml".toList then some nsXml
  else if pfx = some "xmlns".toList then some nsXmlns
  else (ns.find? (·.1 = pfx)).map (·.2)

def pushBinding (ns : Bindings) (pfx : Option CString) (uri : CString) : Bindings :=
  (pfx.filter (· ≠ []), uri) :: ns

-- What an attribute of a start tag binds.
def bindAttribute (ns : Bindings) (a : CString × CString) : Bindings :=
  if a.1 = "xmlns".toList then pushBinding ns none a.2
  else if gStrHasPrefix a.1 "xmlns:".toList then pushBinding ns (some (a.1.drop 6)) a.2
  else ns

-- One attribute of `xml_parse_attributes`.
def readAttribute (s : CString) : Option ((CString × CString) × CString) := do
  let (aname, s) ← readName s
  match skipSpace s with
  | '=' :: s =>
    match skipSpace s with
    | q :: s =>
      if q = '"' ∨ q = '\'' then
        match s.span (· != q) with
        | (value, _ :: rest) => some ((aname, decodeText value), rest)
        | (_, [])            => none
      else none
    | []     => none
  | _        => none

-- The loop of `xml_parse_attributes`, which takes at most so many rounds.
def attributesFrom : Nat → CString → Option (List (CString × CString) × CString)
  | 0,          _ => none
  | rounds + 1, s =>
    match skipSpace s with
    | []      => none
    | c :: cs =>
      if c = '>' ∨ c = '/' then some ([], c :: cs)
      else
        (readAttribute (c :: cs)).bind fun (a, s) =>
          (attributesFrom rounds s).map fun (as, s) => (a :: as, s)

-- `xml_parse_attributes`
def parseAttributes (s : CString) : Option (List (CString × CString) × CString) :=
  attributesFrom (s.length + 1) s

structure StartTag where
  qname : CString
  attrs : List (CString × CString)
  empty : Bool

-- What `xml_parse_element` reads before the contents.
def startTag (s : CString) : Option (StartTag × CString) := do
  let (qname, s) ← readName (s.drop 1)
  let (attrs, s) ← parseAttributes s
  match skipSpace s with
  | '/' :: '>' :: s => some ({ qname, attrs, empty := true }, s)
  | '>' :: s        => some ({ qname, attrs, empty := false }, s)
  | _               => none

-- The prefix of a qualified name and its local name. The prefix ends at the first colon.
def splitQname (qname : CString) : Option CString × CString :=
  match qname.span (· != ':') with
  | (pfx, _ :: localName) => (some pfx, localName)
  | (_, [])               => (none, qname)

-- `xml_apply_namespace`
def applyNamespace (el : NodeData) (qname : CString) (uri : Option CString) : NodeData :=
  let el := { el with flags := { el.flags with keepCase := true } }
  if uri = some nsXhtml then
    match (splitQname qname).1 with
    | some pfx => el.setAttr "data-nd-ns-prefix".toList pfx
    | none     => el
  else
    let el :=
      if uri = some nsSvg then { el with flags := { el.flags with svgNs := true } }
      else { el with flags := { el.flags with foreignNs := true } }
    match uri with
    | some (c :: cs) => el.setAttr "data-nd-ns-uri".toList (c :: cs)
    | _              => el

def applyAttribute (ns : Bindings) (el : NodeData) (a : CString × CString) : NodeData :=
  if a.1 = "xmlns".toList then el.setAttrNs (some nsXmlns) none "xmlns".toList "xmlns".toList a.2
  else
    match splitQname a.1 with
    | (some pfx, localName) => el.setAttrNs (lookupPrefix ns (some pfx)) (some pfx) localName a.1 a.2
    | (none, _)             => el.setAttrNs none none a.1 a.1 a.2

-- The element that `xml_parse_element` makes for a start tag, where `ns` is bound by its own
-- attributes as well.
def elementNode (ns : Bindings) (tag : StartTag) : NodeData :=
  let (pfx, localName) := splitQname tag.qname
  let uri := lookupPrefix ns pfx
  let stored := if uri = some nsXhtml ∧ pfx.isSome then localName else tag.qname
  let el := { NodeData.newElement stored with flags := { notParserInserted := true } }
  tag.attrs.foldl (applyAttribute ns) (applyNamespace el tag.qname uri)

-- The node for what is between `<?` and `?>`.
def piNode (b : CString) : NodeData :=
  { NodeData.newComment (gStrndup ((b.dropWhile (!isSpace ·)).dropWhile isSpace)) with
    name  := gStrndup (b.takeWhile (!isSpace ·))
    flags := { pi := true } }

def commentNode (b : CString) : NodeData :=
  NodeData.newComment (gStrndup b)

def cdataNode (b : CString) : NodeData :=
  { NodeData.newText (gStrndup b) with flags := { cdata := true } }

-- What the loop over the contents of an element meets next. A start tag is left to
-- `xml_parse_element`.
inductive Item
  | done
  | endTag (name : CString) (rest : CString)
  | leaf (n : NodeData) (rest : CString)
  | child
  | bad

def readEndTag (s : CString) : Item :=
  match readName s with
  | some (name, s) =>
    match skipSpace s with
    | '>' :: rest => .endTag name rest
    | _           => .bad
  | none           => .bad

-- A node that ends with this pattern.
def readLeaf (pat : CString) (node : CString → NodeData) (s : CString) : Item :=
  match breakAt pat s with
  | some (b, rest) => .leaf (node b) rest
  | none           => .bad

def nextItem (s : CString) : Item :=
  match s with
  | []        => .done
  | '<' :: cs =>
    if gStrHasPrefix cs "/".toList then readEndTag (cs.drop 1)
    else if gStrHasPrefix cs "!--".toList then readLeaf "-->".toList commentNode (cs.drop 3)
    else if gStrHasPrefix cs "![CDATA[".toList then readLeaf "]]>".toList cdataNode (cs.drop 8)
    else if gStrHasPrefix cs "?".toList then readLeaf "?>".toList piNode (cs.drop 1)
    else .child
  | _         => .leaf (NodeData.newText (decodeText (s.takeWhile (· != '<')))) (s.dropWhile (· != '<'))

mutual

-- `xml_parse_element`, which returns the element, what is below it, and the rest of the text. The calls
-- are at most `fuel` deep.
def parseElement : Nat → Nat → Bindings → CString → Option ((NodeData × Nodes NodeData) × CString)
  | 0,        _,     _,  _ => none
  | fuel + 1, depth, ns, s =>
    if depth > maxDepth then none
    else
      match startTag s with
      | none          => none
      | some (tag, s) =>
        let ns := tag.attrs.foldl bindAttribute ns
        if tag.empty then some ((elementNode ns tag, .nil), s)
        else (parseContent fuel depth ns tag.qname s).map fun (kids, s) => ((elementNode ns tag, kids), s)

-- The loop over the contents of an element. It also ends, without an error, with the text.
def parseContent : Nat → Nat → Bindings → CString → CString → Option (Nodes NodeData × CString)
  | 0,        _,     _,  _,     _ => none
  | fuel + 1, depth, ns, qname, s =>
    match nextItem s with
    | .done             => some (.nil, [])
    | .endTag name rest => if name = qname then some (.nil, rest) else none
    | .leaf n rest      =>
      (parseContent fuel depth ns qname rest).map fun (sibs, s) => (.node n .nil .nil sibs, s)
    | .child            =>
      (parseElement fuel (depth + 1) ns s).bind fun ((el, kids), rest) =>
        (parseContent fuel depth ns qname rest).map fun (sibs, s) => (.node el .nil kids sibs, s)
    | .bad              => none

end

-- The contents of the XML declaration.
def isXmlDecl (b : CString) : Bool :=
  gStrHasPrefix b "xml".toList && (b.length == 3 || (b.drop 3).head?.any isSpace)

-- Where the document type declaration ends whose brackets are open so deep.
def doctypeBody (bracket : Nat) : CString → CString × CString
  | []      => ([], [])
  | c :: cs =>
    if c = '>' ∧ bracket = 0 then ([], cs)
    else
      let (body, rest) :=
        doctypeBody (if c = '[' then bracket + 1 else if c = ']' then bracket - 1 else bracket) cs
      (c :: body, rest)

def doctypeNode (body : CString) : Option NodeData :=
  let name := (skipSpace body).takeWhile fun c => !isSpace c && c != '>' && c != '['
  if name = [] then none
  else
    let dt := NodeData.newElement (gStrndup name)
    some { (dt.setAttr "publicId".toList []).setAttr "systemId".toList [] with kind := .doctype }

-- The loop of `xml_skip_misc_and_doctype`, which takes at most so many rounds, with the nodes that it appends.
def skipMiscFrom : Nat → CString → List NodeData × CString
  | 0,          s => ([], s)
  | rounds + 1, s =>
    match skipSpace s with
    | '<' :: cs =>
      if gStrHasPrefix cs "?".toList then
        match breakAt "?>".toList (cs.drop 1) with
        | some (b, s) =>
          let (nodes, s) := skipMiscFrom rounds s
          (if isXmlDecl b then nodes else piNode b :: nodes, s)
        | none        => ([], [])
      else if gStrHasPrefix cs "!--".toList then
        match breakAt "-->".toList (cs.drop 3) with
        | some (b, s) =>
          let (nodes, s) := skipMiscFrom rounds s
          (commentNode b :: nodes, s)
        | none        => ([], [])
      else if hasCasePrefix cs "!DOCTYPE".toList then
        let (body, s) := doctypeBody 0 (cs.drop 8)
        let (nodes, s) := skipMiscFrom rounds s
        ((doctypeNode body).toList ++ nodes, s)
      else ([], '<' :: cs)
    | s         => ([], s)

-- `xml_skip_misc_and_doctype`
def skipMisc (s : CString) : List NodeData × CString :=
  skipMiscFrom (s.length + 1) s

def skipBom : CString → CString
  | '\xef' :: '\xbb' :: '\xbf' :: s => s
  | s                               => s

-- `ns_xml_parse`, whose result is a document and what is below it.
def parse (input : CString) : Option (NodeData × Nodes NodeData) :=
  let (before, s) := skipMisc (skipBom input)
  match s with
  | '<' :: _ =>
    (parseElement (s.length + 1) 0 [] s).map fun ((root, kids), rest) =>
      (NodeData.newDocument, (Nodes.leaves before).append (.node root .nil kids (Nodes.leaves (skipMisc rest).1)))
  | _        => none

end Nordstjernen.Xml
