import Nordstjernen.Xml.Parse

open Nordstjernen.Glib Nordstjernen.Dom

namespace Nordstjernen.Xml

-- `ns_attr_name_is_internal`
def isInternal (name : CString) : Bool :=
  hasCasePrefix name "data-nd-".toList

def voidTags : List CString :=
  ["area", "base", "basefont", "bgsound", "br", "col", "embed", "frame", "hr", "img", "input", "keygen", "link", "meta",
    "param", "source", "track", "wbr"].map String.toList

-- `ns_html_is_void`
def isVoidTag (tag : CString) : Bool :=
  voidTags.contains tag

-- `ns_element_get_attr`
def getAttr (n : NodeData) (name : CString) : Option CString :=
  if n.kind = .element then (n.attrs.find? (·.named n.flags.svgNs name)).map fun a => gStrndup a.value else none

-- `ns_xml_element_ns`
def elementNs (n : NodeData) : CString :=
  if n.flags.svgNs then nsSvg
  else if n.flags.foreignNs then (getAttr n "data-nd-ns-uri".toList).getD []
  else nsXhtml

-- The prefix of an element, which is empty where it has none.
def elementPrefix (n : NodeData) : CString :=
  (getAttr n "data-nd-ns-prefix".toList).getD []

def qualifiedName (n : NodeData) : CString :=
  if elementPrefix n = [] then n.name else elementPrefix n ++ ':' :: n.name

def escapeChar (attr : Bool) (c : Char) : CString :=
  if c = '&' then "&amp;".toList
  else if c = '<' then "&lt;".toList
  else if c = '>' then "&gt;".toList
  else if c = '"' ∧ attr then "&quot;".toList
  else [c]

-- `ns_xml_escape_append`
def escape (attr : Bool) (s : CString) : CString :=
  (gStrndup s).flatMap (escapeChar attr)

-- The namespace declaration that an element is written with.
def declaration (parentNs : Option CString) (n : NodeData) : Option (CString × CString) :=
  if parentNs = some (elementNs n) then none
  else
    some (if elementPrefix n = [] then "xmlns".toList else "xmlns:".toList ++ elementPrefix n, elementNs n)

-- The names and the values of the attributes that an element is written with.
def writtenAttrs (parentNs : Option CString) (n : NodeData) : List (CString × CString) :=
  (declaration parentNs n).toList ++ (n.attrs.filter (!isInternal ·.name)).map fun a => (a.name, a.value)

def writeAttr (a : CString × CString) : CString :=
  ' ' :: a.1 ++ "=\"".toList ++ escape true a.2 ++ ['"']

def writePi (n : NodeData) : CString :=
  "<?".toList ++ n.name ++ (if gStrndup n.text = [] then [] else ' ' :: gStrndup n.text) ++ "?>".toList

def writeStart (parentNs : Option CString) (n : NodeData) : CString :=
  '<' :: qualifiedName n ++ (writtenAttrs parentNs n).flatMap writeAttr

def writeEnd (n : NodeData) : CString :=
  "</".toList ++ qualifiedName n ++ ['>']

-- `xml_serialize_node` for the nodes of a row.
def serialize (parentNs : Option CString) (depth : Nat) : Nodes NodeData → CString
  | .nil                => []
  | .node n _ kids sibs =>
    let written :=
      if depth ≥ domMaxDepth then []
      else
        match n.kind with
        | .text    => escape false n.text
        | .comment => if n.flags.pi then writePi n else "<!--".toList ++ gStrndup n.text ++ "-->".toList
        | .element =>
          writeStart parentNs n ++
            match kids with
            | .nil => if elementNs n = nsXhtml ∧ !isVoidTag n.name then '>' :: writeEnd n else " />".toList
            | kids => '>' :: serialize (some (elementNs n)) (depth + 1) kids ++ writeEnd n
        | _        => []
    written ++ serialize parentNs depth sibs

-- `ns_node_xml_outer_html`
def xmlOuterHtml (tree : Nodes NodeData) : CString :=
  serialize none 0 tree

-- The first element of a row, with what is below it.
def documentElement : Nodes NodeData → Nodes NodeData
  | .nil                  => .nil
  | .node n tpl kids sibs => if n.kind = .element then .node n tpl kids .nil else documentElement sibs

end Nordstjernen.Xml

namespace Nordstjernen.Xml

-- What a tree that is written and read again has to keep: its elements, each with its qualified name, its
-- namespace and its attributes, and the text between them.

-- An attribute is its name, its namespace and its value.
inductive Mark
  | start (qname ns : CString) (attrs : List (CString × Option CString × CString))
  | char (c : Char)
  | stop

def attrMarks (n : NodeData) : List (CString × Option CString × CString) :=
  n.attrs.map fun a => (a.name, a.namespaceUri, a.value)

def outline : Nodes NodeData → List Mark
  | .nil                => []
  | .node n _ kids sibs =>
    (match n.kind with
      | .element => .start (qualifiedName n) (elementNs n) (attrMarks n) :: outline kids ++ [.stop]
      | .text    => n.text.map .char
      | _        => []) ++ outline sibs

-- The order of the attributes is none of what has to be kept.
inductive Mark.Same : Mark → Mark → Prop
  | start {qname ns attrs attrs'} : attrs.Perm attrs' → Same (.start qname ns attrs) (.start qname ns attrs')
  | char {c} : Same (.char c) (.char c)
  | stop : Same .stop .stop

def DistinctNames (parentNs : Option CString) : Nodes NodeData → Prop
  | .nil                => True
  | .node n _ kids sibs =>
    (n.kind = .element →
      ((writtenAttrs parentNs n).map (·.1)).Nodup ∧ DistinctNames (some (elementNs n)) kids) ∧
    DistinctNames parentNs sibs

structure RoundTrips (tree : Nodes NodeData) : Prop where
  reads    : ∃ doc, parse (xmlOuterHtml tree) = some doc ∧ (outline tree).Forall₂ Mark.Same (outline doc.2)
  distinct : DistinctNames none tree

-- Whether an element has been given a prefix that is not one, which a document does by an attribute
-- of its own with the name of the internal one.
def Forged (n : NodeData) : Prop :=
  ∃ c ∈ elementPrefix n, nameChar false c = false

end Nordstjernen.Xml
