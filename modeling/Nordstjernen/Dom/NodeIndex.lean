import Nordstjernen.Dom.Attr
import Nordstjernen.Dom.IdIndex
import Nordstjernen.Dom.Tree

open Nordstjernen.Glib

namespace Nordstjernen.Dom

-- The hash tables `class_index` and `tag_index`.
abbrev NodeIndex := CString → Option (List Node)

namespace Tree

variable (t : Tree)

-- Goes up from two nodes until they have the same parent.
def climb : Nat → List Node → List Node → List Node × List Node
  | 0,         ca, cb => (ca, cb)
  | guard + 1, ca, cb =>
    if ca ≠ [] ∧ cb ≠ [] ∧ ca.tail.head? ≠ cb.tail.head? then climb guard ca.tail cb.tail else (ca, cb)

-- Goes to the next and to the previous sibling in turns.
def scanSiblings (cb : Node) : List Node → List Node → Int
  | [],        []         => 0
  | f :: fwd,  []         => if f = cb then -1 else scanSiblings cb fwd []
  | [],        b :: back  => if b = cb then 1 else scanSiblings cb [] back
  | f :: fwd,  b :: back  => if f = cb then -1 else if b = cb then 1 else scanSiblings cb fwd back

def siblingCmp (row : List Node) (ca cb : Node) : Int :=
  if some ca = row.head? ∨ some cb = row.getLast? then -1
  else if some cb = row.head? ∨ some ca = row.getLast? then 1
  else scanSiblings cb (row.dropWhile (· ≠ ca)).tail (row.takeWhile (· ≠ ca)).reverse

-- `ns_node_document_order_cmp`
def documentOrderCmp (a b : Node) : Int :=
  if a = b then 0
  else
    let da := min (t.up a).length domMaxDepth
    let db := min (t.up b).length domMaxDepth
    let ca := (t.up a).drop (da - db)
    let cb := (t.up b).drop (db - da)
    if ca.head? = cb.head? then (if da < db then -1 else 1)
    else
      match climb domMaxDepth ca cb with
      | (ca :: above, cb :: _) =>
        match above with
        | par :: _ => siblingCmp (t.below par).tops ca cb
        | []       => scanSiblings cb [] []
      | _ => if a < b then -1 else 1

-- The loop of the binary search for the place of a node: it has none where it is there already.
def search (cmp : Node → Int) (arr : List Node) : Nat → Nat → Nat → Option Nat
  | 0,        lo, _  => some lo
  | fuel + 1, lo, hi =>
    if lo < hi then
      match arr[(lo + hi) / 2]? with
      | none   => some lo
      | some m =>
        if cmp m = 0 then none
        else if cmp m < 0 then search cmp arr fuel lo ((lo + hi) / 2)
        else search cmp arr fuel ((lo + hi) / 2 + 1) hi
    else some lo

-- `ns_doc_index_ordered_insert`, while an index is being built or not.
def orderedInsert (building : Bool) (arr : List Node) (n : Node) : List Node :=
  if building then (if arr.getLast? = some n then arr else arr ++ [n])
  else if arr.getLast?.all fun last => t.documentOrderCmp n last > 0 then arr ++ [n]
  else
    match search (t.documentOrderCmp n) arr arr.length 0 arr.length with
    | some lo => arr.insertIdx lo n
    | none    => arr

-- `ns_doc_class_index_add_token`, `ns_doc_tag_index_add_single`
def addKey (building : Bool) (n : Node) (idx : NodeIndex) (key : CString) : NodeIndex :=
  fun k =>
    if k = key then some (match idx key with
      | some arr => t.orderedInsert building arr n
      | none     => [n])
    else idx k

-- `ns_doc_class_index_remove_token`, `ns_doc_tag_index_remove_single`
def removeKey (n : Node) (idx : NodeIndex) (key : CString) : NodeIndex :=
  fun k => if k = key then (idx key).map (·.erase n) else idx k

end Tree

namespace Info

-- The keys under which an element is found by its class, or by its tag.
def classKeys (i : Info) : List CString :=
  nsClassSetBuild ((i.getAttr "class".toList).getD [])

def tagKeys (i : Info) : List CString :=
  if i.kind = .element ∧ i.name ≠ [] then
    [if nsStrIsAsciiLower i.name then i.name else gAsciiStrdown i.name]
  else []

end Info

namespace Tree

variable (t : Tree) (keys : Info → List CString) (info : Node → Info)

-- What the walks over a tree do at a node: `ns_doc_class_index_register`, and so on.
def addNode (building : Bool) (idx : NodeIndex) (n : Node) : NodeIndex :=
  (keys (info n)).foldl (t.addKey building n) idx

def removeNode (idx : NodeIndex) (n : Node) : NodeIndex :=
  (keys (info n)).foldl (removeKey n) idx

-- `ns_doc_class_index_build`, `ns_doc_tag_index_build`
def buildIndex : NodeIndex :=
  (t.walk info t.root).foldl (t.addNode keys info true) fun _ => none

end Tree

end Nordstjernen.Dom

namespace Nordstjernen.Dom

-- The bits of `flags`, save those that say who frees the name and the text.
structure NodeFlags where
  fragment           : Bool := false
  imgLoadFired       : Bool := false
  templateContent    : Bool := false
  quirks             : Bool := false
  limitedQuirks      : Bool := false
  svgNs              : Bool := false
  linkLoadFired      : Bool := false
  foreignNs          : Bool := false
  cdata              : Bool := false
  pi                 : Bool := false
  keepCase           : Bool := false
  notParserInserted  : Bool := false
  xmlDoc             : Bool := false
  scriptingDisabled  : Bool := false
  clickInProgress    : Bool := false
  inputIndeterminate : Bool := false
  hasListeners       : Bool := false
deriving DecidableEq

-- `ns_attr`. The value has a length of its own, so that it may contain any byte.
structure NsAttr extends Attr where
  pfx : Option CString := none
deriving DecidableEq

-- `ns_node` without its links. A name or a text that is not there is an empty one.
structure NodeData where
  kind  : NodeKind
  name  : CString     := []
  text  : CString     := []
  attrs : List NsAttr := []
  flags : NodeFlags   := {}
deriving DecidableEq

-- A row of sibling nodes, each linked to the contents of a template, to its first child and to its
-- next sibling.
inductive Nodes (α : Type*)
  | nil
  | node (label : α) (tplContent firstChild nextSibling : Nodes α)
deriving DecidableEq

namespace Nodes

variable {α β : Type*}

def append : Nodes α → Nodes α → Nodes α
  | nil,                  g => g
  | node a tpl kids sibs, g => node a tpl kids (sibs.append g)

-- A row of nodes that have nothing below them.
def leaves (l : List α) : Nodes α :=
  l.foldr (node · nil nil) nil

-- The labels, each in front of those below it.
def labels : Nodes α → List α
  | nil                  => []
  | node a tpl kids sibs => a :: (kids.labels ++ tpl.labels ++ sibs.labels)

def height : Nodes α → Nat
  | nil                  => 0
  | node _ tpl kids sibs => max (max kids.height tpl.height + 1) sibs.height

-- Whether two rows of trees have the same shape and their labels are related pairwise.
def Rel (R : α → β → Prop) : Nodes α → Nodes β → Prop
  | nil,                  nil                      => True
  | node a tpl kids sibs, node a' tpl' kids' sibs' => R a a' ∧ tpl.Rel R tpl' ∧ kids.Rel R kids' ∧ sibs.Rel R sibs'
  | _,                    _                        => False

end Nodes

-- Gives the first attribute of a kind a value, or appends an attribute.
def putNsAttr (p : NsAttr → Bool) (new : NsAttr) : List NsAttr → List NsAttr
  | []      => [new]
  | a :: as => if p a then { a with value := new.value } :: as else a :: putNsAttr p new as

namespace NodeData

def newDocument : NodeData where
  kind := .document

def newElement (name : CString) : NodeData where
  kind := .element
  name

def newText (text : CString) : NodeData where
  kind := .text
  text

def newComment (text : CString) : NodeData where
  kind := .comment
  text

-- `ns_element_set_attr`
def setAttr (n : NodeData) (name value : CString) : NodeData :=
  if n.kind = .element then
    { n with attrs := putNsAttr (strcaseEq ·.name name) { name, value := gStrndup value } n.attrs }
  else n

-- The attribute that `ns_element_set_attr_ns` appends. The value is measured with `strlen`.
def nsAttr (uri pfx : Option CString) (localName name value : CString) : NsAttr where
  name         := if name = [] then localName else name
  value        := gStrndup value
  namespaceUri := Attr.normalizeNamespace uri
  localName    := some localName
  pfx          := pfx.filter (· ≠ [])

-- `ns_element_set_attr_ns`
def setAttrNs (n : NodeData) (uri pfx : Option CString) (localName name value : CString) : NodeData :=
  if n.kind = .element then
    { n with attrs := putNsAttr (·.matchesNs uri localName) (nsAttr uri pfx localName name value) n.attrs }
  else n

end NodeData

end Nordstjernen.Dom

namespace Nordstjernen.Dom

namespace NodeData

variable (n : NodeData)

-- Copies attributes as the clone of a node does.
def cloneAttrs (out : NodeData) (attrs : List NsAttr) : NodeData :=
  attrs.foldl (fun out a => out.setAttrNs a.namespaceUri a.pfx a.local' a.name a.value) out

-- The node that `ns_node_clone_depth` makes, without what is below it.
def clone : NodeData :=
  let out :=
    match n.kind with
    | .element            =>
      cloneAttrs
        { newElement n.name with
          flags :=
            { svgNs              := n.flags.svgNs
              foreignNs          := n.flags.foreignNs
              keepCase           := n.flags.keepCase
              inputIndeterminate := n.flags.inputIndeterminate } }
        n.attrs
    | .text               => newText n.text
    | .doctype            => { cloneAttrs (newElement n.name) n.attrs with kind := .doctype }
    | .document | .comment => cloneAttrs { kind := n.kind, text := n.text, name := n.name } n.attrs
  { out with flags := { out.flags with fragment := n.flags.fragment, cdata := n.flags.cdata, pi := n.flags.pi } }

end NodeData

-- `ns_node_clone_depth` for the nodes of a row, where the nodes from `next` on are not in use, with the
-- first that is not in use then. The contents of a template are one node.
def cloneRow (depth : Nat) (next : Node) : Nodes (Node × NodeData) → Nodes (Node × NodeData) × Node
  | .nil                     => (.nil, next)
  | .node (_, n) tpl kids sibs =>
    if depth ≥ domMaxDepth then cloneRow depth next sibs
    else
      let (kids, next₁) := cloneRow (depth + 1) (next + 1) kids
      let (tpl, next₂) := cloneRow (depth + 1) next₁ tpl
      let (sibs, next₃) := cloneRow depth next₂ sibs
      (.node (next, n.clone) tpl kids sibs, next₃)

-- `ns_node_clone`, for a node with this below it.
def nodeClone (deep : Bool) (next : Node) (n : NodeData) (tpl kids : Nodes (Node × NodeData)) :
    Nodes (Node × NodeData) :=
  if deep then (cloneRow 0 next (.node (next, n) tpl kids .nil)).1 else .node (next, n.clone) .nil .nil .nil

end Nordstjernen.Dom
