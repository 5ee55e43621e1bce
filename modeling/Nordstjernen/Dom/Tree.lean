import Nordstjernen.Glib.Strings
import Nordstjernen.Lib.ForestOrder

open Nordstjernen.Glib Nordstjernen.Lib

namespace Nordstjernen.Dom

-- `NS_DOM_MAX_DEPTH`
def domMaxDepth : Nat := 512

-- A node is its address.
abbrev Node := Nat

inductive NodeKind
  | document
  | doctype
  | element
  | text
  | comment
deriving DecidableEq

-- `attr` is what `ns_element_get_attr` returns for an element.
structure Info where
  kind     : NodeKind                 := .element
  name     : CString                  := []
  fragment : Bool                     := false
  attr     : CString → Option CString := fun _ => none

namespace Info

def getAttr (i : Info) (name : CString) : Option CString :=
  if i.kind = .element then i.attr name else none

def setAttr (i : Info) (name : CString) (value : Option CString) : Info :=
  { i with attr := fun a => if a = name then value else i.attr a }

def isElementNamed (i : Info) (tag : CString) : Bool :=
  i.kind = .element && i.name == tag

-- Whether the climbs for the document of a node end here.
def isDocument (i : Info) : Bool :=
  i.kind = .document && !i.fragment

def isShadowRoot (i : Info) : Bool :=
  (i.getAttr "data-nd-shadow-root".toList).isSome

-- `ns_dom_tree_scope_boundary`, for a node that has a parent.
def scopeBoundary (i : Info) : Bool :=
  i.kind = .document || i.isShadowRoot

def isTemplate (i : Info) : Bool :=
  i.isElementNamed "template".toList

-- Whether the `id` of an element is this text.
def hasId (i : Info) (id : CString) : Bool :=
  i.getAttr "id".toList == some id

end Info

-- A document and what is below its node. No node is there twice.
structure Tree where
  root  : Node
  kids  : Forest Node
  nodup : (Forest.node root kids .nil).labels.Nodup

-- The nodes that the walks of this kind visit, which go down a number of levels.
def visits (info : Node → Info) (levels : Nat) (f : Forest Node) : List Node :=
  f.reached (fun n => (info n).scopeBoundary) (fun n => (info n).isTemplate) (some levels)

namespace Tree

variable (t : Tree) (info : Node → Info)

def whole : Forest Node :=
  .node t.root t.kids .nil

-- What is below a node.
def below (n : Node) : Forest Node :=
  (t.whole.kids? n).getD .nil

-- A node, its parent, and so on.
def up (n : Node) : List Node :=
  (t.whole.lineage n).getD [n]

-- The nodes that a walk from a node visits, which it does not leave out itself.
def walk (n : Node) : List Node :=
  n :: if (info n).isTemplate then [] else visits info (domMaxDepth - 1) (t.below n)

-- `ns_node_find_by_id_depth`
def findByIdDepth (n : Node) (id : CString) : Option Node :=
  (t.walk info n).find? fun m => (info m).hasId id

-- `ns_node_contains`
def contains (above n : Node) : Bool :=
  (t.up n).contains above

-- `ns_node_scope_document`
def scopeDocument (n : Node) : Option Node :=
  (t.up n).find? fun m => (info m).isDocument

-- The node that `ns_node_find_by_id` climbs to: a document, or the node above all.
def searchDocument (n : Node) : Option Node :=
  ((t.up n).find? fun m => (info m).kind = .document).or (t.up n).getLast?

-- Whether a tree with this node and this below it can be put into the document.
def Fresh (r : Node) (below : Forest Node) : Prop :=
  (r :: below.labels).Nodup ∧ ∀ x ∈ r :: below.labels, x ∉ t.whole.labels

instance (r : Node) (below : Forest Node) : Decidable (t.Fresh r below) :=
  inferInstanceAs (Decidable (_ ∧ _))

variable {t}

theorem labels_whole : t.whole.labels = t.root :: t.kids.labels := by
  simp [whole, Forest.labels]

theorem nodup_kids : t.kids.labels.Nodup :=
  (List.nodup_cons.mp (labels_whole ▸ t.nodup)).right

theorem root_not_mem_kids : t.root ∉ t.kids.labels :=
  (List.nodup_cons.mp (labels_whole ▸ t.nodup)).left

-- What an insertion puts below the document.
def kidsWith (t : Tree) (p : Node) (ref : Option Node) (r : Node) (below : Forest Node) : Forest Node :=
  if t.root = p then Forest.insertBefore ref r below t.kids
  else t.kids.onKids p (Forest.insertBefore ref r below)

theorem whole_kidsWith {p r : Node} {ref : Option Node} {below : Forest Node} :
    Forest.node t.root (t.kidsWith p ref r below) .nil =
      t.whole.onKids p (Forest.insertBefore ref r below) := by
  rw [kidsWith, whole, Forest.onKids]
  split <;> rfl

theorem nodup_kidsWith {p r : Node} {ref : Option Node} {below : Forest Node} (h : t.Fresh r below) :
    (Forest.node t.root (t.kidsWith p ref r below) .nil).labels.Nodup := by
  rw [whole_kidsWith]
  by_cases hp : p ∈ t.whole.labels
  case neg => rw [Forest.onKids_of_not_mem hp]; exact t.nodup
  case pos => exact (Forest.labels_onKids t.nodup hp).nodup t.nodup h.left h.right

def insert (p : Node) (ref : Option Node) (r : Node) (below : Forest Node) (h : t.Fresh r below) : Tree where
  root  := t.root
  kids  := t.kidsWith p ref r below
  nodup := nodup_kidsWith h

theorem nodup_remove {n : Node} : (Forest.node t.root (t.kids.remove n) .nil).labels.Nodup := by
  have hl : (Forest.node t.root (t.kids.remove n) .nil).labels = t.root :: (t.kids.remove n).labels := by
    simp [Forest.labels]
  rw [hl, Forest.labels_remove nodup_kids, List.nodup_cons]
  exact ⟨fun h => root_not_mem_kids (List.mem_of_mem_filter h), nodup_kids.filter _⟩

def remove (t : Tree) (n : Node) : Tree where
  root  := t.root
  kids  := t.kids.remove n
  nodup := nodup_remove

end Tree

end Nordstjernen.Dom
