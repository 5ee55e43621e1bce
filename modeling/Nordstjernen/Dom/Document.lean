import Nordstjernen.Dom.NodeIndex

open Nordstjernen.Glib Nordstjernen.Lib

namespace Nordstjernen.Dom

-- A document with the indexes at its node, each of which may not have been built yet.
structure Document where
  tree       : Tree
  info       : Node → Info
  isDocument : (info tree.root).isDocument
  idIndex    : Option IdIndex   := none
  classIndex : Option NodeIndex := none
  tagIndex   : Option NodeIndex := none

namespace Document

-- An insertion comes with a tree that is in no document, a removal is of a node below the document.
inductive Event
  | buildIds
  | buildClasses
  | buildTags
  | setId (n : Node) (value : Option CString)
  | setClass (n : Node) (value : Option CString)
  | insert (p : Node) (ref : Option Node) (r : Node) (below : Forest Node)
  | remove (n : Node)
  | findById (n : Node) (id : CString)

variable (d : Document)

def buildIds : Document :=
  { d with idIndex := some (d.tree.buildIds d.info) }

def buildClasses : Document :=
  { d with classIndex := some (d.tree.buildIndex Info.classKeys d.info) }

def buildTags : Document :=
  { d with tagIndex := some (d.tree.buildIndex Info.tagKeys d.info) }

-- Whether the changes at a node are told to the indexes of the document.
def indexes (n : Node) : Bool :=
  d.tree.scopeDocument d.info n = some d.tree.root

def withAttr (n : Node) (name : CString) (value : Option CString) : Node → Info :=
  fun m => if m = n then (d.info n).setAttr name value else d.info m

variable {d} in
theorem isDocument_withAttr {n : Node} {name : CString} {value : Option CString} :
    (d.withAttr n name value d.tree.root).isDocument := by
  rw [withAttr]
  split
  case isTrue h  => exact h ▸ d.isDocument
  case isFalse   => exact d.isDocument

-- A change goes to an index of the document if it is told of the change, and has the index.
def tell {α : Type} (told : Bool) (change : α → α) (index : Option α) : Option α :=
  if told then index.map change else index

theorem mem_tell {α : Type} {told : Bool} {change : α → α} {index : Option α} {i : α} :
    i ∈ tell told change index ↔ told = false ∧ i ∈ index ∨ told ∧ ∃ j ∈ index, change j = i := by
  cases told <;> simp [tell]

-- The attribute is changed, and then `ns_js_record_attr_change_ns` is called.
def setId (n : Node) (value : Option CString) : Document :=
  let info := d.withAttr n "id".toList value
  { d with
    info
    isDocument := isDocument_withAttr
    idIndex    := tell (d.indexes n)
      (fun idx => IdIndex.addNode info (IdIndex.removeNode d.info idx n) n) d.idIndex }

def setClass (n : Node) (value : Option CString) : Document :=
  let info := d.withAttr n "class".toList value
  { d with
    info
    isDocument := isDocument_withAttr
    classIndex := tell (d.indexes n)
      (fun idx => d.tree.addNode Info.classKeys info false (Tree.removeNode Info.classKeys d.info idx n) n)
      d.classIndex }

-- The tree is changed, and then `ns_js_index_child_change` is called.
def insert (p : Node) (ref : Option Node) (r : Node) (below : Forest Node)
    (h : d.tree.Fresh r below) : Document :=
  let tree := d.tree.insert p ref r below h
  let nodes := subtreeNodes d.info r below
  { d with
    tree
    idIndex    := tell (d.indexes p) (nodes.foldl (IdIndex.addNode d.info)) d.idIndex
    classIndex := tell (d.indexes p) (nodes.foldl (tree.addNode Info.classKeys d.info false)) d.classIndex
    tagIndex   := tell (d.indexes p) (nodes.foldl (tree.addNode Info.tagKeys d.info false)) d.tagIndex }

def remove (n : Node) : Document :=
  let nodes := detachedNodes d.info n (d.tree.below n)
  -- The parent is what is above the node.
  let told := (d.tree.up n).tail.head?.any d.indexes
  { d with
    tree       := d.tree.remove n
    idIndex    := tell told (nodes.foldl (IdIndex.removeNode d.info)) d.idIndex
    classIndex := tell told (nodes.foldl (Tree.removeNode Info.classKeys d.info)) d.classIndex
    tagIndex   := tell told (nodes.foldl (Tree.removeNode Info.tagKeys d.info)) d.tagIndex }

def findById (n : Node) (id : CString) : Option Node × Document :=
  let (found, idIndex) := d.tree.findById d.info d.idIndex n id
  (found, { d with idIndex })

def step : Event → Option Document
  | .buildIds             => some d.buildIds
  | .buildClasses         => some d.buildClasses
  | .buildTags            => some d.buildTags
  | .setId n value        => some (d.setId n value)
  | .setClass n value     => some (d.setClass n value)
  | .insert p ref r below =>
    if h : p ∈ d.tree.whole.labels ∧ d.tree.Fresh r below then some (d.insert p ref r below h.right)
    else none
  | .remove n             => if n ∈ d.tree.kids.labels then some (d.remove n) else none
  | .findById n id        => if n ∈ d.tree.whole.labels then some (d.findById n id).snd else none

end Document

end Nordstjernen.Dom
