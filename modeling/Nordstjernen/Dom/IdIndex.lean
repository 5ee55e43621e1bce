import Nordstjernen.Dom.Tree

open Nordstjernen.Glib

namespace Nordstjernen.Dom

-- The hash table `id_index`.
abbrev IdIndex := CString → Option Node

namespace IdIndex

variable (idx : IdIndex)

def put (id : CString) (n : Option Node) : IdIndex :=
  fun i => if i = id then n else idx i

-- `ns_doc_id_index_register`
def register (id : CString) (n : Node) : IdIndex :=
  if id = [] ∨ (idx id).isSome then idx else idx.put id (some n)

-- `ns_doc_id_index_unregister`
def unregister (id : CString) (n : Node) : IdIndex :=
  if id ≠ [] ∧ idx id = some n then idx.put id none else idx

-- What `ns_doc_id_index_add_subtree` and `ns_doc_id_index_register_subtree` do at a node.
def addNode (info : Node → Info) (idx : IdIndex) (n : Node) : IdIndex :=
  match (info n).getAttr "id".toList with
  | some id => idx.register id n
  | none    => idx

-- What `ns_doc_id_index_remove_subtree` does at a node.
def removeNode (info : Node → Info) (idx : IdIndex) (n : Node) : IdIndex :=
  match (info n).getAttr "id".toList with
  | some id => idx.unregister id n
  | none    => idx

end IdIndex

-- The nodes that `add_subtree` comes to, in a tree that is below a node of the document.
def subtreeNodes (info : Node → Info) (r : Node) (below : Lib.Forest Node) : List Node :=
  visits info domMaxDepth (.node r below .nil)

-- The nodes that `remove_subtree` comes to, in a tree that has no parent any more.
def detachedNodes (info : Node → Info) (r : Node) (below : Lib.Forest Node) : List Node :=
  if (info r).isShadowRoot then []
  else r :: if (info r).isTemplate then [] else visits info (domMaxDepth - 1) below

namespace Tree

variable (t : Tree) (info : Node → Info)

-- `ns_doc_id_index_build`
def buildIds : IdIndex :=
  (t.walk info t.root).foldl (IdIndex.addNode info) fun _ => none

-- `ns_node_find_by_id`, from a node in the document: the result, and the index afterwards.
def findById (idIndex : Option IdIndex) (n : Node) (id : CString) : Option Node × Option IdIndex :=
  if id = [] then (none, idIndex)
  else
    let isHit hit := (info hit).hasId id && t.contains n hit
    let found := t.findByIdDepth info n id
    match idIndex with
    | none     => (found, none)
    | some idx =>
      if n = t.root then
        match (idx id).filter isHit with
        | some hit => (some hit, some idx)
        | none     => (found, some (idx.put id found))
      else if t.searchDocument info n = some t.root then
        match (idx id).filter isHit with
        | some hit => (some hit, some idx)
        | none     => (found, some (if found.isSome then idx.put id found else idx))
      else (found, some idx)

end Tree

end Nordstjernen.Dom
