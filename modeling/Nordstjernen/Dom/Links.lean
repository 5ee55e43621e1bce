import Nordstjernen.Dom.Tree
import Nordstjernen.Lib.DoubleLink
import Nordstjernen.Lib.Ownership

open Function (update)
open Nordstjernen.Lib

namespace Nordstjernen.Dom

-- The nodes that are allocated, with their pointers. `content` is `tpl_content`.
structure Heap where
  live    : List Node
  parent  : Node → Option Node
  first   : Node → Option Node
  last    : Node → Option Node
  prev    : Node → Option Node
  next    : Node → Option Node
  content : Node → Option Node

namespace Heap

def empty : Heap where
  live    := []
  parent  := fun _ => none
  first   := fun _ => none
  last    := fun _ => none
  prev    := fun _ => none
  next    := fun _ => none
  content := fun _ => none

variable (h : Heap)

-- `ns_node_new`, which gets the address from the allocator.
def newNode (n : Node) : Heap where
  live    := n :: h.live
  parent  := update h.parent n none
  first   := update h.first n none
  last    := update h.last n none
  prev    := update h.prev n none
  next    := update h.next n none
  content := update h.content n none

-- `ns_node_detach`, which is all of `ns_node_remove`.
def detach (child : Node) : Heap :=
  match h.parent child with
  | none   => h
  | some p =>
    let h₁ :=
      match h.prev child with
      | some q => { h with next := update h.next q (h.next child) }
      | none   => { h with first := update h.first p (h.next child) }
    let h₂ :=
      match h₁.next child with
      | some q => { h₁ with prev := update h₁.prev q (h₁.prev child) }
      | none   => { h₁ with last := update h₁.last p (h₁.prev child) }
    { h₂ with
      parent := update h₂.parent child none
      prev   := update h₂.prev child none
      next   := update h₂.next child none }

-- `ns_node_append_child`
def appendChild (parent child : Node) : Heap :=
  let h₁ := h.detach child
  let h₂ :=
    { h₁ with
      parent := update h₁.parent child (some parent)
      prev   := update h₁.prev child (h₁.last parent) }
  let h₃ :=
    match h₂.last parent with
    | some l => { h₂ with next := update h₂.next l (some child) }
    | none   => { h₂ with first := update h₂.first parent (some child) }
  { h₃ with last := update h₃.last parent (some child) }

-- `ns_template_content_get`, with an address for the content if there is none yet.
def templateContentGet (tpl frag : Node) : Heap :=
  match h.content tpl with
  | some _ => h
  | none   =>
    let h₁ := h.newNode frag
    { h₁ with content := update h₁.content tpl (some frag) }

section Free

-- Memory that has been freed is read, or the bound of a loop was too small.
inductive Fault
  | freed
  | unfinished
deriving DecidableEq

-- The loop of `ns_node_free` over the children of a node. The top of the stack is in front.
def unchain : Nat → Heap → Option Node → List Node → Except Fault (Heap × List Node)
  | _,        h, none,   stack => .ok (h, stack)
  | 0,        _, some _, _     => .error .unfinished
  | fuel + 1, h, some c, stack =>
    if c ∈ h.live then
      unchain fuel { h with next := update h.next c none, parent := update h.parent c none } (h.next c)
        (c :: stack)
    else .error .freed

-- The loop of `ns_node_free` over the stack, with the nodes that have been freed in the end.
def freeLoop : Nat → Heap → List Node → List Node → Except Fault (Heap × List Node)
  | 0,        _, _,            _     => .error .unfinished
  | _ + 1,    h, [],           freed => .ok (h, freed)
  | fuel + 1, h, cur :: stack, freed =>
    if cur ∈ h.live then
      match h.content cur with
      | some tc => freeLoop fuel { h with content := update h.content cur none } (tc :: cur :: stack) freed
      | none    =>
        match h.first cur with
        | some c =>
          match unchain h.live.length { h with first := update h.first cur none } (some c) (cur :: stack) with
          | .ok (h', stack') => freeLoop fuel h' stack' freed
          | .error fault     => .error fault
        | none   => freeLoop fuel { h with live := h.live.erase cur } stack (freed ++ [cur])
    else .error .freed

-- `ns_node_free`
def nodeFree (node : Node) : Except Fault (Heap × List Node) :=
  freeLoop (3 * h.live.length + 1) h [node] []

end Free

section Links

-- The pointers of the nodes are those of lists of children.
structure Linked (kids : Node → List Node) : Prop where
  nodup    : h.live.Nodup
  row      : ∀ n ∈ h.live, (kids n).Nodup ∧ DoubleLinked h.prev h.next (kids n)
  first    : ∀ n ∈ h.live, h.first n = (kids n).head?
  last     : ∀ n ∈ h.live, h.last n = (kids n).getLast?
  mem_kids : ∀ n ∈ h.live, ∀ c, c ∈ kids n ↔ c ∈ h.live ∧ h.parent c = some n
  parent   : ∀ c ∈ h.live, ∀ p, h.parent c = some p → p ∈ h.live
  alone    : ∀ c ∈ h.live, h.parent c = none → h.prev c = none ∧ h.next c = none

-- A node owns its children and its content.
def Owns (n m : Node) : Prop :=
  n ∈ h.live ∧ (m ∈ h.live ∧ h.parent m = some n ∨ h.content n = some m)

def IsRoot (n : Node) : Prop :=
  n ∈ h.live ∧ ∀ m, ¬h.Owns m n

-- What is below a node is freed, once each, and nothing before what it owns.
structure FreesBelow (r : Node) (h' : Heap) (freed : List Node) : Prop where
  run   : h.nodeFree r = .ok (h', freed)
  nodup : freed.Nodup
  mem   : ∀ n, n ∈ freed ↔ Below h.Owns r n
  order : ∀ n m, n ∈ freed → h.Owns n m → [m, n].Sublist freed
  live  : ∀ n, n ∈ h'.live ↔ n ∈ h.live ∧ ¬Below h.Owns r n

structure Consistent : Prop where
  links : ∃ kids, h.Linked kids
  free  : ∀ r, h.IsRoot r → ∃ h' freed, h.FreesBelow r h' freed

end Links

-- Nodes are made with an address that is not in use, and only roots are freed.
inductive Event
  | new (n : Node)
  | append (parent child : Node)
  | remove (child : Node)
  | content (tpl frag : Node)
  | free (n : Node)

-- What an event leads to.
inductive Step : Heap → Event → Heap → Prop
  | new {h n} (hn : n ∉ h.live) : Step h (.new n) (h.newNode n)
  | append {h p c} (hp : p ∈ h.live) (hc : c ∈ h.live) : Step h (.append p c) (h.appendChild p c)
  | remove {h c} (hc : c ∈ h.live) : Step h (.remove c) (h.detach c)
  | content {h t f} (ht : t ∈ h.live) (hf : f ∉ h.live) : Step h (.content t f) (h.templateContentGet t f)
  | free {h r h' freed} (hr : h.IsRoot r) (hf : h.nodeFree r = .ok (h', freed)) : Step h (.free r) h'

-- A node, its parent, and so on.
def Up : Node → Node → Prop :=
  Relation.ReflTransGen fun n p => h.parent n = some p

-- Whether the event makes no node a child of itself or of what is below it.
def Event.keepsForest (h : Heap) : Event → Prop
  | append p c => ¬h.Up p c
  | _          => True

-- Whether the event makes no content of a template a child.
def Event.keepsContent (h : Heap) : Event → Prop
  | append _ c => ∀ t ∈ h.live, h.content t ≠ some c
  | _          => True

-- The heaps that are reached by events of a kind.
inductive Reached (ok : Heap → Event → Prop) : Heap → Prop
  | empty : Reached ok empty
  | step {h e h'} (hr : Reached ok h) (hs : Step h e h') (he : ok h e) : Reached ok h'

end Heap

end Nordstjernen.Dom
