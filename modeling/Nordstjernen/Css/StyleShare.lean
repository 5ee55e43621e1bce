import Mathlib.Algebra.Order.Ring.Rat
import Nordstjernen.Glib.Strings
import Nordstjernen.Lib.TreeWalk

open Nordstjernen.Glib Nordstjernen.Lib

namespace Nordstjernen.Css

-- The properties that the walk itself looks at, and the others by their number.
inductive NsCssProp
  | appearance | fontSize
  | backgroundColor | backgroundImage
  | borderTopWidth | borderRightWidth | borderBottomWidth | borderLeftWidth
  | borderTopStyle | borderRightStyle | borderBottomStyle | borderLeftStyle
  | borderTopColor | borderRightColor | borderBottomColor | borderLeftColor
  | borderTopLeftRadius | borderTopRightRadius | borderBottomRightRadius | borderBottomLeftRadius
  | paddingTop | paddingRight | paddingBottom | paddingLeft
  | boxShadow
  | other (n : Nat)
deriving DecidableEq

inductive NsCssValue
  | keyword (k : CString)
  | lengthPx (v : ℚ)
  | other (text : CString)
deriving DecidableEq

inductive NsDisplayBox
  | normal
  | none
  | contents
deriving DecidableEq

-- `rest` stands for the custom properties and the styles of the pseudo-elements.
structure NsStyle (R : Type*) where
  values  : NsCssProp → Option NsCssValue
  display : NsDisplayBox
  rest    : R

-- A style with its `share_id`.
structure Shared (R : Type*) where
  style   : NsStyle R
  shareId : Nat

-- `type` is the value of the attribute.
structure Element where
  node : Nat
  name : CString
  type : Option CString

-- `frame` is what `g_frame_viewport_cb` reports for the parent of a nested document.
inductive DomNode
  | document (node : Nat) (frame : Option (ℚ × ℚ))
  | element (el : Element)
  | other (node : Nat)

namespace DomNode

def node : DomNode → Nat
  | document n _ => n
  | element el   => el.node
  | other n      => n

end DomNode

-- Whether decorations are taken from the element unless its appearance is `none`.
def Element.isCheckboxOrRadio (el : Element) : Bool :=
  el.name = "input".toList && el.type.any fun t =>
    strcaseEq t "checkbox".toList || strcaseEq t "radio".toList

def stripped : List NsCssProp :=
  [.backgroundColor, .backgroundImage,
    .borderTopWidth, .borderRightWidth, .borderBottomWidth, .borderLeftWidth,
    .borderTopStyle, .borderRightStyle, .borderBottomStyle, .borderLeftStyle,
    .borderTopColor, .borderRightColor, .borderBottomColor, .borderLeftColor,
    .borderTopLeftRadius, .borderTopRightRadius, .borderBottomRightRadius, .borderBottomLeftRadius,
    .paddingTop, .paddingRight, .paddingBottom, .paddingLeft, .boxShadow]

def stripNativeWidgetDecorations {R : Type*} (el : Element) (s : NsStyle R) : NsStyle R :=
  if !el.isCheckboxOrRadio then s
  else if s.values .appearance = some (.keyword "none".toList) then s
  else { s with values := fun p => if p ∈ stripped then none else s.values p }

-- What the cascade of an element reads.
structure Inputs (G K R : Type*) where
  gathered     : G
  parentStyle  : Option (NsStyle R)
  layoutParent : Option (NsStyle R)
  isRoot       : Bool
  rootPx       : ℚ
  viewport     : ℚ × ℚ
  cqStack      : List K

-- What a set of style sheets gives a document: `G` are the gathered arrays of matches, with those of
-- the pseudo-elements, the presentational hints and the style attribute, `K` the query containers.
structure Sheets (G K R : Type*) where
  gather         : Nat → ℚ × ℚ → List K → G
  needContainer  : G → Bool
  -- `build_vars_for_element`, `resolve_pending_into_matches`, `cascade_for`, `compute_registered_vars`
  cascadeFor     : Inputs G K R → NsStyle R
  -- what is done for `pe_g`
  pseudoElements : Inputs G K R → NsStyle R → NsStyle R

-- What a node inherits in `cascade_walk`, with the globals that are put back after its subtree.
structure Ctx (K R : Type*) where
  parentStyle  : Option (Shared R)
  layoutParent : Option (NsStyle R)
  viewport     : ℚ × ℚ
  cqStack      : List K
  underDirty   : Bool
  depth        : Nat
  inDocument   : Bool

-- An element that the walk has come to.
structure Site (K R : Type*) where
  el     : Element
  ctx    : Ctx K R
  rootPx : ℚ

structure Key (G K : Type*) where
  parentId : Nat
  rootPx   : ℚ
  cqStack  : List K
  gathered : G
deriving DecidableEq

namespace Site

variable {G K R : Type*} (S : Sheets G K R) (x : Site K R)

def gathered : G :=
  S.gather x.el.node x.ctx.viewport x.ctx.cqStack

def inputs : Inputs G K R where
  gathered     := x.gathered S
  parentStyle  := x.ctx.parentStyle.map (·.style)
  layoutParent := x.ctx.layoutParent
  isRoot       := x.ctx.inDocument
  rootPx       := x.rootPx
  viewport     := x.ctx.viewport
  cqStack      := x.ctx.cqStack

def styleShareKey : Key G K where
  parentId := (x.ctx.parentStyle.map (·.shareId)).getD 0
  rootPx   := x.rootPx
  cqStack  := if S.needContainer (x.gathered S) then x.ctx.cqStack else []
  gathered := x.gathered S

-- The style that is computed when none is shared.
def compute : NsStyle R :=
  S.pseudoElements (x.inputs S) (stripNativeWidgetDecorations x.el (S.cascadeFor (x.inputs S)))

end Site

-- What was put into `out`, and where.
structure Visit (K R : Type*) where
  site   : Site K R
  reused : Bool
  shared : Shared R

-- `styleShare` is `g_style_share`, without a value where styles are not shared.
structure State (G K R : Type*) where
  styleShare : Option (List (Key G K × Shared R))
  nextId     : Nat
  rootPx     : ℚ
  visits     : List (Visit K R)

def Visit.childLayoutParent {K R : Type*} (v : Visit K R) : Option (NsStyle R) :=
  if v.shared.style.display = .contents then v.site.ctx.layoutParent else some v.shared.style

namespace State

variable {G K R : Type*}

-- `out`
def styles (s : State G K R) : List (Nat × NsStyle R) :=
  s.visits.map fun v => (v.site.el.node, v.shared.style)

def lookup (s : State G K R) (node : Nat) : Option (Shared R) :=
  (s.visits.find? (·.site.el.node = node)).map (·.shared)

def newId (s : State G K R) : Nat :=
  (s.nextId + 1) % 2 ^ 32

def insert (s : State G K R) (v : Visit K R) : State G K R where
  styleShare := s.styleShare
  nextId     := s.nextId
  visits     := v :: s.visits
  rootPx     :=
    match v.shared.style.values .fontSize with
    | some (.lengthPx px) => if s.rootPx ≤ 0 then px else s.rootPx
    | _                   => s.rootPx

variable [DecidableEq G] [DecidableEq K]

-- Takes the style of an element from the table, or computes it and shares it.
def share (S : Sheets G K R) (s : State G K R) (x : Site K R) : Shared R × State G K R :=
  match s.styleShare with
  | none       => (⟨x.compute S, 0⟩, s)
  | some table =>
    match table.lookup (x.styleShareKey S) with
    | some shared => (shared, s)
    | none        =>
      let shared := ⟨x.compute S, s.newId⟩
      (shared, { s with styleShare := some ((x.styleShareKey S, shared) :: table), nextId := s.newId })

end State

-- What one call of `ns_css_compute` gets: `dirty` are the nodes marked since the call before it, and
-- `unchanged` says that document, sheets and the nodes in focus, hover and so on are the same.
structure Pass (G K R : Type*) where
  doc       : Forest DomNode
  sheets    : Sheets G K R
  viewport  : ℚ × ℚ
  cqMap     : Option (Nat → Option K)
  dirty     : Nat → Bool
  usable    : Bool
  unchanged : Bool

-- `NS_CSS_MAX_CASCADE_DEPTH`
def maxCascadeDepth : Nat := 512

namespace Pass

variable {G K R : Type*} (p : Pass G K R)

def frameViewport (viewport : ℚ × ℚ) : Option (ℚ × ℚ) → ℚ × ℚ
  | some (fw, fh) =>
    if 0 < fw ∧ 0 < fh ∧ (1 / 100 < |fw - viewport.1| ∨ 1 / 100 < |fh - viewport.2|) then (fw, fh)
    else viewport
  | none          => viewport

-- What the children of a node inherit unless it is an element or a document.
def below (c : Ctx K R) (node : Nat) : Ctx K R where
  parentStyle  := c.parentStyle
  layoutParent := c.layoutParent
  viewport     := c.viewport
  cqStack      := c.cqStack ++ (p.cqMap.bind (· node)).toList
  underDirty   := c.underDirty
  depth        := c.depth + 1
  inDocument   := false

variable (prev : Nat → Option (Shared R))

def reusable (x : Site K R) : Option (Shared R) :=
  if x.ctx.underDirty || p.dirty x.el.node then none else prev x.el.node

variable [DecidableEq G] [DecidableEq K]

def cascadeElement (s : State G K R) (x : Site K R) : Visit K R × State G K R :=
  match p.reusable prev x with
  | some shared => (⟨x, true, shared⟩, s)
  | none        => (⟨x, false, (s.share p.sheets x).1⟩, (s.share p.sheets x).2)

def cascadeVisit (c : Ctx K R) (s : State G K R) (n : DomNode) : Option (Ctx K R) × State G K R :=
  if maxCascadeDepth ≤ c.depth then (none, s)
  else match n with
    | .document node frame =>
      (some { p.below c node with viewport := frameViewport c.viewport frame, inDocument := true }, s)
    | .element el =>
      let (v, s') := p.cascadeElement prev s ⟨el, c, s.rootPx⟩
      (some { p.below c el.node with
          parentStyle  := some v.shared
          layoutParent := v.childLayoutParent
          underDirty   := !v.reused },
        s'.insert v)
    | .other node => (some (p.below c node), s)

def ctx : Ctx K R where
  parentStyle  := none
  layoutParent := none
  viewport     := p.viewport
  cqStack      := []
  underDirty   := false
  depth        := 0
  inDocument   := false

def start (share : Bool) : State G K R where
  styleShare := if share then some [] else none
  nextId     := 0
  rootPx     := 0
  visits     := []

-- `incr_want`
def want : Bool :=
  p.usable && p.cqMap.isNone

-- The styles that the pass may keep, out of those of the pass before it (`g_incr_prev_styles`).
def keptStyles (prev : Option (Nat → Option (Shared R))) : Nat → Option (Shared R) :=
  if p.want && p.unchanged then prev.getD fun _ => none else fun _ => none

-- The document after `cascade_walk`, with `g_style_share` or without.
def nsCssCompute (share : Bool) (prev : Option (Nat → Option (Shared R))) : State G K R :=
  p.doc.walk (p.cascadeVisit (p.keptStyles prev)) p.ctx (start share)

-- `g_incr_prev_styles` after the pass.
def nextPrev (prev : Option (Nat → Option (Shared R))) (s : State G K R) :
    Option (Nat → Option (Shared R)) :=
  if p.want then some s.lookup else if !p.usable then none else prev

end Pass

-- The states that the passes of a session end in.
def passStates {G K R : Type*} [DecidableEq G] [DecidableEq K] (share : Bool)
    (prev : Option (Nat → Option (Shared R))) : List (Pass G K R) → List (State G K R)
  | []      => []
  | p :: ps =>
    let s := p.nsCssCompute share prev
    s :: passStates share (p.nextPrev prev s) ps

end Nordstjernen.Css

namespace Nordstjernen.Css

variable {G K R : Type*} [DecidableEq G] [DecidableEq K]

-- What the style of an element may depend on without its being in the key.
structure Unkeyed (K : Type*) where
  isRoot       : Bool
  nativeWidget : Bool
  viewport     : ℚ × ℚ
  cqStack      : List K
deriving DecidableEq

def Site.unkeyed (x : Site K R) : Unkeyed K :=
  ⟨x.ctx.inDocument, x.el.isCheckboxOrRadio, x.ctx.viewport, x.ctx.cqStack⟩

def Visit.HasKey (S : Sheets G K R) (v : Visit K R) (k : Key G K) : Prop :=
  v.reused = false ∧ v.site.styleShareKey S = k

instance {S : Sheets G K R} {v : Visit K R} {k : Key G K} : Decidable (v.HasKey S k) :=
  inferInstanceAs (Decidable (_ ∧ _))

def Ctx.SameParents (c d : Ctx K R) : Prop :=
  c.parentStyle.map (·.style) = d.parentStyle.map (·.style) ∧ c.layoutParent = d.layoutParent

namespace Pass

variable (p : Pass G K R) (prev : Nat → Option (Shared R))

-- The condition on an element whose style is not kept. The elements of the same key agree with it in
-- what is not in the key. Nor does the id of a parent lead it to another parent's children: that may
-- only happen below a style that was kept, which has its id from an earlier pass.
structure ShareOk (S : Sheets G K R) (s : State G K R) (x : Site K R) : Prop where
  unkeyed : ∀ v ∈ s.visits, v.HasKey S (x.styleShareKey S) → v.site.unkeyed = x.unkeyed
  parents : ∀ v ∈ s.visits, v.HasKey S (x.styleShareKey S) →
    (v.site.ctx.underDirty && x.ctx.underDirty) = false → v.site.ctx.SameParents x.ctx
  fresh   : s.nextId + 1 < 2 ^ 32

-- Asks something of each element whose style is not kept.
def OnShares (C : State G K R → Site K R → Prop) (c : Ctx K R) (s : State G K R) : DomNode → Prop
  | .element el => c.depth < maxCascadeDepth → p.reusable prev ⟨el, c, s.rootPx⟩ = none →
    C s ⟨el, c, s.rootPx⟩
  | _           => True

def SharesMeet (C : State G K R → Site K R → Prop) (prev : Option (Nat → Option (Shared R))) : Prop :=
  p.doc.VisitsMeet (p.OnShares (p.keptStyles prev) C) (p.cascadeVisit (p.keptStyles prev)) p.ctx
    (start true)

end Pass

-- Whether all visits of a session meet the condition.
def PassesOk (prev : Option (Nat → Option (Shared R))) : List (Pass G K R) → Prop
  | []      => True
  | p :: ps => p.SharesMeet (Pass.ShareOk p.sheets) prev ∧
    PassesOk (p.nextPrev prev (p.nsCssCompute true prev)) ps

-- In a session that starts with no styles, sharing changes no style of any pass, and elements with
-- the same key are computed to the same style.
structure Transparent (ps : List (Pass G K R)) : Prop where
  styles  : (passStates true none ps).map (·.styles) = (passStates false none ps).map (·.styles)
  sameKey : ∀ q ∈ ps.zip (passStates true none ps), ∀ v ∈ q.2.visits, ∀ w ∈ q.2.visits,
    v.reused = false → w.HasKey q.1.sheets (v.site.styleShareKey q.1.sheets) →
    v.site.compute q.1.sheets = w.site.compute q.1.sheets

end Nordstjernen.Css
