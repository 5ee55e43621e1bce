import Mathlib.Logic.Function.Basic
import Nordstjernen.Css.Gather.Selector

open Nordstjernen.Glib

namespace Nordstjernen.Css.Selector

-- `ns_css_pseudo`
inductive Pseudo
  | firstChild
  | lastChild
  | onlyChild
  | onlyOfType
  | firstOfType
  | lastOfType
  | empty
  | root
  | checked
  | disabled
  | enabled
  | required
  | optional
  | valid
  | invalid
  | inRange
  | outOfRange
  | default
  | indeterminate
  | nthChild
  | nthLastChild
  | nthOfType
  | nthLastOfType
  | link
  | visited
  | anyLink
  | hover
  | active
  | focus
  | focusWithin
  | target
  | targetWithin
  | defined
  | scope
  | placeholderShown
  | readOnly
  | readWrite
  | blank
  | lang
  | dir
  | open
  | popoverOpen
  | modal
  | fullscreen
  | heading
  | userValid
  | userInvalid
  | autofill
  | playing
  | paused
  | muted
  | seeking
  | buffering
  | stalled
deriving DecidableEq

structure PseudoPred (σ : Type) where
  kind    : Pseudo
  a       : Int := 0
  b       : Int := 0
  arg     : Option CString := none
  ofGroup : Option (List σ) := none

-- The pseudo-classes of a compound selector, and its `:is()`, `:not()` and `:has()`.
structure Tests (σ : Type) where
  pseudos     : List (PseudoPred σ) := []
  matchesAny  : List (List σ) := []
  matchesNone : List (List σ) := []
  hasGroups   : List (List σ) := []

-- `ns_css_selector`, whose tests have selectors of their own.
inductive Sel
  | mk (sel : Gather.Selector (Tests Sel))

def Sel.get : Sel → Gather.Selector (Tests Sel)
  | mk sel => sel

end Nordstjernen.Css.Selector

namespace Nordstjernen.Css.Selector

-- The nodes that walks along the links of a document meet, the nearest one first.
structure Links (ν : Type*) where
  isElement : ν → Bool
  name      : ν → Option CString
  parent    : ν → Option ν
  children  : ν → List ν
  prev      : ν → List ν
  next      : ν → List ν
  siblings  : ∀ {el p}, parent el = some p → children p = (prev el).reverse ++ el :: next el
  nodup     : ∀ el, ((prev el).reverse ++ el :: next el).Nodup
  owner     : ∀ {p s}, s ∈ children p → parent s = some p
  named     : ∀ {s}, isElement s → (name s).isSome

-- `g_css_nth_child_indices` and `g_css_nth_child_counts`
structure NthCache (ν : Type*) where
  indices : ν → Option Int := fun _ => none
  counts  : ν → Option Int := fun _ => none

def Pseudo.reverse (kind : Pseudo) : Bool :=
  kind = .nthLastChild || kind = .nthLastOfType

def Pseudo.typed (kind : Pseudo) : Bool :=
  kind = .nthOfType || kind = .nthLastOfType

variable {ν : Type*} {σ : Type} [DecidableEq ν] (links : Links ν)

-- The loop over the children of a parent, and the count at its end.
def countChildren : List ν → (ν → Option Int) → Int → (ν → Option Int) × Int
  | [],      indices, count => (indices, count)
  | s :: ss, indices, count =>
    if links.isElement s then countChildren ss (Function.update indices s (some (count + 1))) (count + 1)
    else countChildren ss indices count

def fillCache (parent : ν) (cache : NthCache ν) : NthCache ν :=
  if (cache.counts parent).isSome then cache
  else
    let counted := countChildren links (links.children parent) cache.indices 0
    { indices := counted.fst, counts := Function.update cache.counts parent (some counted.snd) }

-- `selector_group_matches_element`
variable (groupMatches : List σ → ν → Bool)

-- The test of a sibling in the walk.
def countsSibling (el : ν) (pc : PseudoPred σ) (s : ν) : Bool :=
  links.isElement s &&
    (!pc.kind.typed || (links.name el).isSome && links.name s == links.name el) &&
    pc.ofGroup.all (groupMatches · s)

def walkSiblings (el : ν) (pc : PseudoPred σ) : Option Int :=
  let idx : Int := 1 + (if pc.kind.reverse then links.next el else links.prev el).countP
    (countsSibling links groupMatches el pc)
  if pc.ofGroup.any fun group => !groupMatches group el then none else some idx

-- The index from the cache, which is filled first.
def cachedIndex (cache : NthCache ν) (parent el : ν) (kind : Pseudo) : Option Int × NthCache ν :=
  let cache := fillCache links parent cache
  let idx := (cache.indices el).map fun idx =>
    if kind = .nthLastChild then (cache.counts parent).getD 0 - idx + 1 else idx
  (idx, cache)

-- `ns_css_sibling_counts_for_nth`. There is a cache only in a batch.
def siblingCountsForNth (cache : Option (NthCache ν)) (el : ν) (pc : PseudoPred σ) :
    Option Int × Option (NthCache ν) :=
  let plainChild := pc.ofGroup.isNone && (pc.kind = .nthChild || pc.kind = .nthLastChild)
  match cache with
  | none       => (walkSiblings links groupMatches el pc, none)
  | some cache =>
    match (if plainChild then links.parent el else none) with
    | none        => (walkSiblings links groupMatches el pc, some cache)
    | some parent => (cachedIndex links cache parent el pc.kind).map id some

-- The test of an index in `match_simple`.
def matchAnb (a b idx : Int) : Bool :=
  if a = 0 then idx == b
  else
    let diff := idx - b
    diff.tmod a == 0 && !(diff.tdiv a < 0)

def matchNth (cache : Option (NthCache ν)) (el : ν) (pc : PseudoPred σ) : Bool × Option (NthCache ν) :=
  let (idx, cache) := siblingCountsForNth links groupMatches cache el pc
  (idx.any (matchAnb pc.a pc.b), cache)

-- The answers to the tests of a batch, one after the other.
def answers : Option (NthCache ν) → List (ν × PseudoPred σ) → List Bool
  | _,     []              => []
  | cache, (el, pc) :: qs =>
    let (answer, cache) := matchNth links groupMatches cache el pc
    answer :: answers cache qs

section Meaning

-- The siblings that count for an element, itself among them, from the side that is counted from.
def counted (el : ν) (pc : PseudoPred σ) : List ν :=
  let family := (links.prev el).reverse ++ el :: links.next el
  (if pc.kind.reverse then family.reverse else family).filter fun s =>
    links.isElement s && (!pc.kind.typed || links.name s == links.name el) &&
      pc.ofGroup.all (groupMatches · s)

-- The index of the element, from 1 on, is one that the formula gives.
def NthMatches (el : ν) (pc : PseudoPred σ) : Prop :=
  ∃ i n : Nat, (counted links groupMatches el pc)[i]? = some el ∧ (i : Int) + 1 = pc.a * n + pc.b

-- Whether the tests of a document match what they mean, in a batch and out of it.
structure NthExact : Prop where
  walk  : ∀ el pc, links.isElement el →
    ((matchNth links groupMatches none el pc).fst ↔ NthMatches links groupMatches el pc)
  batch : ∀ qs : List (ν × PseudoPred σ), (∀ q ∈ qs, links.isElement q.fst) →
    answers links groupMatches (some {}) qs = answers links groupMatches none qs

end Meaning

end Nordstjernen.Css.Selector
