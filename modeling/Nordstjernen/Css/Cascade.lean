import Mathlib.Data.List.Lex
import Nordstjernen.Glib.Array
import Nordstjernen.Glib.Strings

open Nordstjernen.Glib

namespace Nordstjernen.Css

inductive Origin
  | ua
  | presentational
  | author
deriving DecidableEq

-- `ns_css_origin`
def Origin.code : Origin → Int
  | .ua             => 0
  | .presentational => 1
  | .author         => 2

def intMin : Int := -2147483648

def intMax : Int := 2147483647

-- `NS_CSS_LAYER_NONE`
def layerNone : Int := intMax

-- `place` is where the declaration stands in the text, and tells declarations of one block apart.
structure Decl where
  prop      : Nat
  value     : CString
  important : Bool
  place     : Nat
deriving DecidableEq

-- A declaration as it is written: parsed right away into its longhands, or kept because of a `var()`.
-- Then `expansion` is what its text parses to after the substitution.
inductive Item
  | plain (ds : List Decl)
  | pending (important : Bool) (expansion : List Decl)

structure PendingDecl where
  important : Bool
  declIndex : Nat
  declRank  : Nat
  expansion : List Decl

-- The arrays that `parse_declaration_block` fills.
structure Captured where
  decls   : List Decl := []
  pending : List PendingDecl := []

namespace Captured

def nextRank (c : Captured) : Nat :=
  match c.pending.getLast? with
  | some prev => if prev.declIndex = c.decls.length then prev.declRank + 1 else 0
  | none      => 0

def add (c : Captured) : Item → Captured
  | .plain ds                    => { c with decls := c.decls ++ ds }
  | .pending important expansion =>
    { c with pending := c.pending ++ [⟨important, c.decls.length, c.nextRank, expansion⟩] }

end Captured

def capture (items : List Item) : Captured :=
  items.foldl Captured.add {}

def wrapInt32 (n : Int) : Int :=
  (n + 2147483648) % 4294967296 - 2147483648

-- `NS_CSS_DECL_SLOT_SPAN`
def declSlotSpan : Nat := 64

def cssDeclSlot (declIndex : Nat) : Int :=
  wrapInt32 (declIndex * declSlotSpan)

def cssPendingDeclSlot (pd : PendingDecl) : Int :=
  let rank : Nat := if pd.declRank < declSlotSpan - 1 then pd.declRank else declSlotSpan - 2
  wrapInt32 (cssDeclSlot pd.declIndex - declSlotSpan + 1 + rank)

-- The keys of a matched rule: the specificity and scope order of its best selector, the rank of its
-- layer if it has one, and the place in its sheet.
structure RuleKeys where
  specA       : Nat
  specB       : Nat
  specC       : Nat
  layer       : Option (Fin 2147483647)
  scopeOrder  : Nat
  sourceOrder : Int
deriving DecidableEq

inductive Source
  | uaRule (keys : RuleKeys)
  | authorRule (sheet : Nat) (keys : RuleKeys)
  | presentationalHints
  | inlineStyle
deriving DecidableEq

-- The fields of a `match_entry` that come from where a declaration stands.
structure SourceKeys where
  origin      : Int
  specA       : Int
  specB       : Int
  specC       : Int
  sheetIndex  : Int
  layerOrder  : Int
  scopeOrder  : Int
  sourceOrder : Int
deriving DecidableEq

namespace RuleKeys

def layerOrder (r : RuleKeys) : Int :=
  match r.layer with
  | some rank => rank
  | none      => layerNone

def sourceKeys (r : RuleKeys) (origin : Origin) (sheetIndex : Int) : SourceKeys :=
  ⟨origin.code, r.specA, r.specB, r.specC, sheetIndex, r.layerOrder, r.scopeOrder, r.sourceOrder⟩

end RuleKeys

namespace Source

def keys : Source → SourceKeys
  | uaRule r             => r.sourceKeys .ua 0
  | authorRule sheet r   => r.sourceKeys .author (sheet + 1)
  | presentationalHints  => ⟨Origin.presentational.code, 0, 0, 0, 0, layerNone, 0, intMin⟩
  | inlineStyle          => ⟨Origin.author.code, 1000, 0, 0, 0, layerNone, 0, intMax⟩

def isInline : Source → Bool
  | inlineStyle => true
  | _           => false

end Source

structure MatchEntry where
  source    : Source
  declOrder : Int
  important : Bool
  decl      : Decl
deriving DecidableEq

structure PendingMatch where
  source : Source
  pd     : PendingDecl

-- `if (x != y) return x < y ? -1 : 1;` and what comes after it.
def thenCmp (x y rest : Int) : Int :=
  if x = y then rest else if x < y then -1 else 1

-- The keys that `!important` reverses.
def reversed (important : Bool) (key : Int) : Int :=
  if important then -key else key

-- The comparisons that `match_cmp` and `pending_match_cmp` have in common.
def sourceCmp (a b : SourceKeys) (aImportant bImportant : Bool) (rest : Int) : Int :=
  thenCmp aImportant.toNat bImportant.toNat <|
  thenCmp (reversed aImportant a.origin) (reversed bImportant b.origin) <|
  thenCmp (reversed aImportant a.layerOrder) (reversed bImportant b.layerOrder) <|
  thenCmp a.specA b.specA <| thenCmp a.specB b.specB <| thenCmp a.specC b.specC <|
  thenCmp a.scopeOrder b.scopeOrder <| thenCmp a.sheetIndex b.sheetIndex rest

def matchCmp (a b : MatchEntry) : Int :=
  sourceCmp a.source.keys b.source.keys a.important b.important <|
  thenCmp a.source.keys.sourceOrder b.source.keys.sourceOrder <|
  if a.declOrder < b.declOrder then -1 else 1

def pendingMatchCmp (a b : PendingMatch) : Int :=
  sourceCmp a.source.keys b.source.keys a.pd.important b.pd.important <|
  if a.source.keys.sourceOrder < b.source.keys.sourceOrder then -1 else 1

def Item.decls : Item → List Decl
  | .plain ds            => ds
  | .pending _ expansion => expansion

-- The declarations of a block keep their order in the text.
structure Block where
  items   : List Item
  ordered : (items.flatMap (·.decls)).Pairwise (·.place < ·.place)

structure Matched where
  source : Source
  block  : Block

namespace Matched

variable (m : Matched)

-- The entries that are appended to `matches` at once.
def entries : List MatchEntry :=
  (capture m.block.items).decls.zipIdx.map fun (d, i) => ⟨m.source, cssDeclSlot i, d.important, d⟩

def pendings : List PendingMatch :=
  (capture m.block.items).pending.map fun pd => ⟨m.source, pd⟩

end Matched

namespace PendingMatch

def resolve (pm : PendingMatch) : List MatchEntry :=
  pm.pd.expansion.map fun d =>
    ⟨pm.source, cssPendingDeclSlot pm.pd, pm.pd.important || d.important, d⟩

end PendingMatch

-- `matches` after `resolve_pending_into_matches`.
def matchEntries (ms : List Matched) : List MatchEntry :=
  ms.flatMap (·.entries) ++
    (gArraySort pendingMatchCmp (ms.flatMap (·.pendings))).flatMap (·.resolve)

-- The order in which `cascade_for` applies the declarations.
def applied (ms : List Matched) : List MatchEntry :=
  gArraySort matchCmp (matchEntries ms)

def lastApplied (ms : List Matched) (prop : Nat) : Option MatchEntry :=
  ((applied ms).filter (·.decl.prop = prop)).getLast?

end Nordstjernen.Css

namespace Nordstjernen.Css

-- A declaration that applies to the element.
structure Declared where
  source    : Source
  important : Bool
  decl      : Decl
deriving DecidableEq

def Item.declared (source : Source) : Item → List Declared
  | .plain ds                    => ds.map fun d => ⟨source, d.important, d⟩
  | .pending important expansion => expansion.map fun d => ⟨source, important || d.important, d⟩

def declarations (ms : List Matched) : List Declared :=
  ms.flatMap fun m => m.block.items.flatMap (·.declared m.source)

namespace Declared

-- Importance and origin.
def level (d : Declared) : List Int :=
  [d.important.toNat, reversed d.important d.source.keys.origin]

-- Layers, specificity, scoping proximity, and the order of sheets and rules.
def ranks (d : Declared) : List Int :=
  let keys := d.source.keys
  [reversed d.important keys.layerOrder, keys.specA, keys.specB, keys.specC, keys.scopeOrder,
    keys.sheetIndex, keys.sourceOrder]

-- The cascade order, in which the style attribute comes before all of these. The larger one wins.
def precedence (d : Declared) : List Int :=
  d.level ++ (d.source.isInline.toNat : Int) :: (d.ranks ++ [(d.decl.place : Int)])

end Declared

-- The declaration of a property that should come out on top.
structure Wins (ms : List Matched) (p : Nat) (d : Declared) : Prop where
  mem  : d ∈ declarations ms
  prop : d.decl.prop = p
  top  : ∀ e ∈ declarations ms, e.decl.prop = p → e ≠ d → e.precedence < d.precedence

def MatchEntry.declared (e : MatchEntry) : Declared :=
  ⟨e.source, e.important, e.decl⟩

-- The keys that `match_cmp` compares, in its order.
def MatchEntry.key (e : MatchEntry) : List Int :=
  e.declared.level ++ (e.declared.ranks ++ [e.declOrder])

-- Whether the comparison is a strict total order of the entries that differ in a key.
structure MatchCmpOrders : Prop where
  total : ∀ {a b : MatchEntry}, a.key ≠ b.key →
    matchCmp a b < 0 ∧ 0 < matchCmp b a ∨ 0 < matchCmp a b ∧ matchCmp b a < 0
  trans : ∀ {a b c : MatchEntry}, matchCmp a b < 0 → matchCmp b c < 0 → matchCmp a c < 0

-- A block whose declarations all get orders of their own: few enough of them, no more than 63
-- `var()` declarations in a row, and none that expands to the same property twice.
structure Captured.Tame (c : Captured) : Prop where
  size  : c.decls.length < 33554432
  ranks : ∀ pd ∈ c.pending, pd.declRank < 63
  once  : ∀ pd ∈ c.pending, pd.expansion.Pairwise (·.prop ≠ ·.prop)

-- No two blocks stand in the same place.
def Matched.Apart (m m' : Matched) : Prop :=
  ¬(m.source.keys.origin = m'.source.keys.origin ∧
    m.source.keys.sheetIndex = m'.source.keys.sheetIndex ∧
    m.source.keys.sourceOrder = m'.source.keys.sourceOrder)

structure Tame (ms : List Matched) : Prop where
  apart  : ms.Pairwise Matched.Apart
  blocks : ∀ m ∈ ms, (capture m.block.items).Tame

-- Whether the keys put a rule of a sheet over the style attribute although the importance is the same:
-- with `!important` a layered rule, and any rule of a specificity from 1000 ids on without a layer.
def Overtakes (e i : Declared) : Prop :=
  i.source = .inlineStyle ∧ e.important = i.important ∧
  ∃ sheet keys, e.source = .authorRule sheet keys ∧
    if keys.layer.isSome then i.important else 1000 ≤ keys.specA

-- Whether a rule that overtakes the style attribute always meets something stronger than both.
def Outranked (ms : List Matched) (p : Nat) : Prop :=
  ∀ i ∈ declarations ms, i.decl.prop = p → ∀ e ∈ declarations ms, e.decl.prop = p →
    Overtakes e i → ∃ d ∈ declarations ms, d.decl.prop = p ∧ i.level < d.level

end Nordstjernen.Css
