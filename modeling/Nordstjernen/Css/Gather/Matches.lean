import Mathlib.Data.List.MinMax
import Mathlib.Data.Prod.Lex
import Nordstjernen.Css.Gather.RuleIndex
import Nordstjernen.Lib.Run

open Nordstjernen.Glib

namespace Nordstjernen.Css.Gather

-- `gather_dest`: a pseudo-element, and whether the arrays `var_out` and `pending_out` are there.
structure Dest where
  pe      : PseudoElement
  vars    : Bool := true
  pending : Bool := true

-- The entries of the arrays of a `css_rule_match_accum` for one destination.
structure Slot where
  any        : Bool := false
  specA      : Int := 0
  specB      : Int := 0
  specC      : Int := 0
  scopeOrder : Int := 0

-- `css_rule_match_accum`, whose arrays have nine entries.
structure Accum where
  epoch      : UInt32 := 0
  layerOrder : Int := 0
  slots      : Fin 9 → Slot := fun _ => {}

-- `selector_cache_key`
structure CacheKey (ρ σ ν : Type*) where
  rule     : ρ
  selector : Option σ
  element  : ν
  pseudo   : PseudoElement
deriving DecidableEq

-- What calls leave behind: the indices of the sheets with their masks, the scratch arrays and the
-- cache of the selectors. A value of the cache is the scope order where the selector matches.
structure State (ι ρ σ ν : Type*) where
  index      : ι → Option RuleIndex := fun _ => none
  pseudoMask : ι → Nat := fun _ => 0
  peMask     : ρ → Nat := fun _ => 0
  candCap    : Nat := 0
  accum      : Nat → Accum := fun _ => {}
  accumCap   : Nat := 0
  matchedCap : Nat := 0
  epoch      : UInt32 := 0
  cache      : Option (AList fun _ : CacheKey ρ σ ν => Option Int) := none
  containerFeaturesUsed : Bool := false

-- What the entries of one rule have in common.
structure Placed (ρ : Type*) where
  origin      : Int
  specA       : Int
  specB       : Int
  specC       : Int
  sheetIndex  : Int
  layerOrder  : Int
  scopeOrder  : Int
  sourceOrder : Int
  rule        : ρ

structure MatchEntry (ρ : Type*) extends Placed ρ where
  declOrder : Int
  important : Bool
  value     : CString
  prop      : Nat

structure VarMatch (ρ : Type*) extends Placed ρ where
  declOrder : Nat
  important : Bool
  name      : CString
  text      : CString

structure PendingMatch (ρ : Type*) extends Placed ρ where
  declOrderBase : Int
  pd            : PendingDecl

-- What is appended to the arrays of a destination.
structure Found (ρ : Type*) where
  out     : List (MatchEntry ρ) := []
  vars    : List (VarMatch ρ) := []
  pending : List (PendingMatch ρ) := []

def Found.append {ρ : Type*} (a b : Found ρ) : Found ρ :=
  ⟨a.out ++ b.out, a.vars ++ b.vars, a.pending ++ b.pending⟩

-- The arguments of `gather_matches_multi`.
structure Request (ι ν : Type*) where
  sheet      : ι
  origin     : Int
  sheetIndex : Int
  el         : ν
  dests      : List Dest
  layerRanks : Option (GHashTable Int)

section Pool

def gMaxUint : Nat := 4294967295

-- The loop that doubles a capacity. From 64 on it ends within 32 rounds.
def growCap (need last : Nat) : Nat → Nat → Nat
  | 0,         cap => cap
  | fuel + 1,  cap =>
    if need ≤ cap then cap else if cap > gMaxUint / 2 then last else growCap need last fuel (2 * cap)

structure Pool where
  cands : List Candidate := []
  cap   : Nat

-- `CAND_PUSH_ARR`. A candidate takes eight bytes.
def Pool.pushArr (pool : Pool) (arr : List Candidate) : Pool :=
  let need := pool.cands.length + arr.length
  if need > gMaxUint then pool
  else if need > pool.cap then
    let newCap := growCap need gMaxUint 32 (if pool.cap < 64 then 64 else pool.cap)
    if newCap > gMaxUint / 8 then pool else ⟨pool.cands ++ arr, newCap⟩
  else { pool with cands := pool.cands ++ arr }

end Pool

def cssIndexLookupCi (table : GHashTable (List Candidate)) (name : CString) : Option (List Candidate) :=
  if name.any Char.isUpper then table.lookup (gAsciiStrdown name) else table.lookup name

-- The buckets that are pushed for an element, in this order.
def RuleIndex.buckets (idx : RuleIndex) (el : Node) : List (List Candidate) :=
  let byName (name : CString) := (cssIndexLookupCi idx.byTag name).toList
  let named : List (List Candidate) :=
    (((el.getAttr "id".toList).filter (· ≠ [])).bind idx.byId.lookup).toList ++
    (classTokens ((el.getAttr "class".toList).getD [])).filterMap idx.byClass.lookup ++
    ((el.name.filter (· ≠ [])).elim [] byName) ++
    if idx.byAttr.keys = [] then []
    else el.attrs.filterMap fun a => cssIndexLookupCi idx.byAttr a.name
  (if el.kind = .element then named else []) ++ [idx.universal]

def intMin : Int := -2147483648

-- `NS_CSS_LAYER_NONE`
def layerNone : Int := 2147483647

-- A null value of the table stands for no value.
def cssLayerRankFor (layerRanks : Option (GHashTable Int)) (layerName : Option CString) : Int :=
  match ((layerRanks.bind fun ranks => layerName.bind ranks.lookup).filter (· ≠ 0)) with
  | none   => layerNone
  | some v => v - 1

-- `NS_CSS_DECL_SLOT_SPAN`
def declSlotSpan : Int := 64

def wrapInt32 (n : Int) : Int :=
  n.bmod 4294967296

def cssDeclSlot (declIndex : Int) : Int :=
  wrapInt32 (declIndex * declSlotSpan)

def cssPendingDeclSlot (pd : PendingDecl) : Int :=
  let rank := if pd.declRank < declSlotSpan - 1 then pd.declRank else declSlotSpan - 2
  wrapInt32 (cssDeclSlot pd.declIndex - declSlotSpan + 1 + rank)

namespace Slot

-- Takes a match if it is better than what is there.
def offer (slot : Slot) (specA specB specC scopeOrder : Int) : Slot :=
  if !slot.any ∨ specA > slot.specA ∨ (specA = slot.specA ∧ specB > slot.specB) ∨
      (specA = slot.specA ∧ specB = slot.specB ∧ specC > slot.specC) then
    ⟨true, specA, specB, specC, scopeOrder⟩
  else if specA = slot.specA ∧ specB = slot.specB ∧ specC = slot.specC ∧ scopeOrder > slot.scopeOrder then
    { slot with scopeOrder }
  else slot

end Slot

-- `NS_SELECTOR_CACHE_MAX`
def selectorCacheMax : Nat := 262144

-- `scan` is the part of a call that goes through the candidates: its state and `g_rule_matched`.
structure Scan (ι ρ σ ν : Type*) where
  state   : State ι ρ σ ν
  matched : List Nat := []

section

variable {ι ρ σ ν π : Type*}

-- The scratch arrays are made to hold `n` rules, and a new epoch begins.
def State.beginMatch (s : State ι ρ σ ν) (n : Nat) : State ι ρ σ ν :=
  let grow (cap : Nat) := if cap < n then growCap n n 32 (if cap < 64 then 64 else cap) else cap
  let accum i : Accum := if s.accumCap < n ∧ s.accumCap ≤ i then {} else s.accum i
  let epoch := s.epoch + 1
  { s with
    accumCap   := grow s.accumCap
    matchedCap := grow s.matchedCap
    accum      := if epoch = 0 then fun _ => {} else accum
    epoch      := if epoch = 0 then 1 else epoch }

-- What an accumulator holds when a rule matches, which is nothing yet if it is of an earlier epoch.
def Accum.renew (acc : Accum) (epoch : UInt32) : Accum :=
  if acc.epoch = epoch then acc
  else { epoch, layerOrder := intMin, slots := fun i => { acc.slots i with any := false } }

-- A match of the rule at `ri` for the destination at `dd`. There is no result where the arrays of the
-- accumulator end before it.
def Scan.record (scan : Scan ι ρ σ ν) (ri dd : Nat) (sel : Selector π) (order : Int) :
    Option (Scan ι ρ σ ν) :=
  let s := scan.state
  let acc := (s.accum ri).renew s.epoch
  let matched :=
    if (s.accum ri).epoch ≠ s.epoch ∧ scan.matched.length < s.matchedCap then scan.matched ++ [ri]
    else scan.matched
  if h : dd < 9 then
    let slot := (acc.slots ⟨dd, h⟩).offer sel.specA sel.specB sel.specC order
    let acc := { acc with slots := Function.update acc.slots ⟨dd, h⟩ slot }
    some ⟨{ s with accum := Function.update s.accum ri acc }, matched⟩
  else none

end

namespace Page

variable {ι ρ σ ν π : Type*} (P : Page ι ρ σ ν π)

-- What a rule with these keys gives a destination.
def emit (q : Request ι ν) (layerOrder : Int) (r : ρ) (dst : Dest) (slot : Slot) : Found ρ :=
  let rule := P.rule r
  let placed : Placed ρ :=
    { origin := q.origin, specA := slot.specA, specB := slot.specB, specC := slot.specC,
      sheetIndex := q.sheetIndex, layerOrder, scopeOrder := slot.scopeOrder,
      sourceOrder := rule.sourceOrder, rule := r }
  { out     := rule.decls.zipIdx.map fun (d, di) =>
      { placed with declOrder := cssDeclSlot di, important := d.important, value := d.value, prop := d.prop }
    vars    := if !dst.vars then [] else rule.vars.zipIdx.map fun ((name, text), i) =>
      { placed with declOrder := i, important := rule.varImportant.contains name, name, text }
    pending := if !dst.pending then [] else rule.pending.map fun pd =>
      { placed with declOrderBase := cssPendingDeclSlot pd, pd } }

-- The loop over the matched rules, which has no result where it reads past the nine entries.
def emitRule (q : Request ι ν) : State ι ρ σ ν × List (Found ρ) → Nat → Option (State ι ρ σ ν × List (Found ρ))
  | (s, founds), ri =>
    match (P.sheet q.sheet).rules[ri]? with
    | none   => none
    | some r =>
      let acc := s.accum ri
      let rank := cssLayerRankFor q.layerRanks (P.rule r).layerName
      let layerOrder := if acc.layerOrder = intMin then rank else acc.layerOrder
      let new := q.dests.zipIdx.mapM fun (dst, dd) =>
        if h : dd < 9 then
          some (if (acc.slots ⟨dd, h⟩).any then P.emit q layerOrder r dst (acc.slots ⟨dd, h⟩) else {})
        else none
      new.map fun new =>
        ({ s with accum := Function.update s.accum ri { acc with layerOrder } },
          List.zipWith Found.append founds new)

variable [DecidableEq ρ] [DecidableEq σ] [DecidableEq ν]

-- `rule_selector_matches` by way of the cache.
def cachedMatch (s : State ι ρ σ ν) (key : CacheKey ρ σ ν) : State ι ρ σ ν × Option Int :=
  match s.cache.bind (·.lookup key) with
  | some value => (s, value)
  | none       =>
    let value := P.ruleSelectorMatches key.rule key.selector key.element key.pseudo
    let insert cache := if selectorCacheMax ≤ cache.keys.length then cache else cache.insert key value
    ({ s with cache := s.cache.map insert }, value)

def testDest (el : ν) (ri : Nat) (r : ρ) (sel : Option σ) (scan : Scan ι ρ σ ν) :
    Dest × Nat → Option (Scan ι ρ σ ν)
  | (dst, dd) =>
    if dst.pe ≠ .none ∧ !(scan.state.peMask r).testBit dst.pe.code then some scan
    else if sel.any fun sel => (P.selector sel).pseudoElement ≠ dst.pe then some scan
    else
      match P.cachedMatch scan.state ⟨r, sel, el, dst.pe⟩, sel with
      | (s, some order), some sel =>
        let used := s.containerFeaturesUsed || (P.rule r).containerCondition.isSome
        let scan := Scan.mk { s with containerFeaturesUsed := used } scan.matched
        scan.record ri dd (P.selector sel) order
      | (s, _), _ => some ⟨s, scan.matched⟩

def testCandidate (q : Request ι ν) (scan : Scan ι ρ σ ν) (cand : Candidate) : Option (Scan ι ρ σ ν) :=
  match (P.sheet q.sheet).rules[cand.ruleIdx]? with
  | none   => some scan
  | some r =>
    match (P.rule r).selectors[cand.selectorIdx]? with
    | none     => some scan
    | some sel =>
      if (P.rule r).containerCondition.any fun cond => !P.containerCondMatches cond then some scan
      else q.dests.zipIdx.foldlM (P.testDest q.el cand.ruleIdx r sel) scan

variable [DecidableEq ι]

-- `ns_css_rule_index_ensure`
def ruleIndexEnsure (s : State ι ρ σ ν) (sheet : ι) : State ι ρ σ ν × RuleIndex :=
  match s.index sheet with
  | some idx => (s, idx)
  | none     =>
    let idx := P.ruleIndexBuild sheet
    let rules := (P.sheet sheet).rules
    ({ s with
      index      := Function.update s.index sheet (some idx)
      pseudoMask := Function.update s.pseudoMask sheet <|
        P.pseudoMask (rules.flatMap fun r => (P.rule r).selectors) (s.pseudoMask sheet)
      peMask     := fun r =>
        if r ∈ rules then P.pseudoMask (P.rule r).selectors (s.peMask r) else s.peMask r }, idx)

-- `gather_matches_multi`, with what it appends for each destination. There is no result where the
-- arrays of an accumulator are used past their ends.
def gatherMatchesMulti (s : State ι ρ σ ν) (q : Request ι ν) : Option (State ι ρ σ ν × List (Found ρ)) :=
  let (s, idx) := P.ruleIndexEnsure s q.sheet
  let pool := (idx.buckets (P.node q.el)).foldl Pool.pushArr { cap := s.candCap }
  let s := State.beginMatch { s with candCap := pool.cap } (P.sheet q.sheet).rules.length
  (pool.cands.foldlM (P.testCandidate q) ⟨s, []⟩).bind fun scan =>
    scan.matched.foldlM (P.emitRule q) (scan.state, q.dests.map fun _ => {})

end Page

inductive Event (ι ν : Type*)
  | gather (q : Request ι ν)
  -- `ns_css_selector_cache_begin`
  | cacheBegin
  -- `ns_css_selector_cache_end`
  | cacheEnd

def Page.step {ι ρ σ ν π : Type*} [DecidableEq ι] [DecidableEq ρ] [DecidableEq σ] [DecidableEq ν]
    (P : Page ι ρ σ ν π) (s : State ι ρ σ ν) : Event ι ν → Option (State ι ρ σ ν)
  | .gather q   => (P.gatherMatchesMulti s q).map (·.fst)
  | .cacheBegin => some { s with cache := some ∅ }
  | .cacheEnd   => some { s with cache := none }

end Nordstjernen.Css.Gather

namespace Nordstjernen.Css.Gather

-- The specificity and the scope order of a match, by which the best one of a rule is found.
def Key : Type :=
  ℤ ×ₗ ℤ ×ₗ ℤ ×ₗ ℤ

instance Key.linearOrder : LinearOrder Key :=
  have z := Int.instLinearOrder
  @Prod.Lex.instLinearOrder _ _ z (@Prod.Lex.instLinearOrder _ _ z (@Prod.Lex.instLinearOrder _ _ z z))

def toKey (specA specB specC order : Int) : Key :=
  toLex (specA, toLex (specB, toLex (specC, order)))

def Selector.key {π : Type*} (sel : Selector π) (order : Int) : Key :=
  toKey sel.specA sel.specB sel.specC order

namespace Slot

def key (slot : Slot) : WithBot Key :=
  if slot.any then toKey slot.specA slot.specB slot.specC slot.scopeOrder else ⊥

def ofKey : WithBot Key → Slot
  | none           => {}
  | some (a, b, c, order) => ⟨true, a, b, c, order⟩

end Slot

namespace Found

variable {ρ : Type*}

def join (founds : List (Found ρ)) : Found ρ where
  out     := founds.flatMap (·.out)
  vars    := founds.flatMap (·.vars)
  pending := founds.flatMap (·.pending)

-- The arrays are sorted later by keys that tell their entries apart.
structure Perm (a b : Found ρ) : Prop where
  out     : a.out.Perm b.out
  vars    : a.vars.Perm b.vars
  pending : a.pending.Perm b.pending

end Found

-- The candidates that a pool of at most `2 ^ 28` takes when buckets are pushed to it one by one, and
-- those of the buckets that it leaves out.
def fillPool {α : Type*} (n : Nat) : List (List α) → List α × List α
  | []      => ([], [])
  | b :: bs =>
    if n + b.length ≤ 268435456 then
      let (taken, leftOut) := fillPool (n + b.length) bs
      (b ++ taken, leftOut)
    else
      let (taken, leftOut) := fillPool n bs
      (taken, b ++ leftOut)

namespace Page

variable {ι ρ σ ν π : Type*} [DecidableEq ν] (P : Page ι ρ σ ν π)

-- The key with which a selector of a rule matches an element for a pseudo-element.
def keyOf? (el : ν) (pe : PseudoElement) (r : ρ) (sel : Option σ) : Option Key :=
  if (P.rule r).containerCondition.any fun cond => !P.containerCondMatches cond then none
  else sel.bind fun s =>
    if (P.selector s).pseudoElement = pe then
      (P.ruleSelectorMatches r sel el pe).map (P.selector s).key
    else none

def best (el : ν) (pe : PseudoElement) (r : ρ) : WithBot Key :=
  ((P.rule r).selectors.filterMap (P.keyOf? el pe r)).maximum

-- What a rule gives a destination if its best match has this key.
def emitKey (q : Request ι ν) (dst : Dest) (r : ρ) (key : WithBot Key) : Found ρ :=
  if key = ⊥ then {}
  else P.emit q (cssLayerRankFor q.layerRanks (P.rule r).layerName) r dst (Slot.ofKey key)

-- What testing every selector of every rule of the sheet gives a destination.
def tested (q : Request ι ν) (dst : Dest) : Found ρ :=
  Found.join ((P.sheet q.sheet).rules.map fun r => P.emitKey q dst r (P.best q.el dst.pe r))

def Exact (q : Request ι ν) (founds : List (Found ρ)) : Prop :=
  List.Forall₂ (fun dst (found : Found ρ) => found.Perm (P.tested q dst)) q.dests founds

def offer? (q : Request ι ν) (dst : Dest) (cand : Candidate) : Option Key :=
  (P.sheet q.sheet).rules[cand.ruleIdx]?.bind fun r =>
    (P.rule r).selectors[cand.selectorIdx]?.bind fun sel => P.keyOf? q.el dst.pe r sel

def taken (q : Request ι ν) : List Candidate :=
  (fillPool 0 ((P.ruleIndexBuild q.sheet).buckets (P.node q.el))).fst

def leftOut (q : Request ι ν) : List Candidate :=
  (fillPool 0 ((P.ruleIndexBuild q.sheet).buckets (P.node q.el))).snd

-- Nine destinations fit into the accumulators, and none is needed where no candidate matches.
def Fits (q : Request ι ν) : Prop :=
  q.dests.length ≤ 9 ∨ ∀ dst ∈ q.dests, ∀ cand ∈ P.taken q, P.offer? q dst cand = none

-- Whether a rule has something to give a destination.
def Gives (r : ρ) (dst : Dest) : Prop :=
  (P.rule r).decls ≠ [] ∨ dst.vars ∧ (P.rule r).vars ≠ [] ∨ dst.pending ∧ (P.rule r).pending ≠ []

-- The pool leaves out no match that is better than all those of its rule that it takes.
def NothingMissed (q : Request ι ν) : Prop :=
  ∀ dst ∈ q.dests, ∀ cand ∈ P.leftOut q, ∀ k ∈ P.offer? q dst cand,
    (∀ r ∈ (P.sheet q.sheet).rules[cand.ruleIdx]?, P.Gives r dst) →
      ∃ cand' ∈ P.taken q, cand'.ruleIdx = cand.ruleIdx ∧ ∃ k' ∈ P.offer? q dst cand', k ≤ k'

end Page

end Nordstjernen.Css.Gather
