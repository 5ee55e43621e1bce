import Nordstjernen.Glib.Strings
import Nordstjernen.Lib.ForestOrder

open Nordstjernen.Glib Nordstjernen.Lib

namespace Nordstjernen.Layout

section Copy

-- The length of a sequence by its first byte, the bits of this byte and the least code of this length.
def utf8Lead (b : Nat) : Option (Nat × Nat × Nat) :=
  if b < 0xc0 then none
  else if b < 0xe0 then some (2, b % 0x20, 0x80)
  else if b < 0xf0 then some (3, b % 0x10, 0x800)
  else if b < 0xf8 then some (4, b % 0x08, 0x10000)
  else if b < 0xfc then some (5, b % 0x04, 0x200000)
  else if b < 0xfe then some (6, b % 0x02, 0x4000000)
  else none

-- The bytes that have to follow, where `wc` has been read.
def utf8Rest : Nat → Nat → CString → Option Nat
  | 0,     wc, _       => some wc
  | _ + 1, _,  []      => none
  | k + 1, wc, c :: cs => if c.toNat / 0x40 = 2 then utf8Rest k (wc * 0x40 + c.toNat % 0x40) cs else none

-- `g_utf8_get_char_validated` for a text with its length: the character and how many bytes it takes, or none
-- for `(gunichar)-1` and `(gunichar)-2`.
def gUtf8GetCharValidated : CString → Option (Nat × Nat)
  | []      => none
  | c :: cs =>
    if c.toNat < 0x80 then
      if c.toNat = 0 then none else some (c.toNat, 1)
    else do
      let (len, bits, least) ← utf8Lead c.toNat
      let wc ← utf8Rest (len - 1) bits cs
      guard (least ≤ wc ∧ wc < 0x110000 ∧ ¬(0xd800 ≤ wc ∧ wc < 0xe000))
      return (wc, len)

-- What is copied for a character: a line break for the line and the paragraph separator, and nothing for the
-- zero width space and the byte order mark.
def copyChar (u : Nat) (bytes : CString) : CString :=
  if u = 0x2028 ∨ u = 0x2029 then ['\n']
  else if u ≠ 0x200b ∧ u ≠ 0xfeff then bytes
  else []

-- The loop of `append_copied_run`, with that many bytes to go of the last character.
def copyRun : Nat → CString → CString
  | _,     []      => []
  | k + 1, _ :: cs => copyRun k cs
  | 0,     c :: cs =>
    match gUtf8GetCharValidated (c :: cs) with
    | none           => c :: copyRun 0 cs
    | some (u, step) => copyChar u ((c :: cs).take step) ++ copyRun (step - 1) cs

-- What `append_copied_run` appends for the bytes of a range.
def appendCopiedRun (text : CString) : CString :=
  copyRun 0 text

end Copy

-- The value of `user-select` in the style of a box.
inductive UserSelect
  | none
  | other
deriving DecidableEq

-- An `ns_box`, which is told from others by its address, as far as a selection reads it.
structure Box where
  id         : Nat
  isInline   : Bool
  text       : Option CString
  userSelect : Option UserSelect

-- A box with its parents, the nearest one first.
structure Placed where
  box     : Box
  parents : List Box

namespace Placed

variable (p : Placed)

def text : CString :=
  p.box.text.getD []

-- `box_user_selectable`
def userSelectable : Bool :=
  ((p.box :: p.parents).findSome? (·.userSelect)).all (· ≠ .none)

-- `containing_block`
def containingBlock : Option Nat :=
  (p.parents.find? (!·.isInline)).map (·.id)

end Placed

-- A box with what is below it, and with its parents.
structure BoxTree where
  parents  : List Box
  root     : Box
  kids     : Forest Box
  distinct : ((Forest.node root kids .nil).labels.map Box.id).Nodup

-- `walk_inline_pre`
def walkInlinePre {σ : Type} (t : BoxTree) (cb : σ → Placed → σ) (s : σ) : σ :=
  (Forest.node t.root t.kids .nil).walk
    (fun parents s b => (some (b :: parents), if b.isInline then cb s ⟨b, parents⟩ else s)) t.parents s

-- Where a selection begins or ends.
structure Endpoint where
  box  : Option Nat
  byte : Nat
deriving DecidableEq

-- `ns_selection`
structure Selection where
  anchor : Endpoint
  focus  : Endpoint
  active : Bool

def Selection.swap (sel : Selection) : Selection :=
  { sel with anchor := sel.focus, focus := sel.anchor }

-- `ns_selection_has_range`
def Selection.hasRange (sel : Selection) : Bool :=
  sel.active && sel.anchor.box.isSome && sel.focus.box.isSome && sel.anchor ≠ sel.focus

section Endpoints

-- `find_endpoints_ctx`, but for the endpoints themselves.
structure FoundEndpoints where
  first : Option Nat := none
  last  : Option Nat := none
  seen  : Nat        := 0

def findEndpointsCb (a b : Option Nat) (ctx : FoundEndpoints) (p : Placed) : FoundEndpoints :=
  if ctx.seen = 2 then ctx
  else if some p.box.id = a ∨ some p.box.id = b then
    if ctx.seen = 0 then
      if a = b then { first := p.box.id, last := p.box.id, seen := 2 }
      else { ctx with first := p.box.id, seen := 1 }
    else { ctx with last := p.box.id, seen := 2 }
  else ctx

-- The first endpoint and the last one.
def orderEndpoints (t : BoxTree) (sel : Selection) : Endpoint × Endpoint :=
  if sel.anchor.box = sel.focus.box then
    if sel.anchor.byte ≤ sel.focus.byte then (sel.anchor, sel.focus) else (sel.focus, sel.anchor)
  else if (walkInlinePre t (findEndpointsCb sel.anchor.box sel.focus.box) {}).first = sel.anchor.box then
    (sel.anchor, sel.focus)
  else (sel.focus, sel.anchor)

end Endpoints

-- How far a walk over a selection has come: 0, 1 or 2 in the source.
inductive Progress
  | before
  | inside
  | behind
deriving DecidableEq

section Ranges

-- `ns_selection_run`
structure Run where
  start : Nat
  stop  : Nat
deriving DecidableEq

-- A table of runs by boxes.
abbrev RunTable := List (Nat × Run)

def RunTable.insert (table : RunTable) (id : Nat) (run : Run) : RunTable :=
  table.filter (·.1 ≠ id) ++ [(id, run)]

structure RangesCtx where
  table : RunTable := []
  state : Progress := .before

def rangesRecord (table : RunTable) (p : Placed) (start stop : Nat) : RunTable :=
  match p.box.text with
  | none      => table
  | some text =>
    if !p.userSelectable then table
    else
      let start := min start text.length
      let stop  := min stop text.length
      if start ≥ stop then table else table.insert p.box.id ⟨start, stop⟩

def rangesWalkCb (first last : Endpoint) (ctx : RangesCtx) (p : Placed) : RangesCtx :=
  match ctx.state with
  | .behind => ctx
  | state   =>
    if first.box = last.box then
      if some p.box.id = first.box then
        { table := rangesRecord ctx.table p first.byte last.byte, state := .behind }
      else ctx
    else if state = .before then
      if some p.box.id = first.box then
        { table := rangesRecord ctx.table p first.byte p.text.length, state := .inside }
      else ctx
    else if some p.box.id = last.box then
      { table := rangesRecord ctx.table p 0 last.byte, state := .behind }
    else if p.text ≠ [] then { ctx with table := rangesRecord ctx.table p 0 p.text.length }
    else ctx

-- `ns_selection_ranges`
def ranges (t : BoxTree) (sel : Selection) : Option RunTable :=
  if sel.hasRange then
    let (first, last) := orderEndpoints t sel
    let ctx := walkInlinePre t (rangesWalkCb first last) {}
    if ctx.table = [] then none else some ctx.table
  else none

end Ranges

section Collect

structure CollectCtx where
  out       : CString    := []
  state     : Progress   := .before
  prevBlock : Option Nat := none

def collectAppend (ctx : CollectCtx) (p : Placed) (start stop : Nat) : CollectCtx :=
  if stop ≤ start ∨ p.box.text.isNone then ctx
  else
    let block := p.containingBlock
    let out   := if ctx.out.length > 0 ∧ block ≠ ctx.prevBlock then ctx.out ++ ['\n'] else ctx.out
    { ctx with out := out ++ appendCopiedRun ((p.text.take stop).drop start), prevBlock := block }

-- `collect_append` for a box that can be selected.
def collectSelectable (ctx : CollectCtx) (p : Placed) (start stop : Nat) : CollectCtx :=
  if p.userSelectable then collectAppend ctx p start stop else ctx

def collectWalkCb (first last : Endpoint) (ctx : CollectCtx) (p : Placed) : CollectCtx :=
  match ctx.state with
  | .behind => ctx
  | state   =>
    let tlen := p.text.length
    if p.text = [] then
      if state = .inside ∧ some p.box.id = last.box then { ctx with state := .behind } else ctx
    else if first.box = last.box then
      if some p.box.id = first.box then
        { collectSelectable ctx p (min first.byte tlen) (min last.byte tlen) with state := .behind }
      else ctx
    else if state = .before then
      if some p.box.id = first.box then
        { collectSelectable ctx p (min first.byte tlen) tlen with state := .inside }
      else ctx
    else if some p.box.id = last.box then
      { collectSelectable ctx p 0 (min last.byte tlen) with state := .behind }
    else collectSelectable ctx p 0 tlen

-- `ns_selection_collect_text`
def collectText (t : BoxTree) (sel : Selection) : Option CString :=
  if sel.hasRange then
    let (first, last) := orderEndpoints t sel
    some (walkInlinePre t (collectWalkCb first last) {}).out
  else none

end Collect

end Nordstjernen.Layout

namespace Nordstjernen.Layout

-- What the ranges of a selection are for: the text that is read with them.

namespace BoxTree

-- The inline boxes below some boxes, in document order.
def inlineBoxes (parents : List Box) : Forest Box → List Placed
  | .nil              => []
  | .node b kids sibs =>
    (if b.isInline then [⟨b, parents⟩] else []) ++ inlineBoxes (b :: parents) kids ++ inlineBoxes parents sibs

variable (t : BoxTree)

def inlines : List Placed :=
  inlineBoxes t.parents (.node t.root t.kids .nil)

-- The ranges of a table, each with its box, in document order.
def reported (table : RunTable) : List (Placed × Run) :=
  t.inlines.filterMap fun p => (table.lookup p.box.id).map (p, ·)

-- Whether an endpoint is in a text of the tree.
def HasText (e : Endpoint) : Prop :=
  ∃ p ∈ t.inlines, some p.box.id = e.box ∧ p.text ≠ []

end BoxTree

-- The text of a range.
def Run.of (run : Run) (p : Placed) : CString :=
  (p.text.take run.stop).drop run.start

-- The copies of some ranges, where `copied` is what has been copied of ranges of which the last one was in a
-- block. A line break comes between ranges of different blocks, unless there is nothing to break.
def copyRanges (copied : CString) (block : Option Nat) : List (Placed × Run) → CString
  | []              => copied
  | (p, run) :: rs =>
    let broken := if copied ≠ [] ∧ p.containingBlock ≠ block then copied ++ ['\n'] else copied
    copyRanges (broken ++ appendCopiedRun (run.of p)) p.containingBlock rs

-- The separators, the zero width space and the byte order mark.
def changedChars : List CString :=
  [['\xe2', '\x80', '\xa8'], ['\xe2', '\x80', '\xa9'], ['\xe2', '\x80', '\x8b'], ['\xef', '\xbb', '\xbf']]

-- What a selection has to keep: it is the same from either end, and its text is that of its ranges.
structure Selects (t : BoxTree) (sel : Selection) : Prop where
  ranges_swap : ranges t sel.swap = ranges t sel
  text_swap   : collectText t sel.swap = collectText t sel
  copied      : (collectText t sel).getD [] = copyRanges [] none (t.reported ((ranges t sel).getD []))
  plain       : (∀ r ∈ t.reported ((ranges t sel).getD []), ∀ r' ∈ t.reported ((ranges t sel).getD []),
      r.1.containingBlock = r'.1.containingBlock) →
    (∀ r ∈ t.reported ((ranges t sel).getD []), ∀ s ∈ changedChars, ¬s <:+: r.2.of r.1) →
      (collectText t sel).getD [] = (t.reported ((ranges t sel).getD [])).flatMap fun r => r.2.of r.1

end Nordstjernen.Layout
