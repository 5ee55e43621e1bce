import Nordstjernen.Glib.Strings
import Nordstjernen.Lib.Placement

open Nordstjernen.Glib

namespace Nordstjernen.Layout.Grid

-- `NS_CSS_TRACKS_MAX`
def tracksMax : Nat :=
  24

-- What `grid_resolve_pos` says about an item. A start is `none` where the source has -1.
structure Item where
  colStart : Option Nat
  colSpan  : Nat
  rowStart : Option Nat
  rowSpan  : Nat
deriving DecidableEq

structure Area where
  row  : Nat
  col  : Nat
  rows : Nat
  cols : Nat
deriving DecidableEq

abbrev Occupied := Nat → Nat → Bool

def gridSlotAvailable (occupied : Occupied) (row col colSpan rowSpan nCols : Nat) : Bool :=
  decide (1 ≤ colSpan) && decide (1 ≤ rowSpan) && decide (col + colSpan ≤ nCols) &&
  decide (row + rowSpan ≤ tracksMax) &&
  (List.range rowSpan).all fun r => (List.range colSpan).all fun c => !occupied (row + r) (col + c)

-- The cells that `grid_slot_mark` marks.
def markedArea (row col colSpan rowSpan nCols : Nat) : Area where
  row  := row
  col  := col
  rows := if tracksMax < row + rowSpan then tracksMax - row else rowSpan
  cols := if nCols < col + colSpan then nCols - col else colSpan

def mark (occupied : Occupied) (a : Area) : Occupied := fun r c =>
  occupied r c || decide (a.row ≤ r ∧ r < a.row + a.rows ∧ a.col ≤ c ∧ c < a.col + a.cols)

-- The indices of a loop from `start` that stops in front of `stop`, or after its first turn where the
-- index is fixed.
def searchRange (start stop : Nat) (fixed : Bool) : List Nat :=
  let range := List.range' start (stop - start)
  if fixed then range.take 1 else range

def gridRows (startRow : Nat) (fixedRow : Bool) : List Nat :=
  searchRange startRow tracksMax fixedRow

def gridCols (colSpan nCols startRow startCol : Nat) (fixedCol : Bool) (r : Nat) : List Nat :=
  let first := if fixedCol then startCol else if r = startRow then startCol else 0
  let last  := if fixedCol then startCol else nCols - colSpan
  List.range' first (max first last + 1 - first)

-- `none` where the function returns `FALSE`.
def gridFindSlot (occupied : Occupied) (colSpan rowSpan nCols startRow startCol : Nat)
    (fixedRow fixedCol : Bool) : Option (Nat × Nat) :=
  if fixedRow && fixedCol then
    if startRow < tracksMax && startCol < nCols then some (startRow, startCol) else none
  else
    (gridRows startRow fixedRow).findSome? fun r =>
      ((gridCols colSpan nCols startRow startCol fixedCol r).find? fun c =>
        gridSlotAvailable occupied r c colSpan rowSpan nCols).map fun c => (r, c)

def wrapCursor (nCols : Nat) (cursor : Nat × Nat) : Nat × Nat :=
  if nCols ≤ cursor.2 then (cursor.1 + 1, 0) else cursor

-- The loop of `grid_advance_cursor`, each turn of which takes one unit of fuel.
def stepCursor (occupied : Occupied) (nCols : Nat) : Nat → Nat × Nat → Nat × Nat
  | 0,        cursor => cursor
  | fuel + 1, cursor =>
    if cursor.1 < tracksMax && occupied cursor.1 cursor.2
    then stepCursor occupied nCols fuel (wrapCursor nCols (cursor.1, cursor.2 + 1))
    else cursor

def gridAdvanceCursor (occupied : Occupied) (nCols : Nat) (cursor : Nat × Nat) : Nat × Nat :=
  stepCursor occupied nCols (tracksMax * nCols) (wrapCursor nCols cursor)

-- `n_cols`, which starts from the `n` columns of the template and makes room for the items.
def growColumns (colsSubgrid : Bool) (n : Nat) (items : List Item) : Nat :=
  let nCols := if 0 < n then n else 1
  if colsSubgrid then nCols
  else
    let maxEnd := items.foldl (fun m x => max m (x.colStart.getD 0 + max 1 x.colSpan)) 0
    max nCols (min maxEnd tracksMax)

namespace RowFlow

-- `occupied`, `auto_row` and `auto_col`.
structure State where
  occupied : Occupied := fun _ _ => false
  autoRow  : Nat := 0
  autoCol  : Nat := 0

variable (nCols : Nat) (dense : Bool)

def colSpan (x : Item) : Nat :=
  min (max 1 x.colSpan) nCols

def rowSpan (x : Item) : Nat :=
  min (max 1 x.rowSpan) tracksMax

def fixedCol (x : Item) : Option Nat :=
  x.colStart.filter (· + colSpan nCols x ≤ nCols)

def fixedRow (x : Item) : Option Nat :=
  x.rowStart.filter (· < tracksMax)

def startRow (s : State) (x : Item) : Nat :=
  (fixedRow x).getD (if dense then 0 else s.autoRow)

def startCol (s : State) (x : Item) : Nat :=
  (fixedCol nCols x).getD (if (fixedRow x).isSome || dense then 0 else s.autoCol)

-- Where an item is put that `grid_find_slot` finds no room for.
def fallback (s : State) (x : Item) : Nat × Nat :=
  (min (startRow dense s x) (tracksMax - rowSpan x),
    min ((fixedCol nCols x).getD 0) (nCols - colSpan nCols x))

def findSlot (s : State) (x : Item) : Option (Nat × Nat) :=
  gridFindSlot s.occupied (colSpan nCols x) (rowSpan x) nCols (startRow dense s x)
    (startCol nCols dense s x) (fixedRow x).isSome (fixedCol nCols x).isSome

-- One iteration of the placement loop of `layout_grid` in row flow.
def place (s : State) (x : Item) : Area × State :=
  let (row, col) := (findSlot nCols dense s x).getD (fallback nCols dense s x)
  let area       := markedArea row col (colSpan nCols x) (rowSpan x) nCols
  let occupied   := mark s.occupied area
  let cursor     := gridAdvanceCursor occupied nCols (row, col + colSpan nCols x)
  (area, ⟨occupied, cursor.1, cursor.2⟩)

def placements (items : List Item) : List (Item × Area) :=
  Lib.placeAll (place nCols dense) {} items

end RowFlow

namespace ColFlow

-- `occ`, `cur_col` and `cur_row`.
structure State where
  occupied : Occupied := fun _ _ => false
  curCol   : Nat := 0
  curRow   : Nat := 0

variable (flowRows : Nat) (dense : Bool)

def colSpan (x : Item) : Nat :=
  min (max 1 x.colSpan) tracksMax

def rowSpan (x : Item) : Nat :=
  min (max 1 x.rowSpan) flowRows

def fixedCol (x : Item) : Option Nat :=
  x.colStart.filter (· + colSpan x ≤ tracksMax)

def fixedRow (x : Item) : Option Nat :=
  x.rowStart.filter (· + rowSpan flowRows x ≤ flowRows)

def isFree (occupied : Occupied) (row col : Nat) (x : Item) : Bool :=
  (List.range (rowSpan flowRows x)).all fun r =>
    (List.range (colSpan x)).all fun c => !occupied (row + r) (col + c)

def firstCol (s : State) (x : Item) : Nat :=
  (fixedCol x).getD (if dense then 0 else s.curCol)

-- The columns and rows that the two search loops go through.
def colsToTry (s : State) (x : Item) : List Nat :=
  searchRange (firstCol dense s x) (tracksMax + 1 - colSpan x) (fixedCol x).isSome

def rowsToTry (s : State) (x : Item) (c : Nat) : List Nat :=
  let first := (fixedRow flowRows x).getD <|
    if (fixedCol x).isNone && !dense && c == firstCol dense s x then s.curRow else 0
  searchRange first (flowRows + 1 - rowSpan flowRows x) (fixedRow flowRows x).isSome

def findSlot (s : State) (x : Item) : Option (Nat × Nat) :=
  (colsToTry dense s x).findSome? fun c =>
    ((rowsToTry flowRows dense s x c).find? fun r => isFree flowRows s.occupied r c x).map
      fun r => (r, c)

def fallback (x : Item) : Nat × Nat :=
  (0, tracksMax - colSpan x)

def moveCursor (s : State) (x : Item) (row col : Nat) : Nat × Nat :=
  if (fixedCol x).isNone || (fixedRow flowRows x).isNone then
    if flowRows ≤ row + rowSpan flowRows x then (col + colSpan x, 0)
    else (col, row + rowSpan flowRows x)
  else (s.curCol, s.curRow)

-- One iteration of the placement loop of `layout_grid` in column flow.
def place (s : State) (x : Item) : Area × State :=
  let (row, col) := (findSlot flowRows dense s x).getD (fallback x)
  let area : Area := ⟨row, col, rowSpan flowRows x, colSpan x⟩
  let cursor     := moveCursor flowRows s x row col
  (area, ⟨mark s.occupied area, cursor.1, cursor.2⟩)

def placements (items : List Item) : List (Item × Area) :=
  Lib.placeAll (place flowRows dense) {} items

end ColFlow

-- What `layout_grid` reads of a grid container to place its items. `templateCols` is the length of the
-- expanded `cols_buf`, and `templateRows` is 0 where there are no row tracks of its own.
structure Container where
  templateCols : Nat
  templateRows : Nat
  colsSubgrid  : Bool := false
  rowsSubgrid  : Bool := false
  autoFlow     : Option CString := none

namespace Container

variable (g : Container)

def dense : Bool :=
  g.autoFlow.any (strstr · "dense".toList)

def colFlow : Bool :=
  g.autoFlow.any (strstr · "column".toList) && !g.colsSubgrid && !g.rowsSubgrid

def nCols (items : List Item) : Nat :=
  growColumns g.colsSubgrid g.templateCols items

def flowRows : Nat :=
  min (max 1 g.templateRows) tracksMax

def placements (items : List Item) : List (Item × Area) :=
  if g.colFlow
  then ColFlow.placements g.flowRows g.dense items
  else RowFlow.placements (g.nCols items) g.dense items

end Container

end Nordstjernen.Layout.Grid

open Nordstjernen.Lib

namespace Nordstjernen.Layout.Grid

namespace Area

variable (a b : Area)

def Covers (r c : Nat) : Prop :=
  a.row ≤ r ∧ r < a.row + a.rows ∧ a.col ≤ c ∧ c < a.col + a.cols

def Overlaps : Prop :=
  ∃ r c, a.Covers r c ∧ b.Covers r c

-- Document order in row flow, and in column flow.
def RowBefore : Prop :=
  a.row < b.row ∨ a.row = b.row ∧ a.col < b.col

def ColBefore : Prop :=
  a.col < b.col ∨ a.col = b.col ∧ a.row < b.row

end Area

-- Whether the row or the column of an item is chosen automatically.
def Item.Automatic (x : Item) : Prop :=
  ¬(x.rowStart.isSome ∧ x.colStart.isSome)

instance (x : Item) : Decidable x.Automatic :=
  inferInstanceAs (Decidable (¬_))

-- What a placement of items should be like. `Permitted` are the areas of the required size that an
-- item could be given, and `start` is where it may be locked along the flow.
structure WellPlaced (Permitted : Item → Area → Prop) (start : Item → Option Nat)
    (Before : Area → Area → Prop) (dense : Bool) (ps : List (Item × Area)) : Prop where
  definite : ∀ p ∈ ps, ∀ r ∈ p.1.rowStart, ∀ c ∈ p.1.colStart, p.2.row = r ∧ p.2.col = c
  overlap  : ∀ pre p post, ps = pre ++ p :: post → p.1.Automatic →
    (∃ q ∈ pre ++ post, p.2.Overlaps q.2) →
    ∀ a, Permitted p.1 a → ∃ q ∈ pre ++ post, a.Overlaps q.2
  order    : dense = false →
    ps.Pairwise fun p q => start p.1 = none → start q.1 = none → Before p.2 q.2

structure Item.WithinCap (x : Item) : Prop where
  col : ∀ s ∈ x.colStart, s + max 1 x.colSpan ≤ tracksMax
  row : ∀ s ∈ x.rowStart, s + max 1 x.rowSpan ≤ tracksMax

-- Whether an area may be used: it lies on no automatic item that could still be elsewhere.
def Area.Spares (Permitted : Item → Area → Prop) (pre : List (Item × Area)) (a : Area) : Prop :=
  ∀ before q after, pre = before ++ q :: after → q.1.Automatic → a.Overlaps q.2 →
    ∀ b, Permitted q.1 b → (∃ r ∈ before ++ after, b.Overlaps r.2) ∨ b.Overlaps a

namespace RowFlow

variable (nCols : Nat) (dense : Bool)

def Permitted (x : Item) (a : Area) : Prop :=
  a.rows = rowSpan x ∧ a.cols = colSpan nCols x ∧
  a.row + a.rows ≤ tracksMax ∧ a.col + a.cols ≤ nCols ∧
  (∀ s ∈ x.rowStart, a.row = s) ∧ (∀ s ∈ x.colStart, a.col = s)

-- The slots that are free, and those among them that the search for an item goes through.
def Free (s : State) (x : Item) (r c : Nat) : Prop :=
  gridSlotAvailable s.occupied r c (colSpan nCols x) (rowSpan x) nCols ∧
  (∀ r' ∈ x.rowStart, r = r') ∧ (∀ c' ∈ x.colStart, c = c')

def Found (s : State) (x : Item) (r c : Nat) : Prop :=
  Free nCols s x r c ∧
  startRow dense s x ≤ r ∧ (r = startRow dense s x → startCol nCols dense s x ≤ c)

def definiteArea (x : Item) (r c : Nat) : Area :=
  markedArea r c (colSpan nCols x) (rowSpan x) nCols

def fallbackArea (s : State) (x : Item) : Area :=
  definiteArea nCols x (fallback nCols dense s x).1 (fallback nCols dense s x).2

-- Whether the columns go as far as an item reaches that has a column start.
def HasRoom (x : Item) : Prop :=
  ∀ s ∈ x.colStart, s + colSpan nCols x ≤ nCols

-- When a step goes well. A definite item must spare the automatic ones. For any other item, the search
-- must find a slot, and in sparse packing none in front of an item before it whose row was chosen
-- automatically; or the place it falls back to is free, or nothing is.
structure Fits (s : State) (pre : List (Item × Area)) (x : Item) : Prop where
  definite  : ∀ r ∈ x.rowStart, ∀ c ∈ x.colStart,
    (definiteArea nCols x r c).Spares (Permitted nCols) pre
  automatic : x.Automatic → (∃ r c, Found nCols dense s x r c) ∨
    (fallbackArea nCols dense s x).Spares (Permitted nCols) pre ∧
    ((∀ r c, ¬Free nCols s x r c) ∨ ∀ p ∈ pre, ¬(fallbackArea nCols dense s x).Overlaps p.2)
  order     : dense = false → x.rowStart = none → ∀ p ∈ pre, p.1.rowStart = none →
    (∀ r c, Found nCols dense s x r c → p.2.row < r ∨ p.2.row = r ∧ p.2.col < c) ∧
    ((∀ r c, ¬Found nCols dense s x r c) → p.2.RowBefore (fallbackArea nCols dense s x))

end RowFlow

namespace ColFlow

variable (flowRows : Nat) (dense : Bool)

def Permitted (x : Item) (a : Area) : Prop :=
  a.rows = rowSpan flowRows x ∧ a.cols = colSpan x ∧
  a.row + a.rows ≤ flowRows ∧ a.col + a.cols ≤ tracksMax ∧
  (∀ s ∈ fixedRow flowRows x, a.row = s) ∧ (∀ s ∈ fixedCol x, a.col = s)

def Free (s : State) (x : Item) (r c : Nat) : Prop :=
  (r + rowSpan flowRows x ≤ flowRows ∧ c + colSpan x ≤ tracksMax ∧
    isFree flowRows s.occupied r c x) ∧
  (∀ r' ∈ fixedRow flowRows x, r = r') ∧ (∀ c' ∈ fixedCol x, c = c')

def Found (s : State) (x : Item) (r c : Nat) : Prop :=
  Free flowRows s x r c ∧ firstCol dense s x ≤ c ∧
  (fixedRow flowRows x = none → fixedCol x = none → dense = false → c = firstCol dense s x →
    s.curRow ≤ r)

def fallbackArea (x : Item) : Area :=
  ⟨(fallback x).1, (fallback x).2, rowSpan flowRows x, colSpan x⟩

-- Column flow searches for definite items as well. They must not reach below the rows of the template,
-- and their cells must be free unless they fall back to the very same place.
structure Fits (s : State) (pre : List (Item × Area)) (x : Item) : Prop where
  definite  : ∀ r ∈ x.rowStart, ∀ c ∈ x.colStart, r + rowSpan flowRows x ≤ flowRows ∧
    (isFree flowRows s.occupied r c x ∨
      fallback x = (r, c) ∧ (fallbackArea flowRows x).Spares (Permitted flowRows) pre)
  automatic : x.Automatic → (∃ r c, Found flowRows dense s x r c) ∨
    (fallbackArea flowRows x).Spares (Permitted flowRows) pre ∧
    ((∀ r c, ¬Free flowRows s x r c) ∨ ∀ p ∈ pre, ¬(fallbackArea flowRows x).Overlaps p.2)
  order     : dense = false → x.colStart = none → ∀ p ∈ pre, p.1.colStart = none →
    (∀ r c, Found flowRows dense s x r c → p.2.col < c ∨ p.2.col = c ∧ p.2.row < r) ∧
    ((∀ r c, ¬Found flowRows dense s x r c) → p.2.ColBefore (fallbackArea flowRows x))

end ColFlow

namespace Container

variable (g : Container)

def WellPlaced (items : List Item) : Prop :=
  if g.colFlow
  then Grid.WellPlaced (ColFlow.Permitted g.flowRows) Item.colStart Area.ColBefore g.dense
    (g.placements items)
  else Grid.WellPlaced (RowFlow.Permitted (g.nCols items)) Item.rowStart Area.RowBefore g.dense
    (g.placements items)

-- When every step goes well. The columns only ever fall short of an item in a subgrid.
def Fits (items : List Item) : Prop :=
  if g.colFlow
  then PlacingMeets (ColFlow.Fits g.flowRows g.dense) (ColFlow.place g.flowRows g.dense) [] {} items
  else (g.colsSubgrid → ∀ x ∈ items, RowFlow.HasRoom (g.nCols items) x) ∧
    PlacingMeets (RowFlow.Fits (g.nCols items) g.dense) (RowFlow.place (g.nCols items) g.dense)
      [] {} items

end Container

end Nordstjernen.Layout.Grid
