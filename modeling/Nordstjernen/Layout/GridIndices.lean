import Nordstjernen.Layout.GridLines

open Nordstjernen.Glib

namespace Nordstjernen.Layout.Grid

-- `ns_css_areas`, as `parse_areas` makes them.
structure Areas where
  nRows     : Nat
  nCols     : Nat
  rects     : List AreaRect
  nRows_pos : 0 < nRows
  nRows_le  : nRows ≤ tracksMax
  nCols_le  : nCols ≤ tracksMax
  rect_ok   : ∀ a ∈ rects, a.r0 ≤ a.r1 ∧ a.r1 < nRows ∧ a.c0 ≤ a.c1 ∧ a.c1 < nCols

-- `ns_css_tracks` without the sizes. Where there are none, the source goes by a single track.
structure NamedTracks where
  n     : Nat
  names : List LineName
  n_le  : n ≤ tracksMax

namespace NamedTracks

def count (ts : NamedTracks) : Nat :=
  if 0 < ts.n then ts.n else 1

end NamedTracks

-- The first and the last row and column of an item.
structure Slot where
  r0 : Nat
  r1 : Nat
  c0 : Nat
  c1 : Nat
deriving DecidableEq

-- An element of one of the arrays. The heights of rows are in `base_row_height` as well, and their lines
-- in `base_row_y`.
inductive Access where
  | colSizes (k : Nat)
  | colX (k : Nat)
  | rowHeight (r : Nat)
  | rowY (r : Nat)
  | occupied (r c : Nat)

namespace Access

-- Sizes and occupied cells are initialised with zeros, the lines of the tracks are set one after another.
def Initialised (nCols nRows : Nat) : Access → Prop
  | colSizes k   => k < tracksMax
  | colX k       => k ≤ nCols
  | rowHeight r  => r < tracksMax
  | rowY r       => r ≤ nRows
  | occupied r c => r < tracksMax ∧ c < tracksMax

-- The loops that set the lines of the tracks.
def fills (nCols nRows : Nat) : List Access :=
  (List.range nCols).flatMap (fun k => [colX k, colSizes k]) ++
  (List.range nRows).flatMap fun r => [rowY r, rowHeight r]

def ofArea (a : Area) : List Access :=
  (List.range a.rows).flatMap fun r => (List.range a.cols).map fun c => occupied (a.row + r) (a.col + c)

end Access

-- What a function makes of a grid: where its items are, and what it accesses to that end.
structure Indices where
  nCols    : Nat
  nRows    : Nat
  slots    : List Slot
  accesses : List Access

structure Indices.InRange (l : Indices) : Prop where
  nCols_le    : l.nCols ≤ tracksMax
  nRows_le    : l.nRows ≤ tracksMax
  cols        : ∀ s ∈ l.slots, s.c0 ≤ s.c1 ∧ s.c1 < l.nCols
  rows        : ∀ s ∈ l.slots, s.r0 ≤ s.r1 ∧ s.r1 < l.nRows
  initialised : ∀ a ∈ l.accesses, a.Initialised l.nCols l.nRows

-- What `layout_grid_areas` reads of a grid container to place its items.
structure AreasGrid where
  areas    : Areas
  cols     : NamedTracks
  rowNames : List LineName

-- The rows and the columns of an item by its style, `none` where the source has -1.
structure Position where
  rows : Option (Nat × Nat)
  cols : Option (Nat × Nat)
deriving DecidableEq

namespace AreasGrid

variable (g : AreasGrid)

def nCols : Nat :=
  g.cols.count

section Resolve

def findAreaRect (name : Option CString) : Option AreaRect :=
  name.bind fun name => g.areas.rects.find? (·.name = name)

def colLines : GridLines where
  names   := g.cols.names
  areas   := g.areas.rects
  rowAxis := false

def rowLines : GridLines where
  names   := g.rowNames
  areas   := g.areas.rects
  rowAxis := true

def tracksFrom (pos : Option Nat × Nat) : Option (Nat × Nat) :=
  pos.1.map fun start => (start, start + (pos.2 - 1))

def resolve (nRows : Nat) (x : ItemStyle) : Position :=
  match g.findAreaRect x.area with
  | some a => ⟨some (a.r0, a.r1), some (a.c0, a.c1)⟩
  | none   =>
    { rows := tracksFrom (g.rowLines.gridResolvePos nRows x.area x.row)
      cols := tracksFrom (g.colLines.gridResolvePos g.nCols x.area x.column) }

def clampCols (c : Nat × Nat) : Nat × Nat :=
  let c0 := if g.nCols ≤ c.1 then g.nCols - 1 else c.1
  let c1 := if g.nCols ≤ c.2 then g.nCols - 1 else c.2
  (c0, if c1 < c0 then c0 else c1)

def clampRows (r : Nat × Nat) : Nat × Nat :=
  let r0 := if tracksMax ≤ r.1 then tracksMax - 1 else r.1
  let r1 := if r.2 < r0 then r0 else r.2
  (r0, if tracksMax ≤ r1 then tracksMax - 1 else r1)

-- One iteration of the first loop, whose state is `n_rows`. Only items with both are clamped.
def position (nRows : Nat) (x : ItemStyle) : Position × Nat :=
  match g.resolve nRows x with
  | ⟨some r, some c⟩ => (⟨some (clampRows r), some (g.clampCols c)⟩, max nRows ((clampRows r).2 + 1))
  | p                => (p, nRows)

def positions (items : List ItemStyle) : List Position :=
  (Lib.placeAll g.position g.areas.nRows items).map Prod.snd

-- The rows that the areas and the items with both make.
def definiteRows (items : List ItemStyle) : Nat :=
  items.foldl (fun nRows x => (g.position nRows x).2) g.areas.nRows

end Resolve

section Place

-- `occupied`, `auto_r`, `auto_c` and `n_rows`.
structure State where
  occupied : Occupied
  autoR    : Nat
  autoC    : Nat
  nRows    : Nat

-- The cells of an item, without those outside of the grid.
def slotArea (s : Slot) : Area where
  row  := s.r0
  col  := s.c0
  rows := min (s.r1 + 1) tracksMax - s.r0
  cols := min (s.c1 + 1) g.nCols - s.c0

def definiteArea? (p : Position) : Option Area :=
  match p with
  | ⟨some r, some c⟩ => some (g.slotArea ⟨r.1, r.2, c.1, c.2⟩)
  | _                => none

def start (items : List ItemStyle) : State where
  occupied := ((g.positions items).filterMap g.definiteArea?).foldl mark fun _ _ => false
  autoR    := 0
  autoC    := 0
  nRows    := g.definiteRows items

def rowFree (occupied : Occupied) (c : Nat × Nat) (r : Nat) : Bool :=
  (List.range' c.1 (min (c.2 + 1) g.nCols - c.1)).all fun col => !occupied r col

def freeRow (s : State) (c : Nat × Nat) : Nat :=
  ((List.range tracksMax).find? (g.rowFree s.occupied c)).getD (tracksMax - 1)

def freeCol (s : State) (r : Nat) : Nat :=
  ((List.range g.nCols).find? fun c => !s.occupied r c).getD (g.nCols - 1)

-- The cells that the loop for `auto_r` and `auto_c` goes through, and the first free one.
def search (occupied : Occupied) (r c : Nat) : List (Nat × Nat) × Option (Nat × Nat) :=
  if r < tracksMax then
    if g.nCols ≤ c then search occupied (r + 1) 0
    else if occupied r c then ((r, c) :: (search occupied r (c + 1)).1, (search occupied r (c + 1)).2)
    else ([(r, c)], some (r, c))
  else
    ([], none)
termination_by (tracksMax - r, g.nCols - c)

def freeCell (s : State) : Nat × Nat :=
  (g.search s.occupied s.autoR s.autoC).2.getD (tracksMax - 1, 0)

-- One iteration of the loop that places the items.
def place (s : State) (p : Position) : Slot × State :=
  match p with
  | ⟨some r, some c⟩ => (⟨r.1, r.2, c.1, c.2⟩, s)
  | ⟨none, some c⟩   =>
    let r := g.freeRow s c
    (⟨r, r, c.1, c.2⟩,
      { s with occupied := mark s.occupied (g.slotArea ⟨r, r, c.1, c.2⟩), nRows := max s.nRows (r + 1) })
  | ⟨some r, none⟩   =>
    let row := if tracksMax ≤ r.1 then tracksMax - 1 else r.1
    let c   := g.freeCol s row
    (⟨r.1, r.2, c, c⟩, { s with occupied := mark s.occupied ⟨row, c, 1, 1⟩ })
  | ⟨none, none⟩     =>
    let (r, c) := g.freeCell s
    (⟨r, r, c, c⟩,
      { occupied := mark s.occupied ⟨r, c, 1, 1⟩
        autoR    := r
        autoC    := c + 1
        nRows    := max s.nRows (r + 1) })

-- The cells that an iteration accesses. A search does not look at cells after the one that decides it.
def placeAccesses (s : State) (p : Position) : List Access :=
  match p with
  | ⟨some _, some _⟩ => []
  | ⟨none, some c⟩   => Access.ofArea (g.slotArea ⟨0, g.freeRow s c, c.1, c.2⟩)
  | ⟨some r, none⟩   =>
    let row := if tracksMax ≤ r.1 then tracksMax - 1 else r.1
    Access.ofArea ⟨row, 0, 1, g.freeCol s row + 1⟩
  | ⟨none, none⟩     =>
    ((g.search s.occupied s.autoR s.autoC).1 ++ [g.freeCell s]).map fun rc => .occupied rc.1 rc.2

variable (items : List ItemStyle)

def slots : List Slot :=
  (Lib.placeAll g.place (g.start items) (g.positions items)).map Prod.snd

def nRows : Nat :=
  min ((g.positions items).foldl (fun s p => (g.place s p).2) (g.start items)).nRows tracksMax

end Place

section Sizes

variable (nRows : Nat)

-- What is read to size and move an item: its columns, its rows, and where they are.
def slotAccesses (s : Slot) : List Access :=
  (List.range' s.c0 (s.c1 + 1 - s.c0)).map .colSizes ++ [.colX s.c0, .rowY s.r0] ++
  if s.r1 ≤ s.r0 then
    if s.r0 < nRows then [.rowHeight s.r0] else []
  else
    (List.range' s.r0 (min (s.r1 + 1) nRows - s.r0)).map .rowHeight ++
    [.rowHeight (if s.r1 < nRows then s.r1 else nRows - 1)]

end Sizes

-- `layout_grid_areas`
def layoutGridAreas (items : List ItemStyle) : Indices where
  nCols    := g.nCols
  nRows    := g.nRows items
  slots    := g.slots items
  accesses :=
    ((g.positions items).filterMap g.definiteArea?).flatMap Access.ofArea ++
    (Lib.placeAll (fun s p => (g.placeAccesses s p, (g.place s p).2)) (g.start items)
      (g.positions items)).flatMap Prod.snd ++
    Access.fills g.nCols (g.nRows items) ++
    (g.slots items).flatMap (slotAccesses (g.nRows items)) ++ [.rowY (g.nRows items)]

-- Every item with a column alone ends in front of the last column line.
def FitsColumns (items : List ItemStyle) : Prop :=
  ∀ p ∈ g.positions items, p.rows = none → ∀ c ∈ p.cols, c.2 < g.nCols

-- Every item with a row alone ends in a row of the areas or of an item with both.
def FitsRows (items : List ItemStyle) : Prop :=
  ∀ p ∈ g.positions items, p.cols = none → ∀ r ∈ p.rows, r.2 < g.definiteRows items

end AreasGrid

-- The tracks of the outer grid that a subgrid takes over.
structure Shared where
  n    : Nat
  pos  : 0 < n
  n_le : n ≤ tracksMax

-- What `layout_grid` reads of a grid container without areas. `cols` is the expanded `cols_buf`, which is
-- the template's own unless there is none or it is a subgrid.
structure PlainGrid where
  cols     : NamedTracks
  ownCols  : Bool
  rows     : NamedTracks
  ownRows  : Bool
  subCols  : Option Shared
  subRows  : Option Shared
  autoFlow : Option CString

namespace PlainGrid

variable (g : PlainGrid)

def colLines : GridLines where
  names   := g.cols.names
  areas   := []
  rowAxis := false

def rowLines : GridLines where
  names   := g.rows.names
  areas   := []
  rowAxis := true

def rowLineTracks : Nat :=
  (g.subRows.map Shared.n).getD g.rows.count

def item (x : ItemStyle) : Item :=
  let (colStart, colSpan) := g.colLines.gridResolvePos g.cols.count x.area x.column
  let (rowStart, rowSpan) := g.rowLines.gridResolvePos g.rowLineTracks x.area x.row
  ⟨colStart, colSpan, rowStart, rowSpan⟩

def container : Container where
  templateCols := g.cols.n
  templateRows := if g.ownRows then g.rows.n else 0
  colsSubgrid  := g.subCols.isSome
  rowsSubgrid  := g.subRows.isSome
  autoFlow     := g.autoFlow

def explicitRows : Nat :=
  (g.subRows.map Shared.n).getD g.container.templateRows

variable (items : List Item)

-- `tmpl_cols`, which counts the columns that were added for the items.
def tmplCols : Nat :=
  if !g.ownCols then 0
  else if g.cols.count < g.container.nCols items then g.container.nCols items
  else g.cols.n

def usedCols : Nat :=
  let used := (g.container.placements items).foldl (fun m (x, a) => max m (a.col + ColFlow.colSpan x))
    (g.tmplCols items)
  min (max 1 used) tracksMax

def nCols : Nat :=
  if g.container.colFlow then g.usedCols items
  else (g.subCols.map Shared.n).getD (g.container.nCols items)

def nRows : Nat :=
  let rows :=
    if g.container.colFlow then
      max 1 ((g.container.placements items).foldl (fun m (x, a) => max m (a.row + max 1 x.rowSpan))
        g.explicitRows)
    else
      (g.container.placements items).foldl (fun m (x, a) => max m (a.row + RowFlow.rowSpan x)) g.explicitRows
  min rows tracksMax

-- The area that an item is laid out in, once all tracks are there.
def slotSpans (x : Item) (a : Area) : Area :=
  let sp := min (max 1 x.colSpan) (g.nCols items)
  let rs := max 1 x.rowSpan
  { row  := a.row
    col  := if g.nCols items < a.col + sp then g.nCols items - sp else a.col
    rows := if g.nRows items < a.row + rs then g.nRows items - a.row else rs
    cols := sp }

def slot (a : Area) : Slot :=
  ⟨a.row, a.row + a.rows - 1, a.col, a.col + a.cols - 1⟩

def areas : List Area :=
  (g.container.placements items).map fun (x, a) => g.slotSpans items x a

-- What is read to size and move an item, and to make a subgrid of it.
def areaAccesses (a : Area) : List Access :=
  (List.range a.cols).map (fun k => .colSizes (a.col + k)) ++
  (List.range (a.cols + 1)).map (fun k => .colX (a.col + k)) ++
  (List.range a.rows).map (fun k => .rowHeight (a.row + k)) ++
  (List.range (a.rows + 1)).map fun k => .rowY (a.row + k)

end PlainGrid

namespace RowFlow

variable (nCols : Nat) (dense : Bool)

def slotAccesses (row col colSpan rowSpan : Nat) : List Access :=
  if 1 ≤ colSpan ∧ 1 ≤ rowSpan ∧ col + colSpan ≤ nCols ∧ row + rowSpan ≤ tracksMax
  then Access.ofArea ⟨row, col, rowSpan, colSpan⟩
  else []

-- The loop of `grid_advance_cursor`.
def cursorAccesses (occupied : Occupied) : Nat → Nat × Nat → List Access
  | 0,        _      => []
  | fuel + 1, cursor =>
    if cursor.1 < tracksMax then
      .occupied cursor.1 cursor.2 ::
        if occupied cursor.1 cursor.2 then cursorAccesses occupied fuel (wrapCursor nCols (cursor.1, cursor.2 + 1))
        else []
    else []

-- All the cells that `grid_find_slot` may have to look at, those that are marked then, and those that the
-- cursor goes over.
def placeAccesses (s : State) (x : Item) : List Access :=
  let col  := (fixedCol nCols x).isSome
  let row  := (fixedRow x).isSome
  let area := (place nCols dense s x).1
  (if row && col then []
  else
    (gridRows (startRow dense s x) row).flatMap fun r =>
      (gridCols (colSpan nCols x) nCols (startRow dense s x) (startCol nCols dense s x) col r).flatMap fun c =>
        slotAccesses nCols r c (colSpan nCols x) (rowSpan x)) ++
  Access.ofArea area ++
  cursorAccesses nCols (mark s.occupied area) (tracksMax * nCols + 1)
    (wrapCursor nCols (area.row, area.col + colSpan nCols x))

end RowFlow

namespace ColFlow

variable (flowRows : Nat) (dense : Bool)

def placeAccesses (s : State) (x : Item) : List Access :=
  ((colsToTry dense s x).flatMap fun c => (rowsToTry flowRows dense s x c).flatMap fun r =>
    Access.ofArea ⟨r, c, rowSpan flowRows x, colSpan x⟩) ++
  Access.ofArea (place flowRows dense s x).1

end ColFlow

namespace PlainGrid

variable (g : PlainGrid)

def placeAccesses (items : List Item) : List Access :=
  if g.container.colFlow then
    (Lib.placeAll (fun s x => (ColFlow.placeAccesses g.container.flowRows g.container.dense s x,
      (ColFlow.place g.container.flowRows g.container.dense s x).2)) {} items).flatMap Prod.snd
  else
    (Lib.placeAll (fun s x => (RowFlow.placeAccesses (g.container.nCols items) g.container.dense s x,
      (RowFlow.place (g.container.nCols items) g.container.dense s x).2)) {} items).flatMap Prod.snd

-- `layout_grid`, where there are no areas.
def layoutGrid (styles : List ItemStyle) : Indices :=
  let items := styles.map g.item
  { nCols    := g.nCols items
    nRows    := g.nRows items
    slots    := (g.areas items).map slot
    accesses := g.placeAccesses items ++ Access.fills (g.nCols items) (g.nRows items) ++
      (g.areas items).flatMap areaAccesses }

end PlainGrid

-- A grid container, for which `layout_grid` does its work or hands it on.
inductive GridBox where
  | plain (g : PlainGrid)
  | areas (g : AreasGrid)

namespace GridBox

def indices (items : List ItemStyle) : GridBox → Indices
  | plain g => g.layoutGrid items
  | areas g => g.layoutGridAreas items

def FitsColumns (items : List ItemStyle) : GridBox → Prop
  | plain _ => True
  | areas g => g.FitsColumns items

def FitsRows (items : List ItemStyle) : GridBox → Prop
  | plain _ => True
  | areas g => g.FitsRows items

-- Whether the place of every item says in which rows it is.
def RowsGiven (items : List ItemStyle) : GridBox → Prop
  | plain _ => True
  | areas g => ∀ p ∈ g.positions items, p.rows.isSome

end GridBox

end Nordstjernen.Layout.Grid
