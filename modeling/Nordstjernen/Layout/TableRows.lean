import Mathlib.Algebra.Order.Ring.Unbundled.Rat
import Nordstjernen.Layout.Table

namespace Nordstjernen.Layout.Table

-- What `layout_table` knows of a cell when it sets its `content_height`: the height of its content, or
-- its own height or minimum height if that is more, the sum of its vertical margins, paddings and
-- borders, and its bottom border.
structure TallCell extends Cell where
  content      : ℚ
  edges        : ℚ
  borderBottom : ℚ

-- A row has a height where that is a length.
structure TallRow where
  cells  : List TallCell
  height : Option ℚ

-- What matters besides the rows: how high the captions are, the vertical border spacing, and the
-- height of the table where that is a length.
structure RowsStyle where
  captionTop    : ℚ
  captionBottom : ℚ
  vsp           : ℚ
  collapse      : Bool
  target        : Option ℚ
  vsp_nonneg    : 0 ≤ vsp

structure RowsBox extends RowsStyle where
  rows : List TallRow

-- The index of a row, and that of a cell in it.
abbrev CellId := Nat × Nat

def cellIn (shape : List Row) (x : CellId) : Option Cell :=
  shape[x.1]?.bind (·[x.2]?)

structure RowState where
  remain    : Nat → Nat
  cellOf    : Nat → Option CellId
  cursor    : ℚ
  rowTop    : Nat → ℚ
  rowHeight : Nat → ℚ
  content   : CellId → ℚ

-- `rs_cell` after the cells of row `r` from index `k` on have been placed.
def hold (r k : Nat) (cellOf : Nat → Option CellId) : Row → List Placed → Nat → Option CellId
  | cell :: cells, p :: ps =>
    let cellOf := fun i =>
      if 1 < cell.rspan ∧ p.col ≤ i ∧ i < p.col + p.covered then some (r, k) else cellOf i
    hold r (k + 1) cellOf cells ps
  | _, _ => cellOf

namespace RowsBox

variable (t : RowsBox)

def shape : List Row :=
  t.rows.map fun row => row.cells.map TallCell.toCell

def maxCols : Nat :=
  countColumns t.shape

def cell? (x : CellId) : Option TallCell :=
  t.rows[x.1]?.bind (·.cells[x.2]?)

def edges (x : CellId) : ℚ :=
  ((t.cell? x).map TallCell.edges).getD 0

-- The height of a row by itself and by the cells that end in it where they start.
def ownHeight (row : TallRow) : ℚ :=
  let rowHeight := row.cells.foldl (fun rowHeight cell =>
    if cell.rspan ≤ 1 ∧ rowHeight < cell.content + cell.edges then cell.content + cell.edges
    else rowHeight) 0
  match row.height with
  | none    => rowHeight
  | some rh => if rowHeight < rh then rh else rowHeight

-- The cells from above that end in a row, by `rs_remain` and `rs_cell`.
def ending (remain : Nat → Nat) (cellOf : Nat → Option CellId) : List CellId :=
  ((List.range t.maxCols).filterMap fun i => if remain i = 1 then cellOf i else none).eraseDups

-- The row is enlarged for those of them that do not fit.
def enlarged (s : RowState) (rowHeight : ℚ) (x : CellId) : ℚ :=
  let avail := s.cursor + rowHeight - s.rowTop x.1 - t.edges x
  if avail < s.content x then rowHeight + (s.content x - avail) else rowHeight

-- One row, whose cells all have its `y`.
def step (r : Nat) (row : TallRow) (s : RowState) : RowState :=
  let (placed, remain) := placeRow t.maxCols s.remain 0 (row.cells.map TallCell.toCell)
  let cellOf    := hold r 0 s.cellOf (row.cells.map TallCell.toCell) placed
  let s         := { s with rowTop := fun q => if q = r then s.cursor else s.rowTop q }
  let ending    := t.ending remain cellOf
  let rowHeight := ending.foldl (t.enlarged s) (ownHeight row)
  let stretched := fun x =>
    match t.cell? x with
    | none      => s.content x
    | some cell =>
      if x.1 = r ∧ cell.rspan ≤ 1 ∧ s.content x < rowHeight - cell.edges then rowHeight - cell.edges
      else s.content x
  let ended := fun x =>
    let h := s.cursor + rowHeight - s.rowTop x.1 - t.edges x
    if x ∈ ending ∧ stretched x < h then h else stretched x
  { remain    := fun i => remain i - 1
    cellOf    := fun i => if remain i = 1 then none else cellOf i
    cursor    := s.cursor + rowHeight + t.vsp
    rowTop    := s.rowTop
    rowHeight := fun q => if q = r then rowHeight else s.rowHeight q
    content   := ended }

-- The state in front of row `r`.
def stateAt : Nat → RowState
  | 0 =>
    { remain    := fun _ => 0
      cellOf    := fun _ => none
      cursor    := t.captionTop + t.vsp
      rowTop    := fun _ => 0
      rowHeight := fun _ => 0
      content   := fun x => ((t.cell? x).map TallCell.content).getD 0 }
  | r + 1 =>
    match t.rows[r]? with
    | none     => stateAt r
    | some row => t.step r row (stateAt r)

def final : RowState :=
  t.stateAt t.rows.length

end RowsBox

section Collapse

variable (shape : List Row)

-- The grid that `table_collapse_borders` fills.
def collapseGrid (maxCols R r : Nat) (grid : Nat → Nat → Bool) : List Row → Nat → Nat → Bool
  | []          => grid
  | row :: rows => collapseGrid maxCols R (r + 1) (collapseRow maxCols R r grid 0 row).2 rows

-- `below_nb`
def belowNb (x : CellId) : Bool :=
  let maxCols := countColumns shape
  let grid    := collapseGrid maxCols shape.length 0 (fun _ _ => false) shape
  match cellIn shape x, (tableCollapseColumns maxCols shape)[x.1]?.bind (·[x.2]?) with
  | some cell, some p =>
    decide (x.1 + cell.rspan < shape.length) &&
      (List.range p.covered).any fun i => grid (x.1 + cell.rspan) (p.col + i)
  | _, _ => false

end Collapse

namespace RowsBox

variable (t : RowsBox)

-- The `content_height` of the table before its own height is looked at. Without columns there are only
-- the captions.
def naturalHeight : ℚ :=
  if t.maxCols = 0 then t.captionTop + t.captionBottom else t.final.cursor + t.captionBottom

def grows : Bool :=
  match t.target with
  | none        => false
  | some target => 0 < t.maxCols && decide (0 < t.rows.length ∧ t.naturalHeight + 1 / 2 < target)

-- What each row gets of a larger height of the table.
def per : ℚ :=
  if t.grows then ((t.target.getD 0) - t.naturalHeight) / t.rows.length else 0

def contentHeight : ℚ :=
  if t.grows then t.target.getD 0 else t.naturalHeight

def rowTop (r : Nat) : ℚ :=
  t.final.rowTop r + r * t.per

def rowHeight (r : Nat) : ℚ :=
  t.final.rowHeight r + t.per

-- The height of a cell's outer box.
def outerHeight (x : CellId) : ℚ :=
  let removed := if t.collapse && belowNb t.shape x then ((t.cell? x).map TallCell.borderBottom).getD 0 else 0
  t.final.content x + t.per + (t.edges x - removed)

end RowsBox

end Nordstjernen.Layout.Table

namespace Nordstjernen.Layout.Table

-- Whether a cell is placed after another one.
def After (x y : CellId) : Prop :=
  x.1 < y.1 ∨ x.1 = y.1 ∧ x.2 < y.2

def Spanning (shape : List Row) (x : CellId) : Prop :=
  ∃ cell, cellIn shape x = some cell ∧ 1 < cell.rspan

def Placed.Over (p : Placed) (i : Nat) : Prop :=
  p.col ≤ i ∧ i < p.col + p.covered

def Covers (shape : List Row) (x : CellId) (i : Nat) : Prop :=
  ∃ p, (placeColumns (countColumns shape) shape)[x.1]?.bind (·[x.2]?) = some p ∧ p.Over i

-- Whether a cell ends in a row that there is, and until then has a column which no later spanning cell
-- is put over.
def Kept (shape : List Row) (x : CellId) (cell : Cell) : Prop :=
  x.1 + cell.rspan ≤ shape.length ∧
    ∃ i, Covers shape x i ∧
      ∀ y, After x y → Spanning shape y → y.1 < x.1 + cell.rspan → ¬Covers shape y i

-- The last row that a cell has.
def lastRow (shape : List Row) (x : CellId) (cell : Cell) : Nat :=
  min (x.1 + cell.rspan) shape.length - 1

namespace RowsBox

variable (t : RowsBox)

-- Vertical positions are relative to the content box of the table.
structure FitsCell (x : CellId) (cell : TallCell) : Prop where
  top    : 0 ≤ t.rowTop x.1
  bottom : t.rowTop x.1 + t.outerHeight x ≤ t.contentHeight
  row    : cell.rspan = 1 → t.outerHeight x ≤ t.rowHeight x.1
  ends   : t.rowTop x.1 + t.outerHeight x =
    t.rowTop (lastRow t.shape x cell.toCell) + t.rowHeight (lastRow t.shape x cell.toCell)

def Fits : Prop :=
  ∀ x cell, t.cell? x = some cell → t.FitsCell x cell

end RowsBox

namespace RowsStyle

variable (style : RowsStyle) (shape : List Row)

-- Which spans leave all cells in their rows whatever the heights are.
structure Sound : Prop where
  kept     : ∀ x cell, cellIn shape x = some cell → 1 < cell.rspan → Kept shape x cell
  collapse : style.collapse → ∀ x, belowNb shape x = false
  target   : ∀ target ∈ style.target,
    target ≤ style.captionTop + (shape.length + 1) * style.vsp + style.captionBottom + 1 / 2 ∨
      ∀ x, ¬Spanning shape x
  captions : ∀ x cell, cellIn shape x = some cell →
    0 ≤ style.captionTop + (x.1 + 1) * style.vsp ∧
    0 ≤ (shape.length - lastRow shape x cell) * style.vsp + style.captionBottom

end RowsStyle

end Nordstjernen.Layout.Table
