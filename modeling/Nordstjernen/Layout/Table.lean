import Mathlib.Algebra.BigOperators.Group.Finset.Basic
import Mathlib.Algebra.Field.Rat
import Mathlib.Order.Bounds.Defs
import Mathlib.Algebra.Order.Ring.Unbundled.Rat

namespace Nordstjernen.Layout.Table

-- `NS_TABLE_MAX_COLS`
def tableMaxCols : Nat :=
  4096

structure Cell where
  colspan : Int
  rowspan : Int
deriving DecidableEq

abbrev Row := List Cell

namespace Cell

def span (cell : Cell) : Nat :=
  if 0 < cell.colspan then cell.colspan.toNat else 1

def rspan (cell : Cell) : Nat :=
  if 0 < cell.rowspan then cell.rowspan.toNat else 1

end Cell

-- Where a pass puts a cell: its column, and how many columns below `max_cols` it covers.
structure Placed where
  col     : Nat
  covered : Nat
deriving DecidableEq

section Count

def countRow (c : Nat) : Row → Nat
  | []            => c
  | cell :: cells =>
    if tableMaxCols < c + cell.span then tableMaxCols else countRow (c + cell.span) cells

-- The first loop of `layout_table`, whose result is `max_cols`.
def countColumns (rows : List Row) : Nat :=
  rows.foldl (fun maxCols row => max maxCols (countRow 0 row)) 0

end Count

section Measure

variable (maxCols : Nat)

-- The columns that the natural and the minimum measuring pass go through for each cell of a row.
def measureRow (col : Nat) : Row → List Placed
  | []            => []
  | cell :: cells => ⟨col, min cell.span (maxCols - col)⟩ :: measureRow (col + cell.span) cells

def measureColumns (rows : List Row) : List (List Placed) :=
  rows.map (measureRow maxCols 0)

-- `layout_fixed_table_columns` goes through the first row only.
def fixedTableColumns (rows : List Row) : List (List Placed) :=
  (rows.take 1).map (measureRow maxCols 0)

end Measure

-- `while (col < max_cols && p(col)) col++`, where `n` is what `max_cols` is ahead of `col`.
def skip (p : Nat → Bool) : Nat → Nat → Nat
  | 0,     col => col
  | n + 1, col => if p col then skip p n (col + 1) else col

section Placement

variable (maxCols : Nat)

-- One row of the placement loop. The second component is `rs_remain`.
def placeRow (remain : Nat → Nat) (col : Nat) : Row → List Placed × (Nat → Nat)
  | []            => ([], remain)
  | cell :: cells =>
    let col     := skip (fun c => 0 < remain c) (maxCols - col) col
    let covered := min cell.span (maxCols - col)
    let remain  :=
      if 1 < cell.rspan
      then fun c => if col ≤ c ∧ c < col + covered then cell.rspan else remain c
      else remain
    let (placed, remain) := placeRow remain (col + cell.span) cells
    (⟨col, covered⟩ :: placed, remain)

def placeRows (remain : Nat → Nat) : List Row → List (List Placed)
  | []          => []
  | row :: rows =>
    let (placed, remain) := placeRow maxCols remain 0 row
    placed :: placeRows (fun c => remain c - 1) rows

def placeColumns (rows : List Row) : List (List Placed) :=
  placeRows maxCols (fun _ => 0) rows

-- `cell_outer_w`
def cellOuterWidth (colWidths : Nat → ℚ) (hsp : ℚ) (p : Placed) : ℚ :=
  (∑ i ∈ Finset.range p.covered, colWidths (p.col + i)) +
    if 1 < p.covered then hsp * (p.covered - 1) else 0

end Placement

section Collapse

variable (maxCols : Nat)

-- One row of `table_collapse_borders`, where `grid` tells which slots are taken and `R` is the
-- number of rows. A row is given up where it runs out of columns.
def collapseRow (R r : Nat) (grid : Nat → Nat → Bool) (col : Nat) :
    Row → List Placed × (Nat → Nat → Bool)
  | []            => ([], grid)
  | cell :: cells =>
    let col := skip (grid r) (maxCols - col) col
    if maxCols ≤ col then ([], grid)
    else
      let grid := fun r' c =>
        grid r' c ||
        (decide (r ≤ r' ∧ r' < r + cell.rspan ∧ r' < R) &&
          decide (col ≤ c ∧ c < col + cell.span ∧ c < maxCols))
      let (placed, grid) := collapseRow R r grid (col + cell.span) cells
      (⟨col, min cell.span (maxCols - col)⟩ :: placed, grid)

def collapseRows (R r : Nat) (grid : Nat → Nat → Bool) : List Row → List (List Placed)
  | []          => []
  | row :: rows =>
    let (placed, grid) := collapseRow maxCols R r grid 0 row
    placed :: collapseRows R (r + 1) grid rows

def tableCollapseColumns (rows : List Row) : List (List Placed) :=
  collapseRows maxCols rows.length 0 (fun _ _ => false) rows

end Collapse

end Nordstjernen.Layout.Table

namespace Nordstjernen.Layout.Table

-- The columns a cell occupies, and the number of rows that it reaches down from the row at hand.
structure Slot where
  col  : Nat
  span : Nat
  rows : Nat
deriving DecidableEq

namespace Slot

def Covers (s : Slot) (c : Nat) : Prop :=
  s.col ≤ c ∧ c < s.col + s.span

instance (s : Slot) (c : Nat) : Decidable (s.Covers c) :=
  inferInstanceAs (Decidable (_ ∧ _))

-- The slots that still reach the next row.
def descend (ss : List Slot) : List Slot :=
  (ss.filter (1 < ·.rows)).map fun s => { s with rows := s.rows - 1 }

def placed (s : Slot) : Placed :=
  ⟨s.col, s.span⟩

end Slot

-- The table model of HTML. The cells of a row each take the first column that neither a slot from
-- above nor an earlier cell of the row covers.
inductive ModelRow (above : List Slot) : List Slot → Row → List Slot → Prop
  | nil : ModelRow above before [] []
  | cons :
    IsLeast { c | ∀ s ∈ above ++ before, ¬s.Covers c } col →
    ModelRow above (before ++ [⟨col, cell.span, cell.rspan⟩]) cells slots →
    ModelRow above before (cell :: cells) (⟨col, cell.span, cell.rspan⟩ :: slots)

inductive Model : List Slot → List Row → List (List Slot) → Prop
  | nil : Model above [] []
  | cons :
    ModelRow above [] row slots →
    Model (Slot.descend (above ++ slots)) rows slotss →
    Model above (row :: rows) (slots :: slotss)

-- Whether all passes put every cell of the table where the table model has it, with `max_cols` columns
-- in all and the widths of just the columns that it covers.
structure Agrees (rows : List Row) (slotss : List (List Slot)) : Prop where
  model     : Model [] rows slotss
  maxCols   : IsLeast { m | ∀ slots ∈ slotss, ∀ s ∈ slots, s.col + s.span ≤ m } (countColumns rows)
  measured  : measureColumns (countColumns rows) rows = slotss.map (·.map Slot.placed)
  fixed     : fixedTableColumns (countColumns rows) rows = (slotss.take 1).map (·.map Slot.placed)
  placed    : placeColumns (countColumns rows) rows = slotss.map (·.map Slot.placed)
  collapsed : tableCollapseColumns (countColumns rows) rows = slotss.map (·.map Slot.placed)
  apart     : ∀ slots ∈ slotss, slots.Pairwise fun s t => s.col + s.span ≤ t.col
  widths    : ∀ colWidths hsp,
    (placeColumns (countColumns rows) rows).map (·.map (cellOuterWidth colWidths hsp)) =
      slotss.map (·.map fun s =>
        (∑ i ∈ Finset.range s.span, colWidths (s.col + i)) + hsp * (s.span - 1))

-- The slots of a row whose columns are counted without regard to the rows above.
def runningSlots (col : Nat) : Row → List Slot
  | []            => []
  | cell :: cells => ⟨col, cell.span, cell.rspan⟩ :: runningSlots (col + cell.span) cells

-- Whether no cell starts, by the columns counted like this, where a cell reaches down from above.
def Clear (above : List Slot) : List Row → Prop
  | []          => True
  | row :: rows =>
    (∀ s ∈ runningSlots 0 row, ∀ a ∈ above, ¬a.Covers s.col) ∧
    Clear (Slot.descend (above ++ runningSlots 0 row)) rows

def decidableClear : (above : List Slot) → (rows : List Row) → Decidable (Clear above rows)
  | _, []              => isTrue trivial
  | above, row :: rows =>
    have := decidableClear (Slot.descend (above ++ runningSlots 0 row)) rows
    inferInstanceAs (Decidable (_ ∧ _))

instance (above : List Slot) (rows : List Row) : Decidable (Clear above rows) :=
  decidableClear above rows

def rowWidth (row : Row) : Nat :=
  (row.map Cell.span).sum

@[simp]
theorem rowWidth_nil : rowWidth [] = 0 :=
  rfl

@[simp]
theorem rowWidth_cons (cell : Cell) (cells : Row) :
    rowWidth (cell :: cells) = cell.span + rowWidth cells :=
  rfl

end Nordstjernen.Layout.Table

namespace Nordstjernen.Layout.Table

-- What `layout_table` reads of a cell for the widths: the results of `measure_natural_width` and
-- `measure_min_width`, its horizontal margins, paddings and borders for a basis, and its width where
-- that is a length, which a basis resolves to a number, or to -1.
structure SizedCell extends Cell where
  natural : ℚ
  minimal : ℚ
  edges   : ℚ → ℚ
  width   : Option (ℚ → ℚ)

-- `ns_table_col_hint`
structure ColHint where
  span  : Int
  width : Option (ℚ → ℚ)

def ColHint.hspan (hint : ColHint) : Nat :=
  if 0 < hint.span then hint.span.toNat else 1

-- `cw` is the content width by the table's own style.
structure TableBox where
  rows          : List (List SizedCell)
  hints         : List ColHint
  explicitWidth : Bool
  fixedLayout   : Bool
  cw            : ℚ
  hsp           : ℚ

-- `table_width_from_style`
def tableWidthFromStyle (width : Option (ℚ → ℚ)) (basis : ℚ) : Option ℚ :=
  match width with
  | none   => none
  | some w => if w basis < 0 then none else some (w basis)

-- The columns from `col` on become at least as wide as `per`.
def raise (widths : Nat → ℚ) (col span : Nat) (per : ℚ) : Nat → ℚ := fun c =>
  if col ≤ c ∧ c < col + span ∧ widths c < per then per else widths c

-- What the loops write. Only the columns below `max_cols` are read.
structure Columns where
  widths      : Nat → ℚ := fun _ => 0
  fixed       : Nat → Bool := fun _ => false
  explicit    : Nat → ℚ := fun _ => -1
  hasExplicit : Bool := false

namespace TableBox

variable (t : TableBox)

def maxCols : Nat :=
  countColumns (t.rows.map (·.map SizedCell.toCell))

def totalHsp : ℚ :=
  (t.maxCols + 1) * t.hsp

def colAvail : ℚ :=
  if t.cw - t.totalHsp < 0 then 0 else t.cw - t.totalHsp

def sum (widths : Nat → ℚ) : ℚ :=
  ∑ c ∈ Finset.range t.maxCols, widths c

section Fixed

-- `apply_fixed_table_width`
def applyFixedTableWidth (cols : Columns) (col span : Nat) (w : ℚ) : Columns :=
  if t.maxCols ≤ col then cols
  else
    let per := if w / span < 0 then 0 else w / span
    { cols with
      widths := raise cols.widths col span per
      fixed  := fun c => cols.fixed c || decide (col ≤ c ∧ c < col + span) }

def fixedHints (cols : Columns) (col : Nat) : List ColHint → Columns
  | []            => cols
  | hint :: hints =>
    let cols :=
      match tableWidthFromStyle hint.width t.colAvail with
      | none   => cols
      | some w => t.applyFixedTableWidth cols col hint.hspan w
    fixedHints cols (col + hint.hspan) hints

def fixedRow (cols : Columns) (col : Nat) : List SizedCell → Columns
  | []            => cols
  | cell :: cells =>
    let cols :=
      match tableWidthFromStyle cell.width t.colAvail with
      | none   => cols
      | some w => t.applyFixedTableWidth cols col cell.span (w + cell.edges t.colAvail)
    fixedRow cols (col + cell.span) cells

def fixedColumns : Columns :=
  t.fixedRow (t.fixedHints {} 0 t.hints) 0 (t.rows.headD [])

def unset : ℚ :=
  ∑ c ∈ Finset.range t.maxCols, if t.fixedColumns.fixed c then 0 else 1

-- `layout_fixed_table_columns`
def layoutFixedTableColumns : Nat → ℚ :=
  let cols := t.fixedColumns
  let remaining := if t.colAvail - t.sum cols.widths < 0 then 0 else t.colAvail - t.sum cols.widths
  fun c =>
    if 0 < t.unset then if cols.fixed c then cols.widths c else remaining / t.unset
    else if 0 < remaining ∧ 0 < t.maxCols then cols.widths c + remaining / t.maxCols
    else cols.widths c

end Fixed

section Measure

def edgeBasis : ℚ :=
  if 0 < t.cw then t.cw else 1000

-- `cell_explicit`
def cellExplicit (cell : SizedCell) : ℚ :=
  match cell.width with
  | none   => -1
  | some w => if 0 ≤ w t.colAvail then w t.colAvail + cell.edges t.edgeBasis else -1

def naturalCell (cols : Columns) (col : Nat) (cell : SizedCell) : Columns :=
  let perCol := (cell.natural + cell.edges t.edgeBasis) / cell.span
  let widths := raise cols.widths col cell.span perCol
  if cell.width.isSome && cell.span = 1 && decide (col < t.maxCols) then
    { widths
      fixed       := fun c => cols.fixed c || c = col
      explicit    :=
        if 0 ≤ t.cellExplicit cell then raise cols.explicit col 1 (t.cellExplicit cell) else cols.explicit
      hasExplicit := true }
  else
    { cols with widths }

def naturalRow (cols : Columns) (col : Nat) : List SizedCell → Columns
  | []            => cols
  | cell :: cells => naturalRow (t.naturalCell cols col cell) (col + cell.span) cells

def autoHints (cols : Columns) (col : Nat) : List ColHint → Columns
  | []            => cols
  | hint :: hints =>
    if col < t.maxCols then
      let cols :=
        match tableWidthFromStyle hint.width t.colAvail with
        | none   => cols
        | some w =>
          { cols with explicit := raise cols.explicit col hint.hspan (w / hint.hspan), hasExplicit := true }
      autoHints cols (col + hint.hspan) hints
    else
      cols

def measured : Columns :=
  t.autoHints (t.rows.foldl (fun cols row => t.naturalRow cols 0 row) {}) 0 t.hints

def minRow (mins : Nat → ℚ) (col : Nat) : List SizedCell → Nat → ℚ
  | []            => mins
  | cell :: cells =>
    minRow (raise mins col cell.span ((cell.minimal + cell.edges t.edgeBasis) / cell.span))
      (col + cell.span) cells

-- The minimums of the columns, which `col_min` holds where they are needed.
def minimums : Nat → ℚ :=
  t.rows.foldl (fun mins row => t.minRow mins 0 row) fun _ => 0

def colMin : Nat → ℚ :=
  if t.measured.hasExplicit || t.colAvail < t.sum t.measured.widths && 0 < t.colAvail then t.minimums
  else fun _ => 0

end Measure

section Auto

-- `col_widths` and `col_fixed` before they are adjusted to the width that there is.
def preferred : Nat → ℚ := fun c =>
  if 0 ≤ t.measured.explicit c then
    if t.measured.explicit c < t.colMin c then t.colMin c else t.measured.explicit c
  else
    t.measured.widths c

def isFixed (c : Nat) : Bool :=
  t.measured.fixed c || 0 ≤ t.measured.explicit c

def naturalSum : ℚ :=
  t.sum t.preferred

def elasticNatural : ℚ :=
  ∑ c ∈ Finset.range t.maxCols, if t.isFixed c then 0 else t.preferred c

def elasticCount : ℚ :=
  ∑ c ∈ Finset.range t.maxCols, if t.isFixed c then 0 else 1

def shrunk : Nat → ℚ :=
  let minSum := t.sum t.colMin
  if t.colAvail ≤ minSum then
    if 0 < minSum then fun c => t.colAvail * t.colMin c / minSum
    else fun _ => t.colAvail / t.maxCols
  else
    let slackSum := t.naturalSum - minSum
    let availExtra := t.colAvail - minSum
    fun c => t.colMin c + if 0 < slackSum then (t.preferred c - t.colMin c) * (availExtra / slackSum) else 0

def grown : Nat → ℚ :=
  let extra := t.colAvail - t.naturalSum
  if 0 < extra ∧ 0 < t.maxCols then
    if 0 < t.elasticNatural then
      fun c => if t.isFixed c then t.preferred c
        else t.preferred c + extra * t.preferred c / t.elasticNatural
    else if 0 < t.elasticCount then
      fun c => if t.isFixed c then t.preferred c else t.preferred c + extra / t.elasticCount
    else if 0 < t.naturalSum then
      fun c => t.preferred c + extra * t.preferred c / t.naturalSum
    else
      fun c => t.preferred c + extra / t.maxCols
  else
    t.preferred

-- The widths in automatic layout, and the content width.
def autoColumns : (Nat → ℚ) × ℚ :=
  if t.colAvail < t.naturalSum ∧ 0 < t.colAvail then (t.shrunk, t.cw)
  else if t.naturalSum = 0 then (fun _ => t.colAvail / t.maxCols, t.cw)
  else if t.explicitWidth then (t.grown, t.cw)
  else (t.preferred, t.naturalSum + t.totalHsp)

end Auto

-- The widths of the columns, and the content width of the table.
def columns : (Nat → ℚ) × ℚ :=
  if t.explicitWidth && t.fixedLayout then
    let widths := t.layoutFixedTableColumns
    (widths, if t.colAvail < t.sum widths then t.sum widths + t.totalHsp else t.cw)
  else
    t.autoColumns

end TableBox

end Nordstjernen.Layout.Table

namespace Nordstjernen.Layout.Table

-- A table with columns, and with space for them.
structure WideTable extends TableBox where
  cols_pos  : 0 < toTableBox.maxCols
  avail_pos : 0 < toTableBox.colAvail

namespace WideTable

variable (t : WideTable)

structure Distributes : Prop where
  nonneg : ∀ c < t.maxCols, 0 ≤ t.columns.1 c
  total  : t.sum t.columns.1 + t.totalHsp = t.columns.2
  kept   : (t.explicitWidth && t.fixedLayout) = false →
    t.colAvail < t.sum t.minimums ∨ ∀ c < t.maxCols, t.minimums c ≤ t.columns.1 c

-- The part of a column in the space that its and the other columns' preferred widths leave.
def part (c : Nat) : ℚ :=
  let free := t.colAvail - t.naturalSum
  if t.naturalSum = 0 then free / t.maxCols
  else if !t.explicitWidth then 0
  else if 0 < t.elasticNatural then if t.isFixed c then 0 else free * (t.preferred c / t.elasticNatural)
  else if 0 < t.elasticCount then if t.isFixed c then 0 else free / t.elasticCount
  else free * (t.preferred c / t.naturalSum)

-- Whether no column prefers less than its minimum, or what it lacks is made up for. Where the widths
-- have to shrink, it is only if the minimums fill the space.
def MinimumsKept : Prop :=
  t.colAvail < t.sum t.minimums ∨
    if t.colAvail < t.naturalSum
    then t.colAvail = t.sum t.minimums ∨ ∀ c < t.maxCols, t.minimums c ≤ t.preferred c
    else ∀ c < t.maxCols, t.minimums c ≤ t.preferred c + t.part c

end WideTable

end Nordstjernen.Layout.Table
