import Mathlib.Tactic.Linarith
import Mathlib.Tactic.Ring
import Mathlib.Tactic.Tauto
import Nordstjernen.Layout.TableRows
import Nordstjernen.Layout.Theorems.Table

namespace Nordstjernen.Layout.Table

-- The equations of what is matched on most are derived here, once for all the proofs below.
section
attribute [local simp] RowsBox.stateAt belowNb RowsBox.rowTop Covers RowsBox.outerHeight
  RowsBox.shape RowsBox.ending RowsBox.rowHeight hold After RowsBox.maxCols RowsBox.step
  RowsBox.final RowsBox.grows RowsBox.per RowsBox.naturalHeight RowsBox.edges RowsBox.contentHeight
  RowsBox.ownHeight cellIn RowsBox.enlarged lastRow Cell.rspan RowsBox.cell?
end

theorem Cell.rspan_pos (cell : Cell) : 0 < cell.rspan := by
  rw [Cell.rspan]
  split <;> omega

section Shape

variable {n r i : Nat}

-- No cell of a row that starts at `k` is a spanning one over a column.
def NoneOver (i : Nat) (cells : Row) (ps : List Placed) (k : Nat) : Prop :=
  ∀ j cell p, k ≤ j → cells[j]? = some cell → ps[j]? = some p → 1 < cell.rspan → ¬p.Over i

-- What one row writes into a column: nothing, or what its last spanning cell over the column does.
theorem placeRow_spec (cells : Row) (remain : Nat → Nat) (col k : Nat) (cellOf : Nat → Option CellId) :
    let ps := (placeRow n remain col cells).1
    let remain' := (placeRow n remain col cells).2
    let cellOf' := hold r k cellOf cells ps
    (NoneOver i cells ps 0 ∧ remain' i = remain i ∧ cellOf' i = cellOf i) ∨
    ∃ j cell p, cells[j]? = some cell ∧ ps[j]? = some p ∧ 1 < cell.rspan ∧ p.Over i ∧
      remain' i = cell.rspan ∧ cellOf' i = some (r, k + j) ∧ NoneOver i cells ps (j + 1) := by
  induction cells generalizing remain col k cellOf
  case nil => exact .inl ⟨fun j cell p _ h => by simp at h, rfl, rfl⟩
  case cons cell cells hi =>
    generalize hcol : skip (fun c => 0 < remain c) (n - col) col = col'
    let p : Placed := ⟨col', min cell.span (n - col')⟩
    let remain₁ : Nat → Nat :=
      if 1 < cell.rspan then fun c => if col' ≤ c ∧ c < col' + min cell.span (n - col') then cell.rspan else remain c
      else remain
    let cellOf₁ : Nat → Option CellId := fun i =>
      if 1 < cell.rspan ∧ p.col ≤ i ∧ i < p.col + p.covered then some (r, k) else cellOf i
    have hrow : placeRow n remain col (cell :: cells) =
        (p :: (placeRow n remain₁ (col' + cell.span) cells).1, (placeRow n remain₁ (col' + cell.span) cells).2) := by
      simp only [placeRow, hcol, p, remain₁]
    rw [hrow]
    have h := hi remain₁ (col' + cell.span) (k + 1) cellOf₁
    simp only at h ⊢
    rw [hold]
    have hshift (j) : NoneOver i (cell :: cells) (p :: (placeRow n remain₁ (col' + cell.span) cells).1) (j + 1) ↔
        NoneOver i cells (placeRow n remain₁ (col' + cell.span) cells).1 j := by
      constructor
      case mp  => exact fun h m c q hm hc hq => h (m + 1) c q (by omega) hc hq
      case mpr =>
        intro h m c q hm hc hq
        cases m
        case zero   => omega
        case succ m => exact h m c q (by omega) hc hq
    rcases h with ⟨hnone, hr, ho⟩ | ⟨j, c, q, hj, hq, hs, hover, hr, ho, hlast⟩
    case inr =>
      refine .inr ⟨j + 1, c, q, hj, hq, hs, hover, hr, ?_, (hshift _).mpr hlast⟩
      rw [ho]
      exact congrArg (fun m => some (r, m)) (by omega)
    case inl =>
      by_cases hc : 1 < cell.rspan ∧ p.Over i
      case pos =>
        refine .inr ⟨0, cell, p, rfl, rfl, hc.left, hc.right, hr.trans ?_, ho.trans ?_, (hshift 0).mpr hnone⟩
        · exact (congrFun (if_pos hc.left) i).trans (if_pos hc.right)
        · exact if_pos hc
      case neg =>
        refine .inl ⟨fun m c q _ hcell hq hspan hover => ?_, hr.trans ?_, ho.trans ?_⟩
        · cases m
          case zero =>
            cases hcell
            cases hq
            exact hc ⟨hspan, hover⟩
          case succ m => exact hnone _ c q (Nat.zero_le _) hcell hq hspan hover
        · by_cases hs : 1 < cell.rspan
          case pos => exact (congrFun (if_pos hs) i).trans (if_neg fun h => hc ⟨hs, h⟩)
          case neg => exact congrFun (if_neg hs) i
        · exact if_neg hc

theorem placeRow_covered (cells : Row) (remain : Nat → Nat) (col : Nat) :
    ∀ p ∈ (placeRow n remain col cells).1, p.covered ≤ n - p.col := by
  induction cells generalizing remain col
  case nil => exact fun _ h => absurd h List.not_mem_nil
  case cons cell cells hi =>
    intro p hp
    rcases List.mem_cons.mp hp with rfl | hp
    · exact min_le_right _ _
    · exact hi _ _ p hp

end Shape

namespace RowsBox

variable {t : RowsBox} {r s i m : Nat} {row : TallRow} {x y : CellId}

section Step

-- The cells of a row are placed by what the rows above have left.
def placement (t : RowsBox) (r : Nat) (row : TallRow) : List Placed × (Nat → Nat) :=
  placeRow t.maxCols (t.stateAt r).remain 0 (row.cells.map TallCell.toCell)

def held (t : RowsBox) (r : Nat) (row : TallRow) : Nat → Option CellId :=
  hold r 0 (t.stateAt r).cellOf (row.cells.map TallCell.toCell) (t.placement r row).1

def endingIn (t : RowsBox) (r : Nat) (row : TallRow) : List CellId :=
  t.ending (t.placement r row).2 (t.held r row)

def topIn (t : RowsBox) (r q : Nat) : ℚ :=
  if q = r then (t.stateAt r).cursor else (t.stateAt r).rowTop q

def heightIn (t : RowsBox) (r : Nat) (row : TallRow) : ℚ :=
  (t.endingIn r row).foldl (t.enlarged { t.stateAt r with rowTop := t.topIn r }) (ownHeight row)

theorem stateAt_succ (h : t.rows[r]? = some row) : t.stateAt (r + 1) = t.step r row (t.stateAt r) := by
  rw [stateAt, h]

theorem remain_succ (h : t.rows[r]? = some row) :
    (t.stateAt (r + 1)).remain i = (t.placement r row).2 i - 1 := by
  rw [stateAt_succ h]
  rfl

theorem cellOf_succ (h : t.rows[r]? = some row) :
    (t.stateAt (r + 1)).cellOf i = if (t.placement r row).2 i = 1 then none else t.held r row i := by
  rw [stateAt_succ h]
  rfl

theorem cursor_succ (h : t.rows[r]? = some row) :
    (t.stateAt (r + 1)).cursor = (t.stateAt r).cursor + t.heightIn r row + t.vsp := by
  rw [stateAt_succ h]
  rfl

theorem rowTop_succ (h : t.rows[r]? = some row) : (t.stateAt (r + 1)).rowTop = t.topIn r := by
  rw [stateAt_succ h]
  rfl

theorem rowHeight_succ (h : t.rows[r]? = some row) (q : Nat) :
    (t.stateAt (r + 1)).rowHeight q = if q = r then t.heightIn r row else (t.stateAt r).rowHeight q := by
  rw [stateAt_succ h]
  rfl

end Step

section Owner

-- Whether a column is a spanning cell's own after the rows before `s` have been placed.
def Owns (shape : List Row) (s i : Nat) (x : CellId) (cell : Cell) : Prop :=
  cellIn shape x = some cell ∧ 1 < cell.rspan ∧ Covers shape x i ∧ x.1 < s ∧
    ∀ y, After x y → Spanning shape y → y.1 < s → ¬Covers shape y i

theorem cellIn_row (h : t.rows[r]? = some row) (j : Nat) :
    cellIn t.shape (r, j) = (row.cells.map TallCell.toCell)[j]? := by
  rw [cellIn, shape, List.getElem?_map, h]
  rfl

theorem drop_shape (h : t.rows[r]? = some row) :
    t.shape.drop r = row.cells.map TallCell.toCell :: t.shape.drop (r + 1) := by
  obtain ⟨hr, rfl⟩ := List.getElem?_eq_some_iff.mp h
  have hl : r < t.shape.length := by rwa [shape, List.length_map]
  rw [List.drop_eq_getElem_cons hl]
  simp only [shape, List.getElem_map]

theorem placeRows_drop (h : r ≤ t.rows.length) :
    placeRows t.maxCols (t.stateAt r).remain (t.shape.drop r) =
      (placeColumns t.maxCols t.shape).drop r := by
  induction r
  case zero => rfl
  case succ r hi =>
    obtain ⟨row, hrow⟩ : ∃ row, t.rows[r]? = some row := ⟨_, List.getElem?_eq_getElem h⟩
    have he := hi (by omega)
    rw [drop_shape hrow] at he
    have hr : (t.stateAt (r + 1)).remain = fun i => (t.placement r row).2 i - 1 :=
      funext fun i => remain_succ hrow
    rw [hr]
    exact (congrArg List.tail he).trans List.tail_drop

theorem placeColumns_row (h : t.rows[r]? = some row) :
    (placeColumns t.maxCols t.shape)[r]? = some (t.placement r row).1 := by
  have hr := (List.getElem?_eq_some_iff.mp h).choose.le
  rw [← List.head?_drop, ← placeRows_drop hr, drop_shape h]
  rfl

theorem covers_row (h : t.rows[r]? = some row) {j : Nat} :
    Covers t.shape (r, j) i ↔ ∃ p, (t.placement r row).1[j]? = some p ∧ p.Over i := by
  rw [Covers, ← maxCols, placeColumns_row h]
  rfl

theorem not_covers_of_noneOver (h : t.rows[r]? = some row) {k j : Nat}
    (hn : NoneOver i (row.cells.map TallCell.toCell) (t.placement r row).1 k) (hj : k ≤ j)
    (hs : Spanning t.shape (r, j)) : ¬Covers t.shape (r, j) i := by
  obtain ⟨cell, hc, hspan⟩ := hs
  rw [cellIn_row h] at hc
  rw [covers_row h]
  intro ⟨p, hp, hover⟩
  exact hn j cell p hj hc hp hspan hover

theorem held_spec (t : RowsBox) (r i : Nat) (row : TallRow) :
    (NoneOver i (row.cells.map TallCell.toCell) (t.placement r row).1 0 ∧
      (t.placement r row).2 i = (t.stateAt r).remain i ∧ t.held r row i = (t.stateAt r).cellOf i) ∨
    ∃ j cell p, (row.cells.map TallCell.toCell)[j]? = some cell ∧ (t.placement r row).1[j]? = some p ∧
      1 < cell.rspan ∧ p.Over i ∧ (t.placement r row).2 i = cell.rspan ∧
      t.held r row i = some (r, j) ∧ NoneOver i (row.cells.map TallCell.toCell) (t.placement r row).1 (j + 1) := by
  have hspec := placeRow_spec (n := t.maxCols) (r := r) (i := i) (row.cells.map TallCell.toCell)
    (t.stateAt r).remain 0 0 (t.stateAt r).cellOf
  simp only [Nat.zero_add] at hspec
  exact hspec

-- In each row, `rs_cell` and `rs_remain` of a column are those of the cell whose own it is.
theorem held_iff (h : t.rows[r]? = some row)
    (hb : ∀ x m, (t.stateAt r).cellOf i = some x ∧ (t.stateAt r).remain i = m ↔
      ∃ cell, Owns t.shape r i x cell ∧ 0 < m ∧ r + m = x.1 + cell.rspan) :
    t.held r row i = some x ∧ (t.placement r row).2 i = m ↔
      ∃ cell, Owns t.shape (r + 1) i x cell ∧ 0 < m ∧ r + m = x.1 + cell.rspan := by
  rcases held_spec t r i row with ⟨hnone, hr, ho⟩ | ⟨j, c, p, hj, hp, hspan, hover, hr, ho, hlast⟩
  case inl =>
    have hrow (j) (hs : Spanning t.shape (r, j)) : ¬Covers t.shape (r, j) i :=
      not_covers_of_noneOver h hnone (Nat.zero_le j) hs
    rw [hr, ho, hb]
    refine exists_congr fun cell => and_congr_left fun _ => ?_
    constructor
    case mp =>
      intro ⟨hc, hs, hcov, hlt, hlater⟩
      refine ⟨hc, hs, hcov, by omega, fun y hy hsy hyr => ?_⟩
      rcases Nat.lt_succ_iff_lt_or_eq.mp hyr with hyr | rfl
      · exact hlater y hy hsy hyr
      · exact hrow y.2 hsy
    case mpr =>
      intro ⟨hc, hs, hcov, hlt, hlater⟩
      rcases Nat.lt_succ_iff_lt_or_eq.mp hlt with hlt | rfl
      · exact ⟨hc, hs, hcov, hlt, fun y hy hsy hyr => hlater y hy hsy (by omega)⟩
      · exact absurd hcov (hrow x.2 ⟨cell, hc, hs⟩)
  case inr =>
    have hc : cellIn t.shape (r, j) = some c := by rw [cellIn_row h, hj]
    have hcov : Covers t.shape (r, j) i := (covers_row h).mpr ⟨p, hp, hover⟩
    rw [hr, ho]
    constructor
    case mp =>
      rintro ⟨hx, rfl⟩
      cases Option.some.inj hx
      refine ⟨c, ⟨hc, hspan, hcov, Nat.lt_succ_self r, fun y hy hsy hyr => ?_⟩, by omega, rfl⟩
      rcases hy with hy | ⟨he, hy⟩
      · simp only at hy
        omega
      · obtain ⟨r', j'⟩ := y
        cases he
        exact not_covers_of_noneOver h hlast hy hsy
    case mpr =>
      rintro ⟨cell, ⟨hcx, hs, hcovx, hlt, hlater⟩, hm, he⟩
      obtain ⟨r', j'⟩ := x
      have hn : ¬After (r', j') (r, j) := fun ha => hlater (r, j) ha ⟨c, hc, hspan⟩ (Nat.lt_succ_self r) hcov
      simp only [After, not_or, not_and, not_lt] at hn
      have hrr : r' = r := by
        simp only at hlt
        omega
      subst hrr
      have hjj : j' = j := by
        rcases Nat.lt_or_ge j j' with hlt' | hge
        · exact absurd hcovx (not_covers_of_noneOver h hlast hlt' ⟨cell, hcx, hs⟩)
        · exact le_antisymm hge (hn.right rfl)
      subst hjj
      cases Option.some.inj (hcx.symm.trans hc)
      exact ⟨rfl, by omega⟩

theorem stateAt_iff (h : r ≤ t.rows.length) :
    ∀ i x m, (t.stateAt r).cellOf i = some x ∧ (t.stateAt r).remain i = m ↔
      ∃ cell, Owns t.shape r i x cell ∧ 0 < m ∧ r + m = x.1 + cell.rspan := by
  induction r
  case zero =>
    intro i x m
    constructor
    case mp  => exact fun h => by cases h.left
    case mpr => exact fun ⟨_, ho, _⟩ => absurd ho.right.right.right.left (Nat.not_lt_zero _)
  case succ r hi =>
    intro i x m
    obtain ⟨row, hrow⟩ : ∃ row, t.rows[r]? = some row := ⟨_, List.getElem?_eq_getElem h⟩
    have hh := fun m => held_iff (x := x) (m := m) hrow (hi (by omega) i)
    rw [cellOf_succ hrow, remain_succ hrow]
    constructor
    case mp =>
      intro ⟨hx, hm⟩
      split at hx
      case isTrue      => cases hx
      case isFalse hne =>
        obtain ⟨cell, ho, hpos, he⟩ := (hh _).mp ⟨hx, rfl⟩
        exact ⟨cell, ho, by omega, by omega⟩
    case mpr =>
      intro ⟨cell, ho, hpos, he⟩
      have ⟨hx, hm⟩ := (hh (m + 1)).mpr ⟨cell, ho, by omega, by omega⟩
      exact ⟨by rw [if_neg (by omega), hx], by omega⟩

theorem lt_maxCols_of_covers (h : Covers t.shape x i) (hx : t.rows[x.1]? = some row) : i < t.maxCols := by
  obtain ⟨p, hp, hover⟩ := (covers_row hx).mp h
  have hc := placeRow_covered _ _ _ p (List.mem_of_getElem? hp)
  have hu := hover.right
  have hl := hover.left
  omega

-- The cells that end in a row are the spanning ones that have kept a column until then.
theorem mem_endingIn (h : t.rows[r]? = some row) : x ∈ t.endingIn r row ↔
    ∃ cell, cellIn t.shape x = some cell ∧ 1 < cell.rspan ∧ x.1 + cell.rspan = r + 1 ∧
      Kept t.shape x cell := by
  have hr := (List.getElem?_eq_some_iff.mp h).choose
  have hl : t.shape.length = t.rows.length := List.length_map _
  have hh := fun i => held_iff (x := x) (m := 1) h (stateAt_iff hr.le i)
  rw [endingIn, ending, List.mem_eraseDups, List.mem_filterMap]
  constructor
  case mp =>
    intro ⟨i, _, hi⟩
    split at hi
    case isFalse   => cases hi
    case isTrue he =>
      obtain ⟨cell, ⟨hc, hs, hcov, hlt, hlater⟩, -, hm⟩ := (hh i).mp ⟨hi, he⟩
      exact ⟨cell, hc, hs, hm.symm, by omega, i, hcov, fun y hy hsy hyr => hlater y hy hsy (by omega)⟩
  case mpr =>
    intro ⟨cell, hc, hs, hm, _, i, hcov, hlater⟩
    have ⟨hx, he⟩ := (hh i).mpr ⟨cell, ⟨hc, hs, hcov, by omega,
      fun y hy hsy hyr => hlater y hy hsy (by omega)⟩, Nat.one_pos, hm.symm⟩
    have hrow : t.rows[x.1]? = some t.rows[x.1] := List.getElem?_eq_getElem (by omega)
    exact ⟨i, List.mem_range.mpr (lt_maxCols_of_covers hcov hrow), by rw [if_pos he, hx]⟩

end Owner

section Heights

theorem foldl_max_le {α : Type*} {g : α → ℚ} {l : List α} {a b : ℚ} :
    l.foldl (fun h x => max h (g x)) a ≤ b ↔ a ≤ b ∧ ∀ x ∈ l, g x ≤ b := by
  induction l generalizing a
  case nil => simp
  case cons y l hi => simp [hi, and_assoc]

theorem ownHeight_le {b : ℚ} : ownHeight row ≤ b ↔ 0 ≤ b ∧
    (∀ cell ∈ row.cells, cell.rspan ≤ 1 → cell.content + cell.edges ≤ b) ∧ ∀ rh ∈ row.height, rh ≤ b := by
  have hf (cells : List TallCell) (a : ℚ) : cells.foldl (fun rowHeight cell =>
      if cell.rspan ≤ 1 ∧ rowHeight < cell.content + cell.edges then cell.content + cell.edges
      else rowHeight) a ≤ b ↔
      a ≤ b ∧ ∀ cell ∈ cells, cell.rspan ≤ 1 → cell.content + cell.edges ≤ b := by
    induction cells generalizing a
    case nil => simp
    case cons cell cells hi =>
      rw [List.foldl_cons, hi, List.forall_mem_cons]
      split
      case isTrue hc =>
        have hab (h : cell.content + cell.edges ≤ b) : a ≤ b := hc.right.le.trans h
        tauto
      case isFalse hc =>
        rw [not_and, not_lt] at hc
        have hab (h : a ≤ b) (hs : cell.rspan ≤ 1) : cell.content + cell.edges ≤ b := (hc hs).trans h
        tauto
  rw [ownHeight]
  cases row.height
  case none    => simp [hf]
  case some rh =>
    simp only [Option.mem_def, Option.some.injEq, forall_eq']
    have h := hf row.cells 0
    split
    case isTrue hlt =>
      have hle (hb : rh ≤ b) := h.mp (hlt.le.trans hb)
      tauto
    case isFalse hge =>
      rw [h]
      have hle (hb : 0 ≤ b ∧ ∀ cell ∈ row.cells, cell.rspan ≤ 1 → cell.content + cell.edges ≤ b) : rh ≤ b :=
        (not_lt.mp hge).trans (h.mpr hb)
      tauto

theorem heightIn_le {b : ℚ} : t.heightIn r row ≤ b ↔ ownHeight row ≤ b ∧ ∀ x ∈ t.endingIn r row,
    t.topIn r x.1 + ((t.stateAt r).content x + t.edges x) - (t.stateAt r).cursor ≤ b := by
  have he : t.enlarged { t.stateAt r with rowTop := t.topIn r } = fun h x =>
      max h (t.topIn r x.1 + ((t.stateAt r).content x + t.edges x) - (t.stateAt r).cursor) := by
    funext h x
    simp only [enlarged]
    split
    case isTrue hc  => rw [max_eq_right (by linarith)]; ring
    case isFalse hc => rw [max_eq_left (by linarith)]
  rw [heightIn, he, foldl_max_le]

-- How far down a row starts.
def top (t : RowsBox) (r : Nat) : ℚ :=
  (t.stateAt r).cursor

def height (t : RowsBox) (r : Nat) : ℚ :=
  (t.rows[r]?.map (t.heightIn r)).getD 0

theorem height_row (h : t.rows[r]? = some row) : t.height r = t.heightIn r row := by
  rw [height, h]
  rfl

theorem top_succ (h : r < t.rows.length) : t.top (r + 1) = t.top r + t.height r + t.vsp := by
  have hrow : t.rows[r]? = some t.rows[r] := List.getElem?_eq_getElem h
  rw [height_row hrow]
  exact cursor_succ hrow

theorem rowTop_stateAt (h : s ≤ t.rows.length) (hr : r < s) : (t.stateAt s).rowTop r = t.top r := by
  induction s
  case zero => omega
  case succ s hi =>
    have hrow : t.rows[s]? = some t.rows[s] := List.getElem?_eq_getElem h
    rw [rowTop_succ hrow, topIn]
    split
    case isTrue he => rw [he, top]
    case isFalse hne => exact hi (by omega) (by omega)

theorem topIn_eq (h : s ≤ t.rows.length) (hr : r ≤ s) : t.topIn s r = t.top r := by
  rw [topIn]
  split
  case isTrue he   => rw [he, top]
  case isFalse hne => exact rowTop_stateAt h (by omega)

theorem rowHeight_stateAt (h : s ≤ t.rows.length) (hr : r < s) : (t.stateAt s).rowHeight r = t.height r := by
  induction s
  case zero => omega
  case succ s hi =>
    have hrow : t.rows[s]? = some t.rows[s] := List.getElem?_eq_getElem h
    rw [rowHeight_succ hrow]
    split
    case isTrue he => rw [he, height_row hrow]
    case isFalse hne => exact hi (by omega) (by omega)

theorem height_nonneg : 0 ≤ t.height r := by
  cases h : t.rows[r]?
  case none     => simp [height, h]
  case some row =>
    rw [height_row h]
    exact (ownHeight_le.1 (heightIn_le.1 le_rfl).left).left

theorem top_le (h : s ≤ t.rows.length) (hr : r ≤ s) : t.top r + (s - r) * t.vsp ≤ t.top s := by
  induction s
  case zero =>
    cases Nat.le_zero.mp hr
    simp
  case succ s hi =>
    rcases hr.eq_or_lt with rfl | hr
    · simp
    · have ht := hi (by omega) (Nat.lt_succ_iff.mp hr)
      have hh := height_nonneg (t := t) (r := s)
      rw [top_succ h]
      push_cast
      linarith

end Heights

section Content

variable {cell : TallCell}

theorem cellIn_of_cell? (h : t.cell? x = some cell) : cellIn t.shape x = some cell.toCell := by
  rw [cell?, Option.bind_eq_some_iff] at h
  obtain ⟨row, hrow, hc⟩ := h
  have hx : x = (x.1, x.2) := rfl
  rw [hx, cellIn_row hrow, List.getElem?_map, hc]
  rfl

theorem exists_row_of_cell? (h : t.cell? x = some cell) :
    ∃ row, t.rows[x.1]? = some row ∧ row.cells[x.2]? = some cell :=
  Option.bind_eq_some_iff.mp h

theorem edges_of_cell? (h : t.cell? x = some cell) : t.edges x = cell.edges := by
  rw [edges, h]
  rfl

theorem content_zero (h : t.cell? x = some cell) : (t.stateAt 0).content x = cell.content := by
  have hm : (t.stateAt 0).content x = ((t.cell? x).map TallCell.content).getD 0 := rfl
  rw [hm, h]
  rfl

-- The content of a cell after row `r`.
theorem content_succ (h : t.rows[r]? = some row) (hx : t.cell? x = some cell) :
    (t.stateAt (r + 1)).content x =
      let content := (t.stateAt r).content x
      let stretched :=
        if x.1 = r ∧ cell.rspan ≤ 1 ∧ content < t.heightIn r row - cell.edges then t.heightIn r row - cell.edges
        else content
      let ended := t.top r + t.heightIn r row - t.topIn r x.1 - t.edges x
      if x ∈ t.endingIn r row ∧ stretched < ended then ended else stretched := by
  simp only [stateAt_succ h, step, hx]
  rfl

theorem not_mem_endingIn (h : t.rows[r]? = some row) (hx : t.cell? x = some cell)
    (hn : 1 < cell.rspan → Kept t.shape x cell.toCell → x.1 + cell.rspan ≠ r + 1) : x ∉ t.endingIn r row := by
  rw [mem_endingIn h]
  intro ⟨c, hc, hs, he, hk⟩
  cases Option.some.inj ((cellIn_of_cell? hx).symm.trans hc)
  exact hn hs hk he

-- A row changes the cells that end in it only.
theorem content_of_ne (h : r < t.rows.length) (hx : t.cell? x = some cell)
    (hn : x.1 + cell.rspan = r + 1 → 1 < cell.rspan ∧ ¬Kept t.shape x cell.toCell) :
    (t.stateAt (r + 1)).content x = (t.stateAt r).content x := by
  have hrow : t.rows[r]? = some t.rows[r] := List.getElem?_eq_getElem h
  have hne : x ∉ t.endingIn r t.rows[r] := not_mem_endingIn hrow hx fun _ hk he => (hn he).right hk
  have hs : ¬(x.1 = r ∧ cell.rspan ≤ 1 ∧ (t.stateAt r).content x < t.heightIn r t.rows[r] - cell.edges) := by
    intro ⟨hr, hspan, _⟩
    have hp := Cell.rspan_pos cell.toCell
    have := (hn (by omega)).left
    omega
  rw [content_succ hrow hx]
  simp only [if_neg hs, hne, false_and, if_false]

theorem content_of_lt (hs : s ≤ t.rows.length) (hx : t.cell? x = some cell) (h : s < x.1 + cell.rspan) :
    (t.stateAt s).content x = cell.content := by
  induction s
  case zero      => exact content_zero hx
  case succ s hi =>
    rw [content_of_ne hs hx (by omega)]
    exact hi (by omega) (by omega)

theorem content_of_not_kept (hs : s ≤ t.rows.length) (hx : t.cell? x = some cell)
    (h : 1 < cell.rspan ∧ ¬Kept t.shape x cell.toCell) : (t.stateAt s).content x = cell.content := by
  induction s
  case zero      => exact content_zero hx
  case succ s hi =>
    rw [content_of_ne hs hx fun _ => h]
    exact hi (by omega)

-- In its last row a cell is made to end where the row does.
theorem content_end {e : Nat} (he : e < t.rows.length) (hx : t.cell? x = some cell)
    (hlast : x.1 + cell.rspan = e + 1) (hk : 1 < cell.rspan → Kept t.shape x cell.toCell) :
    (t.stateAt (e + 1)).content x + t.edges x = t.top e + t.height e - t.top x.1 := by
  have hrow : t.rows[e]? = some t.rows[e] := List.getElem?_eq_getElem he
  have hp := Cell.rspan_pos cell.toCell
  have hnat := content_of_lt he.le hx (by omega)
  have hle := heightIn_le.1 (le_refl (t.heightIn e t.rows[e]))
  rw [content_succ hrow hx, topIn_eq he.le (by omega), hnat, height_row hrow, edges_of_cell? hx]
  by_cases hspan : 1 < cell.rspan
  case pos =>
    have hmem : x ∈ t.endingIn e t.rows[e] :=
      (mem_endingIn hrow).mpr ⟨cell.toCell, cellIn_of_cell? hx, hspan, hlast, hk hspan⟩
    have hb := hle.right x hmem
    rw [topIn_eq he.le (by omega), hnat, edges_of_cell? hx, ← top] at hb
    have hs : ¬(x.1 = e ∧ cell.rspan ≤ 1 ∧ cell.content < t.heightIn e t.rows[e] - cell.edges) :=
      fun h => absurd h.right.left (by omega)
    simp only [if_neg hs, hmem, true_and]
    split <;> linarith
  case neg =>
    have hxe : x.1 = e := by omega
    have hn : x ∉ t.endingIn e t.rows[e] := not_mem_endingIn hrow hx fun h => absurd h hspan
    obtain ⟨row, hrow', hc⟩ := exists_row_of_cell? hx
    rw [hxe, hrow] at hrow'
    have hb := (ownHeight_le.1 hle.left).right.left cell
      (Option.some.inj hrow' ▸ List.mem_of_getElem? hc) (not_lt.mp hspan)
    simp only [hn, false_and, if_false, hxe, true_and, not_lt.mp hspan]
    split <;> linarith

theorem final_content (hx : t.cell? x = some cell) (hle : x.1 + cell.rspan ≤ t.rows.length)
    (hk : 1 < cell.rspan → Kept t.shape x cell.toCell) :
    t.final.content x + t.edges x =
      t.top (x.1 + cell.rspan - 1) + t.height (x.1 + cell.rspan - 1) - t.top x.1 := by
  have hp := Cell.rspan_pos cell.toCell
  have h (s) (hs : x.1 + cell.rspan ≤ s) : s ≤ t.rows.length → (t.stateAt s).content x + t.edges x =
      t.top (x.1 + cell.rspan - 1) + t.height (x.1 + cell.rspan - 1) - t.top x.1 := by
    induction s, hs using Nat.le_induction
    case base =>
      have he : x.1 + cell.rspan - 1 + 1 = x.1 + cell.rspan := by omega
      intro _
      have hc := content_end (e := x.1 + cell.rspan - 1) (by omega) hx he.symm hk
      rwa [he] at hc
    case succ s hs hi =>
      intro hl
      rw [content_of_ne hl hx fun h => absurd h (by omega)]
      exact hi (by omega)
  exact h _ hle le_rfl

end Content

section Final

variable {cell : TallCell}

theorem rowTop_eq (h : r < t.rows.length) : t.rowTop r = t.top r + r * t.per := by
  rw [rowTop, final, rowTop_stateAt le_rfl h]

theorem rowHeight_eq (h : r < t.rows.length) : t.rowHeight r = t.height r + t.per := by
  rw [rowHeight, final, rowHeight_stateAt le_rfl h]

theorem countRow_pos (c : Nat) (cell : Cell) (cells : Row) : 0 < countRow c (cell :: cells) := by
  have hmono (cells : Row) : ∀ c, 0 < c → 0 < countRow c cells := by
    induction cells
    case nil => exact fun c hc => hc
    case cons cell cells hi =>
      intro c hc
      rw [countRow]
      split
      case isTrue  => exact Nat.zero_lt_succ _
      case isFalse => exact hi _ (by omega)
  rw [countRow]
  split
  case isTrue  => exact Nat.zero_lt_succ _
  case isFalse => exact hmono cells _ (Nat.add_pos_right c cell.span_pos)

theorem maxCols_pos (hx : t.cell? x = some cell) : 0 < t.maxCols := by
  obtain ⟨row, hrow, hc⟩ := exists_row_of_cell? hx
  have hmem : row.cells.map TallCell.toCell ∈ t.shape :=
    List.mem_map_of_mem (List.mem_of_getElem? hrow)
  have hpos : 0 < countRow 0 (row.cells.map TallCell.toCell) := by
    cases hcells : row.cells
    case nil           => rw [hcells] at hc; simp at hc
    case cons cell tl  => exact countRow_pos 0 _ _
  have hle (rows : List Row) (a : Nat) : a ≤ rows.foldl (fun m row => max m (countRow 0 row)) a ∧
      ∀ row ∈ rows, countRow 0 row ≤ rows.foldl (fun m row => max m (countRow 0 row)) a := by
    induction rows generalizing a
    case nil => simp
    case cons row rows hi =>
      have h := hi (max a (countRow 0 row))
      refine ⟨(le_max_left _ _).trans h.left, List.forall_mem_cons.mpr ⟨(le_max_right _ _).trans h.left, h.right⟩⟩
  exact hpos.trans_le ((hle t.shape 0).right _ hmem)

theorem naturalHeight_eq (hx : t.cell? x = some cell) :
    t.naturalHeight = t.top t.rows.length + t.captionBottom := by
  rw [naturalHeight, if_neg (maxCols_pos hx).ne']
  rfl

theorem grows_iff : t.grows ↔ ∃ target, t.target = some target ∧ 0 < t.maxCols ∧ 0 < t.rows.length ∧
    t.naturalHeight + 1 / 2 < target := by
  rw [grows]
  cases t.target <;> simp

theorem per_of_grows (h : t.grows) : 0 < t.per ∧ t.contentHeight = t.naturalHeight + t.rows.length * t.per := by
  obtain ⟨target, ht, -, hr, hlt⟩ := grows_iff.1 h
  have hl : (0 : ℚ) < t.rows.length := by exact_mod_cast hr
  rw [per, contentHeight, if_pos h, if_pos h, ht, Option.getD_some, mul_div_cancel₀ _ hl.ne']
  exact ⟨div_pos (by linarith) hl, by ring⟩

theorem per_of_not_grows (h : ¬t.grows) : t.per = 0 ∧ t.contentHeight = t.naturalHeight := by
  rw [per, contentHeight, if_neg h, if_neg h]
  exact ⟨rfl, rfl⟩

theorem contentHeight_eq : t.contentHeight = t.naturalHeight + t.rows.length * t.per := by
  by_cases h : t.grows
  case pos => exact (per_of_grows h).right
  case neg =>
    have hp := per_of_not_grows h
    rw [hp.left, hp.right, mul_zero, add_zero]

theorem per_nonneg : 0 ≤ t.per := by
  by_cases h : t.grows
  case pos => exact (per_of_grows h).left.le
  case neg => exact (per_of_not_grows h).left.ge

theorem le_naturalHeight (hx : t.cell? x = some cell) :
    t.captionTop + (t.rows.length + 1) * t.vsp + t.captionBottom ≤ t.naturalHeight := by
  have h := top_le (t := t) le_rfl (Nat.zero_le t.rows.length)
  have h₀ : t.top 0 = t.captionTop + t.vsp := rfl
  rw [naturalHeight_eq hx]
  push_cast at h
  linarith

theorem length_shape : t.shape.length = t.rows.length :=
  List.length_map _

theorem lt_length_of_cell? (hx : t.cell? x = some cell) : x.1 < t.rows.length := by
  obtain ⟨row, hrow, -⟩ := exists_row_of_cell? hx
  exact (List.getElem?_eq_some_iff.mp hrow).choose

-- What is taken off a cell, if anything.
def removed (t : RowsBox) (x : CellId) : ℚ :=
  if t.collapse && belowNb t.shape x then ((t.cell? x).map TallCell.borderBottom).getD 0 else 0

theorem outerHeight_eq (hx : t.cell? x = some cell) (hle : x.1 + cell.rspan ≤ t.rows.length)
    (hk : 1 < cell.rspan → Kept t.shape x cell.toCell) :
    t.outerHeight x = t.top (lastRow t.shape x cell.toCell) + t.height (lastRow t.shape x cell.toCell) -
      t.top x.1 + t.per - t.removed x := by
  have hl : lastRow t.shape x cell.toCell = x.1 + cell.rspan - 1 := by
    rw [lastRow, length_shape, Nat.min_eq_left hle]
  have h := final_content hx hle hk
  rw [hl, outerHeight, ← removed]
  linarith

theorem fits_of_sound (hs : t.Sound t.shape) : t.Fits := by
  intro x cell hx
  have hc := cellIn_of_cell? hx
  have hp := Cell.rspan_pos cell.toCell
  have hlt := lt_length_of_cell? hx
  have hk (h : 1 < cell.rspan) : Kept t.shape x cell.toCell := hs.kept x _ hc h
  have hle : x.1 + cell.rspan ≤ t.rows.length := by
    by_cases h : 1 < cell.rspan
    case pos => exact length_shape ▸ (hk h).left
    case neg => omega
  have hlast : lastRow t.shape x cell.toCell = x.1 + cell.rspan - 1 := by
    rw [lastRow, length_shape, Nat.min_eq_left hle]
  have hrem : t.removed x = 0 := by
    rw [removed]
    split
    case isFalse  => rfl
    case isTrue h =>
      rw [Bool.and_eq_true] at h
      exact absurd h.right (by simp [hs.collapse h.left x])
  have houter := outerHeight_eq hx hle hk
  have hstart := top_le (t := t) hlt.le (Nat.zero_le x.1)
  have hend := top_le (t := t) le_rfl (by omega : x.1 + cell.rspan - 1 + 1 ≤ t.rows.length)
  have hnext := top_succ (t := t) (by omega : x.1 + cell.rspan - 1 < t.rows.length)
  have h₀ : t.top 0 = t.captionTop + t.vsp := rfl
  have hcap := hs.captions x _ hc
  have hper := t.per_nonneg
  have hspan : t.per = 0 ∨ cell.rspan = 1 := by
    by_cases hg : t.grows
    case neg => exact .inl (per_of_not_grows hg).left
    case pos =>
      obtain ⟨target, ht, -, -, hlt'⟩ := grows_iff.1 hg
      have hn := le_naturalHeight hx
      rcases hs.target target ht with h | h
      · rw [length_shape] at h
        linarith
      · have := not_lt.mp fun hsp => h x ⟨_, hc, hsp⟩
        exact .inr (by omega)
  have hends : t.rowTop x.1 + t.outerHeight x =
      t.rowTop (lastRow t.shape x cell.toCell) + t.rowHeight (lastRow t.shape x cell.toCell) := by
    rw [houter, hrem, hlast, rowTop_eq hlt, rowTop_eq (by omega), rowHeight_eq (by omega)]
    rcases hspan with h | h
    · rw [h]
      ring
    · rw [h, Nat.add_sub_cancel]
      ring
  have hr : ((x.1 + cell.rspan - 1 : Nat) : ℚ) + 1 ≤ t.rows.length := by
    exact_mod_cast (by omega : x.1 + cell.rspan - 1 + 1 ≤ t.rows.length)
  refine ⟨?_, ?_, fun h => ?_, hends⟩
  · rw [rowTop_eq hlt]
    have hx₀ : (0 : ℚ) ≤ x.1 * t.per := mul_nonneg x.1.cast_nonneg hper
    push_cast at hstart
    linarith [hcap.left]
  · rw [hends, hlast, rowTop_eq (by omega), rowHeight_eq (by omega), contentHeight_eq, naturalHeight_eq hx]
    have hm := mul_le_mul_of_nonneg_right hr hper
    rw [hlast, length_shape] at hcap
    push_cast at hend hcap hm ⊢
    linarith [hcap.right]
  · rw [hlast, h, Nat.add_sub_cancel] at hends
    linarith

end Final

end RowsBox

section Flat

variable (style : RowsStyle) (shape : List Row)

-- A table with given spans.
def flat (content : CellId → ℚ) (border : ℚ) (height : Nat → Option ℚ) : RowsBox where
  toRowsStyle := style
  rows        := shape.mapIdx fun r row =>
    { cells  := row.mapIdx fun j cell =>
        { cell with content := content (r, j), edges := border, borderBottom := border }
      height := height r }

variable {style} {shape} {content : CellId → ℚ} {border : ℚ} {height : Nat → Option ℚ} {x : CellId}
  {cell : Cell}

theorem length_flat : (flat style shape content border height).rows.length = shape.length :=
  List.length_mapIdx

theorem shape_flat : (flat style shape content border height).shape = shape := by
  refine List.ext_getElem? fun r => ?_
  rw [RowsBox.shape, List.getElem?_map, flat, List.getElem?_mapIdx]
  cases shape[r]?
  case none     => rfl
  case some row =>
    refine congrArg some (List.ext_getElem? fun j => ?_)
    rw [List.getElem?_map, List.getElem?_mapIdx]
    cases row[j]? <;> rfl

variable (style content border height) in
theorem cell?_flat (h : cellIn shape x = some cell) : (flat style shape content border height).cell? x =
    some { cell with content := content x, edges := border, borderBottom := border } := by
  obtain ⟨row, hrow, hc⟩ := Option.bind_eq_some_iff.mp h
  rw [RowsBox.cell?, flat, List.getElem?_mapIdx, hrow]
  simp only [Option.map_some, Option.bind_some, List.getElem?_mapIdx, hc]

-- Without content other than that of cells which do not end, rows have their own height only.
theorem height_flat {r : Nat} (hr : r < shape.length) (hh : 0 ≤ (height r).getD 0)
    (hc : ∀ x cell, cellIn shape x = some cell → cell.rspan ≤ 1 ∨ Kept shape x cell → content x = 0) :
    (flat style shape content 0 height).height r = (height r).getD 0 := by
  have hl : r < (flat style shape content 0 height).rows.length := length_flat ▸ hr
  obtain ⟨row, hrow⟩ : ∃ row, (flat style shape content 0 height).rows[r]? = some row :=
    ⟨_, List.getElem?_eq_getElem hl⟩
  have hcells : row = { cells := (shape[r]).mapIdx fun j cell =>
      { cell with content := content (r, j), edges := 0, borderBottom := 0 }, height := height r } := by
    have hm := hrow
    rw [flat, List.getElem?_mapIdx, List.getElem?_eq_getElem hr] at hm
    exact (Option.some.inj hm).symm
  rw [RowsBox.height_row hrow]
  refine le_antisymm (RowsBox.heightIn_le.mpr ⟨RowsBox.ownHeight_le.mpr ⟨hh, ?_, ?_⟩, ?_⟩) ?_
  · intro cell hmem hs
    obtain ⟨j, hj⟩ := List.mem_iff_getElem?.mp hmem
    rw [hcells] at hj
    simp only [List.getElem?_mapIdx, Option.map_eq_some_iff] at hj
    obtain ⟨c, hcj, rfl⟩ := hj
    have hin : cellIn shape (r, j) = some c := by
      rw [cellIn, List.getElem?_eq_getElem hr]
      exact hcj
    simp only [hc (r, j) c hin (.inl hs)]
    linarith
  · intro rh hrh
    rw [hcells, Option.mem_def] at hrh
    simp only at hrh
    rw [hrh, Option.getD_some]
  · intro x hx
    obtain ⟨c, hin, hs, he, hk⟩ := (RowsBox.mem_endingIn hrow).mp hx
    rw [shape_flat] at hin hk
    have hcell := cell?_flat style content 0 height hin
    have hp := c.rspan_pos
    have ht := RowsBox.top_le (t := flat style shape content 0 height) hl.le (by omega : x.1 ≤ r)
    rw [RowsBox.topIn_eq hl.le (by omega), RowsBox.content_of_lt hl.le hcell (by simp only; omega),
      RowsBox.edges_of_cell? hcell, ← RowsBox.top]
    simp only [hc x c hin (.inr hk)]
    have hv : 0 ≤ ((r : ℚ) - x.1) * (flat style shape content 0 height).vsp :=
      mul_nonneg (sub_nonneg.mpr (by exact_mod_cast (by omega : x.1 ≤ r))) (RowsStyle.vsp_nonneg _)
    linarith
  · have hle := le_refl ((flat style shape content 0 height).heightIn r row)
    have hown := RowsBox.ownHeight_le.mp (RowsBox.heightIn_le.mp hle).left
    cases hh' : height r
    case none   => exact hown.left
    case some b => exact hown.right.right b (by rw [hcells]; exact hh')

-- Over rows without a height only the spacing adds up.
theorem RowsBox.top_of_height_zero {t : RowsBox} {r s : Nat} (hr : r ≤ s) (hs : s ≤ t.rows.length)
    (h : ∀ q, r ≤ q → q < s → t.height q = 0) : t.top s = t.top r + (s - r) * t.vsp := by
  induction s, hr using Nat.le_induction
  case base => simp
  case succ s hr hi =>
    rw [top_succ hs, h s hr (Nat.lt_succ_self s), hi (by omega) fun q hq hqs => h q hq (by omega)]
    push_cast
    ring

variable (hfits : ∀ t : RowsBox, t.toRowsStyle = style → t.shape = shape → t.Fits)

include hfits

variable (content border height) in
theorem fitsCell_flat (h : cellIn shape x = some cell) : (flat style shape content border height).FitsCell x
    { cell with content := content x, edges := border, borderBottom := border } :=
  hfits _ rfl shape_flat x _ (cell?_flat style content border height h)

theorem kept_of_fits (h : cellIn shape x = some cell) (hs : 1 < cell.rspan) : Kept shape x cell := by
  by_contra hk
  -- Two tables which differ in the height of the cell only.
  let content (v : ℚ) : CellId → ℚ := fun y => if y = x then v else 0
  let t (v : ℚ) := flat style shape (content v) 0 fun _ => none
  have hx : x.1 < shape.length := by
    obtain ⟨row, hrow, -⟩ := Option.bind_eq_some_iff.mp h
    exact (List.getElem?_eq_some_iff.mp hrow).choose
  have hlast : lastRow shape x cell < shape.length := by
    rw [lastRow]
    omega
  have hheight (v : ℚ) (r : Nat) (hr : r < shape.length) : (t v).height r = 0 := by
    refine height_flat hr le_rfl fun y c hy hc => if_neg ?_
    rintro rfl
    cases Option.some.inj (h.symm.trans hy)
    exact hc.elim (fun hle => absurd hs (not_lt.mpr hle)) hk
  have htop (v : ℚ) (r : Nat) (hr : r ≤ shape.length) :
      (t v).top r = style.captionTop + style.vsp + r * style.vsp := by
    rw [RowsBox.top_of_height_zero (Nat.zero_le r) (length_flat ▸ hr) fun q _ hq => hheight v q (by omega)]
    push_cast
    rw [sub_zero]
    rfl
  have hcell (v : ℚ) := cell?_flat style (content v) 0
    (fun _ => none) h
  have hnat (v : ℚ) : (t v).naturalHeight =
      style.captionTop + style.vsp + shape.length * style.vsp + style.captionBottom := by
    rw [RowsBox.naturalHeight_eq (hcell v), length_flat, htop v _ le_rfl]
    rfl
  have hper : (t 0).per = (t 1).per := by
    simp only [RowsBox.per, RowsBox.grows, RowsBox.maxCols, hnat, t, length_flat, shape_flat]
    rfl
  have hends (v : ℚ) : x.1 * (t v).per + v + (t v).per = (lastRow shape x cell - x.1) * style.vsp +
      lastRow shape x cell * (t v).per + (t v).per := by
    have he := (fitsCell_flat (content v) 0 (fun _ => none) hfits h).ends
    have ho : (t v).outerHeight x = v + (t v).per := by
      have hn := RowsBox.content_of_not_kept (t := t v) le_rfl (hcell v) ⟨hs, by rw [shape_flat]; exact hk⟩
      have hr : (t v).removed x = 0 := by
        rw [RowsBox.removed, hcell v]
        split <;> rfl
      rw [RowsBox.outerHeight, ← RowsBox.removed, hr, RowsBox.final, hn, RowsBox.edges_of_cell? (hcell v)]
      simp only [content, if_true]
      ring
    rw [shape_flat] at he
    change (t v).rowTop x.1 + (t v).outerHeight x = (t v).rowTop (lastRow shape x cell) +
      (t v).rowHeight (lastRow shape x cell) at he
    rw [ho, RowsBox.rowTop_eq (length_flat ▸ hx), RowsBox.rowTop_eq (length_flat ▸ hlast),
      RowsBox.rowHeight_eq (length_flat ▸ hlast), htop v _ hx.le, htop v _ hlast.le, hheight v _ hlast] at he
    linarith
  have h₀ := hends 0
  have h₁ := hends 1
  rw [← hper] at h₁
  linarith

theorem le_length_of_fits (h : cellIn shape x = some cell) : x.1 + cell.rspan ≤ shape.length := by
  obtain ⟨row, hrow, -⟩ := Option.bind_eq_some_iff.mp h
  have hx := (List.getElem?_eq_some_iff.mp hrow).choose
  by_cases hs : 1 < cell.rspan
  case pos => exact (kept_of_fits hfits h hs).left
  case neg => omega

-- Where a cell ends by itself, and where its last row does.
variable (content border height) in
theorem ends_flat (h : cellIn shape x = some cell) :
    x.1 * (flat style shape content border height).per - (flat style shape content border height).removed x =
      lastRow shape x cell * (flat style shape content border height).per := by
  have hcell := cell?_flat style content border height h
  have hle := le_length_of_fits hfits h
  have hp := cell.rspan_pos
  have he := (fitsCell_flat content border height hfits h).ends
  rw [RowsBox.outerHeight_eq hcell (length_flat ▸ hle) fun hs => by
    rw [shape_flat]; exact kept_of_fits hfits h hs] at he
  simp only [shape_flat] at he
  have hlast : lastRow shape x cell < shape.length := by
    rw [lastRow]
    omega
  rw [RowsBox.rowTop_eq (by rw [length_flat]; omega), RowsBox.rowTop_eq (length_flat ▸ hlast),
    RowsBox.rowHeight_eq (length_flat ▸ hlast)] at he
  linarith

theorem not_belowNb_of_fits (hc : style.collapse) (x : CellId) : belowNb shape x = false := by
  by_contra hb
  rw [Bool.not_eq_false] at hb
  obtain ⟨cell, h⟩ : ∃ cell, cellIn shape x = some cell := by
    cases hx : cellIn shape x
    case none   => simp [belowNb, hx] at hb
    case some c => exact ⟨c, rfl⟩
  have hp := cell.rspan_pos
  have hle := le_length_of_fits hfits h
  have he := ends_flat (fun _ => 0) 1 (fun _ => none) hfits h
  have hr : (flat style shape (fun _ => 0) 1 fun _ => none).removed x = 1 := by
    have hcol : (flat style shape (fun _ => 0) 1 fun _ => none).collapse = true := hc
    rw [RowsBox.removed, shape_flat, hb, hcol, cell?_flat style _ _ _ h]
    rfl
  have hl : (x.1 : ℚ) ≤ lastRow shape x cell := by
    rw [lastRow]
    exact_mod_cast (by omega : x.1 ≤ min (x.1 + cell.rspan) shape.length - 1)
  have hper := RowsBox.per_nonneg (t := flat style shape (fun _ => 0) 1 fun _ => none)
  have hm := mul_le_mul_of_nonneg_right hl hper
  linarith

theorem target_of_fits {target : ℚ} (ht : style.target = some target) :
    target ≤ style.captionTop + (shape.length + 1) * style.vsp + style.captionBottom + 1 / 2 ∨
      ∀ x, ¬Spanning shape x := by
  by_contra hn
  rw [not_or, not_le] at hn
  obtain ⟨hlt, hs⟩ := hn
  obtain ⟨x, cell, h, hs⟩ := not_forall_not.mp hs
  let t := flat style shape (fun _ => 0) 0 fun _ => none
  have hk := kept_of_fits hfits h hs
  have hcell := cell?_flat style (fun _ => 0) 0 (fun _ => none) h
  have htop : t.top shape.length = style.captionTop + style.vsp + shape.length * style.vsp := by
    rw [RowsBox.top_of_height_zero (Nat.zero_le _) length_flat.ge fun q _ hq => height_flat hq le_rfl fun _ _ _ _ => rfl]
    push_cast
    rw [sub_zero]
    rfl
  have hg : t.grows := by
    refine RowsBox.grows_iff.mpr ⟨target, ht, RowsBox.maxCols_pos hcell, ?_, ?_⟩
    · rw [length_flat]
      have := hk.left
      omega
    · rw [RowsBox.naturalHeight_eq hcell, length_flat, htop]
      have hb : t.captionBottom = style.captionBottom := rfl
      linarith
  have he := ends_flat (fun _ => 0) 0 (fun _ => none) hfits h
  have hr : t.removed x = 0 := by
    rw [RowsBox.removed, hcell]
    split <;> rfl
  have hl : (x.1 : ℚ) + 1 ≤ lastRow shape x cell := by
    have := hk.left
    rw [lastRow, Nat.min_eq_left this]
    exact_mod_cast (by omega : x.1 + 1 ≤ x.1 + cell.rspan - 1)
  have hper := (RowsBox.per_of_grows hg).left
  have hm := mul_le_mul_of_nonneg_right hl hper.le
  rw [hr] at he
  linarith

theorem captions_of_fits (h : cellIn shape x = some cell) :
    0 ≤ style.captionTop + (x.1 + 1) * style.vsp ∧
    0 ≤ (shape.length - lastRow shape x cell) * style.vsp + style.captionBottom := by
  have hle := le_length_of_fits hfits h
  have hp := cell.rspan_pos
  have hlast : lastRow shape x cell = x.1 + cell.rspan - 1 := by rw [lastRow, Nat.min_eq_left hle]
  -- One row is high enough for the table not to grow.
  let base := style.captionTop + (shape.length + 1) * style.vsp + style.captionBottom
  let B := max 0 (style.target.getD 0 - base)
  let t (k : Nat) := flat style shape (fun _ => 0) 0 fun q => if q = k then some B else none
  have hB : 0 ≤ B := le_max_left _ _
  have hheight (k r : Nat) (hr : r < shape.length) : (t k).height r = if r = k then B else 0 := by
    have hh : ((if r = k then some B else none).getD 0 : ℚ) = if r = k then B else 0 := by split <;> rfl
    rw [← hh]
    refine height_flat hr ?_ fun _ _ _ _ => rfl
    simp only [hh]
    split
    case isTrue  => exact hB
    case isFalse => exact le_rfl
  have htop (k : Nat) (hk : k < shape.length) : (t k).top k = style.captionTop + (k + 1) * style.vsp := by
    rw [RowsBox.top_of_height_zero (Nat.zero_le k) (length_flat ▸ hk.le) fun q _ hq => by
      rw [hheight k q (by omega), if_neg (by omega)]]
    have h₀ : (t k).top 0 = style.captionTop + style.vsp := rfl
    have hv : (t k).vsp = style.vsp := rfl
    rw [h₀, hv]
    push_cast
    ring
  have hend (k : Nat) (hk : k < shape.length) :
      (t k).top shape.length = (t k).top k + B + (shape.length - k) * style.vsp := by
    rw [RowsBox.top_of_height_zero (Nat.succ_le_of_lt hk) length_flat.ge fun q hq hql => by
      rw [hheight k q hql, if_neg (by omega)], RowsBox.top_succ (length_flat ▸ hk), hheight k k hk, if_pos rfl]
    have hv : (t k).vsp = style.vsp := rfl
    rw [hv]
    push_cast
    ring
  have hcell (k : Nat) := cell?_flat style (fun _ => 0) 0
    (fun q => if q = k then some B else none) h
  have hnat (k : Nat) : (t k).naturalHeight = (t k).top shape.length + style.captionBottom := by
    rw [RowsBox.naturalHeight_eq (hcell k), length_flat]
    rfl
  have hgrows (k : Nat) (hk : k < shape.length) : ¬(t k).grows := by
    intro hg
    obtain ⟨target, ht, -, -, hlt⟩ := RowsBox.grows_iff.mp hg
    have ht : style.target = some target := ht
    have hb : target - base ≤ B := by
      have hm : style.target.getD 0 - base ≤ B := le_max_right _ _
      rwa [ht, Option.getD_some] at hm
    have hbase : base = style.captionTop + (shape.length + 1) * style.vsp + style.captionBottom := rfl
    rw [hnat, hend k hk, htop k hk] at hlt
    linarith
  constructor
  case left =>
    have hx : x.1 < shape.length := by omega
    have ht := (fitsCell_flat (fun _ => 0) 0
      (fun q => if q = x.1 then some B else none) hfits h).top
    change 0 ≤ (t x.1).rowTop x.1 at ht
    rwa [RowsBox.rowTop_eq (length_flat ▸ hx), (RowsBox.per_of_not_grows (hgrows _ hx)).left, mul_zero,
      add_zero, htop _ hx] at ht
  case right =>
    have hk : lastRow shape x cell < shape.length := by omega
    have hf := fitsCell_flat (fun _ => 0) 0
      (fun q => if q = lastRow shape x cell then some B else none) hfits h
    have hb := hf.bottom
    rw [hf.ends, shape_flat] at hb
    change (t _).rowTop (lastRow shape x cell) + (t _).rowHeight (lastRow shape x cell) ≤ (t _).contentHeight at hb
    have hper := RowsBox.per_of_not_grows (hgrows _ hk)
    rw [RowsBox.rowTop_eq (length_flat ▸ hk), RowsBox.rowHeight_eq (length_flat ▸ hk), hper.left, hper.right,
      hnat, hend _ hk, hheight _ _ hk, if_pos rfl] at hb
    linarith

end Flat

-- One row, whose cell has a content of 10px and asks for two rows.
def outlivingCell : RowsBox where
  rows          := [{ cells := [{ colspan := 1, rowspan := 2, content := 10, edges := 0, borderBottom := 0 }]
                      height := none }]
  captionTop    := 0
  captionBottom := 0
  vsp           := 0
  collapse      := false
  target        := none
  vsp_nonneg    := le_rfl

example : outlivingCell.height 0 = 0 := by decide +kernel

end Nordstjernen.Layout.Table
