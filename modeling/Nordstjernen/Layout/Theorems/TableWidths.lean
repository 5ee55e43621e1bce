import Mathlib.Algebra.BigOperators.Field
import Mathlib.Algebra.Order.BigOperators.Group.Finset
import Mathlib.Algebra.Order.Field.Basic
import Mathlib.Tactic.FieldSimp
import Mathlib.Tactic.Linarith
import Nordstjernen.Layout.Table

namespace Nordstjernen.Layout.Table

section Raise

variable {widths : Nat → ℚ} {col span c : Nat} {per : ℚ}

theorem le_raise : widths c ≤ raise widths col span per c := by
  rw [raise]
  split
  case isTrue h  => exact h.right.right.le
  case isFalse _ => exact le_rfl

theorem raise_of_not_mem (h : ¬(col ≤ c ∧ c < col + span)) : raise widths col span per c = widths c :=
  if_neg fun hc => h ⟨hc.left, hc.right.left⟩

example : raise (fun _ => 2) 1 2 5 1 = 5 ∧ raise (fun _ => 2) 1 2 5 3 = 2 := by decide +kernel

end Raise

namespace TableBox

variable {t : TableBox} {cols : Columns} {col c : Nat}

section Measure

theorem le_naturalCell {cell : SizedCell} : cols.widths c ≤ (t.naturalCell cols col cell).widths c := by
  rw [naturalCell]
  split <;> exact le_raise

theorem le_naturalRow {row : List SizedCell} : cols.widths c ≤ (t.naturalRow cols col row).widths c := by
  induction row generalizing cols col
  case nil => exact le_rfl
  case cons cell row hi => exact le_trans le_naturalCell hi

theorem autoHints_widths {hints : List ColHint} : (t.autoHints cols col hints).widths = cols.widths := by
  induction hints generalizing cols col
  case nil => rfl
  case cons hint hints hi =>
    rw [autoHints]
    split
    case isFalse => rfl
    case isTrue  =>
      rw [hi]
      split <;> rfl

theorem measured_nonneg : 0 ≤ t.measured.widths c := by
  rw [measured, autoHints_widths]
  exact List.foldlRecOn t.rows _ (motive := fun cols : Columns => 0 ≤ cols.widths c) le_rfl
    fun _ h _ _ => h.trans le_naturalRow

-- Explicit widths are known of as soon as there is one.
def Noted (cols : Columns) : Prop :=
  ∀ c, 0 ≤ cols.explicit c → cols.hasExplicit

theorem noted_naturalRow {row : List SizedCell} (h : Noted cols) : Noted (t.naturalRow cols col row) := by
  induction row generalizing cols col
  case nil => exact h
  case cons cell row hi =>
    refine hi ?_
    rw [naturalCell]
    split
    case isTrue  => exact fun _ _ => rfl
    case isFalse => exact h

theorem noted_autoHints {hints : List ColHint} (h : Noted cols) : Noted (t.autoHints cols col hints) := by
  induction hints generalizing cols col
  case nil => exact h
  case cons hint hints hi =>
    rw [autoHints]
    split
    case isFalse => exact h
    case isTrue  =>
      refine hi ?_
      split
      case h_1 => exact h
      case h_2 => exact fun _ _ => rfl

theorem noted_measured : Noted t.measured := by
  refine noted_autoHints (List.foldlRecOn t.rows _ (fun c hc => ?_) fun _ h _ _ => noted_naturalRow h)
  exact absurd (show (0 : ℚ) ≤ -1 from hc) (by norm_num)

theorem le_minRow {mins : Nat → ℚ} {row : List SizedCell} : mins c ≤ t.minRow mins col row c := by
  induction row generalizing mins col
  case nil => exact le_rfl
  case cons cell row hi => exact le_trans le_raise hi

theorem minimums_nonneg : 0 ≤ t.minimums c :=
  List.foldlRecOn t.rows _ (motive := fun mins : Nat → ℚ => 0 ≤ mins c) le_rfl
    fun _ h _ _ => h.trans le_minRow

end Measure

section Fixed

-- A column that nothing has set has no width.
def Zeroed (cols : Columns) : Prop :=
  ∀ c, 0 ≤ cols.widths c ∧ (cols.fixed c = false → cols.widths c = 0)

theorem zeroed_apply {span : Nat} {w : ℚ} (h : Zeroed cols) :
    Zeroed (t.applyFixedTableWidth cols col span w) := by
  rw [applyFixedTableWidth]
  split
  case isTrue  => exact h
  case isFalse =>
    refine fun c => ⟨(h c).left.trans le_raise, fun hf => ?_⟩
    rw [Bool.or_eq_false_iff, decide_eq_false_iff_not] at hf
    exact (raise_of_not_mem hf.right).trans ((h c).right hf.left)

theorem zeroed_fixedHints {hints : List ColHint} (h : Zeroed cols) :
    Zeroed (t.fixedHints cols col hints) := by
  induction hints generalizing cols col
  case nil => exact h
  case cons hint hints hi =>
    refine hi ?_
    split
    case h_1 => exact h
    case h_2 => exact zeroed_apply h

theorem zeroed_fixedRow {row : List SizedCell} (h : Zeroed cols) : Zeroed (t.fixedRow cols col row) := by
  induction row generalizing cols col
  case nil => exact h
  case cons cell row hi =>
    refine hi ?_
    split
    case h_1 => exact h
    case h_2 => exact zeroed_apply h

theorem zeroed_fixedColumns : Zeroed t.fixedColumns :=
  zeroed_fixedRow (zeroed_fixedHints fun _ => ⟨le_rfl, fun _ => rfl⟩)

end Fixed

section Preferred

theorem preferred_nonneg : 0 ≤ t.preferred c := by
  rw [preferred]
  split
  case isFalse => exact measured_nonneg
  case isTrue h =>
    split
    case isTrue hlt => exact h.trans hlt.le
    case isFalse    => exact h

theorem naturalSum_nonneg : 0 ≤ t.naturalSum :=
  Finset.sum_nonneg fun _ _ => preferred_nonneg

-- Where the widths are too large, the minimums have been measured.
theorem colMin_of_lt (hpos : 0 < t.colAvail) (h : t.colAvail < t.naturalSum) : t.colMin = t.minimums := by
  rw [colMin]
  refine if_pos ?_
  cases he : t.measured.hasExplicit
  case true  => rfl
  case false =>
    have hp : t.preferred = t.measured.widths := funext fun c => if_neg fun hc => by
      rw [noted_measured c hc] at he
      cases he
    rw [naturalSum, hp] at h
    simpa using ⟨h, hpos⟩

end Preferred

section Sums

variable {f g : Nat → ℚ}

theorem sum_div (f : Nat → ℚ) (d : ℚ) : (t.sum fun c => f c / d) = t.sum f / d :=
  (Finset.sum_div ..).symm

theorem sum_mul_left (a : ℚ) (f : Nat → ℚ) : (t.sum fun c => a * f c) = a * t.sum f :=
  (Finset.mul_sum ..).symm

theorem sum_mul_right (f : Nat → ℚ) (a : ℚ) : (t.sum fun c => f c * a) = t.sum f * a :=
  (Finset.sum_mul ..).symm

theorem sum_add (f g : Nat → ℚ) : (t.sum fun c => f c + g c) = t.sum f + t.sum g :=
  Finset.sum_add_distrib

theorem sum_sub (f g : Nat → ℚ) : (t.sum fun c => f c - g c) = t.sum f - t.sum g :=
  Finset.sum_sub_distrib ..

theorem sum_const (a : ℚ) : (t.sum fun _ => a) = t.maxCols * a := by
  rw [sum, Finset.sum_const, Finset.card_range, nsmul_eq_mul]

end Sums

end TableBox

namespace WideTable

open TableBox

variable {t : WideTable} {c : Nat}

section Fixed

-- What the set columns leave.
def remaining (t : WideTable) : ℚ :=
  if t.colAvail - t.sum t.fixedColumns.widths < 0 then 0 else t.colAvail - t.sum t.fixedColumns.widths

theorem remaining_nonneg : 0 ≤ t.remaining := by
  rw [remaining]
  split
  case isTrue    => exact le_rfl
  case isFalse h => exact not_lt.mp h

theorem unset_nonneg : 0 ≤ t.unset :=
  Finset.sum_nonneg fun _ _ => by split <;> norm_num

theorem layoutFixed_eq : t.layoutFixedTableColumns = fun c =>
    if 0 < t.unset then if t.fixedColumns.fixed c then t.fixedColumns.widths c else t.remaining / t.unset
    else if 0 < t.remaining ∧ 0 < t.maxCols then t.fixedColumns.widths c + t.remaining / t.maxCols
    else t.fixedColumns.widths c :=
  rfl

theorem layoutFixed_nonneg : 0 ≤ t.layoutFixedTableColumns c := by
  have hz := (zeroed_fixedColumns (t := t.toTableBox) c).left
  simp only [layoutFixed_eq]
  split_ifs
  · exact hz
  · exact div_nonneg remaining_nonneg unset_nonneg
  · exact add_nonneg hz (div_nonneg remaining_nonneg t.maxCols.cast_nonneg)
  · exact hz

theorem sum_layoutFixed :
    t.sum t.layoutFixedTableColumns = t.sum t.fixedColumns.widths + t.remaining := by
  rw [sum]
  simp only [layoutFixed_eq]
  by_cases hu : 0 < t.unset
  case pos =>
    have hf : (fun c => if t.fixedColumns.fixed c then t.fixedColumns.widths c else t.remaining / t.unset) =
        fun c => t.fixedColumns.widths c +
          t.remaining * ((if t.fixedColumns.fixed c then 0 else 1) / t.unset) := by
      funext c
      split
      case isTrue    => simp
      case isFalse h =>
        rw [(zeroed_fixedColumns c).right (by simpa using h), zero_add, mul_one_div]
    have hs : (t.sum fun c => if t.fixedColumns.fixed c then 0 else 1) = t.unset := rfl
    simp only [if_pos hu]
    rw [← sum, hf, sum_add, sum_mul_left, sum_div, hs, div_self hu.ne', mul_one]
  case neg =>
    simp only [if_neg hu]
    by_cases hr : 0 < t.remaining
    case pos =>
      have hn : (0 : ℚ) < t.maxCols := by exact_mod_cast t.cols_pos
      simp only [if_pos (And.intro hr t.cols_pos)]
      rw [← sum, sum_add, sum_const, mul_div_cancel₀ _ hn.ne']
    case neg =>
      have h₀ : t.remaining = 0 := le_antisymm (not_lt.mp hr) remaining_nonneg
      simp only [if_neg fun h : 0 < t.remaining ∧ 0 < t.maxCols => hr h.left]
      rw [← sum, h₀, add_zero]

theorem colAvail_le_sum_layoutFixed : t.colAvail ≤ t.sum t.layoutFixedTableColumns := by
  rw [sum_layoutFixed, remaining]
  split <;> linarith

end Fixed

theorem cols_cast_pos (t : WideTable) : (0 : ℚ) < t.maxCols := by
  exact_mod_cast t.cols_pos

theorem colAvail_add_totalHsp (t : WideTable) : t.colAvail + t.totalHsp = t.cw := by
  have h := t.avail_pos
  rw [colAvail] at h
  split at h
  case isTrue     => exact absurd h (lt_irrefl 0)
  case isFalse hn => rw [colAvail, if_neg hn, sub_add_cancel]

-- What a column loses in proportion to what it has above its minimum.
theorem shrunk_eq (h : t.colAvail < t.naturalSum) (hm : t.sum t.colMin < t.colAvail) : t.shrunk = fun c =>
    t.colMin c + (t.preferred c - t.colMin c) *
      ((t.colAvail - t.sum t.colMin) / (t.naturalSum - t.sum t.colMin)) := by
  have hs : 0 < t.naturalSum - t.sum t.colMin := by linarith
  simp only [shrunk, if_neg (not_le.mpr hm), if_pos hs]

theorem sum_shrunk (h : t.colAvail < t.naturalSum) : t.sum t.shrunk = t.colAvail := by
  have hpos := t.avail_pos
  by_cases hm : t.colAvail ≤ t.sum t.colMin
  case pos =>
    have hs : 0 < t.sum t.colMin := hpos.trans_le hm
    simp only [shrunk, if_pos hm, if_pos hs]
    rw [sum_div, sum_mul_left, mul_div_cancel_right₀ _ hs.ne']
  case neg =>
    have hs : 0 < t.naturalSum - t.sum t.colMin := by linarith
    rw [shrunk_eq h (not_le.mp hm), sum_add, sum_mul_right, sum_sub, ← naturalSum,
      mul_div_cancel₀ _ hs.ne', add_sub_cancel]

-- A convex combination of the minimum and the preferred width.
theorem shrunk_nonneg (h : t.colAvail < t.naturalSum) (hc : 0 ≤ t.colMin c) : 0 ≤ t.shrunk c := by
  have hpos := t.avail_pos
  by_cases hm : t.colAvail ≤ t.sum t.colMin
  case pos =>
    have hs : 0 < t.sum t.colMin := hpos.trans_le hm
    simp only [shrunk, if_pos hm, if_pos hs]
    exact div_nonneg (mul_nonneg hpos.le hc) hs.le
  case neg =>
    have hs : 0 < t.naturalSum - t.sum t.colMin := by linarith
    have hf : 0 ≤ (t.colAvail - t.sum t.colMin) / (t.naturalSum - t.sum t.colMin) :=
      div_nonneg (by linarith) hs.le
    have hf₁ : (t.colAvail - t.sum t.colMin) / (t.naturalSum - t.sum t.colMin) ≤ 1 :=
      (div_le_one hs).mpr (by linarith)
    rw [shrunk_eq h (not_le.mp hm)]
    have hp := mul_nonneg (preferred_nonneg (t := t.toTableBox) (c := c)) hf
    have hq := mul_nonneg hc (sub_nonneg.mpr hf₁)
    linarith

theorem colMin_le_shrunk_iff (h : t.colAvail < t.naturalSum) (hm : t.sum t.colMin < t.colAvail) :
    t.colMin c ≤ t.shrunk c ↔ t.colMin c ≤ t.preferred c := by
  have hf : 0 < (t.colAvail - t.sum t.colMin) / (t.naturalSum - t.sum t.colMin) :=
    div_pos (by linarith) (by linarith)
  rw [shrunk_eq h hm, le_add_iff_nonneg_right, mul_nonneg_iff_of_pos_right hf, sub_nonneg]

theorem part_nonneg (h : t.naturalSum ≤ t.colAvail) : 0 ≤ t.part c := by
  have hf : 0 ≤ t.colAvail - t.naturalSum := sub_nonneg.mpr h
  have hp := preferred_nonneg (t := t.toTableBox) (c := c)
  have hn := naturalSum_nonneg (t := t.toTableBox)
  simp only [part]
  split_ifs with _ _ he hx hk
  · exact div_nonneg hf t.cols_cast_pos.le
  · exact le_rfl
  · exact le_rfl
  · exact mul_nonneg hf (div_nonneg hp he.le)
  · exact le_rfl
  · exact div_nonneg hf (by assumption : 0 < t.elasticCount).le
  · exact mul_nonneg hf (div_nonneg hp hn)

theorem grown_eq (hn : t.naturalSum ≠ 0) (hx : t.explicitWidth) (h : t.naturalSum ≤ t.colAvail) :
    t.grown = fun c => t.preferred c + t.part c := by
  funext c
  have hpos : 0 < t.naturalSum := naturalSum_nonneg.lt_of_ne hn.symm
  simp only [grown, part, if_neg hn, hx, Bool.not_true, Bool.false_eq_true, if_false, if_pos hpos]
  rcases h.eq_or_lt with he | hlt
  · rw [if_neg fun hc => absurd hc.left (by linarith), he]
    simp
  · rw [if_pos ⟨sub_pos.mpr hlt, t.cols_pos⟩]
    split_ifs <;> simp_all [mul_div_assoc]

theorem sum_part (hx : t.naturalSum = 0 ∨ t.explicitWidth) : t.sum t.part = t.colAvail - t.naturalSum := by
  rw [sum]
  by_cases hn : t.naturalSum = 0
  case pos =>
    simp only [part, if_pos hn]
    rw [← sum, sum_const, mul_div_cancel₀ _ t.cols_cast_pos.ne']
  case neg =>
    have hx := hx.resolve_left hn
    simp only [part, if_neg hn, hx, Bool.not_true, Bool.false_eq_true, if_false]
    by_cases he : 0 < t.elasticNatural
    case pos =>
      have hf : (fun c => if t.isFixed c then 0 else
          (t.colAvail - t.naturalSum) * (t.preferred c / t.elasticNatural)) = fun c =>
          (t.colAvail - t.naturalSum) * ((if t.isFixed c then 0 else t.preferred c) / t.elasticNatural) := by
        funext c
        split <;> simp
      simp only [if_pos he]
      rw [← sum, hf, sum_mul_left, sum_div]
      have hs : (t.sum fun c => if t.isFixed c then 0 else t.preferred c) = t.elasticNatural := rfl
      rw [hs, div_self he.ne', mul_one]
    case neg =>
      simp only [if_neg he]
      by_cases hk : 0 < t.elasticCount
      case pos =>
        have hf : (fun c => if t.isFixed c then 0 else (t.colAvail - t.naturalSum) / t.elasticCount) =
            fun c => (t.colAvail - t.naturalSum) * ((if t.isFixed c then 0 else 1) / t.elasticCount) := by
          funext c
          split <;> simp [div_eq_mul_inv]
        have hs : (t.sum fun c => if t.isFixed c then 0 else 1) = t.elasticCount := rfl
        simp only [if_pos hk]
        rw [← sum, hf, sum_mul_left, sum_div, hs, div_self hk.ne', mul_one]
      case neg =>
        simp only [if_neg hk]
        rw [← sum, sum_mul_left, sum_div, ← naturalSum, div_self hn, mul_one]

theorem preferred_of_naturalSum (hn : t.naturalSum = 0) (hc : c < t.maxCols) : t.preferred c = 0 := by
  have hs : ∑ c ∈ Finset.range t.maxCols, t.preferred c = 0 := hn
  exact (Finset.sum_eq_zero_iff_of_nonneg fun _ _ => preferred_nonneg).mp hs c (Finset.mem_range.mpr hc)

-- Where the preferred widths fit, each column has its own and its part.
theorem autoColumns_eq (h : t.naturalSum ≤ t.colAvail) (hc : c < t.maxCols) :
    t.autoColumns.1 c = t.preferred c + t.part c := by
  rw [autoColumns, if_neg fun hlt => absurd hlt.left (not_lt.mpr h)]
  by_cases hn : t.naturalSum = 0
  case pos => rw [if_pos hn, preferred_of_naturalSum hn hc, zero_add, part, if_pos hn, hn, sub_zero]
  case neg =>
    rw [if_neg hn]
    by_cases hx : t.explicitWidth
    case pos => rw [if_pos hx, grown_eq hn hx h]
    case neg =>
      have hp : t.part c = 0 := by simp [part, hn, hx]
      rw [if_neg hx, hp, add_zero]

theorem autoColumns_of_lt (h : t.colAvail < t.naturalSum) : t.autoColumns = (t.shrunk, t.cw) :=
  if_pos ⟨h, t.avail_pos⟩

theorem autoColumns_nonneg (hc : c < t.maxCols) : 0 ≤ t.autoColumns.1 c := by
  rcases lt_or_ge t.colAvail t.naturalSum with h | h
  · rw [autoColumns_of_lt h]
    exact shrunk_nonneg h (colMin_of_lt t.avail_pos h ▸ minimums_nonneg)
  · rw [autoColumns_eq h hc]
    exact add_nonneg preferred_nonneg (part_nonneg h)

theorem sum_autoColumns : t.sum t.autoColumns.1 + t.totalHsp = t.autoColumns.2 := by
  have hw := t.colAvail_add_totalHsp
  rcases lt_or_ge t.colAvail t.naturalSum with h | h
  · rw [autoColumns_of_lt h, sum_shrunk h, hw]
  · have hs : t.sum t.autoColumns.1 = t.naturalSum + t.sum t.part := by
      rw [naturalSum, ← sum_add]
      exact Finset.sum_congr rfl fun c hc => autoColumns_eq h (Finset.mem_range.mp hc)
    rw [hs, autoColumns, if_neg fun hlt => absurd hlt.left (not_lt.mpr h)]
    by_cases hx : t.naturalSum = 0 ∨ t.explicitWidth
    case pos =>
      rw [sum_part hx]
      split_ifs with hn
      · linarith
      · linarith
      · exact absurd hx (not_or_intro hn ‹_›)
    case neg =>
      have ⟨hn, he⟩ := not_or.mp hx
      have hp : t.part = fun _ => 0 := by
        funext c
        simp [part, hn, he]
      rw [if_neg hn, if_neg he, hp, sum_const, mul_zero, add_zero]

theorem minimums_le_shrunk (h : t.colAvail < t.naturalSum) (hm : t.colAvail = t.sum t.minimums) :
    t.shrunk c = t.minimums c := by
  have hpos := t.avail_pos
  have hmin := colMin_of_lt hpos h
  have hs : 0 < t.sum t.colMin := by rw [hmin, ← hm]; exact hpos
  simp only [shrunk, hmin, if_pos hm.le]
  rw [if_pos (hm ▸ hpos), ← hm, mul_div_cancel_left₀ _ hpos.ne']

theorem minimums_le_autoColumns_iff :
    (t.colAvail < t.sum t.minimums ∨ ∀ c < t.maxCols, t.minimums c ≤ t.autoColumns.1 c) ↔
      t.MinimumsKept := by
  rw [MinimumsKept]
  by_cases ho : t.colAvail < t.sum t.minimums
  case pos => exact iff_of_true (.inl ho) (.inl ho)
  case neg =>
    rw [or_iff_right ho, or_iff_right ho]
    split
    case isTrue h =>
      have hmin := colMin_of_lt t.avail_pos h
      rw [autoColumns_of_lt h]
      by_cases he : t.colAvail = t.sum t.minimums
      case pos => exact iff_of_true (fun c _ => (minimums_le_shrunk h he).ge) (.inl he)
      case neg =>
        have hm : t.sum t.colMin < t.colAvail := hmin ▸ (not_lt.mp ho).lt_of_ne (Ne.symm he)
        rw [or_iff_right he]
        refine forall₂_congr fun c _ => ?_
        rw [← hmin]
        exact colMin_le_shrunk_iff h hm
    case isFalse h =>
      refine forall₂_congr fun c hc => ?_
      rw [autoColumns_eq (not_lt.mp h) hc]

-- The widths are not negative and fill the table in all cases. In automatic layout they respect the
-- minimums exactly if those are kept before.
theorem distributes_iff (t : WideTable) :
    t.Distributes ↔ (t.explicitWidth && t.fixedLayout) = true ∨ t.MinimumsKept := by
  cases hf : t.explicitWidth && t.fixedLayout
  case true =>
    refine iff_of_true ⟨fun c _ => ?_, ?_, fun h => absurd h (by simp [hf])⟩ (.inl rfl)
    · rw [columns, if_pos hf]
      exact layoutFixed_nonneg
    · rw [columns, if_pos hf]
      dsimp only
      split
      case isTrue  => rfl
      case isFalse h =>
        rw [le_antisymm (not_lt.mp h) colAvail_le_sum_layoutFixed, colAvail_add_totalHsp]
  case false =>
    have hc : t.columns = t.autoColumns := if_neg (by simp [hf])
    rw [or_iff_right Bool.false_ne_true, ← minimums_le_autoColumns_iff]
    constructor
    case mp  => exact fun h => hc ▸ h.kept hf
    case mpr =>
      intro h
      exact ⟨fun c h => hc ▸ autoColumns_nonneg h, hc ▸ sum_autoColumns, fun _ => hc ▸ h⟩

def plainCell (natural minimal : ℚ) : SizedCell where
  colspan := 1
  rowspan := 1
  natural := natural
  minimal := minimal
  edges   := fun _ => 0
  width   := none

-- In 800px, a cell with one letter in a box of `width: calc(320px + 1%)`, and a cell with a long text.
def narrowNatural : WideTable where
  rows          := [[plainCell 10 320, plainCell 1000 50]]
  hints         := []
  explicitWidth := false
  fixedLayout   := false
  cw            := 800
  hsp           := 0
  cols_pos      := by decide +kernel
  avail_pos     := by decide +kernel

theorem not_distributes_narrowNatural : ¬∀ t : WideTable, t.Distributes := by
  intro h
  rcases (h narrowNatural).kept rfl with hlt | hc
  · exact absurd hlt (by decide +kernel)
  · exact absurd (hc 0 narrowNatural.cols_pos) (by decide +kernel)

end WideTable

end Nordstjernen.Layout.Table
