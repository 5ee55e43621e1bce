import Mathlib.Order.Lattice.Nat
import Nordstjernen.Layout.Table

namespace Nordstjernen.Layout.Table

theorem Cell.span_pos (cell : Cell) : 0 < cell.span := by
  rw [span]
  split <;> omega

variable {maxCols col c r R n : Nat} {row : Row} {rows : List Row} {above before slots : List Slot}
  {s : Slot}

theorem skip_of_not {p : Nat → Bool} (h : p col = false) : skip p n col = col := by
  cases n <;> simp [skip, h]

theorem Slot.mem_descend {a : Slot} (h : a ∈ slots) (hr : 1 < a.rows) :
    { a with rows := a.rows - 1 } ∈ descend slots :=
  List.mem_map.mpr ⟨a, List.mem_filter.mpr ⟨h, by simpa using hr⟩, rfl⟩

section Running

theorem mem_runningSlots (h : s ∈ runningSlots col row) :
    col ≤ s.col ∧ s.col + s.span ≤ col + rowWidth row := by
  induction row generalizing col <;> simp only [runningSlots, List.mem_cons, List.not_mem_nil] at h
  case cons cell cells hi =>
    rw [rowWidth_cons]
    cases h
    case inl h => subst h; simp only; omega
    case inr h => have := hi h; omega

theorem exists_mem_runningSlots (h : row ≠ []) :
    ∃ s ∈ runningSlots col row, s.col + s.span = col + rowWidth row := by
  induction row generalizing col
  case nil => exact absurd rfl h
  case cons cell cells hi =>
    by_cases hc : cells = []
    case pos => exact ⟨_, List.mem_cons_self, by simp [hc]⟩
    case neg =>
      have ⟨s, hs, he⟩ : ∃ s ∈ runningSlots (col + cell.span) cells, _ := hi hc
      exact ⟨s, List.mem_cons_of_mem _ hs, by rw [he, rowWidth_cons, Nat.add_assoc]⟩

theorem runningSlots_apart : (runningSlots col row).Pairwise fun s t => s.col + s.span ≤ t.col := by
  induction row generalizing col
  case nil => exact .nil
  case cons cell cells hi => exact .cons (fun t ht => (mem_runningSlots ht).left) hi

end Running

section Count

theorem countRow_eq (h : c + rowWidth row ≤ tableMaxCols) : countRow c row = c + rowWidth row := by
  induction row generalizing c
  case nil => rfl
  case cons cell cells hi =>
    rw [rowWidth_cons] at h
    rw [countRow, if_neg (by omega), hi (by omega), rowWidth_cons, Nat.add_assoc]

theorem countColumns_le (h : ∀ row ∈ rows, rowWidth row ≤ tableMaxCols) {m : Nat} :
    countColumns rows ≤ m ↔ ∀ row ∈ rows, rowWidth row ≤ m := by
  have hf (k : Nat) : rows.foldl (fun m row => max m (countRow 0 row)) k ≤ m ↔
      k ≤ m ∧ ∀ row ∈ rows, rowWidth row ≤ m := by
    induction rows generalizing k
    case nil => simp
    case cons row rows hi =>
      have hr : countRow 0 row = 0 + rowWidth row := countRow_eq (by simpa using h row (by simp))
      rw [Nat.zero_add] at hr
      rw [List.foldl_cons, hi (fun r hm => h r (by simp [hm])), hr]
      simp [and_assoc]
  simpa [countColumns] using hf 0

theorem rowWidth_le_countColumns (h : ∀ row ∈ rows, rowWidth row ≤ tableMaxCols) :
    ∀ row ∈ rows, rowWidth row ≤ countColumns rows :=
  (countColumns_le h).mp le_rfl

theorem isLeast_countColumns (h : ∀ row ∈ rows, rowWidth row ≤ tableMaxCols) :
    IsLeast { m | ∀ slots ∈ rows.map (runningSlots 0), ∀ s ∈ slots, s.col + s.span ≤ m }
      (countColumns rows) := by
  constructor
  · intro slots hs s hm
    obtain ⟨row, hr, rfl⟩ := List.mem_map.mp hs
    have := (mem_runningSlots hm).right
    have := rowWidth_le_countColumns h row hr
    omega
  · intro m hm
    refine (countColumns_le h).mpr fun row hr => ?_
    by_cases he : row = []
    case pos => simp [he]
    case neg =>
      have ⟨s, hs, hw⟩ : ∃ s ∈ runningSlots 0 row, _ := exists_mem_runningSlots he
      have := hm _ (List.mem_map_of_mem hr) s hs
      omega

end Count

theorem measureRow_eq (h : col + rowWidth row ≤ maxCols) :
    measureRow maxCols col row = (runningSlots col row).map Slot.placed := by
  induction row generalizing col
  case nil => rfl
  case cons cell cells hi =>
    rw [rowWidth_cons] at h
    rw [measureRow, hi (by omega), runningSlots, List.map_cons, Slot.placed, Nat.min_eq_left (by omega)]

section Model

theorem modelRow_of_clear (hb : ∀ c, (∃ s ∈ before, s.Covers c) ↔ c < col)
    (hc : ∀ s ∈ runningSlots col row, ∀ a ∈ above, ¬a.Covers s.col) :
    ModelRow above before row (runningSlots col row) := by
  induction row generalizing col before
  case nil => exact .nil
  case cons cell cells hi =>
    refine .cons ⟨?_, ?_⟩ (hi ?_ fun s hs => hc s (List.mem_cons_of_mem _ hs))
    · intro s hs hcov
      cases List.mem_append.mp hs
      case inl ha => exact hc _ List.mem_cons_self s ha hcov
      case inr hm => exact absurd ((hb col).mp ⟨s, hm, hcov⟩) (by omega)
    · intro c hfree
      by_contra hlt
      have ⟨s, hs, hcov⟩ := (hb c).mpr (by omega)
      exact hfree s (List.mem_append_right _ hs) hcov
    · intro c
      simp only [List.mem_append, List.mem_singleton, or_and_right, exists_or, exists_eq_left, hb c]
      simp only [Slot.Covers]
      omega

theorem model_of_clear (h : Clear above rows) : Model above rows (rows.map (runningSlots 0)) := by
  induction rows generalizing above
  case nil => exact .nil
  case cons row rows hi =>
    exact .cons (modelRow_of_clear (by simp) h.left) (hi h.right)

theorem exists_isLeast_free (ss : List Slot) : ∃ c, IsLeast { c | ∀ s ∈ ss, ¬s.Covers c } c := by
  have hb (ss : List Slot) : ∃ b, ∀ s ∈ ss, s.col + s.span ≤ b := by
    induction ss
    case nil => exact ⟨0, by simp⟩
    case cons s ss hi =>
      have ⟨b, hb⟩ := hi
      refine ⟨s.col + s.span + b, ?_⟩
      intro t ht
      cases List.mem_cons.mp ht
      case inl h => subst h; omega
      case inr h => have := hb t h; omega
  have ⟨b, hb⟩ := hb ss
  have hn : { c | ∀ s ∈ ss, ¬s.Covers c }.Nonempty :=
    ⟨b, fun s hs hc => absurd hc.right (by have := hb s hs; omega)⟩
  exact ⟨sInf _, Nat.sInf_mem hn, fun _ h => Nat.sInf_le h⟩

theorem exists_modelRow (above before : List Slot) (row : Row) :
    ∃ slots, ModelRow above before row slots := by
  induction row generalizing before
  case nil => exact ⟨[], .nil⟩
  case cons cell cells hi =>
    have ⟨col, hcol⟩ := exists_isLeast_free (above ++ before)
    have ⟨slots, hs⟩ := hi (before ++ [⟨col, cell.span, cell.rspan⟩])
    exact ⟨_, .cons hcol hs⟩

-- Every table has a place for each of its cells, and only one.
theorem exists_model (above : List Slot) (rows : List Row) : ∃ slotss, Model above rows slotss := by
  induction rows generalizing above
  case nil => exact ⟨[], .nil⟩
  case cons row rows hi =>
    have ⟨slots, hs⟩ := exists_modelRow above [] row
    have ⟨slotss, h⟩ := hi (Slot.descend (above ++ slots))
    exact ⟨_, .cons hs h⟩

theorem ModelRow.unique {slots' : List Slot} (h : ModelRow above before row slots)
    (h' : ModelRow above before row slots') : slots = slots' := by
  induction h generalizing slots'
  case nil => cases h'; rfl
  case cons hcol _ hi =>
    cases h'
    case cons hcol' hrest =>
      cases hcol.unique hcol'
      rw [hi hrest]

theorem Model.unique {slotss slotss' : List (List Slot)} (h : Model above rows slotss)
    (h' : Model above rows slotss') : slotss = slotss' := by
  induction h generalizing slotss'
  case nil => cases h'; rfl
  case cons hrow _ hi =>
    cases h'
    case cons hrow' hrest =>
      cases hrow.unique hrow'
      rw [hi hrest]

end Model

section Placement

variable {remain : Nat → Nat}

-- Every row that `rs_remain` still counts is one that some slot reaches down to.
def Counted (above : List Slot) (remain : Nat → Nat) : Prop :=
  ∀ c, 0 < remain c → ∃ a ∈ above, a.Covers c ∧ remain c ≤ a.rows

theorem placeRow_eq (hr : Counted (above ++ before) remain)
    (hb : ∀ s ∈ before, s.col + s.span ≤ col)
    (hc : ∀ s ∈ runningSlots col row, ∀ a ∈ above, ¬a.Covers s.col)
    (hw : col + rowWidth row ≤ maxCols) :
    ∃ remain', placeRow maxCols remain col row = ((runningSlots col row).map Slot.placed, remain') ∧
      Counted (above ++ (before ++ runningSlots col row)) remain' := by
  induction row generalizing col before remain
  case nil => exact ⟨remain, rfl, by simpa [runningSlots] using hr⟩
  case cons cell cells hi =>
    rw [rowWidth_cons] at hw
    have hz : remain col = 0 := by
      by_contra hn
      have ⟨a, ha, hcov, _⟩ := hr col (by omega)
      cases List.mem_append.mp ha
      case inl ha => exact hc _ List.mem_cons_self a ha hcov
      case inr ha => have := hb a ha; have := hcov.right; omega
    have hs : skip (fun c => 0 < remain c) (maxCols - col) col = col := skip_of_not (by simp [hz])
    have hm : min cell.span (maxCols - col) = cell.span := by omega
    have hr' : Counted (above ++ (before ++ [⟨col, cell.span, cell.rspan⟩]))
        (if 1 < cell.rspan
          then fun c => if col ≤ c ∧ c < col + cell.span then cell.rspan else remain c
          else remain) := by
      intro c hpos
      by_cases hcov : 1 < cell.rspan ∧ col ≤ c ∧ c < col + cell.span
      case pos => exact ⟨⟨col, cell.span, cell.rspan⟩, by simp, hcov.right, by simp [hcov]⟩
      case neg =>
        have he : (if 1 < cell.rspan
            then fun c => if col ≤ c ∧ c < col + cell.span then cell.rspan else remain c
            else remain) c = remain c := by
          split
          case isTrue h  => exact if_neg fun h' => hcov ⟨h, h'⟩
          case isFalse h => rfl
        rw [he] at hpos ⊢
        have ⟨a, ha, hac, hle⟩ := hr c hpos
        refine ⟨a, ?_, hac, hle⟩
        rw [← List.append_assoc]
        exact List.mem_append_left _ ha
    have hb' : ∀ s ∈ before ++ [⟨col, cell.span, cell.rspan⟩], s.col + s.span ≤ col + cell.span := by
      intro s hs
      simp only [List.mem_append, List.mem_singleton] at hs
      cases hs
      case inl h => have := hb s h; omega
      case inr h => subst h; exact le_rfl
    have ⟨remain', he, hcount⟩ := hi hr' hb' (fun s hs => hc s (List.mem_cons_of_mem _ hs)) (by omega)
    refine ⟨remain', ?_, by simpa [runningSlots] using hcount⟩
    simp only [placeRow, hs, hm, he, runningSlots, List.map_cons, Slot.placed]

theorem Counted.descend (h : Counted above remain) :
    Counted (Slot.descend above) fun c => remain c - 1 := by
  intro c hc
  simp only at hc
  have ⟨a, ha, hcov, hle⟩ := h c (by omega)
  exact ⟨_, Slot.mem_descend ha (by omega), hcov, by simp only; omega⟩

theorem placeRows_eq (hr : Counted above remain) (h : Clear above rows)
    (hw : ∀ row ∈ rows, rowWidth row ≤ maxCols) :
    placeRows maxCols remain rows = (rows.map (runningSlots 0)).map (·.map Slot.placed) := by
  induction rows generalizing above remain
  case nil => rfl
  case cons row rows hi =>
    have hr₀ : Counted (above ++ []) remain := by simpa using hr
    have hw₀ : 0 + rowWidth row ≤ maxCols := by simpa using hw row (by simp)
    have ⟨remain', he, hcount⟩ := placeRow_eq hr₀ (by simp) h.left hw₀
    rw [List.nil_append] at hcount
    rw [placeRows, he]
    simp only [hi hcount.descend h.right fun r hm => hw r (by simp [hm])]
    rfl

end Placement

section Collapse

variable {grid : Nat → Nat → Bool}

-- Every slot that the grid has taken from row `r` on is one that a slot reaches.
def Taken (r : Nat) (above : List Slot) (grid : Nat → Nat → Bool) : Prop :=
  ∀ r' c, r ≤ r' → grid r' c → ∃ a ∈ above, a.Covers c ∧ r' < r + a.rows

theorem collapseRow_eq (hg : Taken r (above ++ before) grid)
    (hb : ∀ s ∈ before, s.col + s.span ≤ col)
    (hc : ∀ s ∈ runningSlots col row, ∀ a ∈ above, ¬a.Covers s.col)
    (hw : col + rowWidth row ≤ maxCols) :
    ∃ grid', collapseRow maxCols R r grid col row =
        ((runningSlots col row).map Slot.placed, grid') ∧
      Taken r (above ++ (before ++ runningSlots col row)) grid' := by
  induction row generalizing col before grid
  case nil => exact ⟨grid, rfl, by simpa [runningSlots] using hg⟩
  case cons cell cells hi =>
    rw [rowWidth_cons] at hw
    have hpos := cell.span_pos
    have hz : grid r col = false := by
      by_contra hn
      have ⟨a, ha, hcov, _⟩ := hg r col le_rfl (by simpa using hn)
      cases List.mem_append.mp ha
      case inl ha => exact hc _ List.mem_cons_self a ha hcov
      case inr ha => have := hb a ha; have := hcov.right; omega
    have hs : skip (grid r) (maxCols - col) col = col := skip_of_not hz
    have hm : min cell.span (maxCols - col) = cell.span := by omega
    have hg' : Taken r (above ++ (before ++ [⟨col, cell.span, cell.rspan⟩])) fun r' c =>
        grid r' c ||
        (decide (r ≤ r' ∧ r' < r + cell.rspan ∧ r' < R) &&
          decide (col ≤ c ∧ c < col + cell.span ∧ c < maxCols)) := by
      intro r' c hr' hor
      cases Bool.or_eq_true_iff.mp hor
      case inl h =>
        have ⟨a, ha, hac, hlt⟩ := hg r' c hr' h
        refine ⟨a, ?_, hac, hlt⟩
        rw [← List.append_assoc]
        exact List.mem_append_left _ ha
      case inr h =>
        simp only [Bool.and_eq_true, decide_eq_true_eq] at h
        exact ⟨⟨col, cell.span, cell.rspan⟩, by simp, ⟨h.right.left, h.right.right.left⟩,
          h.left.right.left⟩
    have hb' : ∀ s ∈ before ++ [⟨col, cell.span, cell.rspan⟩], s.col + s.span ≤ col + cell.span := by
      intro s hs
      simp only [List.mem_append, List.mem_singleton] at hs
      cases hs
      case inl h => have := hb s h; omega
      case inr h => subst h; exact le_rfl
    have ⟨grid', he, ht⟩ := hi hg' hb' (fun s hs => hc s (List.mem_cons_of_mem _ hs)) (by omega)
    refine ⟨grid', ?_, by simpa [runningSlots] using ht⟩
    simp only [collapseRow, hs, hm, he, runningSlots, List.map_cons, Slot.placed]
    rw [if_neg (by omega)]

theorem Taken.descend (h : Taken r above grid) : Taken (r + 1) (Slot.descend above) grid := by
  intro r' c hr' hgrid
  have ⟨a, ha, hcov, hlt⟩ := h r' c (by omega) hgrid
  exact ⟨_, Slot.mem_descend ha (by omega), hcov, by simp only; omega⟩

theorem collapseRows_eq (hg : Taken r above grid) (h : Clear above rows)
    (hw : ∀ row ∈ rows, rowWidth row ≤ maxCols) :
    collapseRows maxCols R r grid rows = (rows.map (runningSlots 0)).map (·.map Slot.placed) := by
  induction rows generalizing above grid r
  case nil => rfl
  case cons row rows hi =>
    have hg₀ : Taken r (above ++ []) grid := by simpa using hg
    have hw₀ : 0 + rowWidth row ≤ maxCols := by simpa using hw row (by simp)
    have ⟨grid', he, ht⟩ := collapseRow_eq (R := R) hg₀ (by simp) h.left hw₀
    rw [List.nil_append] at ht
    rw [collapseRows, he]
    simp only [hi ht.descend h.right fun r hm => hw r (by simp [hm])]
    rfl

end Collapse

theorem cellOuterWidth_placed (h : 0 < s.span) (colWidths : Nat → ℚ) (hsp : ℚ) :
    cellOuterWidth colWidths hsp s.placed =
      (∑ i ∈ Finset.range s.span, colWidths (s.col + i)) + hsp * (s.span - 1) := by
  have hcol : s.placed.col = s.col := rfl
  have hcov : s.placed.covered = s.span := rfl
  rw [cellOuterWidth, hcol, hcov]
  by_cases h1 : 1 < s.span
  case pos => rw [if_pos h1]
  case neg =>
    have he : s.span = 1 := by omega
    rw [if_neg h1, he]
    simp

theorem span_pos_of_mem_runningSlots (h : s ∈ runningSlots col row) : 0 < s.span := by
  induction row generalizing col <;> simp only [runningSlots, List.mem_cons, List.not_mem_nil] at h
  case cons cell cells hi =>
    cases h
    case inl h => subst h; exact cell.span_pos
    case inr h => exact hi h

theorem agrees_of_clear (hcap : ∀ row ∈ rows, rowWidth row ≤ tableMaxCols) (h : Clear [] rows) :
    Agrees rows (rows.map (runningSlots 0)) := by
  have hw := rowWidth_le_countColumns hcap
  have hm : measureColumns (countColumns rows) rows =
      (rows.map (runningSlots 0)).map (·.map Slot.placed) := by
    rw [measureColumns, List.map_map]
    exact List.map_congr_left fun row hr => measureRow_eq (by simpa using hw row hr)
  have hp : placeColumns (countColumns rows) rows =
      (rows.map (runningSlots 0)).map (·.map Slot.placed) :=
    placeRows_eq (fun c hc => absurd hc (by simp)) h hw
  exact {
    model     := model_of_clear h
    maxCols   := isLeast_countColumns hcap
    measured  := hm
    fixed     := by
      have ht := congrArg (List.take 1) hm
      simpa only [fixedTableColumns, measureColumns, List.map_take] using ht
    placed    := hp
    collapsed := collapseRows_eq (fun _ _ _ hc => absurd hc (by simp)) h hw
    apart     := by
      intro slots hs
      obtain ⟨row, _, rfl⟩ := List.mem_map.mp hs
      exact runningSlots_apart
    widths    := by
      intro colWidths hsp
      rw [hp, List.map_map]
      refine List.map_congr_left fun slots hs => ?_
      obtain ⟨row, _, rfl⟩ := List.mem_map.mp hs
      simp only [Function.comp_apply, List.map_map]
      exact List.map_congr_left fun s hm =>
        cellOuterWidth_placed (span_pos_of_mem_runningSlots hm) colWidths hsp
  }

section Converse

-- Where the measuring passes agree with the table model, it counts columns as they do.
theorem eq_runningSlots_of_measured (h : ModelRow above before row slots)
    (hm : measureRow maxCols col row = slots.map Slot.placed) :
    slots = runningSlots col row ∧ ∀ s ∈ slots, ∀ a ∈ above, ¬a.Covers s.col := by
  induction h generalizing col
  case nil => exact ⟨rfl, by simp⟩
  case cons before start cell cells slots hleast _ hi =>
    simp only [measureRow, List.map_cons, List.cons.injEq, Slot.placed, Placed.mk.injEq] at hm
    obtain ⟨⟨rfl, -⟩, hm⟩ := hm
    have ⟨he, hc⟩ := hi hm
    refine ⟨by rw [runningSlots, ← he], ?_⟩
    intro s hs a ha
    cases List.mem_cons.mp hs
    case inl h => exact h ▸ hleast.left a (List.mem_append_left _ ha)
    case inr h => exact hc s h a ha

theorem clear_of_measured {slotss : List (List Slot)} (h : Model above rows slotss)
    (hm : measureColumns maxCols rows = slotss.map (·.map Slot.placed)) : Clear above rows := by
  induction h
  case nil => trivial
  case cons above row slots rows slotss hrow _ hi =>
    simp only [measureColumns, List.map_cons, List.cons.injEq] at hm
    have ⟨he, hc⟩ := eq_runningSlots_of_measured hrow hm.left
    subst he
    exact ⟨hc, hi hm.right⟩

end Converse

-- The passes agree with each other and with the table model exactly on the tables in which no cell
-- starts, by the columns counted within its row, below a cell that reaches down from above.
theorem agrees_iff_clear (hcap : ∀ row ∈ rows, rowWidth row ≤ tableMaxCols) :
    (∃ slotss, Agrees rows slotss) ↔ Clear [] rows := by
  constructor
  case mp  => exact fun ⟨_, h⟩ => clear_of_measured h.model h.measured
  case mpr => exact fun h => ⟨_, agrees_of_clear hcap h⟩

-- A cell over two rows to the right of another one.
def rightRowspan : List Row :=
  [[⟨1, 1⟩, ⟨1, 2⟩], [⟨1, 1⟩]]

theorem agrees_iff_clear_rightRowspan :
    (∃ slotss, Agrees rightRowspan slotss) ↔ Clear [] rightRowspan :=
  agrees_iff_clear (by decide)

-- The same with the two cells of the first row exchanged, or without the other one: the cell of the
-- second row is put beside `max_cols` columns and gets no width.
def leftRowspan : List Row :=
  [[⟨1, 2⟩], [⟨1, 1⟩]]

theorem not_agrees_leftRowspan : ¬∃ slotss, Agrees leftRowspan slotss := by
  intro ⟨slotss, h⟩
  exact absurd (clear_of_measured h.model h.measured) (by decide)

example : placeColumns (countColumns leftRowspan) leftRowspan = [[⟨0, 1⟩], [⟨1, 0⟩]] := by
  decide

end Nordstjernen.Layout.Table
