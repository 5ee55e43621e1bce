import Nordstjernen.Layout.Grid

open Nordstjernen.Lib

namespace Nordstjernen.Layout.Grid

section Cells

variable {occupied : Occupied} {row col colSpan rowSpan nCols r c : Nat} {a b : Area}

theorem Area.Overlaps.symm (h : a.Overlaps b) : b.Overlaps a :=
  have ⟨r, c, ha, hb⟩ := h
  ⟨r, c, hb, ha⟩

theorem mark_iff : mark occupied a r c ↔ occupied r c ∨ a.Covers r c := by
  simp [mark, Area.Covers]

theorem gridSlotAvailable_iff :
    gridSlotAvailable occupied row col colSpan rowSpan nCols ↔
      (1 ≤ colSpan ∧ 1 ≤ rowSpan ∧ col + colSpan ≤ nCols ∧ row + rowSpan ≤ tracksMax) ∧
      ∀ r c, (⟨row, col, rowSpan, colSpan⟩ : Area).Covers r c → occupied r c = false := by
  simp only [gridSlotAvailable, Bool.and_eq_true, decide_eq_true_eq, List.all_eq_true,
    List.mem_range, Bool.not_eq_true', and_assoc]
  refine and_congr_right fun _ => and_congr_right fun _ => and_congr_right fun _ =>
    and_congr_right fun _ => ⟨fun h r c hc => ?_, fun h r hr c hc => ?_⟩
  · simp only [Area.Covers] at hc
    have := h (r - row) (by omega) (c - col) (by omega)
    rwa [show row + (r - row) = r by omega, show col + (c - col) = c by omega] at this
  · exact h _ _ ⟨by simp, by simp [hr], by simp, by simp [hc]⟩

theorem markedArea_eq (hr : row + rowSpan ≤ tracksMax) (hc : col + colSpan ≤ nCols) :
    markedArea row col colSpan rowSpan nCols = ⟨row, col, rowSpan, colSpan⟩ := by
  rw [markedArea, if_neg (by omega), if_neg (by omega)]

theorem mem_searchRange {start stop n : Nat} {fixed : Bool} :
    n ∈ searchRange start stop fixed ↔ (start ≤ n ∧ n < stop) ∧ (fixed → n = start) := by
  cases hk : stop - start <;> cases fixed <;>
    simp [searchRange, hk, List.range'_succ, List.mem_range'_1] <;> omega

theorem Area.Spares.of_free {Permitted : Item → Area → Prop} {pre : List (Item × Area)}
    (h : ∀ p ∈ pre, ¬a.Overlaps p.2) : a.Spares Permitted pre :=
  fun before q after he _ ho => absurd ho (h q (by simp [he]))

end Cells

-- Whether the occupied cells are those of the items so far.
def Records (occupied : Occupied) (pre : List (Item × Area)) : Prop :=
  ∀ r c, occupied r c ↔ ∃ p ∈ pre, p.2.Covers r c

section Records

variable {occupied : Occupied} {pre : List (Item × Area)} {x : Item} {a : Area}

theorem Records.empty : Records (fun _ _ => false) [] := by
  simp [Records]

theorem Records.mark (h : Records occupied pre) : Records (mark occupied a) (pre ++ [(x, a)]) := by
  intro r c
  simp [mark_iff, h r c, or_and_right, exists_or]

theorem Records.free_iff (h : Records occupied pre) :
    (∀ r c, a.Covers r c → occupied r c = false) ↔ ∀ p ∈ pre, ¬a.Overlaps p.2 := by
  constructor
  case mp =>
    intro hf p hp ⟨r, c, ha, hb⟩
    have ho := (h r c).mpr ⟨p, hp, hb⟩
    rw [hf r c ha] at ho
    cases ho
  case mpr =>
    intro hf r c ha
    by_contra ho
    have ⟨p, hp, hb⟩ := (h r c).mp (by simpa using ho)
    exact hf p hp ⟨r, c, ha, hb⟩

end Records

section Steps

variable {Permitted : Item → Area → Prop} {start : Item → Option Nat} {Before : Area → Area → Prop}
  {dense : Bool} {ps pre : List (Item × Area)} {p : Item × Area}

-- A step that keeps the placement a good one.
structure StepOk (Permitted : Item → Area → Prop) (start : Item → Option Nat)
    (Before : Area → Area → Prop) (dense : Bool) (pre : List (Item × Area)) (p : Item × Area) : Prop
    extends Spares Area.Overlaps Item.Automatic Permitted pre p where
  definite : ∀ r ∈ p.1.rowStart, ∀ c ∈ p.1.colStart, p.2.row = r ∧ p.2.col = c
  order    : dense = false → ∀ q ∈ pre, start q.1 = none → start p.1 = none → Before q.2 p.2

theorem wellPlaced_of_steps
    (h : ∀ {pre p post}, ps = pre ++ p :: post → StepOk Permitted start Before dense pre p) :
    WellPlaced Permitted start Before dense ps where
  definite p hp := by
    obtain ⟨pre, post, he⟩ := List.append_of_mem hp
    exact (h he).definite
  overlap _ _ _ he ha ho _ hp :=
    Spares.overlap Area.Overlaps.symm (fun he => (h he).toSpares) he ha ho hp
  order hd := pairwise_of_split fun _ _ _ he => (h he).order hd

end Steps

section Columns

theorem le_foldl_max {items : List Item} {f : Item → Nat} {m : Nat} :
    m ≤ items.foldl (fun m x => max m (f x)) m ∧
      ∀ x ∈ items, f x ≤ items.foldl (fun m x => max m (f x)) m := by
  induction items generalizing m
  case nil => simp
  case cons y ys hi =>
    have ⟨hm, hf⟩ := hi (m := max m (f y))
    refine ⟨Nat.le_trans (Nat.le_max_left _ _) hm, fun x hx => ?_⟩
    cases List.mem_cons.mp hx
    case inl h => subst h; exact Nat.le_trans (Nat.le_max_right m (f x)) hm
    case inr h => exact hf x h

-- Outside of subgrids the columns grow as far as the items reach.
theorem hasRoom_growColumns {n : Nat} {items : List Item} {x : Item} (hx : x ∈ items)
    (h : x.WithinCap) : RowFlow.HasRoom (growColumns false n items) x := by
  intro s hs
  have hcap := h.col s hs
  have hend := (le_foldl_max (f := fun x => x.colStart.getD 0 + max 1 x.colSpan) (m := 0)).right x hx
  simp only [Option.mem_def.mp hs, Option.getD_some] at hend
  have hspan : RowFlow.colSpan (growColumns false n items) x ≤ max 1 x.colSpan := Nat.min_le_left _ _
  have hgrow : s + max 1 x.colSpan ≤ growColumns false n items :=
    Nat.le_trans (Nat.le_min.mpr ⟨hend, hcap⟩) (Nat.le_max_right _ _)
  omega

theorem growColumns_pos (colsSubgrid : Bool) (n : Nat) (items : List Item) :
    0 < growColumns colsSubgrid n items := by
  have hn : 0 < if 0 < n then n else 1 := by split <;> omega
  cases colsSubgrid
  case false => exact Nat.lt_of_lt_of_le hn (Nat.le_max_left _ _)
  case true  => exact hn

end Columns

namespace RowFlow

variable {nCols : Nat} {dense : Bool} {s : State} {x : Item} {pre : List (Item × Area)} {r c : Nat}

section Search

theorem colSpan_le (x : Item) : colSpan nCols x ≤ nCols :=
  Nat.min_le_right _ _

theorem rowSpan_le (x : Item) : rowSpan x ≤ tracksMax :=
  Nat.min_le_right _ _

theorem fixedRow_eq (h : x.WithinCap) : fixedRow x = x.rowStart := by
  rw [fixedRow]
  cases hr : x.rowStart
  case none => rfl
  case some r =>
    have hle : r < tracksMax := by have := h.row r hr; omega
    simp [hle]

theorem fixedCol_eq (h : HasRoom nCols x) : fixedCol nCols x = x.colStart := by
  rw [fixedCol]
  cases hc : x.colStart
  case none => rfl
  case some c =>
    have hle : c + colSpan nCols x ≤ nCols := h c hc
    simp [hle]

theorem findSlot_definite (hn : 0 < nCols) (h : x.WithinCap) (hroom : HasRoom nCols x)
    (hr : x.rowStart = some r) (hc : x.colStart = some c) :
    findSlot nCols dense s x = some (r, c) := by
  have hrt : r < tracksMax := by have := h.row r hr; omega
  have hcn : c < nCols := by have := hroom c hc; rw [colSpan] at this; omega
  simp [findSlot, gridFindSlot, startRow, startCol, fixedRow_eq h, fixedCol_eq hroom, hr, hc, hrt, hcn]

theorem mem_gridCols {colSpan start startCol : Nat} {fixed : Bool} (h : c + colSpan ≤ nCols) :
    c ∈ gridCols colSpan nCols start startCol fixed r ↔
      (fixed → c = startCol) ∧ (r = start → startCol ≤ c) := by
  cases fixed
  case false =>
    simp only [gridCols, List.mem_range'_1]
    by_cases hr : r = start <;> simp [hr] <;> omega
  case true => simp [gridCols]; omega

-- The search loops go through the slots from the start on that the item is not locked out of.
theorem mem_search (h : x.WithinCap) (hroom : HasRoom nCols x) (hx : x.Automatic)
    (ha : gridSlotAvailable s.occupied r c (colSpan nCols x) (rowSpan x) nCols) :
    (r ∈ gridRows (startRow dense s x) (fixedRow x).isSome ∧
      c ∈ gridCols (colSpan nCols x) nCols (startRow dense s x) (startCol nCols dense s x)
        (fixedCol nCols x).isSome r) ↔ Found nCols dense s x r c := by
  have ⟨⟨_, hp, hc, hr⟩, _⟩ := gridSlotAvailable_iff.mp ha
  have hlt : r < tracksMax := by omega
  rw [gridRows, mem_searchRange, mem_gridCols hc, Found, Free]
  simp only [ha, hlt, and_true, startRow, startCol, fixedRow_eq h, fixedCol_eq hroom,
    true_and]
  cases hrs : x.rowStart <;> cases hcs : x.colStart
  case none.none => simp
  case none.some => simp; tauto
  case some.none => simp; omega
  case some.some => exact absurd ⟨by simp [hrs], by simp [hcs]⟩ hx

theorem findSlot_automatic (h : x.WithinCap) (hroom : HasRoom nCols x) (hx : x.Automatic) :
    findSlot nCols dense s x =
      (gridRows (startRow dense s x) (fixedRow x).isSome).findSome? fun r =>
        ((gridCols (colSpan nCols x) nCols (startRow dense s x) (startCol nCols dense s x)
          (fixedCol nCols x).isSome r).find? fun c =>
            gridSlotAvailable s.occupied r c (colSpan nCols x) (rowSpan x) nCols).map
              fun c => (r, c) := by
  have hn : ((fixedRow x).isSome && (fixedCol nCols x).isSome) = false := by
    rw [fixedRow_eq h, fixedCol_eq hroom, Bool.eq_false_iff]
    simpa [Item.Automatic] using hx
  rw [findSlot, gridFindSlot, hn]
  rfl

theorem found_of_findSlot (h : x.WithinCap) (hroom : HasRoom nCols x) (hx : x.Automatic)
    (hf : findSlot nCols dense s x = some (r, c)) : Found nCols dense s x r c := by
  rw [findSlot_automatic h hroom hx] at hf
  obtain ⟨r', hr, hm⟩ := List.exists_of_findSome?_eq_some hf
  obtain ⟨c', hc, he⟩ := Option.map_eq_some_iff.mp hm
  cases he
  have ha : gridSlotAvailable s.occupied r c (colSpan nCols x) (rowSpan x) nCols := by
    simpa using List.find?_some hc
  exact (mem_search h hroom hx ha).mp ⟨hr, List.mem_of_find?_eq_some hc⟩

theorem not_found_of_findSlot (h : x.WithinCap) (hroom : HasRoom nCols x) (hx : x.Automatic)
    (hf : findSlot nCols dense s x = none) : ¬Found nCols dense s x r c := by
  intro hfound
  rw [findSlot_automatic h hroom hx, List.findSome?_eq_none_iff] at hf
  have ⟨hr, hc⟩ := (mem_search h hroom hx hfound.left.left).mpr hfound
  have hn := Option.map_eq_none_iff.mp (hf r hr)
  exact List.find?_eq_none.mp hn c hc hfound.left.left

end Search

theorem Found.area (h : Found nCols dense s x r c) :
    markedArea r c (colSpan nCols x) (rowSpan x) nCols = ⟨r, c, rowSpan x, colSpan nCols x⟩ :=
  have ⟨⟨_, _, hc, hr⟩, _⟩ := gridSlotAvailable_iff.mp h.left.left
  markedArea_eq hr hc

theorem Found.not_overlaps (h : Found nCols dense s x r c) (hs : Records s.occupied pre) :
    ∀ p ∈ pre, ¬(⟨r, c, rowSpan x, colSpan nCols x⟩ : Area).Overlaps p.2 :=
  hs.free_iff.mp (gridSlotAvailable_iff.mp h.left.left).right

-- An area that is permitted and free is one that could be found.
theorem free_of_permitted {a : Area} (hn : 0 < nCols) (hp : Permitted nCols x a)
    (hs : Records s.occupied pre) (ha : ∀ p ∈ pre, ¬a.Overlaps p.2) : Free nCols s x a.row a.col := by
  obtain ⟨hr, hc, hrb, hcb, hrow, hcol⟩ := hp
  have he : (⟨a.row, a.col, rowSpan x, colSpan nCols x⟩ : Area) = a := by rw [← hr, ← hc]
  refine ⟨gridSlotAvailable_iff.mpr ⟨⟨?_, ?_, by omega, by omega⟩, ?_⟩, hrow, hcol⟩
  · rw [colSpan]; omega
  · rw [rowSpan, tracksMax]; omega
  · rw [he]; exact hs.free_iff.mpr ha

theorem place_ok (hn : 0 < nCols) (hcap : x.WithinCap) (hroom : HasRoom nCols x)
    (hs : Records s.occupied pre) (hf : Fits nCols dense s pre x) :
    StepOk (Permitted nCols) Item.rowStart Area.RowBefore dense pre (x, (place nCols dense s x).1) := by
  by_cases hx : x.Automatic
  case neg =>
    have ⟨hr, hc⟩ : x.rowStart.isSome ∧ x.colStart.isSome := Decidable.not_not.mp hx
    obtain ⟨r, hr⟩ := Option.isSome_iff_exists.mp hr
    obtain ⟨c, hc⟩ := Option.isSome_iff_exists.mp hc
    simp only [place, findSlot_definite hn hcap hroom hr hc, Option.getD_some]
    exact {
      spares   := hf.definite r hr c hc
      free h   := absurd h hx
      definite := by simp [hr, hc, markedArea]
      order    := by simp [hr]
    }
  case pos =>
    have hdef : ∀ r ∈ x.rowStart, ∀ c ∈ x.colStart, False := by
      intro r hr c hc
      exact hx ⟨Option.isSome_of_mem hr, Option.isSome_of_mem hc⟩
    cases hfind : findSlot nCols dense s x
    case some slot =>
      have hfound := found_of_findSlot hcap hroom hx hfind
      have hno := hfound.not_overlaps hs
      simp only [place, hfind, Option.getD_some, hfound.area]
      exact {
        spares         := Area.Spares.of_free hno
        free _         := .inl hno
        definite r hr c hc := (hdef r hr c hc).elim
        order hd q hq hq' hx' := (hf.order hd hx' q hq hq').left _ _ hfound
      }
    case none =>
      have hnot (r c : Nat) := not_found_of_findSlot (r := r) (c := c) hcap hroom hx hfind
      have ⟨hfall, hfull⟩ := (hf.automatic hx).resolve_left fun ⟨r, c, h⟩ => hnot r c h
      simp only [place, hfind, Option.getD_none]
      exact {
        spares         := hfall
        free _         := by
          refine hfull.symm.imp_right fun hfull a hp => ?_
          by_contra hno
          refine hfull a.row a.col (free_of_permitted hn hp hs fun q hq ho => hno ⟨q, hq, ho⟩)
        definite r hr c hc := (hdef r hr c hc).elim
        order hd q hq hq' hx' := (hf.order hd hx' q hq hq').right hnot
      }

-- Row flow places all items well as long as every step goes well.
theorem wellPlaced {items : List Item} (hn : 0 < nCols)
    (hcap : ∀ x ∈ items, x.WithinCap ∧ HasRoom nCols x)
    (hf : PlacingMeets (Fits nCols dense) (place nCols dense) [] {} items) :
    WellPlaced (Permitted nCols) Item.rowStart Area.RowBefore dense (placements nCols dense items) :=
  wellPlaced_of_steps fun he =>
    placeAll_ok (I := fun s pre => Records s.occupied pre)
      (fun _ _ _ hq hs hc => ⟨place_ok hn hq.left hq.right hs hc, hs.mark⟩) hcap .empty hf he

end RowFlow

namespace ColFlow

variable {flowRows : Nat} {dense : Bool} {s : State} {x : Item} {pre : List (Item × Area)} {r c : Nat}

section Search

theorem isFree_iff {occupied : Occupied} :
    isFree flowRows occupied r c x ↔
      ∀ r' c', (⟨r, c, rowSpan flowRows x, colSpan x⟩ : Area).Covers r' c' →
        occupied r' c' = false := by
  simp only [isFree, List.all_eq_true, List.mem_range, Bool.not_eq_true']
  constructor
  case mp =>
    intro h r' c' hc
    simp only [Area.Covers] at hc
    have := h (r' - r) (by omega) (c' - c) (by omega)
    rwa [show r + (r' - r) = r' by omega, show c + (c' - c) = c' by omega] at this
  case mpr =>
    intro h dr hr dc hc
    exact h _ _ ⟨by simp, by simp [hr], by simp, by simp [hc]⟩

theorem fixedCol_eq (h : x.WithinCap) : fixedCol x = x.colStart := by
  rw [fixedCol]
  cases hc : x.colStart
  case none => rfl
  case some c =>
    have hle : c + colSpan x ≤ tracksMax := by have := h.col c hc; rw [colSpan]; omega
    simp [hle]

theorem mem_search (hr : r + rowSpan flowRows x ≤ flowRows) (hc : c + colSpan x ≤ tracksMax)
    (hf : isFree flowRows s.occupied r c x) :
    c ∈ colsToTry dense s x ∧ r ∈ rowsToTry flowRows dense s x c ↔ Found flowRows dense s x r c := by
  have hc' : c < tracksMax + 1 - colSpan x := by omega
  have hr' : r < flowRows + 1 - rowSpan flowRows x := by omega
  simp only [colsToTry, rowsToTry, mem_searchRange, hc', hr', and_true, Found, Free, hr, hc, hf,
    true_and, firstCol]
  obtain hrs | ⟨r', hrs⟩ := (fixedRow flowRows x).eq_none_or_eq_some <;>
    obtain hcs | ⟨c', hcs⟩ := (fixedCol x).eq_none_or_eq_some
  case inl.inl =>
    cases dense
    case false => simp [hrs, hcs]; intro _; split <;> simp_all
    case true  => simp [hrs, hcs]
  case inl.inr => simp [hrs, hcs]; tauto
  case inr.inl => simp [hrs, hcs]; omega
  case inr.inr => simp [hrs, hcs]; omega

theorem found_of_findSlot (hf : findSlot flowRows dense s x = some (r, c)) :
    Found flowRows dense s x r c := by
  obtain ⟨c', hc, hm⟩ := List.exists_of_findSome?_eq_some hf
  obtain ⟨r', hr, he⟩ := Option.map_eq_some_iff.mp hm
  cases he
  have hfree : isFree flowRows s.occupied r c x := List.find?_some (p := (isFree _ _ · _ _)) hr
  have hr := List.mem_of_find?_eq_some hr
  have hce := (mem_searchRange.mp hc).left.right
  have hre := (mem_searchRange.mp hr).left.right
  exact (mem_search (by omega) (by omega) hfree).mp ⟨hc, hr⟩

theorem not_found_of_findSlot (hf : findSlot flowRows dense s x = none) :
    ¬Found flowRows dense s x r c := by
  intro hfound
  have ⟨⟨hr, hc, hfree⟩, _⟩ := hfound.left
  have ⟨hcm, hrm⟩ := (mem_search hr hc hfree).mpr hfound
  have hn := Option.map_eq_none_iff.mp (List.findSome?_eq_none_iff.mp hf c hcm)
  exact List.find?_eq_none.mp hn r hrm hfree

end Search

theorem Found.not_overlaps (h : Found flowRows dense s x r c) (hs : Records s.occupied pre) :
    ∀ p ∈ pre, ¬(⟨r, c, rowSpan flowRows x, colSpan x⟩ : Area).Overlaps p.2 :=
  hs.free_iff.mp (isFree_iff.mp h.left.left.right.right)

theorem free_of_permitted {a : Area} (hp : Permitted flowRows x a) (hs : Records s.occupied pre)
    (ha : ∀ p ∈ pre, ¬a.Overlaps p.2) : Free flowRows s x a.row a.col := by
  obtain ⟨hr, hc, hrb, hcb, hrow, hcol⟩ := hp
  have he : (⟨a.row, a.col, rowSpan flowRows x, colSpan x⟩ : Area) = a := by rw [← hr, ← hc]
  refine ⟨⟨by omega, by omega, isFree_iff.mpr ?_⟩, hrow, hcol⟩
  rw [he]
  exact hs.free_iff.mpr ha

-- A definite item whose cells are free is found right where it belongs.
theorem found_definite (h : x.WithinCap) (hr : x.rowStart = some r)
    (hc : x.colStart = some c) (hfit : r + rowSpan flowRows x ≤ flowRows)
    (hfree : isFree flowRows s.occupied r c x) : Found flowRows dense s x r c := by
  have hrs : fixedRow flowRows x = some r := by simp [fixedRow, hr, hfit]
  have hcs : fixedCol x = some c := by rw [fixedCol_eq h, hc]
  have hcap : c + colSpan x ≤ tracksMax := by have := h.col c hc; rw [colSpan]; omega
  exact ⟨⟨⟨hfit, hcap, hfree⟩, by simp [hrs], by simp [hcs]⟩, by simp [firstCol, hcs], by simp [hrs]⟩

theorem place_ok (hcap : x.WithinCap) (hs : Records s.occupied pre)
    (hf : Fits flowRows dense s pre x) :
    StepOk (Permitted flowRows) Item.colStart Area.ColBefore dense pre
      (x, (place flowRows dense s x).1) := by
  cases hfind : findSlot flowRows dense s x
  case some slot =>
    have hfound := found_of_findSlot hfind
    have hno := hfound.not_overlaps hs
    simp only [place, hfind, Option.getD_some]
    exact {
      spares := Area.Spares.of_free hno
      free _ := .inl hno
      definite r hr c hc := by
        have hfit := (hf.definite r hr c hc).left
        have hrs : fixedRow flowRows x = some r := by simp_all [fixedRow]
        have hcs : fixedCol x = some c := by rw [fixedCol_eq hcap]; exact hc
        exact ⟨hfound.left.right.left r hrs, hfound.left.right.right c hcs⟩
      order hd q hq hq' hx' := (hf.order hd hx' q hq hq').left _ _ hfound
    }
  case none =>
    have hnot (r c : Nat) := not_found_of_findSlot (r := r) (c := c) hfind
    have hdef : ∀ r ∈ x.rowStart, ∀ c ∈ x.colStart, fallback x = (r, c) ∧
        (fallbackArea flowRows x).Spares (Permitted flowRows) pre := by
      intro r hr c hc
      have ⟨hfit, h⟩ := hf.definite r hr c hc
      exact h.resolve_left fun hfree => hnot r c (found_definite hcap hr hc hfit hfree)
    have hauto (hx : x.Automatic) := (hf.automatic hx).resolve_left fun ⟨r, c, h⟩ => hnot r c h
    simp only [place, hfind, Option.getD_none]
    exact {
      spares := by
        by_cases hx : x.Automatic
        case pos => exact (hauto hx).left
        case neg =>
          have ⟨hr, hc⟩ : x.rowStart.isSome ∧ x.colStart.isSome := Decidable.not_not.mp hx
          exact (hdef _ (Option.get_mem hr) _ (Option.get_mem hc)).right
      free hx := by
        refine (hauto hx).right.symm.imp_right fun hfull a hp => ?_
        by_contra hno
        exact hfull a.row a.col (free_of_permitted hp hs fun q hq ho => hno ⟨q, hq, ho⟩)
      definite r hr c hc := Prod.mk.inj (hdef r hr c hc).left
      order hd q hq hq' hx' := (hf.order hd hx' q hq hq').right hnot
    }

-- So does column flow.
theorem wellPlaced {items : List Item} (hcap : ∀ x ∈ items, x.WithinCap)
    (hf : PlacingMeets (Fits flowRows dense) (place flowRows dense) [] {} items) :
    WellPlaced (Permitted flowRows) Item.colStart Area.ColBefore dense
      (placements flowRows dense items) :=
  wellPlaced_of_steps fun he =>
    placeAll_ok (I := fun s pre => Records s.occupied pre)
      (fun _ _ _ hq hs hc => ⟨place_ok hq hs hc, hs.mark⟩) hcap .empty hf he

end ColFlow

namespace Container

-- A grid places its items well as long as every step goes well.
theorem wellPlaced_of_fits (g : Container) (items : List Item)
    (hcap : ∀ x ∈ items, x.WithinCap) (hf : g.Fits items) : g.WellPlaced items := by
  unfold WellPlaced Container.placements
  unfold Container.Fits at hf
  split at hf
  case isTrue h =>
    simp only [h, ↓reduceIte]
    exact ColFlow.wellPlaced hcap hf
  case isFalse h =>
    simp only [h]
    have hroom : ∀ x ∈ items, RowFlow.HasRoom (g.nCols items) x := by
      cases hs : g.colsSubgrid
      case true  => exact hf.left hs
      case false =>
        intro x hx
        rw [nCols, hs]
        exact hasRoom_growColumns hx (hcap x hx)
    exact RowFlow.wellPlaced (growColumns_pos ..) (fun x hx => ⟨hcap x hx, hroom x hx⟩) hf.right

-- An automatic item after one at row 1 and column 2.
def earlyDefinite : List Item :=
  [⟨some 1, 1, some 0, 1⟩, ⟨none, 1, none, 1⟩]

theorem wellPlaced_of_fits_earlyDefinite :
    (⟨2, 1, false, false, none⟩ : Container).WellPlaced earlyDefinite := by
  refine wellPlaced_of_fits _ _ ?_ ⟨by simp, ?_, ?_, trivial⟩
  · simp only [earlyDefinite, List.forall_mem_cons, List.not_mem_nil, false_implies, implies_true]
    exact ⟨⟨by simp [tracksMax], by simp [tracksMax]⟩, ⟨by simp, by simp⟩, trivial⟩
  · exact {
      definite _ _ _ _ := Area.Spares.of_free (by simp)
      automatic h      := absurd h (by decide)
      order            := by simp
    }
  · exact {
      definite      := by simp
      automatic _   := .inl ⟨1, 0, ⟨by decide, by simp, by simp⟩, by decide, by decide⟩
      order _ _     := by simp
    }

-- An item at row 1 and column 1 after an automatic one.
def lateDefinite : List Item :=
  [⟨none, 1, none, 1⟩, ⟨some 0, 1, some 0, 1⟩]

example : (⟨2, 1, false, false, none⟩ : Container).placements lateDefinite =
    [(⟨none, 1, none, 1⟩, ⟨0, 0, 1, 1⟩), (⟨some 0, 1, some 0, 1⟩, ⟨0, 0, 1, 1⟩)] := by decide

-- The definite item is put on the automatic one, which is not moved.
theorem not_wellPlaced_lateDefinite :
    ¬∀ (g : Container) (items : List Item), (∀ x ∈ items, x.WithinCap) → g.WellPlaced items := by
  intro h
  have hw := h ⟨2, 1, false, false, none⟩ lateDefinite (by
    simp only [lateDefinite, List.forall_mem_cons, List.not_mem_nil, false_implies, implies_true]
    exact ⟨⟨by simp, by simp⟩, ⟨by simp [tracksMax], by simp [tracksMax]⟩, trivial⟩)
  have hp : (⟨2, 1, false, false, none⟩ : Container).placements lateDefinite =
    [(⟨none, 1, none, 1⟩, ⟨0, 0, 1, 1⟩), (⟨some 0, 1, some 0, 1⟩, ⟨0, 0, 1, 1⟩)] := by decide
  have ho := hw.overlap [] _ _ hp (by decide)
    ⟨_, List.mem_cons_self, 0, 0, by simp [Area.Covers]⟩
    ⟨0, 1, 1, 1⟩ (by simp [RowFlow.Permitted]; decide)
  obtain ⟨q, hq, r, c, ha, hb⟩ := ho
  simp at hq
  subst hq
  simp only [Area.Covers] at ha hb
  omega

end Container

end Nordstjernen.Layout.Grid
