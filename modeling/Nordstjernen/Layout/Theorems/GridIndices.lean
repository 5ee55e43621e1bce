import Nordstjernen.Layout.GridIndices
import Nordstjernen.Layout.Theorems.Grid

open Nordstjernen.Glib Nordstjernen.Lib

namespace Nordstjernen.Layout.Grid

namespace NamedTracks

variable (ts : NamedTracks)

theorem count_pos : 0 < ts.count := by
  rw [count]
  split <;> omega

theorem count_le : ts.count ≤ tracksMax := by
  have h := ts.n_le
  rw [count]
  split
  case isTrue  => exact h
  case isFalse => decide

end NamedTracks

namespace Access

variable {a : Area} {x : Access} {nCols nRows : Nat}

theorem mem_ofArea : x ∈ ofArea a ↔ ∃ r c, a.Covers r c ∧ x = occupied r c := by
  simp only [ofArea, List.mem_flatMap, List.mem_map, List.mem_range]
  constructor
  case mp =>
    rintro ⟨r, hr, c, hc, rfl⟩
    exact ⟨a.row + r, a.col + c, by simp only [Area.Covers]; omega, rfl⟩
  case mpr =>
    rintro ⟨r, c, ⟨hr, hr', hc, hc'⟩, rfl⟩
    exact ⟨r - a.row, by omega, c - a.col, by omega, by congr <;> omega⟩

theorem initialised_ofArea (h : ∀ r c, a.Covers r c → r < tracksMax ∧ c < tracksMax) :
    ∀ x ∈ ofArea a, x.Initialised nCols nRows := by
  intro x hx
  obtain ⟨r, c, hc, rfl⟩ := mem_ofArea.mp hx
  exact h r c hc

theorem initialised_fills (hc : nCols ≤ tracksMax) (hr : nRows ≤ tracksMax) :
    ∀ x ∈ fills nCols nRows, x.Initialised nCols nRows := by
  intro x hx
  simp only [fills, List.mem_append, List.mem_flatMap, List.mem_range, List.mem_cons, List.not_mem_nil,
    or_false] at hx
  obtain ⟨k, hk, rfl | rfl⟩ | ⟨k, hk, rfl | rfl⟩ := hx <;> simp only [Initialised] <;> omega

end Access

namespace AreasGrid

variable {g : AreasGrid} {nRows : Nat} {x : ItemStyle} {items : List ItemStyle}

theorem nCols_pos : 0 < g.nCols :=
  g.cols.count_pos

theorem nCols_le : g.nCols ≤ tracksMax :=
  g.cols.count_le

-- What the first loop makes of an item, when it has got `nRows` rows.
structure PositionOk (g : AreasGrid) (nRows : Nat) (p : Position) : Prop where
  rows : ∀ r ∈ p.rows, r.1 ≤ r.2
  cols : ∀ c ∈ p.cols, c.1 ≤ c.2
  both : ∀ r ∈ p.rows, ∀ c ∈ p.cols, r.2 < nRows ∧ r.2 < tracksMax ∧ c.2 < g.nCols

theorem tracksFrom_le {pos : Option Nat × Nat} {r : Nat × Nat} (h : r ∈ tracksFrom pos) : r.1 ≤ r.2 := by
  have ⟨start, _, he⟩ := Option.map_eq_some_iff.mp h
  rw [← he]
  exact Nat.le_add_right _ _

theorem resolve_le (g : AreasGrid) (nRows : Nat) (x : ItemStyle) :
    (∀ r ∈ (g.resolve nRows x).rows, r.1 ≤ r.2) ∧ ∀ c ∈ (g.resolve nRows x).cols, c.1 ≤ c.2 := by
  rw [resolve]
  split
  case h_1 a ha =>
    have ⟨name, _, hf⟩ := Option.bind_eq_some_iff.mp ha
    have ⟨hr, _, hc, _⟩ := g.areas.rect_ok a (List.mem_of_find?_eq_some hf)
    simp [hr, hc]
  case h_2 => exact ⟨fun _ => tracksFrom_le, fun _ => tracksFrom_le⟩

theorem clampRows_ok (r : Nat × Nat) : (clampRows r).1 ≤ (clampRows r).2 ∧ (clampRows r).2 < tracksMax := by
  have h : 0 < tracksMax := by decide
  simp only [clampRows]
  repeat' split
  all_goals omega

theorem clampCols_ok (c : Nat × Nat) : (g.clampCols c).1 ≤ (g.clampCols c).2 ∧ (g.clampCols c).2 < g.nCols := by
  have h := g.nCols_pos
  simp only [clampCols]
  repeat' split
  all_goals omega

theorem position_ok : g.PositionOk (g.position nRows x).2 (g.position nRows x).1 := by
  have ⟨hrows, hcols⟩ := g.resolve_le nRows x
  rw [position]
  split
  case h_1 r c _ =>
    have ⟨hr, hr'⟩ := clampRows_ok r
    have ⟨hc, hc'⟩ := g.clampCols_ok c
    constructor <;> simp <;> omega
  case h_2 p hp =>
    refine ⟨hrows, hcols, fun r hr c hc => ?_⟩
    generalize g.resolve nRows x = p at hp hr hc
    cases p
    cases hr
    cases hc
    exact (hp r c rfl).elim

theorem le_position : nRows ≤ (g.position nRows x).2 := by
  rw [position]
  split
  case h_1 => exact Nat.le_max_left ..
  case h_2 => exact Nat.le_refl _

theorem position_le (h : nRows ≤ tracksMax) : (g.position nRows x).2 ≤ tracksMax := by
  rw [position]
  split
  case h_1 r c _ => exact Nat.max_le.mpr ⟨h, (clampRows_ok r).right⟩
  case h_2       => exact h

theorem PositionOk.mono {p : Position} {m n : Nat} (h : g.PositionOk m p) (hmn : m ≤ n) : g.PositionOk n p where
  rows := h.rows
  cols := h.cols
  both := fun r hr c hc =>
    have ⟨hm, hb⟩ := h.both r hr c hc
    ⟨Nat.lt_of_lt_of_le hm hmn, hb⟩

theorem positions_ok {p : Position} (h : p ∈ g.positions items) : g.PositionOk (g.definiteRows items) p := by
  obtain ⟨⟨x, p⟩, hp, rfl⟩ := List.mem_map.mp h
  have ⟨nRows, he, hle⟩ := exists_step_of_mem_placeAll (m := id) (fun _ _ => le_position) hp
  rw [he]
  exact position_ok.mono hle

theorem definiteRows_le : g.definiteRows items ≤ tracksMax := by
  rw [definiteRows]
  generalize hn : g.areas.nRows = n
  have h : n ≤ tracksMax := hn ▸ g.areas.nRows_le
  clear hn
  induction items generalizing n
  case nil          => exact h
  case cons x xs hi => exact hi _ (position_le h)

section Place

variable {s : State} {p : Position} {occupied : Occupied} {r c d : Nat}

theorem slotArea_lt {slot : Slot} (h : (g.slotArea slot).Covers r c) : r < tracksMax ∧ c < tracksMax := by
  have hn := g.nCols_le
  simp only [Area.Covers, slotArea] at h
  omega

theorem freeRow_lt (cols : Nat × Nat) : g.freeRow s cols < tracksMax := by
  rw [freeRow]
  cases hf : (List.range tracksMax).find? (g.rowFree s.occupied cols)
  case none   => decide
  case some r => exact List.mem_range.mp (List.mem_of_find?_eq_some hf)

theorem freeCol_lt : g.freeCol s r < g.nCols := by
  have hn := g.nCols_pos
  rw [freeCol]
  cases hf : (List.range g.nCols).find? fun c => !s.occupied r c
  case none   => exact Nat.sub_one_lt_of_lt hn
  case some c => exact List.mem_range.mp (List.mem_of_find?_eq_some hf)

def InGrid (rc : Nat × Nat) : Prop :=
  rc.1 < tracksMax ∧ rc.2 < g.nCols

theorem search_inGrid :
    (∀ rc ∈ (g.search occupied r c).1, g.InGrid rc) ∧ ∀ rc ∈ (g.search occupied r c).2, g.InGrid rc := by
  induction r, c using search.induct g occupied
  case case1 r c hr hc hi =>
    rw [search, if_pos hr, if_pos hc]
    exact hi
  case case2 r c hr hc ho hi =>
    rw [search, if_pos hr, if_neg hc, if_pos ho]
    exact ⟨List.forall_mem_cons.mpr ⟨⟨hr, Nat.lt_of_not_le hc⟩, hi.left⟩, hi.right⟩
  case case3 r c hr hc ho =>
    have h : g.InGrid (r, c) := ⟨hr, Nat.lt_of_not_le hc⟩
    rw [search, if_pos hr, if_neg hc, if_neg ho]
    exact ⟨List.forall_mem_singleton.mpr h, fun rc he => Option.some.inj he ▸ h⟩
  case case4 r c hr =>
    rw [search, if_neg hr]
    exact ⟨by simp, by simp⟩

theorem freeCell_inGrid : g.InGrid (g.freeCell s) := by
  rw [freeCell]
  cases hf : (g.search s.occupied s.autoR s.autoC).2
  case none    => exact ⟨by decide, g.nCols_pos⟩
  case some rc => exact search_inGrid.right rc hf

theorem le_place : s.nRows ≤ (g.place s p).2.nRows := by
  obtain ⟨_ | r, _ | c⟩ := p
  · exact Nat.le_max_left ..
  · exact Nat.le_max_left ..
  · exact Nat.le_refl _
  · exact Nat.le_refl _

-- An item is in the columns, and in the rows that there are then.
theorem place_ok (hp : g.PositionOk d p) (hd : d ≤ tracksMax)
    (hc : p.rows = none → ∀ c ∈ p.cols, c.2 < g.nCols) (hr : p.cols = none → ∀ r ∈ p.rows, r.2 < d) :
    ((g.place s p).1.c0 ≤ (g.place s p).1.c1 ∧ (g.place s p).1.c1 < g.nCols) ∧
    (g.place s p).1.r0 ≤ (g.place s p).1.r1 ∧
      (g.place s p).1.r1 < min (max d (g.place s p).2.nRows) tracksMax := by
  obtain ⟨_ | r, _ | c⟩ := p
  · have ⟨hr, hc⟩ := g.freeCell_inGrid (s := s)
    simp only [place]
    omega
  · have hcols := hp.cols c rfl
    have hlt := hc rfl c rfl
    have hrow := g.freeRow_lt (s := s) c
    simp only [place]
    omega
  · have hrows := hp.rows r rfl
    have hlt := hr rfl r rfl
    have hcol := g.freeCol_lt (s := s) (r := if tracksMax ≤ r.1 then tracksMax - 1 else r.1)
    simp only [place]
    omega
  · have hrows := hp.rows r rfl
    have hcols := hp.cols c rfl
    have hboth := hp.both r rfl c rfl
    simp only [place]
    omega

theorem placeAccesses_initialised {nRows : Nat} :
    ∀ x ∈ g.placeAccesses s p, x.Initialised g.nCols nRows := by
  have hn := g.nCols_le
  obtain ⟨_ | r, _ | c⟩ := p
  · intro x hx
    obtain ⟨rc, hrc, rfl⟩ := List.mem_map.mp hx
    have hin : g.InGrid rc := by
      rcases List.mem_append.mp hrc with h | h
      · exact search_inGrid.left rc h
      · exact List.mem_singleton.mp h ▸ g.freeCell_inGrid
    exact ⟨hin.left, Nat.lt_of_lt_of_le hin.right hn⟩
  · exact Access.initialised_ofArea fun _ _ => slotArea_lt
  · refine Access.initialised_ofArea fun r' c' h => ?_
    have htr : 0 < tracksMax := by decide
    have hrow : (if tracksMax ≤ r.1 then tracksMax - 1 else r.1) < tracksMax := by split <;> omega
    have hcol := g.freeCol_lt (s := s) (r := if tracksMax ≤ r.1 then tracksMax - 1 else r.1)
    simp only [Area.Covers] at h
    omega
  · intro x hx
    cases hx

end Place

section Run

variable {p : Position}

theorem definiteRows_le_nRows (g : AreasGrid) (items : List ItemStyle) :
    g.definiteRows items ≤ g.nRows items := by
  refine Nat.le_min.mpr ⟨?_, definiteRows_le⟩
  exact le_foldl (m := State.nRows) (s := g.start items) fun _ _ => le_place

-- Where an item is put is where a step puts it, and every item is put somewhere.
theorem exists_of_mem_slots {slot : Slot} (h : slot ∈ g.slots items) :
    ∃ s, ∃ p ∈ g.positions items, slot = (g.place s p).1 ∧
      min (g.place s p).2.nRows tracksMax ≤ g.nRows items := by
  obtain ⟨⟨p, slot⟩, hp, rfl⟩ := List.mem_map.mp h
  have ⟨s, he, hle⟩ := exists_step_of_mem_placeAll (m := State.nRows) (fun _ _ => le_place) hp
  refine ⟨s, p, ?_, he, ?_⟩
  · rw [← map_fst_placeAll g.place (g.start items) (g.positions items)]
    exact List.mem_map_of_mem hp
  · exact Nat.le_min.mpr ⟨Nat.le_trans (Nat.min_le_left ..) hle, Nat.min_le_right ..⟩

theorem exists_of_mem_positions (h : p ∈ g.positions items) : ∃ s, (g.place s p).1 ∈ g.slots items := by
  rw [← map_fst_placeAll g.place (g.start items) (g.positions items)] at h
  obtain ⟨⟨p, slot⟩, hp, rfl⟩ := List.mem_map.mp h
  have ⟨s, he, _⟩ := exists_step_of_mem_placeAll (m := State.nRows) (fun _ _ => le_place) hp
  exact ⟨s, he ▸ List.mem_map_of_mem hp⟩

theorem slots_ok (hc : g.FitsColumns items) (hr : g.FitsRows items) {slot : Slot} (h : slot ∈ g.slots items) :
    (slot.c0 ≤ slot.c1 ∧ slot.c1 < g.nCols) ∧ slot.r0 ≤ slot.r1 ∧ slot.r1 < g.nRows items := by
  obtain ⟨s, p, hp, rfl, hle⟩ := exists_of_mem_slots h
  have ⟨hcols, hrows, hlt⟩ := g.place_ok (s := s) (positions_ok hp) definiteRows_le (hc p hp) (hr p hp)
  have hd := g.definiteRows_le_nRows items
  omega

theorem slotAccesses_initialised {slot : Slot} {nRows : Nat} (hn : nRows ≤ tracksMax)
    (hc : slot.c0 ≤ slot.c1 ∧ slot.c1 < g.nCols) (hr : slot.r0 ≤ slot.r1 ∧ slot.r1 < nRows) :
    ∀ x ∈ slotAccesses nRows slot, x.Initialised g.nCols nRows := by
  have hcn := g.nCols_le
  intro x hx
  rw [slotAccesses, List.mem_append, List.mem_append] at hx
  rcases hx with (h | h) | h
  · obtain ⟨k, hk, rfl⟩ := List.mem_map.mp h
    rw [List.mem_range'_1] at hk
    simp only [Access.Initialised]
    omega
  · rcases List.mem_pair.mp h with rfl | rfl <;> simp only [Access.Initialised] <;> omega
  · split at h
    case isTrue =>
      split at h
      case isTrue  => simp only [List.mem_singleton.mp h, Access.Initialised]; omega
      case isFalse => cases h
    case isFalse =>
      rcases List.mem_append.mp h with h | h
      · obtain ⟨k, hk, rfl⟩ := List.mem_map.mp h
        rw [List.mem_range'_1] at hk
        simp only [Access.Initialised]
        omega
      · rw [List.mem_singleton.mp h, Access.Initialised]
        split <;> omega

theorem inRange_of_fits (hc : g.FitsColumns items) (hr : g.FitsRows items) :
    (g.layoutGridAreas items).InRange where
  nCols_le    := g.nCols_le
  nRows_le    := Nat.min_le_right ..
  cols        := fun _ h => (slots_ok hc hr h).left
  rows        := fun _ h => (slots_ok hc hr h).right
  initialised := by
    have hn : g.nRows items ≤ tracksMax := Nat.min_le_right ..
    intro x hx
    simp only [layoutGridAreas, List.mem_append, List.mem_flatMap, List.mem_singleton] at hx
    rcases hx with (((⟨a, ha, hx⟩ | ⟨⟨p, l⟩, hp, hx⟩) | hx) | ⟨slot, hs, hx⟩) | rfl
    · obtain ⟨p, -, hp⟩ := List.mem_filterMap.mp ha
      obtain ⟨_ | r, _ | c⟩ := p <;> cases hp
      exact Access.initialised_ofArea (fun _ _ => slotArea_lt) x hx
    · have ⟨s, he, _⟩ := exists_step_of_mem_placeAll (m := fun _ => 0) (fun _ _ => Nat.le_refl 0) hp
      exact placeAccesses_initialised x (he ▸ hx)
    · exact Access.initialised_fills g.nCols_le hn x hx
    · have ⟨hcols, hrows⟩ := slots_ok hc hr hs
      exact slotAccesses_initialised hn hcols hrows x hx
    · exact Nat.le_refl _

theorem fitsColumns_of_inRange (h : (g.layoutGridAreas items).InRange) : g.FitsColumns items := by
  rintro ⟨rows, cols⟩ hp rfl c rfl
  obtain ⟨s, hs⟩ := exists_of_mem_positions hp
  exact (h.cols _ hs).right

-- Where every item says its rows, none adds any.
theorem nRows_of_given (hg : ∀ p ∈ g.positions items, p.rows.isSome) : g.nRows items = g.definiteRows items := by
  have hf : ∀ s : State, ∀ ps : List Position, (∀ p ∈ ps, p.rows.isSome) →
      (ps.foldl (fun s p => (g.place s p).2) s).nRows = s.nRows := by
    intro s ps hps
    induction ps generalizing s
    case nil => rfl
    case cons p ps hi =>
      have ⟨hp, hps⟩ := List.forall_mem_cons.mp hps
      rw [List.foldl_cons, hi _ hps]
      obtain ⟨_ | r, _ | c⟩ := p
      · cases hp
      · cases hp
      · rfl
      · rfl
  rw [nRows, hf _ _ hg]
  exact Nat.min_eq_left definiteRows_le

theorem fitsRows_of_inRange (hg : ∀ p ∈ g.positions items, p.rows.isSome) (h : (g.layoutGridAreas items).InRange) :
    g.FitsRows items := by
  rintro ⟨rows, cols⟩ hp rfl r rfl
  obtain ⟨s, hs⟩ := exists_of_mem_positions hp
  exact Nat.lt_of_lt_of_eq (h.rows _ hs).right (nRows_of_given hg)

end Run

end AreasGrid

namespace RowFlow

variable {n nCols nRows : Nat} {dense : Bool} {s : State} {x : Item} {r c : Nat}

theorem markedArea_lt {row col colSpan rowSpan : Nat} (h : (markedArea row col colSpan rowSpan nCols).Covers r c) :
    r < tracksMax ∧ c < nCols := by
  simp only [markedArea, Area.Covers] at h
  obtain ⟨hr, hr', hc, hc'⟩ := h
  constructor
  · split at hr' <;> omega
  · split at hc' <;> omega

theorem findSlot_lt (h : findSlot nCols dense s x = some (r, c)) : r < tracksMax := by
  rw [findSlot, gridFindSlot] at h
  split at h
  case isTrue =>
    split at h
    case isTrue hlt =>
      cases h
      simp only [Bool.and_eq_true, decide_eq_true_eq] at hlt
      exact hlt.left
    case isFalse => cases h
  case isFalse =>
    obtain ⟨r', hr, hm⟩ := List.exists_of_findSome?_eq_some h
    obtain ⟨c', _, he⟩ := Option.map_eq_some_iff.mp hm
    cases he
    exact (mem_searchRange.mp hr).left.right

theorem place_row_lt : (place nCols dense s x).1.row < tracksMax := by
  simp only [place, markedArea]
  cases hf : findSlot nCols dense s x
  case some slot => exact findSlot_lt hf
  case none      =>
    have htr : 0 < tracksMax := by decide
    simp only [Option.getD_none, fallback, rowSpan]
    omega

theorem wrapCursor_lt (hn : 0 < nCols) (cursor : Nat × Nat) : (wrapCursor nCols cursor).2 < nCols := by
  rw [wrapCursor]
  split <;> omega

theorem cursorAccesses_initialised {occupied : Occupied} (hn : 0 < nCols) (hle : nCols ≤ tracksMax) (fuel : Nat) :
    ∀ cursor : Nat × Nat, cursor.2 < nCols →
      ∀ a ∈ cursorAccesses nCols occupied fuel cursor, a.Initialised n nRows := by
  induction fuel
  case zero =>
    intro cursor _ a ha
    cases ha
  case succ fuel hi =>
    intro cursor hc a ha
    rw [cursorAccesses] at ha
    split at ha
    case isFalse => cases ha
    case isTrue hr =>
      rcases List.mem_cons.mp ha with rfl | ha
      · exact ⟨hr, Nat.lt_of_lt_of_le hc hle⟩
      · split at ha
        case isTrue  => exact hi _ (wrapCursor_lt hn _) a ha
        case isFalse => cases ha

theorem placeAccesses_initialised (hn : 0 < nCols) (hle : nCols ≤ tracksMax) :
    ∀ a ∈ placeAccesses nCols dense s x, a.Initialised n nRows := by
  intro a ha
  simp only [placeAccesses, List.mem_append] at ha
  rcases ha with (ha | ha) | ha
  · split at ha
    case isTrue  => cases ha
    case isFalse =>
      obtain ⟨r, -, ha⟩ := List.mem_flatMap.mp ha
      obtain ⟨c, -, ha⟩ := List.mem_flatMap.mp ha
      rw [slotAccesses] at ha
      split at ha
      case isTrue h =>
        refine Access.initialised_ofArea (fun r' c' hc => ?_) a ha
        simp only [Area.Covers] at hc
        omega
      case isFalse  => cases ha
  · refine Access.initialised_ofArea (fun r' c' hc => ?_) a ha
    obtain ⟨hr, hc⟩ := markedArea_lt hc
    exact ⟨hr, Nat.lt_of_lt_of_le hc hle⟩
  · exact cursorAccesses_initialised hn hle _ _ (wrapCursor_lt hn _) a ha

end RowFlow

namespace ColFlow

variable {flowRows nCols nRows : Nat} {dense : Bool} {s : State} {x : Item} {r c : Nat}

theorem fits_of_tried (hc : c ∈ colsToTry dense s x) (hr : r ∈ rowsToTry flowRows dense s x c) :
    r + rowSpan flowRows x ≤ flowRows ∧ c + colSpan x ≤ tracksMax := by
  have hc := (mem_searchRange.mp hc).left.right
  have hr := (mem_searchRange.mp hr).left.right
  omega

theorem place_fits (flowRows : Nat) (dense : Bool) (s : State) (x : Item) :
    (place flowRows dense s x).1.row + rowSpan flowRows x ≤ flowRows ∧
    (place flowRows dense s x).1.col + colSpan x ≤ tracksMax := by
  simp only [place]
  cases hf : findSlot flowRows dense s x
  case some slot =>
    obtain ⟨c, hc, hm⟩ := List.exists_of_findSome?_eq_some hf
    obtain ⟨r, hr, he⟩ := Option.map_eq_some_iff.mp hm
    cases he
    exact fits_of_tried hc (List.mem_of_find?_eq_some hr)
  case none =>
    simp only [Option.getD_none, fallback, rowSpan, colSpan]
    omega

theorem placeAccesses_initialised (hle : flowRows ≤ tracksMax) :
    ∀ a ∈ placeAccesses flowRows dense s x, a.Initialised nCols nRows := by
  intro a ha
  rcases List.mem_append.mp ha with ha | ha
  · obtain ⟨c, hc, ha⟩ := List.mem_flatMap.mp ha
    obtain ⟨r, hr, ha⟩ := List.mem_flatMap.mp ha
    have hfit := fits_of_tried hc hr
    refine Access.initialised_ofArea (fun r' c' h => ?_) a ha
    simp only [Area.Covers] at h
    omega
  · have hfit := place_fits flowRows dense s x
    refine Access.initialised_ofArea (fun r' c' h => ?_) a ha
    simp only [Area.Covers] at h
    have hrows : (place flowRows dense s x).1.rows = rowSpan flowRows x := rfl
    have hcols : (place flowRows dense s x).1.cols = colSpan x := rfl
    omega

end ColFlow

namespace PlainGrid

variable {g : PlainGrid} {items : List Item} {x : Item} {a : Area}

theorem growColumns_le {colsSubgrid : Bool} {n : Nat} (h : n ≤ tracksMax) :
    growColumns colsSubgrid n items ≤ tracksMax := by
  have hn : (if 0 < n then n else 1) ≤ tracksMax := by
    have h1 : 1 ≤ tracksMax := by decide
    split <;> omega
  cases colsSubgrid
  case false => exact Nat.max_le.mpr ⟨hn, Nat.min_le_right ..⟩
  case true  => exact hn

theorem containerCols_le : g.container.nCols items ≤ tracksMax :=
  growColumns_le g.cols.n_le

theorem containerCols_pos : 0 < g.container.nCols items :=
  growColumns_pos ..

theorem nCols_pos (g : PlainGrid) (items : List Item) : 0 < g.nCols items := by
  rw [nCols]
  split
  case isTrue  => exact Nat.lt_min.mpr ⟨Nat.le_max_left .., by decide⟩
  case isFalse =>
    cases g.subCols
    case none      => exact containerCols_pos
    case some sub  => exact sub.pos

theorem nCols_le (g : PlainGrid) (items : List Item) : g.nCols items ≤ tracksMax := by
  rw [nCols]
  split
  case isTrue  => exact Nat.min_le_right ..
  case isFalse =>
    cases g.subCols
    case none      => exact containerCols_le
    case some sub  => exact sub.n_le

theorem nRows_le (g : PlainGrid) (items : List Item) : g.nRows items ≤ tracksMax :=
  Nat.min_le_right ..

theorem flowRows_pos (c : Container) : 0 < c.flowRows :=
  Nat.lt_min.mpr ⟨Nat.le_max_left .., by decide⟩

theorem flowRows_le (c : Container) : c.flowRows ≤ tracksMax :=
  Nat.min_le_right ..

-- Every item is put in one of the rows.
theorem row_lt_nRows (h : (x, a) ∈ g.container.placements items) : a.row < g.nRows items := by
  have hlt : a.row < tracksMax := by
    rw [Container.placements] at h
    split at h
    case isTrue =>
      obtain ⟨s, he, -⟩ := exists_step_of_mem_placeAll (m := fun _ => 0) (fun _ _ => Nat.le_refl 0) h
      have hfit := (ColFlow.place_fits g.container.flowRows g.container.dense s x).left
      have hpos : 0 < ColFlow.rowSpan g.container.flowRows x :=
        Nat.lt_min.mpr ⟨Nat.le_max_left .., flowRows_pos g.container⟩
      have hle := flowRows_le g.container
      have he : a = (ColFlow.place g.container.flowRows g.container.dense s x).1 := he
      rw [he]
      omega
    case isFalse =>
      obtain ⟨s, he, -⟩ := exists_step_of_mem_placeAll (m := fun _ => 0) (fun _ _ => Nat.le_refl 0) h
      change a = _ at he
      rw [he]
      exact RowFlow.place_row_lt
  refine Nat.lt_min.mpr ⟨?_, hlt⟩
  split
  case isTrue =>
    have hspan : a.row + 1 ≤ a.row + max 1 x.rowSpan := Nat.add_le_add_left (Nat.le_max_left ..) _
    refine Nat.le_trans (le_foldl_of_mem (fun _ _ => Nat.le_max_left ..) (fun _ => ?_) h) (Nat.le_max_right ..)
    exact Nat.le_trans hspan (Nat.le_max_right ..)
  case isFalse =>
    have hspan : a.row + 1 ≤ a.row + RowFlow.rowSpan x :=
      Nat.add_le_add_left (Nat.le_min.mpr ⟨Nat.le_max_left .., by decide⟩) _
    refine le_foldl_of_mem (fun _ _ => Nat.le_max_left ..) (fun _ => ?_) h
    exact Nat.le_trans hspan (Nat.le_max_right ..)

-- Where an item is laid out, whatever it spans.
structure Fits (g : PlainGrid) (items : List Item) (a : Area) : Prop where
  cols : 0 < a.cols ∧ a.col + a.cols ≤ g.nCols items
  rows : 0 < a.rows ∧ a.row + a.rows ≤ g.nRows items

theorem slotSpans_fits (h : a.row < g.nRows items) : g.Fits items (g.slotSpans items x a) := by
  have hn := g.nCols_pos items
  constructor
  · simp only [slotSpans]
    split <;> omega
  · simp only [slotSpans]
    split <;> omega

theorem areas_fit (h : a ∈ g.areas items) : g.Fits items a := by
  obtain ⟨⟨x, b⟩, hb, rfl⟩ := List.mem_map.mp h
  exact slotSpans_fits (row_lt_nRows hb)

theorem areaAccesses_initialised (h : g.Fits items a) :
    ∀ acc ∈ areaAccesses a, acc.Initialised (g.nCols items) (g.nRows items) := by
  have ⟨⟨_, hc⟩, _, hr⟩ := h
  have hcn := g.nCols_le items
  have hrn := g.nRows_le items
  intro acc hacc
  simp only [areaAccesses, List.mem_append, List.mem_map, List.mem_range] at hacc
  obtain ((⟨k, hk, rfl⟩ | ⟨k, hk, rfl⟩) | ⟨k, hk, rfl⟩) | ⟨k, hk, rfl⟩ := hacc <;>
    simp only [Access.Initialised] <;> omega

theorem placeAccesses_initialised {nCols nRows : Nat} :
    ∀ acc ∈ g.placeAccesses items, acc.Initialised nCols nRows := by
  intro acc hacc
  rw [placeAccesses] at hacc
  split at hacc
  case isTrue =>
    obtain ⟨⟨x, l⟩, hp, hl⟩ := List.mem_flatMap.mp hacc
    obtain ⟨s, he, -⟩ := exists_step_of_mem_placeAll (m := fun _ => 0) (fun _ _ => Nat.le_refl 0) hp
    exact ColFlow.placeAccesses_initialised (flowRows_le _) acc (he ▸ hl)
  case isFalse =>
    obtain ⟨⟨x, l⟩, hp, hl⟩ := List.mem_flatMap.mp hacc
    obtain ⟨s, he, -⟩ := exists_step_of_mem_placeAll (m := fun _ => 0) (fun _ _ => Nat.le_refl 0) hp
    exact RowFlow.placeAccesses_initialised containerCols_pos containerCols_le acc (he ▸ hl)

theorem inRange (styles : List ItemStyle) : (g.layoutGrid styles).InRange where
  nCols_le    := g.nCols_le _
  nRows_le    := g.nRows_le _
  cols        := by
    intro slot hs
    obtain ⟨a, ha, rfl⟩ := List.mem_map.mp hs
    have hfit := (areas_fit ha).cols
    simp only [slot, layoutGrid]
    omega
  rows        := by
    intro slot hs
    obtain ⟨a, ha, rfl⟩ := List.mem_map.mp hs
    have hfit := (areas_fit ha).rows
    simp only [slot, layoutGrid]
    omega
  initialised := by
    intro acc hacc
    simp only [layoutGrid, List.mem_append, List.mem_flatMap] at hacc
    rcases hacc with (hacc | hacc) | ⟨a, ha, hacc⟩
    · exact placeAccesses_initialised acc hacc
    · exact Access.initialised_fills (g.nCols_le _) (g.nRows_le _) acc hacc
    · exact areaAccesses_initialised (areas_fit ha) acc hacc

end PlainGrid

namespace GridBox

-- Without areas all indices are in range. With areas they are as long as items that say their column or
-- their row alone stay in the grid.
theorem inRange_iff (g : GridBox) (items : List ItemStyle) :
    (g.FitsColumns items → g.FitsRows items → (g.indices items).InRange) ∧
    ((g.indices items).InRange → g.FitsColumns items) ∧
    (g.RowsGiven items → (g.indices items).InRange → g.FitsRows items) := by
  cases g
  case plain g => exact ⟨fun _ _ => g.inRange items, fun _ => trivial, fun _ _ => trivial⟩
  case areas g =>
    exact ⟨AreasGrid.inRange_of_fits, AreasGrid.fitsColumns_of_inRange, AreasGrid.fitsRows_of_inRange⟩

-- `grid-template-areas: "a"`
def singleArea : AreasGrid where
  areas    :=
    { nRows     := 1
      nCols     := 1
      rects     := [⟨"a".toList, 0, 0, 0, 0⟩]
      nRows_pos := Nat.one_pos
      nRows_le  := by decide
      nCols_le  := by decide
      rect_ok   := by decide }
  cols     := ⟨1, [], by decide⟩
  rowNames := []

def inColumn (line : CString) : ItemStyle where
  column := { shorthand := some line }

theorem inRange_firstColumn : ((areas singleArea).indices [inColumn "1".toList]).InRange := by
  refine (inRange_iff (areas singleArea) [inColumn "1".toList]).left ?_ ?_
  · have h : ∀ p ∈ singleArea.positions [inColumn "1".toList], ∀ c ∈ p.cols, c.2 < singleArea.nCols := by
      decide +kernel
    exact fun p hp _ c hc => h p hp c hc
  · have h : ∀ p ∈ singleArea.positions [inColumn "1".toList], p.cols ≠ none := by decide +kernel
    exact fun p hp hn => absurd hn (h p hp)

-- An item in a column that the grid does not have is laid out there if its row is automatic.
theorem not_inRange_fifthColumn : ¬∀ (g : GridBox) (items : List ItemStyle), (g.indices items).InRange := by
  intro h
  have hslot : ⟨0, 0, 4, 4⟩ ∈ singleArea.slots [inColumn "5".toList] := by decide +kernel
  have hlt := ((h (areas singleArea) [inColumn "5".toList]).cols _ hslot).right
  exact absurd hlt (by decide)

end GridBox

end Nordstjernen.Layout.Grid
