import Mathlib.Algebra.BigOperators.Field
import Mathlib.Algebra.Order.BigOperators.Group.Finset
import Mathlib.Data.Fin.VecNotation
import Mathlib.Tactic.Linarith
import Mathlib.Tactic.FieldSimp
import Mathlib.Tactic.Ring
import Nordstjernen.Layout.TrackSizes

namespace Nordstjernen.Layout.Grid.Sizing

variable {n : Nat} {s : Sizing n} {i : Fin n}

-- What is handed out in proportion to weights is handed out completely, if there is a weight.
theorem sum_proportional {w : Fin n → ℚ} {t : ℚ} (h : ∑ i, w i = 0 → t = 0) :
    ∑ i, t * (w i / ∑ j, w j) = t := by
  rw [← Finset.mul_sum, ← Finset.sum_div]
  by_cases hw : ∑ i, w i = 0
  case pos => rw [h hw, zero_mul]
  case neg => rw [div_self hw, mul_one]

section Parts

theorem frOf_nonneg : 0 ≤ s.frOf i := by
  rw [frOf]
  split
  case h_1 => split <;> linarith
  case h_2 => exact le_rfl

theorem frOf_of_ne (h : s.kind i ≠ .fr) : s.frOf i = 0 := by
  rw [frOf]
  split
  case h_1 hk => exact absurd hk h
  case h_2    => rfl

theorem totalFr_nonneg : 0 ≤ s.totalFr :=
  Finset.sum_nonneg fun _ _ => frOf_nonneg

theorem totalFr_eq_zero_iff : s.totalFr = 0 ↔ ¬0 < s.totalFr :=
  ⟨fun e => by rw [e]; exact lt_irrefl 0, fun hn => (not_lt.mp hn).antisymm totalFr_nonneg⟩

theorem shrinkPx_nonneg : 0 ≤ s.shrinkPx i := by
  rw [shrinkPx]
  split <;> try exact le_rfl
  all_goals split <;> linarith

theorem totalShrink_nonneg : 0 ≤ s.totalShrink :=
  Finset.sum_nonneg fun _ _ => shrinkPx_nonneg

theorem contribution_nonneg : 0 ≤ s.contribution i := by
  rw [contribution]
  split
  case h_1 => exact le_rfl
  case h_2 =>
    split
    case isTrue h  => exact (of_decide_eq_true (Bool.and_eq_true_iff.mp h).right).le
    case isFalse _ => exact le_rfl

theorem contribution_of_not_intrinsic (h : trackIsIntrinsic (s.kind i) = false) :
    s.contribution i = 0 := by
  rw [contribution, h]
  split <;> rfl

theorem contribution_le_lim (h : trackIsIntrinsic (s.kind i)) :
    s.contribution i ≤ s.contributionLim i := by
  rw [contributionLim, h]
  split
  case h_1 hn => rw [contribution, hn]
  case h_2 =>
    rw [if_pos rfl]
    dsimp only
    split <;> split <;> linarith

theorem nAuto_nonneg : 0 ≤ s.nAuto :=
  Finset.sum_nonneg fun i _ => by split <;> norm_num

theorem nAuto_pos (h : s.kind i = .auto) : 0 < s.nAuto := by
  refine Finset.sum_pos' (fun i _ => by split <;> norm_num) ⟨i, Finset.mem_univ i, ?_⟩
  rw [if_pos h]
  norm_num

theorem autoRoom_nonneg : 0 ≤ s.autoRoom i := by
  rw [autoRoom]
  split
  case isTrue h  => exact sub_nonneg.mpr (contribution_le_lim (by rw [h]; rfl))
  case isFalse _ => exact le_rfl

theorem autoRoomTotal_nonneg : 0 ≤ s.autoRoomTotal :=
  Finset.sum_nonneg fun _ _ => autoRoom_nonneg

theorem left_nonneg : 0 ≤ s.left :=
  le_max_left ..

theorem contribution_fixed (h : s.kind i = .px ∨ s.kind i = .percent ∨ s.kind i = .fr) :
    s.contribution i = 0 := by
  apply contribution_of_not_intrinsic
  rcases h with h | h | h <;> rw [h] <;> rfl

theorem fixedPx_of_intrinsic (h : trackIsIntrinsic (s.kind i) ∨ s.kind i = .fr) :
    s.fixedPx i = 0 := by
  rw [fixedPx]
  split
  case h_1 hk => rw [hk] at h; simp [trackIsIntrinsic] at h
  case h_2 hk => rw [hk] at h; simp [trackIsIntrinsic] at h
  case h_3    => rfl

theorem shrinkPx_of_intrinsic (h : trackIsIntrinsic (s.kind i) ∨ s.kind i = .fr) :
    s.shrinkPx i = 0 := by
  rw [shrinkPx]
  split
  case h_1 hk _ => rw [hk] at h; simp [trackIsIntrinsic] at h
  case h_2 hk _ => rw [hk] at h; simp [trackIsIntrinsic] at h
  case h_3      => rfl

-- A fixed track with a minimum can shrink to it, one without cannot shrink.
theorem fixedPx_sub_shrinkPx_le (h : s.kind i = .px ∨ s.kind i = .percent) :
    s.fixedPx i - s.shrinkPx i ≤ s.minimum i := by
  have hm (hs : s.shrinkPx i = if s.minPx i < s.fixedPx i then s.fixedPx i - s.minPx i else 0) :
      s.fixedPx i - s.shrinkPx i ≤ max 0 (s.minPx i) := by
    rw [hs]
    split <;> exact le_max_of_le_right (by linarith)
  cases hn : (s.tracks i).min? <;> cases h <;> rename_i hk
  case none.inl | none.inr =>
    simp only [minimum, shrinkPx, hk, hn, sub_zero]
    exact le_max_right ..
  case some.inl | some.inr =>
    have hs : s.shrinkPx i = if s.minPx i < s.fixedPx i then s.fixedPx i - s.minPx i else 0 := by
      simp only [shrinkPx, hk, hn]
    simp only [minimum, hk, hn]
    exact hm hs

end Parts

section Fit

theorem contribution_le_minimum (h : trackIsIntrinsic (s.kind i)) :
    s.contribution i ≤ s.minimum i := by
  have hl := contribution_le_lim h
  cases hk : s.kind i <;> rw [hk] at h <;> simp only [minimum, hk]
  case auto       => exact le_max_left ..
  case minContent => exact le_max_left ..
  case maxContent => exact le_max_of_le_left hl
  all_goals cases h

theorem kind_cases (s : Sizing n) (i : Fin n) :
    (s.kind i = .px ∨ s.kind i = .percent) ∨ s.kind i = .fr ∨ trackIsIntrinsic (s.kind i) := by
  cases s.kind i <;> simp [trackIsIntrinsic]

theorem minimum_nonneg : 0 ≤ s.minimum i := by
  rcases kind_cases s i with h | h | h
  · cases hn : (s.tracks i).min? <;> cases h <;> rename_i hk <;> simp only [minimum, hk, hn] <;>
      exact le_max_left ..
  · simp only [minimum, h]
    exact le_max_left ..
  · exact contribution_nonneg.trans (contribution_le_minimum h)

theorem minPx_le_minimum : s.minPx i ≤ s.minimum i := by
  cases hk : s.kind i <;> cases hn : (s.tracks i).min? <;> simp only [minimum, hk, hn, minPx, trackMinPx]
  all_goals first | exact le_max_left .. | exact le_max_right ..

theorem needs_le_minimum : s.fixedPx i - s.shrinkPx i + s.contribution i ≤ s.minimum i := by
  rcases kind_cases s i with h | h | h
  · have hc := contribution_fixed (h.imp_right .inl)
    rw [hc, add_zero]
    exact fixedPx_sub_shrinkPx_le h
  · rw [contribution_fixed (.inr (.inr h)), fixedPx_of_intrinsic (.inr h),
      shrinkPx_of_intrinsic (.inr h)]
    linarith [minimum_nonneg (s := s) (i := i)]
  · rw [fixedPx_of_intrinsic (.inl h), shrinkPx_of_intrinsic (.inl h)]
    linarith [contribution_le_minimum h]

section Kinds

theorem frPart_of_ne (h : s.kind i ≠ .fr) : s.frPart i = 0 := by
  rw [frPart, frOf_of_ne h, zero_div, mul_zero]

theorem growPart_of_ne (h : s.kind i ≠ .auto) : s.growPart i = 0 := by
  rw [growPart, autoRoom, if_neg h, zero_div, mul_zero, ite_self]

theorem stretchPart_of_ne (h : s.kind i ≠ .auto) : s.stretchPart i = 0 := by
  rw [stretchPart, if_pos (.inr (.inr h))]

theorem shrinkPart_of_intrinsic (h : trackIsIntrinsic (s.kind i) ∨ s.kind i = .fr) :
    s.shrinkPart i = 0 := by
  rw [shrinkPart, shrinkPx_of_intrinsic h, zero_div, mul_zero]

theorem share_fixed (h : s.kind i = .px ∨ s.kind i = .percent) :
    s.share i = s.fixedPx i - s.shrinkPart i := by
  have hf : s.kind i ≠ .fr := by rcases h with h | h <;> rw [h] <;> decide
  have ha : s.kind i ≠ .auto := by rcases h with h | h <;> rw [h] <;> decide
  rw [share, base, contribution_fixed (h.imp_right .inl), frPart_of_ne hf, growPart_of_ne ha,
    stretchPart_of_ne ha]
  ring

theorem share_fr (h : s.kind i = .fr) : s.share i = s.frPart i := by
  have ha : s.kind i ≠ .auto := by rw [h]; decide
  rw [share, base, contribution_fixed (.inr (.inr h)), fixedPx_of_intrinsic (.inr h),
    shrinkPart_of_intrinsic (.inr h), growPart_of_ne ha, stretchPart_of_ne ha]
  ring

theorem share_intrinsic (h : trackIsIntrinsic (s.kind i)) :
    s.share i = s.contribution i + s.growPart i + s.stretchPart i := by
  have hf : s.kind i ≠ .fr := fun e => by rw [e] at h; cases h
  rw [share, base, fixedPx_of_intrinsic (.inl h), shrinkPart_of_intrinsic (.inl h), frPart_of_ne hf]
  ring

theorem share_content (h : s.kind i = .minContent ∨ s.kind i = .maxContent) :
    s.share i = s.contribution i := by
  have ha : s.kind i ≠ .auto := by rcases h with h | h <;> rw [h] <;> decide
  have hi : trackIsIntrinsic (s.kind i) := by rcases h with h | h <;> rw [h] <;> rfl
  rw [share_intrinsic hi, growPart_of_ne ha, stretchPart_of_ne ha, add_zero, add_zero]

theorem growPart_nonneg : 0 ≤ s.growPart i := by
  rw [growPart]
  split
  case isTrue  => exact le_rfl
  case isFalse =>
    exact mul_nonneg (le_min left_nonneg autoRoomTotal_nonneg)
      (div_nonneg autoRoom_nonneg autoRoomTotal_nonneg)

theorem stretchPart_nonneg : 0 ≤ s.stretchPart i := by
  rw [stretchPart]
  split
  case isTrue  => exact le_rfl
  case isFalse => exact div_nonneg (sub_nonneg.mpr (min_le_left ..)) nAuto_nonneg

theorem contribution_le_share (h : trackIsIntrinsic (s.kind i)) : s.contribution i ≤ s.share i := by
  rw [share_intrinsic h]
  linarith [growPart_nonneg (s := s) (i := i), stretchPart_nonneg (s := s) (i := i)]

end Kinds

theorem resolve_eq_max : s.resolve i = max 0 (max (s.rawSize i) (s.minPx i)) := by
  have ht (x y : ℚ) : (if x < y then y else x) = max x y := by
    rw [max_def_lt]
  rw [resolve, ht, ht, max_comm]

-- The fr size that is common to all flexible tracks.
theorem resolve_fr (h : s.kind i = .fr) : s.resolve i = max (s.minimum i) (s.frOf i * s.perFr) := by
  have hr : s.rawSize i = s.perFr * s.frOf i := by rw [rawSize, h]
  have hn : s.minimum i = max 0 (s.minPx i) := by simp only [minimum, h]
  rw [resolve_eq_max, hr, hn, mul_comm, max_comm _ (s.minPx i), max_assoc]

theorem sum_base : ∑ i, s.base i = ∑ i, s.fixedPx i + ∑ i, s.contribution i :=
  Finset.sum_add_distrib

theorem autoSum_add_contentSum : s.autoSum + s.contentSum = ∑ i, s.contribution i := by
  rw [autoSum, contentSum, ← Finset.sum_add_distrib]
  refine Finset.sum_congr rfl fun i _ => ?_
  split <;> ring

variable (h : s.MinimumsFit)

include h

theorem needs_fit : ∑ i, s.base i - s.totalShrink ≤ s.avail := by
  have hs := Finset.sum_le_sum fun i (_ : i ∈ Finset.univ) => needs_le_minimum (s := s) (i := i)
  rw [Finset.sum_add_distrib, Finset.sum_sub_distrib] at hs
  have hm : ∑ i, s.minimum i ≤ s.avail := h
  rw [sum_base, totalShrink]
  linarith

theorem not_scales : s.scales = false := by
  have hn := needs_fit h
  rw [sum_base, ← autoSum_add_contentSum] at hn
  have hr : s.autoSum ≤ s.room := by
    rw [room]
    split <;> split <;> linarith
  rw [scales, decide_eq_false hr.not_gt, Bool.false_and]

theorem autoBase_eq : s.autoBase i = s.contribution i := by
  rw [autoBase, not_scales h, if_neg (by simp)]

theorem autoLim_eq : s.autoLim i = s.contributionLim i := by
  rw [autoLim, not_scales h, if_neg (by simp)]

theorem totalBase_eq : s.totalBase = ∑ i, s.base i := by
  rw [totalBase, baseSum, not_scales h, if_neg (by simp), sum_base]

theorem shrinkUsed_eq : s.shrinkUsed = s.deficit := by
  have hn := needs_fit h
  rw [shrinkUsed, deficit, totalBase_eq h]
  split
  case isTrue hu => rw [if_neg (by linarith), max_eq_right (by linarith)]
  case isFalse hu =>
    rw [max_eq_left]
    by_contra hc
    exact hu ⟨by linarith, by linarith⟩

theorem free_eq : s.free = s.left := by
  rw [free, shrinkUsed_eq h, totalBase_eq h, deficit, left]
  rcases le_total (∑ i, s.base i) s.avail with hl | hl
  case inl =>
    rw [max_eq_left (by linarith : (∑ i, s.base i) - s.avail ≤ 0), max_eq_right (by linarith), sub_zero,
      if_neg (by linarith)]
  case inr =>
    rw [max_eq_right (by linarith : 0 ≤ (∑ i, s.base i) - s.avail), max_eq_left (by linarith)]
    split <;> linarith

theorem growRoom_eq : s.growRoom i = s.autoRoom i := by
  rw [growRoom, autoRoom, autoLim_eq h, autoBase_eq h]
  have hr := autoRoom_nonneg (s := s) (i := i)
  rw [autoRoom] at hr
  split
  case isTrue ha  => rw [if_pos ha.left]
  case isFalse ha =>
    split at hr
    case isTrue hk =>
      rw [if_pos hk]
      by_contra hc
      exact ha ⟨hk, lt_of_le_of_ne hr hc⟩
    case isFalse hk => rw [if_neg hk]

theorem roomTotal_eq : s.roomTotal = s.autoRoomTotal :=
  Finset.sum_congr rfl fun _ _ => growRoom_eq h

-- Where nothing grows there is no room, or nothing left.
theorem min_eq_zero_of_not_grows (hf : s.totalFr = 0) (hg : s.grows = false) :
    min s.left s.autoRoomTotal = 0 := by
  by_contra hm
  have hp : 0 < min s.left s.autoRoomTotal :=
    lt_of_le_of_ne (le_min left_nonneg autoRoomTotal_nonneg) (Ne.symm hm)
  have ⟨hl, hr⟩ := lt_min_iff.mp hp
  obtain ⟨i, -, hi⟩ := Finset.exists_ne_zero_of_sum_ne_zero hr.ne'
  have hk : s.kind i = .auto := by
    by_contra hk
    exact hi (by rw [autoRoom, if_neg hk])
  have hc : s.contentMin.isSome := by
    by_contra hc
    have hn := Option.not_isSome_iff_eq_none.mp hc
    exact hi (by rw [autoRoom, if_pos hk, contributionLim, contribution, hn, sub_self])
  rw [grows, roomTotal_eq h, free_eq h] at hg
  simp [hf, nAuto_pos hk, hl, hr, hc] at hg

theorem give_eq : s.give = if s.totalFr = 0 then min s.left s.autoRoomTotal else 0 := by
  rw [give, roomTotal_eq h, free_eq h]
  by_cases hf : s.totalFr = 0
  case neg =>
    have hg : s.grows = false := by simp [grows, hf]
    rw [hg, if_neg hf, if_neg Bool.false_ne_true]
  case pos =>
    rw [if_pos hf]
    cases hg : s.grows
    case false => rw [if_neg Bool.false_ne_true, min_eq_zero_of_not_grows h hf hg]
    case true =>
      rw [if_pos rfl]
      split
      case isTrue hl  => exact (min_eq_left hl.le).symm
      case isFalse hl => exact (min_eq_right (not_lt.mp hl)).symm

theorem autoGrow_eq : s.autoGrow i = s.growPart i := by
  rw [autoGrow, growPart, give_eq h, growRoom_eq h, roomTotal_eq h]
  by_cases hf : 0 < s.totalFr
  case pos =>
    have hg : s.grows = false := by simp [grows, hf.ne']
    rw [hg, if_pos hf, if_neg Bool.false_ne_true]
  case neg =>
    rw [if_neg hf, if_pos (totalFr_eq_zero_iff.mpr hf)]
    cases hg : s.grows
    case true  => rw [if_pos rfl]
    case false =>
      rw [if_neg Bool.false_ne_true,
        min_eq_zero_of_not_grows h (totalFr_eq_zero_iff.mpr hf) hg, zero_mul]

theorem remaining_eq :
    s.remaining = if 0 < s.totalFr then s.left else s.left - min s.left s.autoRoomTotal := by
  rw [remaining, free_eq h, give_eq h]
  by_cases hf : 0 < s.totalFr
  case pos => rw [if_pos hf, if_neg hf.ne', sub_zero]
  case neg => rw [if_neg hf, if_pos (totalFr_eq_zero_iff.mpr hf)]

theorem rawSize_fixed (hk : s.kind i = .px ∨ s.kind i = .percent) : s.rawSize i = s.share i := by
  have hr : s.rawSize i = if 0 < s.shrinkUsed ∧ 0 < s.shrinkPx i
      then s.fixedPx i - s.shrinkUsed * (s.shrinkPx i / s.totalShrink) else s.fixedPx i := by
    rcases hk with hk | hk <;> rw [rawSize, hk]
  rw [hr, share_fixed hk, shrinkPart, shrinkUsed_eq h]
  split
  case isTrue  => rfl
  case isFalse hn =>
    have hd : 0 ≤ s.deficit := le_max_left ..
    have hp := shrinkPx_nonneg (s := s) (i := i)
    rcases hd.eq_or_lt with he | hd
    · rw [← he, zero_mul, sub_zero]
    · rw [(not_lt.mp fun hp => hn ⟨hd, hp⟩).antisymm hp, zero_div, mul_zero, sub_zero]

theorem rawSize_fr (hk : s.kind i = .fr) : s.rawSize i = s.share i := by
  have hr : s.rawSize i = s.perFr * s.frOf i := by rw [rawSize, hk]
  rw [hr, share_fr hk, perFr, frPart, remaining_eq h]
  split
  case isTrue  => ring
  case isFalse hf => rw [totalFr_eq_zero_iff.mpr hf, div_zero, mul_zero, zero_mul]

theorem rawSize_auto (hk : s.kind i = .auto) : s.rawSize i = s.share i := by
  have hr : s.rawSize i = s.autoBase i + s.autoGrow i + s.perAuto := by rw [rawSize, hk]
  rw [hr, share_intrinsic (by rw [hk]; rfl), autoBase_eq h, autoGrow_eq h, perAuto, stretchPart,
    remaining_eq h]
  have hn := nAuto_pos hk
  by_cases hf : 0 < s.totalFr
  case pos => simp [hf, hf.ne']
  case neg =>
    simp only [totalFr_eq_zero_iff.mpr hf, hn, hk, lt_irrefl, if_false, true_and, ne_eq, not_true,
      or_false, false_or]
    cases s.stretchAuto <;> simp

theorem resolve_eq : s.resolve i = max (s.share i) (s.minimum i) := by
  rw [resolve_eq_max]
  rcases kind_cases s i with hk | hk | hi
  · rw [rawSize_fixed h hk]
    cases hm : (s.tracks i).min?
    case none =>
      have hs : s.share i = s.fixedPx i := by
        rw [share_fixed hk, shrinkPart, shrinkPx]
        rcases hk with hk | hk <;> simp [hk, hm]
      have hn : s.minimum i = max 0 (s.fixedPx i) := by
        rcases hk with hk | hk <;> simp only [minimum, hk, hm]
      have hp : s.minPx i = 0 := by rw [minPx, trackMinPx, hm]
      rw [hs, hn, hp]
      apply le_antisymm <;> simp [le_total]
    case some =>
      have hn : s.minimum i = max 0 (s.minPx i) := by
        rcases hk with hk | hk <;> simp only [minimum, hk, hm]
      rw [hn, max_left_comm]
  · rw [rawSize_fr h hk]
    have hn : s.minimum i = max 0 (s.minPx i) := by simp only [minimum, hk]
    rw [hn, max_left_comm]
  · have hc := contribution_nonneg (s := s) (i := i)
    have hs := contribution_le_share hi
    have hl := contribution_le_lim hi
    cases hk : s.kind i <;> rw [hk] at hi
    case auto =>
      rw [rawSize_auto h hk]
      simp only [minimum, hk]
      rw [max_left_comm, ← max_assoc, ← max_assoc, max_eq_left (hc.trans hs), max_eq_left hs]
    case minContent =>
      have hr : s.rawSize i = s.contribution i := by rw [rawSize, hk, autoBase_eq h]
      rw [hr, share_content (.inl hk)]
      simp only [minimum, hk]
      rw [← max_assoc, ← max_assoc, max_self, max_eq_right hc]
    case maxContent =>
      have hr : s.rawSize i = s.contributionLim i := by
        rw [rawSize, hk, autoBase_eq h, autoLim_eq h]
        dsimp only
        split
        case isTrue     => rfl
        case isFalse hn => exact hl.antisymm (not_lt.mp hn)
      rw [hr, share_content (.inr hk)]
      simp only [minimum, hk]
      rw [← max_assoc, ← max_assoc, max_eq_right (hc.trans hl), max_eq_right hl]
    all_goals cases hi

theorem sum_shrinkPart : ∑ i, s.shrinkPart i = s.deficit := by
  have hn := needs_fit h
  refine sum_proportional fun hz => max_eq_left ?_
  rw [totalShrink, hz] at hn
  linarith

omit h in
theorem left_sub_deficit : s.left - s.deficit = s.avail - ∑ i, s.base i := by
  rw [left, deficit]
  rcases le_total (∑ i, s.base i) s.avail with hl | hl
  · rw [max_eq_right (by linarith), max_eq_left (by linarith)]
    ring
  · rw [max_eq_left (by linarith), max_eq_right (by linarith)]
    ring

omit h in
theorem sum_frPart : ∑ i, s.frPart i = if 0 < s.totalFr then s.left else 0 := by
  split
  case isTrue hf  => exact sum_proportional fun hz => absurd hz hf.ne'
  case isFalse hf =>
    refine Finset.sum_eq_zero fun i _ => ?_
    rw [frPart, totalFr_eq_zero_iff.mpr hf, div_zero, mul_zero]

omit h in
theorem sum_growPart :
    ∑ i, s.growPart i = if 0 < s.totalFr then 0 else min s.left s.autoRoomTotal := by
  simp only [growPart]
  split
  case isTrue  => exact Finset.sum_const_zero
  case isFalse =>
    refine sum_proportional fun hz => ?_
    rw [autoRoomTotal, hz, min_eq_right left_nonneg]

omit h in
theorem sum_stretchPart : ∑ i, s.stretchPart i =
    if ¬0 < s.totalFr ∧ s.stretchAuto ∧ 0 < s.nAuto
    then s.left - min s.left s.autoRoomTotal else 0 := by
  split
  case isTrue hs =>
    have ⟨hf, ha, hn⟩ := hs
    have hp (i : Fin n) : s.stretchPart i = (s.left - min s.left s.autoRoomTotal) *
        ((if s.kind i = .auto then 1 else 0) / s.nAuto) := by
      by_cases hk : s.kind i = .auto <;> simp [stretchPart, hf, ha, hk, div_eq_mul_inv]
    simp only [hp]
    exact sum_proportional fun hz => absurd hz hn.ne'
  case isFalse hs =>
    refine Finset.sum_eq_zero fun i _ => ?_
    rw [stretchPart, if_pos]
    by_contra hc
    simp only [not_or, ne_eq, Decidable.not_not] at hc
    exact hs ⟨hc.1, hc.2.1, nAuto_pos hc.2.2⟩

omit h in
theorem sum_share_eq : ∑ i, s.share i = ∑ i, s.base i - ∑ i, s.shrinkPart i + ∑ i, s.frPart i +
    ∑ i, s.growPart i + ∑ i, s.stretchPart i := by
  simp only [share, Finset.sum_add_distrib, Finset.sum_sub_distrib]

theorem sum_share_of_usesUp (hu : s.UsesUp) : ∑ i, s.share i = s.avail := by
  have hd := left_sub_deficit (s := s)
  rw [sum_share_eq, sum_shrinkPart h, sum_frPart, sum_growPart, sum_stretchPart]
  by_cases hf : 0 < s.totalFr
  case pos =>
    simp only [hf, if_true, not_true, false_and, if_false]
    linarith
  case neg =>
    simp only [hf, if_false, not_false_eq_true, true_and]
    split
    case isTrue  => linarith
    case isFalse ha =>
      rw [min_eq_left (((hu.resolve_left hf).resolve_left ha))]
      linarith

omit h in
theorem deficit_of_not_usesUp (hu : ¬s.UsesUp) : s.deficit = 0 := by
  have hl : s.autoRoomTotal < s.left := not_le.mp fun hl => hu (.inr (.inr hl))
  have hp : 0 < s.avail - ∑ i, s.base i := by
    by_contra hn
    rw [left, max_eq_left (not_lt.mp hn)] at hl
    linarith [autoRoomTotal_nonneg (s := s)]
  exact max_eq_left (by linarith)

omit h in
theorem share_eq_limit (hu : ¬s.UsesUp) :
    max (s.share i) (s.minimum i) = max (s.limit i) (s.minimum i) := by
  have hf : ¬0 < s.totalFr := fun hf => hu (.inl hf)
  have hl : s.autoRoomTotal < s.left := not_le.mp fun hl => hu (.inr (.inr hl))
  cases hk : s.kind i
  case px | percent =>
    have hx : s.share i = s.limit i := by
      rw [share_fixed (by simp [hk]), shrinkPart, deficit_of_not_usesUp hu, zero_mul, sub_zero, limit,
        hk]
      simp only [base, contribution_fixed (s := s) (i := i) (by simp [hk]), add_zero]
    rw [hx]
  case fr =>
    have hx : s.share i = s.limit i := by
      rw [share_fr hk, frPart, totalFr_eq_zero_iff.mpr hf, div_zero, mul_zero, limit, hk]
      simp only [base, contribution_fixed (s := s) (i := i) (by simp [hk]),
        fixedPx_of_intrinsic (s := s) (i := i) (.inr hk), add_zero]
    rw [hx]
  case auto =>
    have ha : s.stretchPart i = 0 := by
      rw [stretchPart, if_pos]
      exact .inr (.inl fun ha => hu (.inr (.inl ⟨ha, nAuto_pos hk⟩)))
    have hg : s.growPart i = s.autoRoom i := by
      have hle : s.autoRoom i ≤ s.autoRoomTotal :=
        Finset.single_le_sum (fun _ _ => autoRoom_nonneg) (Finset.mem_univ i)
      rw [growPart, if_neg hf, min_eq_right hl.le]
      rcases autoRoomTotal_nonneg (s := s).eq_or_lt with ht | ht
      · have hz := (hle.trans ht.ge).antisymm autoRoom_nonneg
        rw [hz, zero_div, mul_zero]
      · exact mul_div_cancel₀ _ ht.ne'
    have hx : s.share i = s.limit i := by
      rw [share_intrinsic (by rw [hk]; rfl), ha, hg, autoRoom, if_pos hk, limit, hk]
      ring
    rw [hx]
  case minContent =>
    have hx : s.share i = s.limit i := by
      rw [share_content (.inl hk), limit, hk]
      simp only [base, fixedPx_of_intrinsic (s := s) (i := i) (.inl (by rw [hk]; rfl)), zero_add]
    rw [hx]
  case maxContent =>
    have hc := contribution_le_lim (s := s) (i := i) (by rw [hk]; rfl)
    rw [share_content (.inr hk), limit, hk]
    simp only [minimum, hk]
    rw [← max_assoc, ← max_assoc, max_self, max_eq_right hc]

end Fit

-- A sum does not grow when its terms are raised if and only if none of them is.
theorem sum_max_le_iff {f g : Fin n → ℚ} : ∑ i, max (f i) (g i) ≤ ∑ i, f i ↔ ∀ i, g i ≤ f i := by
  have hle : ∑ i, f i ≤ ∑ i, max (f i) (g i) := Finset.sum_le_sum fun _ _ => le_max_left ..
  constructor <;> intro h
  case mp =>
    have he := (Finset.sum_eq_sum_iff_of_le fun _ _ => le_max_left ..).mp (hle.antisymm h)
    exact fun i => (he i (Finset.mem_univ i)).symm ▸ le_max_right ..
  case mpr => exact (Finset.sum_congr rfl fun i _ => max_eq_left (h i)).le

theorem sized_resolve_iff_settles (s : Sizing n) : s.Sized s.resolve ↔ s.Settles := by
  have hr (h : s.MinimumsFit) : s.resolve = fun i => max (s.share i) (s.minimum i) :=
    funext fun _ => resolve_eq h
  constructor
  case mp =>
    intro hs h
    have hfits := hs.fits h
    have hfills := hs.fills h
    rw [hr h] at hfits hfills
    constructor <;> intro hu
    case left =>
      rw [← sum_share_of_usesUp h hu] at hfits
      exact sum_max_le_iff.mp hfits
    case right =>
      simp only [share_eq_limit hu] at hfits hfills
      exact ⟨hfits, fun hf => hfills (.inl hf)⟩
  case mpr =>
    intro hs
    have hsum (h : s.MinimumsFit) (hu : s.UsesUp) : ∑ i, s.resolve i = s.avail := by
      rw [hr h, ← sum_share_of_usesUp h hu]
      exact Finset.sum_congr rfl fun i _ => max_eq_left ((hs h).left hu i)
    have hlim (h : s.MinimumsFit) (hu : ¬s.UsesUp) :
        ∑ i, s.resolve i = ∑ i, max (s.limit i) (s.minimum i) := by
      rw [hr h]
      exact Finset.sum_congr rfl fun i _ => share_eq_limit hu
    refine ⟨fun i => ?declared, fun h i => ?minimums, fun h => ?fits, fun h hf => ?fills,
      ⟨s.perFr, fun i hk => resolve_fr hk⟩⟩
    case declared =>
      rw [resolve_eq_max]
      exact le_max_of_le_right (le_max_right ..)
    case minimums =>
      rw [hr h]
      exact le_max_right ..
    case fits =>
      by_cases hu : s.UsesUp
      case pos => exact (hsum h hu).le
      case neg => exact (hlim h hu).trans_le ((hs h).right hu).left
    case fills =>
      by_cases hu : s.UsesUp
      case pos => exact hsum h hu
      case neg =>
        rw [hlim h hu]
        refine ((hs h).right hu).right (hf.resolve_right fun ⟨i, ha, hk⟩ => ?_)
        exact hu (.inr (.inl ⟨ha, nAuto_pos hk⟩))

-- `minmax(80px, 1fr) 1fr` in 100 pixels: raising the first track takes nothing from the second.
def raisedFr : Sizing 2 where
  tracks      := ![⟨.fr, 1, some (.px, 80)⟩, ⟨.fr, 1, none⟩]
  avail       := 100
  contentMin  := none
  contentMax  := none
  stretchAuto := true

theorem not_sized_raisedFr : ¬raisedFr.Sized raisedFr.resolve := by
  intro h
  have hm : ∑ i, raisedFr.minimum i ≤ raisedFr.avail := by decide +kernel
  exact absurd (h.fits hm) (by decide +kernel)

end Nordstjernen.Layout.Grid.Sizing
