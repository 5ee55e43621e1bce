import Mathlib.Algebra.Order.BigOperators.Group.List
import Mathlib.Tactic.Linarith
import Nordstjernen.Layout.AutoRepeat

namespace Nordstjernen.Layout.Grid

namespace Tracks

variable {tr : Tracks} {k : Nat}

theorem length_before : tr.before.length = tr.autoRepeatStart := by
  have h := tr.section_le
  rw [before, List.length_take]
  omega

theorem length_repeatSection : tr.repeatSection.length = tr.autoRepeatCount := by
  have h := tr.section_le
  rw [repeatSection, List.length_take, List.length_drop]
  omega

theorem length_after :
    tr.autoRepeatStart + tr.autoRepeatCount + tr.after.length = tr.tracks.length := by
  have h := tr.section_le
  rw [after, List.length_drop]
  omega

theorem length_repeated :
    (tr.repeated k).length = tr.autoRepeatStart + k * tr.autoRepeatCount + tr.after.length := by
  simp [repeated, length_before, length_repeatSection, Nat.add_assoc]

theorem repeated_one : tr.repeated 1 = tr.tracks := by
  have h : tr.repeatSection ++ tr.after = tr.tracks.drop tr.autoRepeatStart := by
    rw [repeatSection, after, ← List.drop_drop, List.take_append_drop]
  rw [repeated, List.replicate_one, List.flatten_cons, List.flatten_nil, List.append_nil,
    List.append_assoc, h, before, List.take_append_drop]

theorem length_repeated_one : (tr.repeated 1).length ≤ tracksMax :=
  repeated_one ▸ tr.tracks_le

theorem repeated_injective (h : 0 < tr.autoRepeatCount) : Function.Injective tr.repeated := by
  intro j k hjk
  have hl := congrArg List.length hjk
  rw [length_repeated, length_repeated] at hl
  exact Nat.eq_of_mul_eq_mul_right h (by omega)

theorem foldl_push {out l : List Track} (h : (out ++ l).length ≤ tracksMax) :
    l.foldl push out = out ++ l := by
  induction l generalizing out
  case nil => simp
  case cons t l hi =>
    have hp : push out t = out ++ [t] := if_pos (by simp at h; omega)
    rw [List.foldl_cons, hp, hi (by simpa using h), List.append_assoc, List.singleton_append]

-- No push is lost as long as all tracks have room.
theorem foldl_push_repeated (h : (tr.repeated k).length ≤ tracksMax) :
    tr.after.foldl push ((List.replicate k tr.repeatSection).foldl
      (fun out s => s.foldl push out) (tr.before.foldl push [])) = tr.repeated k := by
  rw [← List.foldl_flatten, ← List.foldl_append, ← List.foldl_append, foldl_push]
  · simp [repeated]
  · simpa [repeated] using h

end Tracks

namespace Expansion

variable {e : Expansion} {k : Nat} {t : Track}

theorem size_of_sectionPx_pos (h : 0 < sectionPx t e.avail) : e.size t = sectionPx t e.avail := by
  rw [sectionPx] at h ⊢
  rw [size]
  split at h
  case isTrue hc  => rw [if_neg (not_lt.mpr hc.left), if_pos hc, hc.right]
  case isFalse hc => rw [if_pos h, if_neg hc]

def base (e : Expansion) : ℚ :=
  (e.repeatSection.map e.size).sum

def pattern (e : Expansion) : ℚ :=
  e.base + e.gap * e.autoRepeatCount

-- What the tracks around the section take.
def around (e : Expansion) : ℚ :=
  (e.before.map e.size).sum + (e.after.map e.size).sum + e.gap * (e.autoRepeatStart + e.after.length)

theorem fits_iff : e.Fits k ↔ k * e.pattern + e.around ≤ e.avail + e.gap := by
  have hs : ((e.repeated k).map e.size).sum =
      (e.before.map e.size).sum + k * e.base + (e.after.map e.size).sum := by
    simp [Tracks.repeated, base, List.sum_flatten, add_assoc]
  rw [Fits, hs, Tracks.length_repeated, pattern, around]
  push_cast
  constructor <;> intro h <;> linarith

theorem sectionFits_iff : e.SectionFits k ↔ k * e.pattern ≤ e.avail + e.gap := by
  rw [SectionFits, Tracks.length_repeatSection, pattern, base]
  constructor <;> intro h <;> linarith

section Positive

variable (hpos : ∀ t ∈ e.repeatSection, 0 < sectionPx t e.avail)

include hpos

theorem sum_sectionPx : (e.repeatSection.map (sectionPx · e.avail)).sum = e.base := by
  rw [base, List.map_congr_left fun t ht => (size_of_sectionPx_pos (hpos t ht)).symm]

theorem pattern_pos : 0 < e.pattern := by
  have hne : e.repeatSection.map (sectionPx · e.avail) ≠ [] := by
    rw [ne_eq, List.map_eq_nil_iff, ← List.length_eq_zero_iff, Tracks.length_repeatSection]
    exact e.section_pos.ne'
  have hb : 0 < e.base := by
    rw [← sum_sectionPx hpos]
    exact List.sum_pos _ (by simpa using hpos) hne
  exact add_pos_of_pos_of_nonneg hb (mul_nonneg e.gap_nonneg e.autoRepeatCount.cast_nonneg)

end Positive

theorem le_toInt? {q : ℚ} {n : Int} (hn : toInt? q = some n) (hk : 1 ≤ k) :
    (k : Int) ≤ n ↔ (k : ℚ) ≤ q := by
  simp only [toInt?, Option.ite_none_right_eq_some, Option.some.injEq] at hn
  obtain ⟨-, rfl⟩ := hn
  split
  case isTrue => rw [Int.le_floor, Int.cast_natCast]
  case isFalse hq =>
    have hk' : (1 : ℚ) ≤ k := by exact_mod_cast hk
    have hc : ⌈q⌉ ≤ 0 := Int.ceil_le.mpr (by push_cast; exact (not_le.mp hq).le)
    constructor <;> intro h
    · omega
    · linarith

-- The number of repetitions which the cap allows.
def cap (e : Expansion) : Nat :=
  (tracksMax - e.autoRepeatStart - e.after.length) / e.autoRepeatCount

theorem le_cap_iff : k ≤ e.cap ↔ (e.repeated k).length ≤ tracksMax := by
  have h : e.autoRepeatStart + e.autoRepeatCount + e.after.length = e.tracks.length :=
    Tracks.length_after
  have hn := e.tracks_le
  rw [cap, Nat.le_div_iff_mul_le e.section_pos, Tracks.length_repeated]
  omega

theorem cap_lt_iff : e.cap < k ↔ tracksMax < e.autoRepeatStart + k * e.autoRepeatCount + e.after.length := by
  rw [← not_le, le_cap_iff, Tracks.length_repeated, not_le]

theorem cap_spec : 1 ≤ e.cap ∧ e.cap ≤ tracksMax := by
  refine ⟨le_cap_iff.mpr Tracks.length_repeated_one, ?_⟩
  have h := le_cap_iff.mp (le_refl e.cap)
  rw [Tracks.length_repeated] at h
  have hm := Nat.le_mul_of_pos_right e.cap e.section_pos
  omega

-- What is counted is limited to the cap, and to 1 from below.
theorem repeats?_eq (hpos : ∀ t ∈ e.repeatSection, 0 < sectionPx t e.avail) :
    repeats? e.toTracks e.avail e.gap =
      (toInt? ((e.avail + e.gap) / e.pattern)).map fun n => max 1 (min n.toNat e.cap) := by
  have hp := pattern_pos hpos
  simp only [repeats?, sum_sectionPx hpos]
  rw [← pattern, if_pos hp]
  refine congrArg (Option.map · _) (funext fun n => ?_)
  have ⟨h₁, h₂⟩ := e.cap_spec
  have hc : (tracksMax - e.autoRepeatStart - e.after.length) / e.autoRepeatCount = e.cap := rfl
  simp only [← cap_lt_iff, hc]
  split_ifs <;> omega

theorem le_repeats?_iff {r : Nat} (hpos : ∀ t ∈ e.repeatSection, 0 < sectionPx t e.avail)
    (hr : repeats? e.toTracks e.avail e.gap = some r) (hk : 2 ≤ k) :
    k ≤ r ↔ (e.repeated k).length ≤ tracksMax ∧ e.SectionFits k := by
  rw [repeats?_eq hpos, Option.map_eq_some_iff] at hr
  have ⟨n, hn, hr⟩ := hr
  have hq := le_toInt? hn (by omega : 1 ≤ k)
  rw [← le_cap_iff, sectionFits_iff, ← le_div_iff₀ (pattern_pos hpos), ← hq]
  omega

theorem fits_of_le {j : Nat} (hp : 0 ≤ e.pattern) (hj : j ≤ k) (h : e.Fits k) : e.Fits j := by
  rw [fits_iff] at h ⊢
  have hc : (j : ℚ) ≤ k := by exact_mod_cast hj
  linarith [mul_le_mul_of_nonneg_right hc hp]

-- The numbers of repetitions that fit are the ones up to some number, as are those for the section
-- alone.
theorem isGreatest_iff {r : Nat} (hp : 0 ≤ e.pattern) (h₁ : 1 ≤ r)
    (hr : ∀ k, 2 ≤ k → (k ≤ r ↔ (e.repeated k).length ≤ tracksMax ∧ e.SectionFits k)) :
    IsGreatest { k | e.Admissible k } r ↔
      ∀ k, 2 ≤ k → (e.repeated k).length ≤ tracksMax → (e.SectionFits k ↔ e.Fits k) := by
  constructor
  case mp =>
    intro ⟨hm, hub⟩ k hk hl
    constructor
    case mp =>
      intro hs
      have hkr : k ≤ r := (hr k hk).mpr ⟨hl, hs⟩
      exact fits_of_le hp hkr (hm.right.right.resolve_left (by omega))
    case mpr =>
      intro hf
      exact ((hr k hk).mp (hub ⟨by omega, hl, .inr hf⟩)).right
  case mpr =>
    intro h
    constructor
    case left =>
      rcases h₁.eq_or_lt with rfl | h₂
      · exact ⟨le_rfl, Tracks.length_repeated_one, .inl rfl⟩
      · have ⟨hl, hs⟩ := (hr r h₂).mp le_rfl
        exact ⟨h₁, hl, .inr ((h r h₂ hl).mp hs)⟩
    case right =>
      intro k ⟨hk, hl, hf⟩
      rcases hf with rfl | hf
      · exact h₁
      · rcases hk.eq_or_lt with rfl | hk
        · exact h₁
        · exact (hr k hk).mpr ⟨hl, (h k hk hl).mpr hf⟩

theorem expandAutoRepeat_of_pos (hpos : ∀ t ∈ e.repeatSection, 0 < sectionPx t e.avail) :
    expandAutoRepeat e.toTracks e.avail e.gap =
      (repeats? e.toTracks e.avail e.gap).map e.repeated := by
  have hs : ¬∃ t ∈ e.repeatSection, sectionPx t e.avail ≤ 0 := fun ⟨t, ht, h⟩ =>
    absurd (hpos t ht) (not_lt.mpr h)
  rw [expandAutoRepeat, if_neg (not_or_intro e.has_section e.section_pos.ne'), if_neg hs]
  cases hr : repeats? e.toTracks e.avail e.gap
  case none   => rfl
  case some r =>
    rw [repeats?_eq hpos, Option.map_eq_some_iff] at hr
    have ⟨n, _, hn⟩ := hr
    have hc := e.cap_spec
    have hl : (e.repeated r).length ≤ tracksMax := le_cap_iff.mp (by omega)
    exact congrArg some (Tracks.foldl_push_repeated hl)

theorem expands_iff_of_pos (hpos : ∀ t ∈ e.repeatSection, 0 < sectionPx t e.avail) :
    e.Expands ↔ e.SectionDecides := by
  have hp := pattern_pos hpos
  have hq : (e.repeatSection.map e.size).sum + e.gap * e.repeatSection.length = e.pattern := by
    rw [Tracks.length_repeatSection, pattern, base]
  rw [Expands, SectionDecides, expandAutoRepeat_of_pos hpos, hq, repeats?_eq hpos]
  cases hn : toInt? ((e.avail + e.gap) / e.pattern)
  case none   => simp
  case some n =>
    have hr : repeats? e.toTracks e.avail e.gap = some (max 1 (min n.toNat e.cap)) := by
      rw [repeats?_eq hpos, hn]
      rfl
    rw [← isGreatest_iff hp.le (le_max_left 1 _) fun k hk => le_repeats?_iff hpos hr hk]
    constructor
    case mp =>
      intro ⟨k, hk, he⟩
      have hkr := Tracks.repeated_injective e.section_pos (Option.some.inj he)
      refine ⟨hpos, rfl, ?_⟩
      rw [← hkr] at hk
      exact hk
    case mpr =>
      intro ⟨_, _, hk⟩
      exact ⟨_, hk, rfl⟩

theorem sectionPx_lone (avail : ℚ) : sectionPx lone avail = 0 :=
  rfl

theorem section_of_lone (h : e.tracks = [lone]) :
    e.autoRepeatStart = 0 ∧ e.autoRepeatCount = 1 ∧ e.repeatSection = [lone] := by
  have hl := e.section_le
  have hp := e.section_pos
  rw [h, List.length_singleton] at hl
  have h₀ : e.autoRepeatStart = 0 := by omega
  have h₁ : e.autoRepeatCount = 1 := by omega
  exact ⟨h₀, h₁, by rw [Tracks.repeatSection, h, h₀, h₁]; rfl⟩

-- Without sizes above 0 the list is given up for a lone track.
theorem expands_iff_of_not_pos (hpos : ∃ t ∈ e.repeatSection, sectionPx t e.avail ≤ 0) :
    e.Expands ↔ e.tracks = [lone] ∧ ¬e.Fits 2 := by
  have he : expandAutoRepeat e.toTracks e.avail e.gap = some [lone] := by
    rw [expandAutoRepeat, if_neg (not_or_intro e.has_section e.section_pos.ne'), if_pos hpos]
  rw [Expands, he]
  constructor
  case mp =>
    intro ⟨k, hk, hl⟩
    have hlen := congrArg List.length (Option.some.inj hl)
    rw [List.length_singleton, Tracks.length_repeated] at hlen
    have hm := Nat.mul_pos (by exact hk.left.left : 0 < k) e.section_pos
    have hk₁ : k = 1 := Nat.eq_one_of_mul_eq_one_right (m := k) (n := e.autoRepeatCount) (by omega)
    subst hk₁
    refine ⟨(Tracks.repeated_one.symm.trans (Option.some.inj hl).symm), fun hf => ?_⟩
    have h₂ : (e.repeated 2).length ≤ tracksMax := by
      rw [Tracks.length_repeated, tracksMax]
      omega
    exact absurd (hk.right ⟨by omega, h₂, .inr hf⟩) (by omega)
  case mpr =>
    intro ⟨ht, hf⟩
    refine ⟨1, ⟨⟨le_rfl, Tracks.length_repeated_one, .inl rfl⟩, fun k ⟨hk, _, hfk⟩ => ?_⟩, ?_⟩
    · have hp : 0 ≤ e.pattern := by
        have hb : e.base = 0 := by
          rw [base, (section_of_lone ht).right.right, List.map_singleton, List.sum_singleton]
          rfl
        rw [pattern, hb, zero_add]
        exact mul_nonneg e.gap_nonneg e.autoRepeatCount.cast_nonneg
      by_contra hlt
      exact hf (fits_of_le hp (by omega) (hfk.resolve_left (by omega)))
    · rw [Tracks.repeated_one, ht]

-- The section is repeated as often as it fits exactly if the tracks around it make no difference. A
-- list of which the section has a track without a size is replaced, which is right for one track that
-- does not fit twice.
theorem expands_iff (e : Expansion) : e.Expands ↔ e.SectionDecides ∨ e.tracks = [lone] ∧ ¬e.Fits 2 := by
  by_cases hpos : ∀ t ∈ e.repeatSection, 0 < sectionPx t e.avail
  case pos =>
    rw [expands_iff_of_pos hpos, or_iff_left]
    intro ⟨ht, _⟩
    have h := hpos lone (by rw [(section_of_lone ht).right.right]; exact List.mem_singleton_self _)
    exact absurd h (sectionPx_lone e.avail).not_gt
  case neg =>
    rw [expands_iff_of_not_pos (by simpa using hpos), or_iff_right]
    exact fun h => hpos h.left

def px (v : ℚ) : Track where
  kind := .px
  v    := v

theorem no_gap : (0 : ℚ) ≤ 0 :=
  le_rfl

-- `100px repeat(auto-fill, 100px)` in a width of 200px.
def fixedBefore : Expansion where
  tracks          := [px 100, px 100]
  autoRepeat      := .fill
  autoRepeatStart := 1
  autoRepeatCount := 1
  tracks_le       := by decide
  section_le      := by decide
  avail           := 200
  gap             := 0
  gap_nonneg      := no_gap
  has_section     := by decide
  section_pos     := by decide

theorem not_expands_fixedBefore : ¬∀ e : Expansion, e.Expands := by
  intro h
  obtain ⟨k, hk, he⟩ := h fixedBefore
  have ho : (expandAutoRepeat fixedBefore.toTracks 200 0).map List.length = some 3 := by decide +kernel
  have hk₂ : k = 2 := by
    rw [show expandAutoRepeat fixedBefore.toTracks 200 0 = _ from he, Option.map_some,
      Option.some.injEq, Tracks.length_repeated] at ho
    simp only [fixedBefore, Tracks.after, List.drop, List.length_nil] at ho
    omega
  subst hk₂
  have hf : ¬fixedBefore.Fits 2 := by
    rw [fits_iff]
    norm_num [pattern, around, base, fixedBefore, Tracks.before, Tracks.repeatSection, Tracks.after,
      size, px, trackMinPx]
  exact hf (hk.left.right.right.resolve_left (by decide))

end Expansion

end Nordstjernen.Layout.Grid
