import Mathlib.Tactic.IntervalCases
import Mathlib.Algebra.Order.Group.Int
import Nordstjernen.Dom.Datetime

open Nordstjernen.Glib

namespace Nordstjernen.Dom.Datetime

section Truncation

variable {a b : Int}

theorem tdiv_sub_of_neg (ha : a < 0) (hb : 0 < b) : (a - (b - 1)).tdiv b = a / b := by
  have hlt := Int.emod_lt_of_pos a hb
  have hnonneg := Int.emod_nonneg a (Int.ne_of_gt hb)
  have hsum := Int.mul_ediv_add_emod a b
  have hdiv : (b - 1 - a) / b = -(a / b) := by
    refine (Int.ediv_emod_unique (r := b - 1 - a % b) hb |>.mpr ⟨?_, by omega, by omega⟩).left
    rw [Int.mul_neg]
    omega
  rw [← Int.neg_sub, Int.neg_tdiv, Int.tdiv_eq_ediv_of_nonneg (by omega), hdiv, Int.neg_neg]

theorem tmod_eq_zero_iff : a.tmod b = 0 ↔ a % b = 0 :=
  Int.dvd_iff_tmod_eq_zero.symm.trans Int.dvd_iff_emod_eq_zero

theorem floormod_eq (hb : 0 < b) : floormod a b = a % b := by
  have hlt := Int.emod_lt_of_pos a hb
  have hnonneg := Int.emod_nonneg a (Int.ne_of_gt hb)
  rw [floormod, Int.tmod_eq_emod]
  split_ifs
  all_goals omega

theorem int?_eq_some (h : intMin ≤ a ∧ a ≤ intMax) : int? a = some a :=
  if_pos h

theorem toInt_eq (h : intMin ≤ a ∧ a ≤ intMax) : toInt a = a := by
  have ⟨hl, hr⟩ := h
  rw [intMin] at hl
  rw [intMax] at hr
  exact Int.bmod_eq_of_le (by omega) (by omega)

theorem toNat_ofInt (h₀ : 0 ≤ a) (h : a ≤ intMax) : (UInt32.ofInt a).toNat = a.toNat := by
  rw [intMax] at h
  simp [UInt32.ofInt]
  omega

end Truncation

theorem isLeap_iff {y : Int} : isLeap y ↔ y % 4 = 0 ∧ (y % 100 ≠ 0 ∨ y % 400 = 0) := by
  rw [isLeap, Ne, tmod_eq_zero_iff, tmod_eq_zero_iff, tmod_eq_zero_iff]

-- The days that are in front of a year which begins in March, and in front of a month of such a year.
def yearStart (y : Int) : Int :=
  365 * y + y / 4 - y / 100 + y / 400

def monthStart (mp : Int) : Int :=
  (153 * mp + 2) / 5

theorem yearStart_succ (y : Int) : yearStart (y + 1) = yearStart y + 365 + if isLeap (y + 1) then 1 else 0 := by
  simp only [yearStart, isLeap_iff]
  split_ifs
  all_goals omega

theorem yearStart_era (y : Int) :
    yearStart y = y / 400 * 146097 + (y % 400 * 365 + y % 400 / 4 - y % 400 / 100) := by
  rw [yearStart]
  omega

theorem yearStart_mono {a b : Int} (h : a ≤ b) : yearStart a ≤ yearStart b := by
  induction b, h using Int.leInduction
  case base => exact Int.le_refl _
  case succ b h hi =>
    rw [yearStart_succ]
    split
    all_goals omega

theorem monthStart_mono {a b : Int} (h : a ≤ b) : monthStart a ≤ monthStart b :=
  Int.ediv_le_ediv (by decide) (by omega)

-- The month that a day of the year is in.
theorem month_eq {mp n : Int} (hl : monthStart mp ≤ n) (hr : n < monthStart (mp + 1)) :
    (5 * n + 2) / 153 = mp := by
  rw [monthStart] at hl hr
  omega

-- A date, its year and month as they are counted from March.
structure Date where
  year         : Int
  month        : Int
  day          : Int
  one_le_month : 1 ≤ month
  month_le     : month ≤ 12
  one_le_day   : 1 ≤ day
  day_le       : day ≤ daysInMonth year month

namespace Date

variable (t : Date)

def marchYear : Int :=
  t.year - if t.month ≤ 2 then 1 else 0

def marchMonth : Int :=
  t.month + if t.month > 2 then -3 else 9

def dayOfYear : Int :=
  monthStart t.marchMonth + t.day - 1

def number : Int :=
  yearStart t.marchYear + t.dayOfYear - 719468

instance : LT Date where
  lt s t := s.year < t.year ∨ s.year = t.year ∧ (s.month < t.month ∨ s.month = t.month ∧ s.day < t.day)

-- The dates that the conversion has room for.
def InRange : Prop :=
  intMin + 399 ≤ t.marchYear ∧ t.year ≤ intMax

end Date

theorem daysInMonth_of_marchMonth {y m mp : Int} (hmp : mp = m + if m > 2 then -3 else 9) (h₁ : 1 ≤ m)
    (h₂ : m ≤ 12) (h : mp < 11) :
    daysInMonth y m = monthStart (mp + 1) - monthStart mp := by
  subst hmp
  interval_cases m
  all_goals first | rfl | cases h

namespace Date

variable {s t : Date}

theorem marchMonth_nonneg : 0 ≤ t.marchMonth := by
  have h := t.one_le_month
  rw [marchMonth]
  split
  all_goals omega

theorem marchMonth_le : t.marchMonth ≤ 11 := by
  have h := t.month_le
  rw [marchMonth]
  split
  all_goals omega

theorem february_of_marchMonth (h : t.marchMonth = 11) : t.month = 2 := by
  have h₁ := t.one_le_month
  have h₂ := t.month_le
  rw [marchMonth] at h
  split at h
  all_goals omega

theorem monthStart_le_dayOfYear : monthStart t.marchMonth ≤ t.dayOfYear := by
  have h := t.one_le_day
  rw [dayOfYear]
  omega

-- A day is in its month, and the last one of February in a leap year only.
theorem dayOfYear_lt : t.dayOfYear < monthStart (t.marchMonth + 1) ∧
    (t.dayOfYear < 365 ∨ t.dayOfYear = 365 ∧ isLeap (t.marchYear + 1)) := by
  have hday := t.day_le
  rw [dayOfYear]
  rcases Int.lt_or_eq_of_le t.marchMonth_le with h | h
  · have hm : t.marchMonth = t.month + if t.month > 2 then -3 else 9 := rfl
    rw [daysInMonth_of_marchMonth hm t.one_le_month t.month_le h] at hday
    have hmono := monthStart_mono (show t.marchMonth + 1 ≤ 11 by omega)
    have hlast : monthStart 11 = 337 := rfl
    exact ⟨by omega, .inl (by omega)⟩
  · have hfeb := february_of_marchMonth h
    have hyear : t.marchYear + 1 = t.year := by
      rw [marchYear, hfeb, if_pos (by decide), Int.sub_add_cancel]
    have hstart : monthStart 11 = 337 ∧ monthStart (11 + 1) = 367 := ⟨rfl, rfl⟩
    rw [hfeb, daysInMonth, if_neg (by decide), if_pos rfl] at hday
    rw [h, hyear]
    split at hday
    case isTrue hl =>
      have hle : monthStart 11 + t.day - 1 ≤ 365 := by omega
      exact ⟨by omega, (Int.lt_or_eq_of_le hle).imp_right (⟨·, hl⟩)⟩
    case isFalse => exact ⟨by omega, .inl (by omega)⟩

theorem dayOfYear_nonneg : 0 ≤ t.dayOfYear := by
  have h : monthStart 0 ≤ monthStart t.marchMonth := monthStart_mono t.marchMonth_nonneg
  exact Int.le_trans h t.monthStart_le_dayOfYear

theorem number_lt (h : s < t) : s.number < t.number := by
  have hs := s.dayOfYear_lt
  have ht := t.monthStart_le_dayOfYear
  have ht₀ := t.dayOfYear_nonneg
  have horder : s.marchYear < t.marchYear ∨ s.marchYear = t.marchYear ∧
      (s.marchMonth < t.marchMonth ∨ s.marchMonth = t.marchMonth ∧ s.day < t.day) := by
    have hs₂ := s.month_le
    have ht₁ := t.one_le_month
    simp only [marchYear, marchMonth]
    rcases h with h | ⟨h, h | ⟨h, hd⟩⟩
    all_goals split_ifs
    all_goals omega
  simp only [number]
  rcases horder with h | ⟨h, h'⟩
  · have hyear := yearStart_succ s.marchYear
    have hmono := yearStart_mono (show s.marchYear + 1 ≤ t.marchYear from h)
    rcases hs.right with hd | ⟨hd, hl⟩
    · split at hyear
      all_goals omega
    · rw [if_pos hl] at hyear
      omega
  · rw [h]
    rcases h' with h | ⟨h, hd⟩
    · have hmono := monthStart_mono (show s.marchMonth + 1 ≤ t.marchMonth from h)
      omega
    · simp only [dayOfYear, h]
      omega

end Date

section Unsigned

variable {doe yoe doy mp : UInt32} {y n : Nat}

theorem toNat_sub {a b : UInt32} (h : b.toNat ≤ a.toNat) : (a - b).toNat = a.toNat - b.toNat :=
  UInt32.toNat_sub_of_le a b (UInt32.le_iff_toNat_le.mpr h)

theorem toNat_add {a b : UInt32} (h : a.toNat + b.toNat < 4294967296) : (a + b).toNat = a.toNat + b.toNat :=
  (UInt32.toNat_add a b).trans (Nat.mod_eq_of_lt h)

theorem toNat_mul {a b : UInt32} (h : a.toNat * b.toNat < 4294967296) : (a * b).toNat = a.toNat * b.toNat :=
  (UInt32.toNat_mul a b).trans (Nat.mod_eq_of_lt h)

theorem toNat_yearDays (h : yoe.toNat < 400) :
    (365 * yoe + yoe / 4 - yoe / 100).toNat = yoe.toNat * 365 + yoe.toNat / 4 - yoe.toNat / 100 := by
  have hmul : (365 * yoe).toNat = 365 * yoe.toNat := toNat_mul (show 365 * yoe.toNat < _ by omega)
  have h₄ : (yoe / 4).toNat = yoe.toNat / 4 := UInt32.toNat_div yoe _
  have h₁₀₀ : (yoe / 100).toNat = yoe.toNat / 100 := UInt32.toNat_div yoe _
  have hadd : (365 * yoe + yoe / 4).toNat = 365 * yoe.toNat + yoe.toNat / 4 := by
    rw [toNat_add (by omega), hmul, h₄]
  rw [toNat_sub (by omega), hadd, h₁₀₀, Nat.mul_comm]

theorem toNat_doe (h : yoe.toNat < 400) (hd : doy.toNat ≤ 365) :
    (yoe * 365 + yoe / 4 - yoe / 100 + doy).toNat =
      yoe.toNat * 365 + yoe.toNat / 4 - yoe.toNat / 100 + doy.toNat := by
  have hyear := toNat_yearDays h
  rw [UInt32.mul_comm, toNat_add (by omega), hyear]

-- The leap days that are taken off the days of an era leave 365 days to a year.
theorem yoe_eq {d : Nat} (h : y < 400)
    (hd : n < 365 ∨ n = 365 ∧ (y + 1) % 4 = 0 ∧ ((y + 1) % 100 ≠ 0 ∨ (y + 1) % 400 = 0))
    (he : d = y * 365 + y / 4 - y / 100 + n) : (d - d / 1460 + d / 36524 - d / 146096) / 365 = y := by
  obtain ⟨c, q, r, rfl, hq, hr⟩ : ∃ c q r, y = 100 * c + 4 * q + r ∧ q < 25 ∧ r < 4 :=
    ⟨y / 100, y % 100 / 4, y % 4, by omega, by omega, by omega⟩
  have hc : c < 4 := by omega
  have hquarter : (100 * c + 4 * q + r) / 4 = 25 * c + q := by omega
  have hcentury : (100 * c + 4 * q + r) / 100 = c := by omega
  rw [hquarter, hcentury] at he
  clear hquarter hcentury
  obtain ⟨k, hk⟩ : ∃ k, k = 1461 * q + 365 * r + n := ⟨_, rfl⟩
  have hlast : k < 36524 ∨ c = 3 ∧ k = 36524 := by omega
  have hleap : n < 365 ∨ n = 365 ∧ r = 3 := by omega
  have hd' : d = 36524 * c + k := by omega
  have hcenturies : d / 36524 = c + d / 146096 := by
    clear hk he hd h hleap hq hr
    omega
  have hquarters : d / 1460 = 25 * c + q ∧ n < 365 ∨ d / 1460 = 25 * c + q + 1 ∧ 0 < n := by omega
  omega

theorem toNat_yoe (h : doe.toNat < 146097) :
    ((doe - doe / 1460 + doe / 36524 - doe / 146096) / 365).toNat =
      (doe.toNat - doe.toNat / 1460 + doe.toNat / 36524 - doe.toNat / 146096) / 365 := by
  have h₄ : (doe / 1460).toNat = doe.toNat / 1460 := UInt32.toNat_div doe _
  have h₁₀₀ : (doe / 36524).toNat = doe.toNat / 36524 := UInt32.toNat_div doe _
  have h₄₀₀ : (doe / 146096).toNat = doe.toNat / 146096 := UInt32.toNat_div doe _
  have hsub : (doe - doe / 1460).toNat = doe.toNat - doe.toNat / 1460 := by
    rw [toNat_sub (by omega), h₄]
  have hadd : (doe - doe / 1460 + doe / 36524).toNat = doe.toNat - doe.toNat / 1460 + doe.toNat / 36524 := by
    rw [toNat_add (by omega), hsub, h₁₀₀]
  rw [UInt32.toNat_div, toNat_sub (by omega), hadd, h₄₀₀]
  rfl

theorem toNat_mp (h : doy.toNat ≤ 365) : ((5 * doy + 2) / 153).toNat = (5 * doy.toNat + 2) / 153 := by
  have hmul : (5 * doy).toNat = 5 * doy.toNat := toNat_mul (show 5 * doy.toNat < _ by omega)
  have hadd : (5 * doy + 2).toNat = 5 * doy.toNat + 2 := by
    rw [toNat_add (show (5 * doy).toNat + 2 < _ by omega), hmul]
    rfl
  rw [UInt32.toNat_div, hadd]
  rfl

theorem toNat_monthStart (hm : mp.toNat ≤ 11) : ((153 * mp + 2) / 5).toNat = (153 * mp.toNat + 2) / 5 := by
  have hmul : (153 * mp).toNat = 153 * mp.toNat := toNat_mul (show 153 * mp.toNat < _ by omega)
  have hadd : (153 * mp + 2).toNat = 153 * mp.toNat + 2 := by
    rw [toNat_add (show (153 * mp).toNat + 2 < _ by omega), hmul]
    rfl
  rw [UInt32.toNat_div, hadd]
  rfl

theorem toNat_dd (hm : mp.toNat ≤ 11) (hd : (153 * mp.toNat + 2) / 5 ≤ doy.toNat) (h : doy.toNat ≤ 365) :
    (doy - (153 * mp + 2) / 5 + 1).toNat = doy.toNat - (153 * mp.toNat + 2) / 5 + 1 := by
  have hstart := toNat_monthStart hm
  have hsub : (doy - (153 * mp + 2) / 5).toNat = doy.toNat - (153 * mp.toNat + 2) / 5 := by
    rw [toNat_sub (by omega), hstart]
  rw [toNat_add (show (doy - (153 * mp + 2) / 5).toNat + 1 < _ by omega), hsub]
  rfl

theorem toNat_mm (hm : mp.toNat ≤ 11) :
    (mp + if mp < 10 then 3 else -9).toNat = if mp.toNat < 10 then mp.toNat + 3 else mp.toNat - 9 := by
  have hlt : mp < 10 ↔ mp.toNat < 10 := UInt32.lt_iff_toNat_lt
  simp only [hlt]
  split
  case isTrue  =>
    rw [UInt32.toNat_add]
    exact Nat.mod_eq_of_lt (show mp.toNat + 3 < 2 ^ 32 by omega)
  case isFalse =>
    have hneg : (-9 : UInt32).toNat = 4294967287 := rfl
    rw [UInt32.toNat_add, hneg]
    omega

end Unsigned

section Conversions

variable {t : Date}

-- Where a day is in its era of 400 years.
def Date.dayOfEra (t : Date) : Int :=
  t.marchYear % 400 * 365 + t.marchYear % 400 / 4 - t.marchYear % 400 / 100 + t.dayOfYear

theorem Date.number_eq : t.number = t.marchYear / 400 * 146097 + t.dayOfEra - 719468 := by
  rw [number, yearStart_era, dayOfEra]
  omega

theorem Date.dayOfYear_cases : 0 ≤ t.dayOfYear ∧ (t.dayOfYear < 365 ∨
    t.dayOfYear = 365 ∧ (t.marchYear % 400 + 1) % 4 = 0 ∧
      ((t.marchYear % 400 + 1) % 100 ≠ 0 ∨ (t.marchYear % 400 + 1) % 400 = 0)) := by
  refine ⟨t.dayOfYear_nonneg, t.dayOfYear_lt.right.imp_right fun ⟨he, hl⟩ => ⟨he, ?_⟩⟩
  rw [isLeap_iff] at hl
  omega

theorem Date.dayOfEra_mem : 0 ≤ t.dayOfEra ∧ t.dayOfEra < 146097 := by
  have h := t.dayOfYear_cases
  rw [dayOfEra]
  omega

theorem Date.InRange.marchYear (h : t.InRange) : intMin + 399 ≤ t.marchYear ∧ t.marchYear ≤ intMax := by
  refine ⟨h.left, Int.le_trans ?_ h.right⟩
  rw [Date.marchYear]
  split
  all_goals omega

theorem floorEra {n : Int} (h : intMin + 399 ≤ n) :
    ∃ k, (if 0 ≤ n then some n else int? (n - 399)) = some k ∧ k.tdiv 400 = n / 400 := by
  split
  case isTrue h₀  => exact ⟨n, rfl, Int.tdiv_eq_ediv_of_nonneg h₀⟩
  case isFalse h₀ =>
    have hmax : intMax = 2147483647 := rfl
    exact ⟨n - 399, int?_eq_some ⟨by omega, by omega⟩, tdiv_sub_of_neg (b := 400) (by omega) (by decide)⟩

theorem daysFromCivil_date (h : t.InRange) : daysFromCivil t.year t.month t.day = some t.number := by
  obtain ⟨hmin, hmax⟩ := h.marchYear
  have hm₀ := t.marchMonth_nonneg
  have hm₁ := t.marchMonth_le
  have hday := t.dayOfYear_cases
  have hlimits : intMin = -2147483648 ∧ intMax = 2147483647 := ⟨rfl, rfl⟩
  have hstart : (153 * t.marchMonth + 2).tdiv 5 = monthStart t.marchMonth :=
    Int.tdiv_eq_ediv_of_nonneg (by omega)
  have hdoy : monthStart t.marchMonth + t.day - 1 = t.dayOfYear := rfl
  obtain ⟨n, hn, hera⟩ := floorEra hmin
  have hyear : int? (t.year - if t.month ≤ 2 then 1 else 0) = some t.marchYear :=
    int?_eq_some (a := t.marchYear) ⟨by omega, hmax⟩
  have hmonth : int? (t.month + if t.month > 2 then -3 else 9) = some t.marchMonth :=
    int?_eq_some (a := t.marchMonth) ⟨by omega, by omega⟩
  have hyoe : (UInt32.ofInt (t.marchYear - t.marchYear / 400 * 400)).toNat = (t.marchYear % 400).toNat := by
    rw [toNat_ofInt (by omega) (by omega)]
    omega
  have hdoy' : (UInt32.ofInt t.dayOfYear).toNat = t.dayOfYear.toNat := toNat_ofInt hday.left (by omega)
  have hyear₄₀₀ : (t.marchYear % 400).toNat < 400 := by omega
  have hdoe := toNat_doe (hyoe.trans_lt hyear₄₀₀) (hdoy'.trans_le (by omega))
  simp only [daysFromCivil, hyear, hmonth, hn, Option.bind_eq_bind, Option.bind_some]
  rw [int?_eq_some ⟨by omega, by omega⟩, Option.bind_some, int?_eq_some ⟨by omega, by omega⟩, Option.bind_some,
    hstart, int?_eq_some ⟨by omega, by omega⟩, Option.bind_some, hdoy, int?_eq_some ⟨by omega, by omega⟩,
    Option.bind_some, hera, hdoe, hyoe, hdoy', Date.number_eq, Date.dayOfEra]
  refine congrArg some ?_
  omega

theorem floorEra_days (z : Int) : (if 0 ≤ z then z else z - 146096).tdiv 146097 = z / 146097 := by
  split
  case isTrue h  => exact Int.tdiv_eq_ediv_of_nonneg h
  case isFalse h => exact tdiv_sub_of_neg (b := 146097) (Int.not_le.mp h) (by decide)

-- The month and the year as they are written, from those counted from March.
theorem Date.month_eq : (if t.marchMonth < 10 then t.marchMonth + 3 else t.marchMonth - 9) = t.month := by
  have h₁ := t.one_le_month
  have h₂ := t.month_le
  rw [marchMonth]
  split_ifs
  all_goals omega

theorem Date.year_eq : (t.marchYear + if t.month ≤ 2 then 1 else 0) = t.year :=
  Int.sub_add_cancel ..

section Fields

variable {doe yoe doy mp mm : UInt32}

theorem toNat_yoe_date (h : doe.toNat = t.dayOfEra.toNat) :
    ((doe - doe / 1460 + doe / 36524 - doe / 146096) / 365).toNat = (t.marchYear % 400).toNat := by
  have hdays := t.dayOfYear_cases
  have hera := t.dayOfEra_mem
  rw [toNat_yoe (by omega)]
  refine yoe_eq (n := t.dayOfYear.toNat) (by omega) (by omega) ?_
  rw [h, Date.dayOfEra]
  omega

theorem toNat_doy_date (h : doe.toNat = t.dayOfEra.toNat) (hy : yoe.toNat = (t.marchYear % 400).toNat) :
    (doe - (365 * yoe + yoe / 4 - yoe / 100)).toNat = t.dayOfYear.toNat := by
  have hdays := t.dayOfYear_nonneg
  have hlt : yoe.toNat < 400 := by omega
  have hstart := toNat_yearDays hlt
  rw [Date.dayOfEra] at h
  rw [toNat_sub (by omega), hstart]
  omega

theorem toNat_mp_date (h : doy.toNat = t.dayOfYear.toNat) : ((5 * doy + 2) / 153).toNat = t.marchMonth.toNat := by
  have hmonth := month_eq t.monthStart_le_dayOfYear t.dayOfYear_lt.left
  have hdays := t.dayOfYear_cases
  rw [toNat_mp (by omega), h]
  omega

theorem toNat_dd_date (h : doy.toNat = t.dayOfYear.toNat) (hm : mp.toNat = t.marchMonth.toNat) :
    (doy - (153 * mp + 2) / 5 + 1).toNat = t.day.toNat := by
  have hm₀ := t.marchMonth_nonneg
  have hm₁ := t.marchMonth_le
  have hstart := t.monthStart_le_dayOfYear
  have hdays := t.dayOfYear_cases
  have hday : monthStart t.marchMonth + t.day - 1 = t.dayOfYear := rfl
  rw [monthStart] at hday hstart
  rw [toNat_dd (by omega) (by omega) (by omega)]
  omega

theorem toNat_mm_date (hm : mp.toNat = t.marchMonth.toNat) :
    (mp + if mp < 10 then 3 else -9).toNat = t.month.toNat := by
  have hm₀ := t.marchMonth_nonneg
  have hm₁ := t.marchMonth_le
  have hmonth := t.month_eq
  rw [toNat_mm (by omega)]
  split_ifs at hmonth ⊢
  all_goals omega

theorem mm_le_iff (hm : mm.toNat = t.month.toNat) : mm ≤ 2 ↔ t.month ≤ 2 := by
  have h := t.one_le_month
  rw [UInt32.le_iff_toNat_le, hm, show (2 : UInt32).toNat = 2 from rfl]
  omega

end Fields

theorem Date.day_le_days : t.day ≤ 366 := by
  have hdays := t.dayOfYear_cases
  have hm₀ := t.marchMonth_nonneg
  have hday : monthStart t.marchMonth + t.day - 1 = t.dayOfYear := rfl
  rw [monthStart] at hday
  omega

theorem long?_number (h : t.InRange) :
    long? (t.number + 719468) = some (t.marchYear / 400 * 146097 + t.dayOfEra) := by
  obtain ⟨hmin, hmax⟩ := h.marchYear
  have hera := t.dayOfEra_mem
  rw [intMin] at hmin
  rw [intMax] at hmax
  rw [Date.number_eq, Int.sub_add_cancel]
  refine if_pos (show int64Min ≤ _ ∧ _ ≤ int64Max from ?_)
  rw [int64Min, int64Max]
  omega

theorem civilOfEra_eq {era : Int} {doe yoe doy mp mm : UInt32}
    (hyoe : (doe - doe / 1460 + doe / 36524 - doe / 146096) / 365 = yoe)
    (hdoy : doe - (365 * yoe + yoe / 4 - yoe / 100) = doy) (hmp : (5 * doy + 2) / 153 = mp)
    (hmm : (mp + if mp < 10 then 3 else -9) = mm) :
    civilOfEra era doe = (int? (toInt yoe.toNat + toInt (era * 400))).bind fun yy =>
      (int? (yy + if mm ≤ 2 then 1 else 0)).bind fun y =>
        some (y, toInt mm.toNat, toInt (doy - (153 * mp + 2) / 5 + 1).toNat) := by
  simp only [civilOfEra, Option.bind_eq_bind, Option.pure_def, hyoe, hdoy, hmp, hmm]

theorem civilFromDays_eq (h : t.InRange) :
    civilFromDays t.number = civilOfEra (t.marchYear / 400) (UInt32.ofInt t.dayOfEra) := by
  have hera := t.dayOfEra_mem
  have hdivision : (t.marchYear / 400 * 146097 + t.dayOfEra) / 146097 = t.marchYear / 400 := by omega
  have hrest : t.marchYear / 400 * 146097 + t.dayOfEra - t.marchYear / 400 * 146097 = t.dayOfEra := by omega
  rw [civilFromDays, long?_number h, Option.bind_eq_bind, Option.bind_some, floorEra_days, hdivision]
  exact congrArg (fun z => civilOfEra _ (UInt32.ofInt z)) hrest

theorem civilFromDays_number (h : t.InRange) : civilFromDays t.number = some (t.year, t.month, t.day) := by
  obtain ⟨hmin, hmax⟩ := h.marchYear
  have hmarch : intMin ≤ t.marchYear ∧ t.marchYear ≤ intMax := ⟨by omega, hmax⟩
  have hera := t.dayOfEra_mem
  have hdoe : (UInt32.ofInt t.dayOfEra).toNat = t.dayOfEra.toNat :=
    toNat_ofInt hera.left (Int.le_trans (Int.le_of_lt hera.right) (by decide))
  have hyoe := toNat_yoe_date hdoe
  have hdoy := toNat_doy_date hdoe hyoe
  have hmp := toNat_mp_date hdoy
  have hmm := toNat_mm_date hmp
  have hmonth : intMin ≤ t.month ∧ t.month ≤ intMax :=
    ⟨Int.le_trans (by decide) t.one_le_month, Int.le_trans t.month_le (by decide)⟩
  have hday : intMin ≤ t.day ∧ t.day ≤ intMax :=
    ⟨Int.le_trans (by decide) t.one_le_day, Int.le_trans t.day_le_days (by decide)⟩
  have hyear : intMin ≤ t.year ∧ t.year ≤ intMax := by
    have hge := t.year_eq
    refine ⟨?_, h.right⟩
    split at hge
    all_goals omega
  have hyy : toInt (t.marchYear % 400).toNat + toInt (t.marchYear / 400 * 400) = t.marchYear := by
    have hlimits : intMin = -2147483648 ∧ intMax = 2147483647 := ⟨rfl, rfl⟩
    rw [toInt_eq ⟨by omega, by omega⟩, toInt_eq ⟨by omega, by omega⟩]
    omega
  rw [civilFromDays_eq h, civilOfEra_eq rfl rfl rfl rfl, hyoe, hyy, int?_eq_some hmarch, Option.bind_some,
    if_congr (mm_le_iff hmm) rfl rfl, Date.year_eq, int?_eq_some hyear, Option.bind_some, hmm,
    toNat_dd_date hdoy hmp, Int.toNat_of_nonneg (Int.le_trans (by decide) t.one_le_month),
    Int.toNat_of_nonneg (Int.le_trans (by decide) t.one_le_day), toInt_eq hmonth, toInt_eq hday]

-- Every day of a year that begins in March is one of a month.
theorem exists_month {n : Int} {p : Prop} (h₀ : 0 ≤ n) (h : n < 365 ∨ n = 365 ∧ p) :
    ∃ mp, 0 ≤ mp ∧ monthStart mp ≤ n ∧ (mp < 11 ∧ n < monthStart (mp + 1) ∨ mp = 11 ∧ (n < 365 ∨ p)) := by
  refine ⟨(5 * n + 2) / 153, by omega, ?_, ?_⟩
  · rw [monthStart]
    omega
  · rw [monthStart]
    rcases h with h | ⟨h, hp⟩
    · omega
    · exact .inr ⟨by omega, .inr hp⟩

theorem exists_marchYear (n : Int) :
    ∃ y k, n = yearStart y + k ∧ 0 ≤ k ∧ (k < 365 ∨ k = 365 ∧ isLeap (y + 1)) := by
  obtain ⟨c, k, hn, hc, hk, hlast⟩ : ∃ c k, n % 146097 = 36524 * c + k ∧ (0 ≤ c ∧ c < 4) ∧ 0 ≤ k ∧
      (k < 36524 ∨ c = 3 ∧ k = 36524) :=
    ⟨min 3 (n % 146097 / 36524), n % 146097 - 36524 * min 3 (n % 146097 / 36524), by omega⟩
  obtain ⟨r, e, he, hr, he₀, hleap⟩ : ∃ r e, k % 1461 = 365 * r + e ∧ (0 ≤ r ∧ r < 4) ∧ 0 ≤ e ∧
      (e < 365 ∨ r = 3 ∧ e = 365) :=
    ⟨min 3 (k % 1461 / 365), k % 1461 - 365 * min 3 (k % 1461 / 365), by omega⟩
  have hq : k / 1461 < 25 ∧ 0 ≤ k / 1461 := by omega
  obtain ⟨y, hy⟩ : ∃ y, 100 * c + 4 * (k / 1461) + r = y := ⟨_, rfl⟩
  have h₄ : y / 4 = 25 * c + k / 1461 := by omega
  have h₁₀₀ : y / 100 = c := by omega
  have hyear : (n / 146097 * 400 + y) / 400 = n / 146097 ∧ (n / 146097 * 400 + y) % 400 = y := by omega
  refine ⟨n / 146097 * 400 + y, e, ?_, he₀, ?_⟩
  · rw [yearStart_era, hyear.left, hyear.right]
    omega
  · rw [isLeap_iff]
    omega

theorem exists_number (z : Int) : ∃ t : Date, t.number = z := by
  obtain ⟨y, n, hz, hn, hlast⟩ := exists_marchYear (z + 719468)
  obtain ⟨mp, hm₀, hm, hmonth⟩ := exists_month hn hlast
  have hle : mp ≤ 11 := by omega
  obtain ⟨m, hmp, hm₁, hm₂⟩ : ∃ m : Int, (mp = m + if m > 2 then -3 else 9) ∧ 1 ≤ m ∧ m ≤ 12 := by
    refine ⟨if mp < 10 then mp + 3 else mp - 9, ?_⟩
    split_ifs
    all_goals omega
  have hday : n - monthStart mp + 1 ≤ daysInMonth (y + if m ≤ 2 then 1 else 0) m := by
    rcases hmonth with ⟨hlt, hend⟩ | ⟨rfl, hlt⟩
    · rw [daysInMonth_of_marchMonth hmp hm₁ hm₂ hlt]
      omega
    · obtain rfl : m = 2 := by
        split at hmp
        all_goals omega
      have hstart : monthStart 11 = 337 := rfl
      rw [daysInMonth, if_neg (by decide), if_pos rfl, if_pos (Int.le_refl 2)]
      split
      case isTrue hl  => omega
      case isFalse hl =>
        have hn := hlt.resolve_right hl
        omega
  refine ⟨⟨y + if m ≤ 2 then 1 else 0, m, n - monthStart mp + 1, hm₁, hm₂, by omega, hday⟩, ?_⟩
  have hnumber : yearStart (y + (if m ≤ 2 then 1 else 0) - if m ≤ 2 then 1 else 0) +
      (monthStart (m + if m > 2 then -3 else 9) + (n - monthStart mp + 1) - 1) - 719468 = z := by
    rw [Int.add_sub_cancel, ← hmp]
    omega
  exact hnumber

end Conversions

section Weeks

variable {y : Int}

-- A year and its leap days, which make up the day of the week that it begins with.
def leapDays (y : Int) : Int :=
  y + y / 4 - y / 100 + y / 400

theorem leapSum_eq (h₀ : 0 ≤ y) (h : y ≤ 1717986918) : leapSum y = some (leapDays y) := by
  have hmin : intMin = -2147483648 := rfl
  have hmax : intMax = 2147483647 := rfl
  simp only [leapSum, Int.tdiv_eq_ediv_of_nonneg h₀, Option.bind_eq_bind]
  rw [int?_eq_some ⟨by omega, by omega⟩, Option.bind_some, int?_eq_some ⟨by omega, by omega⟩, Option.bind_some]
  exact int?_eq_some ⟨by omega, by omega⟩

theorem leapDays_sub (y : Int) :
    leapDays y - leapDays (y - 1) = 1 ∨ leapDays y - leapDays (y - 1) = 2 := by
  simp only [leapDays]
  omega

theorem isoWeeksInYear_eq (h₁ : 1 ≤ y) (h : y ≤ 1717986918) : isoWeeksInYear y =
    some (if leapDays y % 7 = 4 ∨ leapDays (y - 1) % 7 = 3 then 53 else 52) := by
  have hmin : intMin = -2147483648 := rfl
  have hmax : intMax = 2147483647 := rfl
  have hp : 0 ≤ leapDays y ∧ 0 ≤ leapDays (y - 1) := by
    simp only [leapDays]
    omega
  rw [isoWeeksInYear, leapSum_eq (by omega) h, int?_eq_some ⟨by omega, by omega⟩, Option.bind_eq_bind,
    Option.bind_some, Option.bind_some, leapSum_eq (by omega) (by omega), Option.bind_some,
    Int.tmod_eq_emod_of_nonneg hp.left, Int.tmod_eq_emod_of_nonneg hp.right]
  rfl

-- January 4 of a year.
def jan4 (y : Int) : Date :=
  ⟨y, 1, 4, by decide, by decide, by decide, show (4 : Int) ≤ 31 by decide⟩

theorem number_jan4 (y : Int) : (jan4 y).number = 364 * (y - 1) + leapDays (y - 1) - 719159 := by
  have hstart : monthStart 10 = 306 := rfl
  have h : (jan4 y).number = yearStart (y - 1) + (monthStart 10 + 4 - 1) - 719468 := rfl
  rw [h, yearStart, leapDays]
  omega

theorem isoWeek1Monday_eq (h₁ : 1 ≤ y) (h : y ≤ intMax) :
    isoWeek1Monday y = some ((jan4 y).number - ((jan4 y).number + 3) % 7) := by
  have hmin : intMin = -2147483648 := rfl
  have hmax : intMax = 2147483647 := rfl
  have hrange : (jan4 y).InRange := ⟨show intMin + 399 ≤ y - 1 by omega, h⟩
  have hjan : daysFromCivil y 1 4 = some (jan4 y).number := daysFromCivil_date hrange
  rw [isoWeek1Monday, hjan, Option.bind_eq_bind, Option.bind_some, floormod_eq (by decide),
    toInt_eq ⟨by omega, by omega⟩]
  rfl

theorem isoWeeks_eq (h₁ : 1 ≤ y) (h : y ≤ 1717986918) : ∃ a b n, isoWeek1Monday y = some a ∧
    isoWeek1Monday (y + 1) = some b ∧ isoWeeksInYear y = some n ∧ b - a = 7 * n := by
  have hmax : intMax = 2147483647 := rfl
  refine ⟨_, _, _, isoWeek1Monday_eq h₁ (by omega), isoWeek1Monday_eq (by omega) (by omega),
    isoWeeksInYear_eq h₁ h, ?_⟩
  have hsub := leapDays_sub y
  rw [number_jan4, number_jan4, Int.add_sub_cancel]
  generalize leapDays y = p at hsub ⊢
  generalize leapDays (y - 1) = q at hsub ⊢
  split_ifs
  all_goals omega

end Weeks

section Limits

variable {t : Date}

def firstDate : Date :=
  ⟨intMin + 399, 3, 1, by decide, by decide, by decide, by decide⟩

def lastDate : Date :=
  ⟨intMax, 12, 31, by decide, by decide, by decide, by decide⟩

theorem Date.inRange_of_number (h₁ : firstDate.number ≤ t.number) (h₂ : t.number ≤ lastDate.number) :
    t.InRange := by
  have hm₁ := t.one_le_month
  have hm₂ := t.month_le
  have hd := t.one_le_day
  constructor
  · by_contra hc
    have hlt : t < firstDate := by
      rw [Date.marchYear] at hc
      change t.year < intMin + 399 ∨ t.year = intMin + 399 ∧ (t.month < 3 ∨ t.month = 3 ∧ t.day < 1)
      split at hc
      all_goals omega
    exact Int.not_lt.mpr h₁ (Date.number_lt hlt)
  · by_contra hc
    have hlt : lastDate < t := .inl (Int.not_le.mp hc)
    exact Int.not_lt.mpr h₂ (Date.number_lt hlt)

-- The conversions where no step of them overflows, and the weeks of a year.
theorem civil_days :
    (∀ t : Date, t.InRange → ∃ z, daysFromCivil t.year t.month t.day = some z ∧
      civilFromDays z = some (t.year, t.month, t.day)) ∧
    (∀ z, -784352870042 ≤ z → z ≤ 784351576776 → ∃ t : Date, civilFromDays z = some (t.year, t.month, t.day) ∧
      daysFromCivil t.year t.month t.day = some z) ∧
    (∀ s t : Date, s.InRange → t.InRange → s < t → ∃ a b, daysFromCivil s.year s.month s.day = some a ∧
      daysFromCivil t.year t.month t.day = some b ∧ a < b) ∧
    ∀ y, 1 ≤ y → y ≤ 1717986918 → ∃ a b n, isoWeek1Monday y = some a ∧ isoWeek1Monday (y + 1) = some b ∧
      isoWeeksInYear y = some n ∧ b - a = 7 * n := by
  refine ⟨fun t h => ⟨t.number, daysFromCivil_date h, civilFromDays_number h⟩, fun z h₁ h₂ => ?_,
    fun s t hs ht hlt => ⟨_, _, daysFromCivil_date hs, daysFromCivil_date ht, Date.number_lt hlt⟩,
    fun y => isoWeeks_eq⟩
  obtain ⟨t, rfl⟩ := exists_number z
  have hfirst : firstDate.number = -784352870042 := by decide
  have hlast : lastDate.number = 784351576776 := by decide
  have h := t.inRange_of_number (hfirst ▸ h₁) (hlast ▸ h₂)
  exact ⟨t, civilFromDays_number h, daysFromCivil_date h⟩

theorem civil_days_leapDay : ∃ z, daysFromCivil 2000 2 29 = some z ∧ civilFromDays z = some (2000, 2, 29) :=
  civil_days.left ⟨2000, 2, 29, by decide, by decide, by decide, by decide⟩ ⟨by decide, by decide⟩

-- The first year of `int`, a day whose year has no `int`, and a year whose sum has none.
theorem not_civil_days :
    (¬∀ t : Date, intMin ≤ t.year → t.year ≤ intMax → ∃ z, daysFromCivil t.year t.month t.day = some z ∧
      civilFromDays z = some (t.year, t.month, t.day)) ∧
    (¬∀ z, InInt64 z → ∃ y m d, civilFromDays z = some (y, m, d) ∧ daysFromCivil y m d = some z) ∧
    ¬∀ y, 1 ≤ y → y < intMax → ∃ a b n, isoWeek1Monday y = some a ∧ isoWeek1Monday (y + 1) = some b ∧
      isoWeeksInYear y = some n ∧ b - a = 7 * n := by
  refine ⟨fun h => ?_, fun h => ?_, fun h => ?_⟩
  · obtain ⟨z, hz, -⟩ :=
      h ⟨intMin, 3, 1, by decide, by decide, by decide, by decide⟩ (Int.le_refl _) (by decide)
    exact absurd hz (by simp [show daysFromCivil intMin 3 1 = none by decide])
  · obtain ⟨y, m, d, hc, hd⟩ := h 1099511627776 (by decide)
    have hdate : civilFromDays 1099511627776 = some (-1284604737, 12, 15) := by decide
    obtain ⟨rfl, rfl, rfl⟩ : -1284604737 = y ∧ 12 = m ∧ 15 = d := by simpa [hdate] using hc
    exact absurd hd (by decide)
  · obtain ⟨a, b, n, -, -, hn, -⟩ := h 1717986919 (by decide) (by decide)
    exact absurd hn (by simp [show isoWeeksInYear 1717986919 = none by decide])

end Limits

end Nordstjernen.Dom.Datetime
