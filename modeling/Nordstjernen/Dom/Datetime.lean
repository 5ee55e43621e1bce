import Nordstjernen.Glib.Strings

open Nordstjernen.Glib

namespace Nordstjernen.Dom.Datetime

def intMin : Int := -2147483648

def intMax : Int := 2147483647

-- The result of an operation on `int`, which is undefined where it is out of range.
def int? (n : Int) : Option Int :=
  if intMin ≤ n ∧ n ≤ intMax then some n else none

-- The same for `long`, which has 64 bits.
def long? (n : Int) : Option Int :=
  if InInt64 n then some n else none

-- The conversion to `int`.
def toInt (n : Int) : Int :=
  n.bmod 4294967296

-- `ns_dt_floormod`
def floormod (a b : Int) : Int :=
  let r := a.tmod b
  if r ≠ 0 ∧ ¬(r < 0 ↔ b < 0) then r + b else r

-- `ns_dt_days_from_civil`. No step on the numbers of type `long` leaves that type.
def daysFromCivil (y m d : Int) : Option Int := do
  let yy ← int? (y - if m ≤ 2 then 1 else 0)
  let n ← (if 0 ≤ yy then some yy else int? (yy - 399))
  let era := n.tdiv 400
  let yoe := UInt32.ofInt (yy - era * 400)
  let mp ← int? (m + if m > 2 then -3 else 9)
  let n ← int? (153 * mp)
  let n ← int? (n + 2)
  let n ← int? (n.tdiv 5 + d)
  let n ← int? (n - 1)
  let doy := UInt32.ofInt n
  let doe := yoe * 365 + yoe / 4 - yoe / 100 + doy
  return era * 146097 + doe.toNat - 719468

-- The date of a day of an era of 400 years.
def civilOfEra (era : Int) (doe : UInt32) : Option (Int × Int × Int) := do
  let yoe := (doe - doe / 1460 + doe / 36524 - doe / 146096) / 365
  let yy ← int? (toInt yoe.toNat + toInt (era * 400))
  let doy := doe - (365 * yoe + yoe / 4 - yoe / 100)
  let mp := (5 * doy + 2) / 153
  let dd := doy - (153 * mp + 2) / 5 + 1
  let mm := mp + if mp < 10 then 3 else -9
  let y ← int? (yy + if mm ≤ 2 then 1 else 0)
  return (y, toInt mm.toNat, toInt dd.toNat)

-- `ns_dt_civil_from_days`
def civilFromDays (z : Int) : Option (Int × Int × Int) := do
  let z ← long? (z + 719468)
  let era := (if 0 ≤ z then z else z - 146096).tdiv 146097
  civilOfEra era (UInt32.ofInt (z - era * 146097))

def isLeap (y : Int) : Prop :=
  y.tmod 4 = 0 ∧ (y.tmod 100 ≠ 0 ∨ y.tmod 400 = 0)

instance : DecidablePred isLeap :=
  fun _ => inferInstanceAs (Decidable (_ ∧ _))

-- `dim` of `ns_dt_days_in_month`
def dim : List Int :=
  [31, 28, 31, 30, 31, 30, 31, 31, 30, 31, 30, 31]

-- `ns_dt_days_in_month`
def daysInMonth (y m : Int) : Int :=
  if m < 1 ∨ 12 < m then 0
  else if m = 2 then if isLeap y then 29 else 28
  else dim.getD (m - 1).toNat 0

-- The sum of a year and its leap days that `ns_dt_iso_weeks_in_year` takes modulo 7.
def leapSum (y : Int) : Option Int := do
  let n ← int? (y + y.tdiv 4)
  let n ← int? (n - y.tdiv 100)
  int? (n + y.tdiv 400)

-- `ns_dt_iso_weeks_in_year`
def isoWeeksInYear (y : Int) : Option Int := do
  let p ← leapSum y
  let py ← int? (y - 1)
  let p₁ ← leapSum py
  return if p.tmod 7 = 4 ∨ p₁.tmod 7 = 3 then 53 else 52

-- `ns_dt_iso_week1_monday`
def isoWeek1Monday (y : Int) : Option Int := do
  let jan4 ← daysFromCivil y 1 4
  return jan4 - toInt (floormod (jan4 + 3) 7)

end Nordstjernen.Dom.Datetime
