import Mathlib.Data.Nat.Log
import Mathlib.Tactic.Linarith

namespace Nordstjernen.Lib

-- Integers as doubles: 53 bits are kept, and what is between two doubles goes to the nearest one, or to the
-- even one.

def roundNat (n : Nat) : Nat :=
  let e := n.log2 - 52
  let q := n / 2 ^ e
  let r := n % 2 ^ e
  if 2 ^ e < 2 * r ∨ 2 * r = 2 ^ e ∧ q % 2 = 1 then (q + 1) * 2 ^ e else q * 2 ^ e

def toDouble (n : Int) : Int :=
  n.sign * roundNat n.natAbs

variable {n : Nat} {z : Int}

theorem roundNat_of_lt (h : n < 2 ^ 53) : roundNat n = n := by
  have he : n.log2 - 52 = 0 := by
    by_cases hn : n = 0
    case pos => simp [hn]
    case neg =>
      have := (Nat.log2_lt hn).mpr h
      omega
  simp [roundNat, he, Nat.mod_one]

theorem roundNat_two_pow : roundNat (2 ^ 53) = 2 ^ 53 := by
  decide +kernel

theorem roundNat_of_le (h : n ≤ 2 ^ 53) : roundNat n = n := by
  obtain h | rfl := h.lt_or_eq
  · exact roundNat_of_lt h
  · exact roundNat_two_pow

theorem div_mul_le_roundNat : n / 2 ^ (n.log2 - 52) * 2 ^ (n.log2 - 52) ≤ roundNat n := by
  rw [roundNat]
  split
  · exact Nat.mul_le_mul_right _ (Nat.le_succ _)
  · exact le_rfl

-- Nothing that is above the next double comes down to it.
theorem lt_roundNat (h : 2 ^ 53 + 2 ≤ n) : 2 ^ 53 < roundNat n := by
  refine lt_of_lt_of_le ?_ div_mul_le_roundNat
  have hn : n ≠ 0 := by omega
  have hlog : 53 ≤ n.log2 := (Nat.le_log2 hn).mpr (by omega)
  obtain ⟨e, he⟩ := Nat.exists_eq_add_of_le hlog
  have hpow : n.log2 - 52 = e + 1 := by omega
  rw [hpow]
  cases e
  case zero   => omega
  case succ e =>
    have hle : 2 ^ (53 + (e + 1)) ≤ n := he ▸ Nat.log2_self_le hn
    have hq : 2 ^ 52 ≤ n / 2 ^ (e + 1 + 1) := by
      refine (Nat.le_div_iff_mul_le (by positivity)).mpr (le_trans (le_of_eq ?_) hle)
      rw [← pow_add]
      congr 1
      omega
    calc 2 ^ 53 < 2 ^ 52 * 2 ^ 2 := by norm_num
      _ ≤ n / 2 ^ (e + 1 + 1) * 2 ^ (e + 1 + 1) :=
        Nat.mul_le_mul hq (Nat.pow_le_pow_right (by norm_num) (by omega))

theorem toDouble_of_le (h : 1 ≤ z) (hz : z ≤ 2 ^ 53) : toDouble z = z := by
  obtain ⟨n, rfl⟩ := Int.eq_ofNat_of_zero_le (by omega : 0 ≤ z)
  rw [toDouble, Int.natAbs_natCast, roundNat_of_le (by omega), Int.sign_eq_one_of_pos (by omega), one_mul]

theorem lt_toDouble (h : 2 ^ 53 + 2 ≤ z) : 2 ^ 53 < toDouble z := by
  obtain ⟨n, rfl⟩ := Int.eq_ofNat_of_zero_le (by omega : 0 ≤ z)
  have hn : 2 ^ 53 < roundNat n := lt_roundNat (by omega)
  rw [toDouble, Int.natAbs_natCast, Int.sign_eq_one_of_pos (by omega), one_mul]
  omega

end Nordstjernen.Lib
