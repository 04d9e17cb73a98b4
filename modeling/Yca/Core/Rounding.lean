import Mathlib.Algebra.Order.Floor.Ring
import Mathlib.Data.Int.Log
import Mathlib.Data.Rat.Floor
import Mathlib.Tactic.FieldSimp
import Mathlib.Tactic.Linarith
import Mathlib.Tactic.Positivity
import Mathlib.Tactic.Ring

/-!
# Rounding to binary floating-point numbers

`roundTo p x` is the floating-point number of `p` bits nearest to the rational
`x`, of two the one whose last bit is zero; binary64 has `p = 53`.  The exponent
has no bounds: there are no infinities, and nothing loses bits because it is
small.

What the results say of it is how far it may be off, and that whole numbers of at
most `p` bits are left alone.
-/

namespace Yca
namespace Core

/-- The nearest integer; of two, the even one. -/
def nearestEven (x : ℚ) : ℤ :=
  if 2 * Int.fract x < 1 then ⌊x⌋
  else if 1 < 2 * Int.fract x then ⌊x⌋ + 1
  else if ⌊x⌋ % 2 = 0 then ⌊x⌋
  else ⌊x⌋ + 1

/-- The place of the last of the `p` bits of a positive number. -/
def lastBit (p : ℕ) (x : ℚ) : ℤ :=
  Int.log 2 x - p + 1

/-- The nearest number of `p` bits. -/
def roundTo (p : ℕ) (x : ℚ) : ℚ :=
  nearestEven (x / 2 ^ lastBit p x) * 2 ^ lastBit p x

/-- One and 2^-53 is half-way to the next binary64 number. -/
example : roundTo 53 (1 + 1 / 2 ^ 53) = 1 := by decide +kernel

section NearestEven

theorem abs_nearestEven_sub_le (x : ℚ) :
    |(nearestEven x : ℚ) - x| ≤ 1 / 2 := by
  have hsum := Int.floor_add_fract x
  have hnonneg := Int.fract_nonneg x
  have hlt := Int.fract_lt_one x
  rw [abs_le, nearestEven]
  split_ifs with hlow hhigh heven
  · constructor <;> linarith
  · rw [Int.cast_add, Int.cast_one]
    constructor <;> linarith
  · constructor <;> linarith
  · rw [Int.cast_add, Int.cast_one]
    constructor <;> linarith

@[simp] theorem nearestEven_intCast (n : ℤ) :
    nearestEven n = n := by
  simp [nearestEven]

end NearestEven

section RoundTo

variable {p : ℕ} {x : ℚ}

@[simp] theorem roundTo_zero (p : ℕ) :
    roundTo p 0 = 0 := by
  have hzero : nearestEven 0 = 0 := nearestEven_intCast 0
  simp [roundTo, hzero]

/-- Half of the last bit is small beside the number. -/
theorem zpow_lastBit_le (hx : 0 < x) :
    (2 : ℚ) ^ lastBit p x / 2 ≤ x / 2 ^ p := by
  have hlog : (2 : ℚ) ^ Int.log 2 x ≤ x := Int.zpow_log_le_self Nat.one_lt_two hx
  have hsplit : (2 : ℚ) ^ lastBit p x = 2 ^ Int.log 2 x * (2 / 2 ^ p) := by
    rw [lastBit, zpow_add₀ two_ne_zero, zpow_sub₀ two_ne_zero, zpow_natCast, zpow_one]
    ring
  calc (2 : ℚ) ^ lastBit p x / 2 = 2 ^ Int.log 2 x / 2 ^ p := by
        rw [hsplit]
        field_simp
    _ ≤ x / 2 ^ p := div_le_div_of_nonneg_right hlog (by positivity)

/-- A rounded number is off by no more than its share. -/
theorem abs_roundTo_sub_le (hx : 0 ≤ x) :
    |roundTo p x - x| ≤ x / 2 ^ p := by
  rcases hx.eq_or_lt with rfl | hpos
  · simp
  · have hunit : (0 : ℚ) < 2 ^ lastBit p x := zpow_pos two_pos _
    have hdiff : roundTo p x - x =
        (nearestEven (x / 2 ^ lastBit p x) - x / 2 ^ lastBit p x) * 2 ^ lastBit p x := by
      rw [roundTo, sub_mul, div_mul_cancel₀ x hunit.ne']
    rw [hdiff, abs_mul, abs_of_pos hunit]
    calc |(nearestEven (x / 2 ^ lastBit p x) : ℚ) - x / 2 ^ lastBit p x| * 2 ^ lastBit p x
        ≤ 1 / 2 * 2 ^ lastBit p x :=
          mul_le_mul_of_nonneg_right (abs_nearestEven_sub_le _) hunit.le
      _ = 2 ^ lastBit p x / 2 := by ring
      _ ≤ x / 2 ^ p := zpow_lastBit_le hpos

theorem roundTo_le (hx : 0 ≤ x) :
    roundTo p x ≤ x * (1 + 1 / 2 ^ p) := by
  have h := (abs_le.mp (abs_roundTo_sub_le (p := p) hx)).2
  calc roundTo p x ≤ x + x / 2 ^ p := by linarith
    _ = x * (1 + 1 / 2 ^ p) := by ring

theorem le_roundTo (hx : 0 ≤ x) :
    x * (1 - 1 / 2 ^ p) ≤ roundTo p x := by
  have h := (abs_le.mp (abs_roundTo_sub_le (p := p) hx)).1
  calc x * (1 - 1 / 2 ^ p) = x - x / 2 ^ p := by ring
    _ ≤ roundTo p x := by linarith

theorem roundTo_nonneg (hx : 0 ≤ x) :
    0 ≤ roundTo p x := by
  have hone : (1 : ℚ) / 2 ^ p ≤ 1 := by
    rw [div_le_one (by positivity)]
    exact one_le_pow₀ one_le_two
  exact (mul_nonneg hx (by linarith)).trans (le_roundTo hx)

/-- Whole numbers of no more than `p` bits. -/
theorem roundTo_natCast
    {n : ℕ}
    (hn : n < 2 ^ p) :
    roundTo p n = n := by
  rcases Nat.eq_zero_or_pos n with rfl | hpos
  · simp
  · have hlog : Nat.log 2 n < p := Nat.log_lt_of_lt_pow hpos.ne' hn
    -- The last bit is not above the units.
    have hbit : lastBit p (n : ℚ) = -((p - 1 - Nat.log 2 n : ℕ) : ℤ) := by
      rw [lastBit, Int.log_natCast]
      omega
    have hwhole : (n : ℚ) / 2 ^ lastBit p (n : ℚ) =
        ((n * 2 ^ (p - 1 - Nat.log 2 n) : ℕ) : ℤ) := by
      rw [hbit, zpow_neg, zpow_natCast, div_inv_eq_mul]
      push_cast
      rfl
    have hunit : (2 : ℚ) ^ lastBit p (n : ℚ) ≠ 0 := zpow_ne_zero _ two_ne_zero
    rw [roundTo, hwhole, nearestEven_intCast, ← hwhole, div_mul_cancel₀ _ hunit]

end RoundTo

end Core
end Yca
