import Mathlib.Algebra.Order.Floor.Ring
import Mathlib.Algebra.Order.Ring.Rat
import Mathlib.Data.Rat.Floor
import Mathlib.Tactic.Common
import Mathlib.Tactic.Linarith

/-!
Finite numbers of the IEEE format binary64, as the rationals they stand for.
A rational has no signed zero, so whether a stored zero has its sign bit set
is told apart from its value where it matters.
-/

namespace OLog.Lib

/-- Rounding to the nearest integer, ties to the even one. -/
def roundHalfEven (q : Rat) : Int :=
  let below := ⌊q⌋
  let excess := q - below
  if excess < 1 / 2 then below
  else if 1 / 2 < excess then below + 1
  else if below % 2 = 0 then below
  else below + 1

/-- The greatest finite double. -/
def doubleMax : Rat := ((2 ^ 53 - 1) * 2 ^ 971 : Nat)

/-- From here on a magnitude rounds to infinity. -/
def doubleOverflow : Rat := (2 ^ 1024 - 2 ^ 970 : Nat)

/-- The `e` with `2 ^ e ≤ |q| < 2 ^ (e + 1)`, for `q` other than zero. -/
def binaryExponent (q : Rat) : Int :=
  let guess := (Nat.log2 q.num.natAbs : Int) - Nat.log2 q.den
  if (2 : Rat) ^ guess ≤ |q| then guess else guess - 1

/-- The unit in the last place of a double near `q`. Below `2 ^ (-1022)` the numbers
are subnormal and the unit does not shrink further. -/
def doubleUnit (q : Rat) : Rat := 2 ^ max (binaryExponent q - 52) (-1074)

/-- The double nearest to a number whose magnitude does not overflow. -/
def nearestDouble (q : Rat) : Rat := roundHalfEven (q / doubleUnit q) * doubleUnit q

example : nearestDouble (2 ^ 53 + 1) = 2 ^ 53 := by decide +kernel

example : nearestDouble (1 / 10) = 3602879701896397 / 2 ^ 55 := by decide +kernel

example : nearestDouble (1 / 2 ^ 1075) = 0 := by decide +kernel

theorem roundHalfEven_nonneg {q : Rat} (h : 0 ≤ q) : 0 ≤ roundHalfEven q := by
  have hfloor : 0 ≤ ⌊q⌋ := Int.floor_nonneg.mpr h
  unfold roundHalfEven
  dsimp only
  split_ifs <;> omega

/-- What is below one half goes to zero, so rounding at most doubles. -/
theorem roundHalfEven_le_two_mul {q : Rat} (h : 0 ≤ q) : (roundHalfEven q : Rat) ≤ 2 * q := by
  have hfloor : (0 : Rat) ≤ ⌊q⌋ := by exact_mod_cast Int.floor_nonneg.mpr h
  have hle := Int.floor_le q
  unfold roundHalfEven
  dsimp only
  split_ifs with hlow hhigh heven
  · linarith
  · push_cast
    linarith
  · linarith
  · have hone : (1 : Rat) ≤ ⌊q⌋ := by
      have : 1 ≤ ⌊q⌋ := by
        have := Int.floor_nonneg.mpr h
        omega
      exact_mod_cast this
    push_cast
    linarith

theorem nearestDouble_nonneg {q : Rat} (h : 0 ≤ q) : 0 ≤ nearestDouble q := by
  have hunit : (0 : Rat) < doubleUnit q := zpow_pos (by norm_num) _
  have hround : (0 : Rat) ≤ roundHalfEven (q / doubleUnit q) := by
    exact_mod_cast roundHalfEven_nonneg (div_nonneg h hunit.le)
  exact mul_nonneg hround hunit.le

theorem nearestDouble_le_two_mul {q : Rat} (h : 0 ≤ q) : nearestDouble q ≤ 2 * q := by
  have hunit : (0 : Rat) < doubleUnit q := zpow_pos (by norm_num) _
  calc nearestDouble q ≤ 2 * (q / doubleUnit q) * doubleUnit q :=
        mul_le_mul_of_nonneg_right (roundHalfEven_le_two_mul (div_nonneg h hunit.le)) hunit.le
    _ = 2 * q := by rw [mul_assoc, div_mul_cancel₀ q hunit.ne']

end OLog.Lib
