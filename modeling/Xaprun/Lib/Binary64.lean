import Mathlib.Algebra.Order.Round
import Mathlib.Data.Int.Log
import Mathlib.Data.Rat.Floor
import Mathlib.Tactic.Linarith
import Mathlib.Tactic.Ring

/-! Rounding to double precision, as the sum of two doubles is: to the nearest number with 53
significant bits, a tie to the even one. The numbers are rational, with no largest exponent: a sum
that would overflow to infinity is above every double here as well. -/

namespace Binary64

/-- The nearest whole number, of two the even one. -/
def roundEven (q : ℚ) : ℤ :=
  if Int.fract q < 1 / 2 ∨ Int.fract q = 1 / 2 ∧ ⌊q⌋ % 2 = 0 then ⌊q⌋ else ⌊q⌋ + 1

/-- The distance of the doubles from one another where `x` is. Below the smallest normal number it
stays the same. -/
def spacing (x : ℚ) : ℚ := 2 ^ max (Int.log 2 |x| - 52) (-1074)

def nearest (x : ℚ) : ℚ := roundEven (x / spacing x) * spacing x

theorem spacing_pos (x : ℚ) : 0 < spacing x := zpow_pos two_pos _

theorem abs_roundEven_sub_le (q : ℚ) : |(roundEven q : ℚ) - q| ≤ 1 / 2 := by
  have hfloor := Int.floor_add_fract q
  have hnonneg := Int.fract_nonneg q
  have hlt := Int.fract_lt_one q
  unfold roundEven
  rw [abs_le]
  split_ifs with h
  · have hle : Int.fract q ≤ 1 / 2 := h.elim le_of_lt (fun h => h.1.le)
    constructor <;> linarith
  · have hle : 1 / 2 ≤ Int.fract q := not_lt.mp fun h' => h (.inl h')
    push_cast
    constructor <;> linarith

theorem abs_nearest_sub_le (x : ℚ) : |nearest x - x| ≤ spacing x / 2 := by
  have hs := spacing_pos x
  calc |nearest x - x| = |((roundEven (x / spacing x) : ℚ) - x / spacing x) * spacing x| := by
        rw [sub_mul, div_mul_cancel₀ _ hs.ne', nearest]
    _ = |(roundEven (x / spacing x) : ℚ) - x / spacing x| * spacing x := by
        rw [abs_mul, abs_of_pos hs]
    _ ≤ 1 / 2 * spacing x := mul_le_mul_of_nonneg_right (abs_roundEven_sub_le _) hs.le
    _ = spacing x / 2 := by ring

/-- What stays more than half a spacing below a number is below what this is rounded to. -/
theorem lt_nearest {x y : ℚ} (h : y + spacing x / 2 < x) : y < nearest x := by
  have hle := (abs_le.mp (abs_nearest_sub_le x)).1
  linarith

/-- A tenth, and the sum of a time and a ten-millionth of a second, which is the time again. -/
example : nearest (1 / 10) = 3602879701896397 / 2 ^ 55 ∧
    nearest (1700000000 + nearest (1 / 10000000)) = 1700000000 := by decide +kernel

end Binary64
