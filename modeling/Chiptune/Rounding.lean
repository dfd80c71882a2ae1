import Mathlib.Algebra.Order.Floor.Ring
import Mathlib.Tactic.Linarith
import Mathlib.Tactic.NormNum

/-!
# Rounding half to even

The rounding of Python's `round`, over any ordered field with a floor. It is monotone and
fixes the integers, so a bound that is an integer holds of the rounded value as well.
-/

namespace Chiptune.Rounding

variable {K : Type} [Field K] [LinearOrder K] [FloorRing K]

/-- The nearest integer, of two equally near ones the even one. -/
def halfEven (x : K) : Int :=
  if Int.fract x < 1 / 2 then ⌊x⌋
  else if 1 / 2 < Int.fract x then ⌊x⌋ + 1
  else if ⌊x⌋ % 2 = 0 then ⌊x⌋
  else ⌊x⌋ + 1

theorem floor_le_halfEven (x : K) : ⌊x⌋ ≤ halfEven x := by
  unfold halfEven
  split_ifs <;> omega

theorem halfEven_le_floor (x : K) : halfEven x ≤ ⌊x⌋ + 1 := by
  unfold halfEven
  split_ifs <;> omega

variable [IsStrictOrderedRing K]

theorem halfEven_int (z : Int) : halfEven (z : K) = z := by
  have half : (0 : K) < 1 / 2 := by norm_num
  rw [halfEven, Int.fract_intCast, if_pos half, Int.floor_intCast]

theorem halfEven_mono {x y : K} (le : x ≤ y) : halfEven x ≤ halfEven y := by
  have floors := Int.floor_le_floor le
  by_cases same : ⌊x⌋ = ⌊y⌋
  · have fracts : Int.fract x ≤ Int.fract y := by
      unfold Int.fract
      rw [same]
      linarith
    unfold halfEven
    rw [same]
    split_ifs <;> first | omega | linarith
  · have above := floor_le_halfEven y
    have below := halfEven_le_floor x
    omega

theorem halfEven_le {x : K} {z : Int} (le : x ≤ z) : halfEven x ≤ z := by
  rw [← halfEven_int (K := K) z]
  exact halfEven_mono le

theorem le_halfEven {x : K} {z : Int} (le : z ≤ x) : z ≤ halfEven x := by
  rw [← halfEven_int (K := K) z]
  exact halfEven_mono le

theorem halfEven_error (x : K) : |(halfEven x : K) - x| ≤ 1 / 2 := by
  have parts : (⌊x⌋ : K) + Int.fract x = x := Int.floor_add_fract x
  have low := Int.fract_nonneg x
  have high := Int.fract_lt_one x
  rw [abs_le]
  unfold halfEven
  split_ifs <;> push_cast <;> constructor <;> linarith

end Chiptune.Rounding
