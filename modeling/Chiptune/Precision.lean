import Chiptune.Rounding
import Mathlib.Data.Int.Log
import Mathlib.Tactic.Positivity
import Mathlib.Tactic.Ring

/-!
# Rounding to significant digits

The nearest number of `p` significant binary digits, over any ordered field with a floor.
Exponents are not bounded. The relative error is at most half a unit in the last place
(`nearest_error`), and integers of up to `p` digits are kept (`nearest_int`).
-/

namespace Chiptune.Precision

open Rounding

variable {K : Type} [Field K] [LinearOrder K] [IsStrictOrderedRing K] [FloorRing K]

/-- The weight of the last of `p` significant digits of `x`. -/
def ulp (p : Nat) (x : K) : K := ((2 : Nat) : K) ^ (Int.log 2 |x| + 1 - p)

def nearest (p : Nat) (x : K) : K := halfEven (x / ulp p x) * ulp p x

variable (p : Nat)

theorem ulp_pos (x : K) : 0 < ulp p x := zpow_pos (Nat.cast_pos.mpr two_pos) _

theorem ulp_le {x : K} (nonzero : x ≠ 0) : ulp p x ≤ 2 * (|x| / 2 ^ p) := by
  have lead : (2 : K) ^ Int.log 2 |x| ≤ |x| :=
    mod_cast Int.zpow_log_le_self (by decide : 1 < 2) (abs_pos.mpr nonzero)
  calc ulp p x = 2 * (2 ^ Int.log 2 |x| / 2 ^ p) := by
        rw [ulp, Nat.cast_ofNat, zpow_sub₀ two_ne_zero, zpow_add_one₀ two_ne_zero, zpow_natCast]
        ring
    _ ≤ 2 * (|x| / 2 ^ p) := by gcongr

@[simp] theorem nearest_zero : nearest p (0 : K) = 0 := by
  have none : halfEven (0 : K) = 0 := mod_cast halfEven_int (K := K) 0
  rw [nearest, zero_div, none, Int.cast_zero, zero_mul]

theorem nearest_error (x : K) : |nearest p x - x| ≤ |x| / 2 ^ p := by
  by_cases zero : x = 0
  · rw [zero, nearest_zero]
    simp
  · have pos := ulp_pos p x
    have digits := halfEven_error (x / ulp p x)
    calc |nearest p x - x| = |(halfEven (x / ulp p x) : K) - x / ulp p x| * ulp p x := by
          rw [← abs_of_pos pos, ← abs_mul, abs_of_pos pos, sub_mul, div_mul_cancel₀ _ pos.ne',
            nearest]
      _ ≤ 1 / 2 * ulp p x := by gcongr
      _ ≤ |x| / 2 ^ p := by linarith [ulp_le p zero]

theorem nearest_int {z : Int} (fits : |z| < 2 ^ p) : nearest p (z : K) = z := by
  by_cases zero : z = 0
  · rw [zero, Int.cast_zero, nearest_zero]
  · have pos : (0 : K) < |(z : K)| := abs_pos.mpr (mod_cast zero)
    have below : |(z : K)| < (2 : Nat) ^ (p : Int) := by
      rw [zpow_natCast]
      exact_mod_cast fits
    have short : Int.log 2 |(z : K)| < p := (Int.lt_zpow_iff_log_lt (by decide) pos).mp below
    obtain ⟨k, hk⟩ : ∃ k : Nat, Int.log 2 |(z : K)| + 1 - p = -k :=
      ⟨(p - Int.log 2 |(z : K)| - 1).toNat, by omega⟩
    have weight : ulp p (z : K) = (2 ^ k)⁻¹ := by
      rw [ulp, hk, Nat.cast_ofNat, zpow_neg, zpow_natCast]
    have scaled : (z : K) / ulp p (z : K) = ((z * 2 ^ k : Int) : K) := by
      rw [weight, div_inv_eq_mul]
      push_cast
      rfl
    rw [nearest, scaled, halfEven_int, weight]
    push_cast
    rw [mul_inv_cancel_right₀ (pow_ne_zero k two_ne_zero)]

theorem nearest_nonneg {x : K} (nonneg : 0 ≤ x) : 0 ≤ nearest p x := by
  have digits : 0 ≤ halfEven (x / ulp p x) :=
    le_halfEven (mod_cast div_nonneg nonneg (ulp_pos p x).le)
  exact mul_nonneg (mod_cast digits) (ulp_pos p x).le

end Chiptune.Precision
