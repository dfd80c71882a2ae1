import Mathlib.Data.Nat.Factorization.Basic
import Chiptune.Period

/-!
# Phase accumulators

An accumulator of `f + k` bits that takes a step of `s`, and its upper `k` bits as the
position on a circle. `stepCount_turns` counts the turns: the mean pitch is exact.
`repeats_position` finds the periods: a position repeats when the accumulator does.
-/

namespace Chiptune.Phase

open Divider Period

/-- The place on the circle after `n` steps from `a`. -/
def position (f k a s n : Nat) : Nat := (a + n * s) / 2 ^ f % 2 ^ k

section
variable {f k a s : Nat}

theorem position_lt (n : Nat) : position f k a s n < 2 ^ k := Nat.mod_lt _ (Nat.two_pow_pos k)

/-- The upper bits of the accumulator itself. -/
theorem position_mod (n : Nat) : (a + n * s) % 2 ^ (f + k) / 2 ^ f = position f k a s n := by
  rw [pow_add, Nat.mod_mul_right_div_self, position]

theorem position_add (n m : Nat) :
    position f k a s (n + m) = (a + n * s + m * s) / 2 ^ f % 2 ^ k := by
  rw [position, Nat.add_mul, Nat.add_assoc]

theorem position_whole {m : Nat} (whole : 2 ^ (f + k) ∣ m * s) (n : Nat) :
    position f k a s (n + m) = position f k a s n := by
  obtain ⟨c, turns⟩ := whole
  rw [position_add, turns, pow_add, Nat.mul_assoc, Nat.add_mul_div_left _ _ (Nat.two_pow_pos f),
    Nat.add_mul_mod_self_left, position]

/-- An odd number of half turns ends on the other side. -/
theorem position_half {m odd : Nat} (pos : 0 < k) (half : m * s = 2 ^ (f + (k - 1)) * odd)
    (n : Nat) (same : position f k a s (n + m) = position f k a s n) : 2 ∣ odd := by
  rw [position_add, half, pow_add, Nat.mul_assoc, Nat.add_mul_div_left _ _ (Nat.two_pow_pos f),
    position] at same
  have whole : 2 ^ (k - 1) * 2 ∣ 2 ^ (k - 1) * odd := by
    rw [← pow_succ, Nat.sub_add_cancel pos]
    exact (Nat.modEq_zero_iff_dvd).mp (Nat.ModEq.add_left_cancel' _ same)
  exact Nat.dvd_of_mul_dvd_mul_left (Nat.two_pow_pos (k - 1)) whole

theorem repeats_times {α : Type} {g : Nat → α} {m : Nat} (repeats : Repeats m g) (j : Nat) :
    Repeats (j * m) g := by
  obtain ⟨start, same⟩ := repeats
  refine ⟨start, fun n hn => ?_⟩
  induction j with
  | zero => rw [Nat.zero_mul, Nat.add_zero]
  | succ j ih => rw [Nat.succ_mul, ← Nat.add_assoc, same _ (by omega), ih]

/-- **The periods of a position** are those of the accumulator. -/
theorem repeats_position (pos : 0 < k) (m : Nat) :
    Repeats m (position f k a s) ↔ 2 ^ (f + k) ∣ m * s := by
  constructor
  · intro repeats
    by_contra part
    obtain ⟨v, odd, isOdd, split⟩ := Nat.exists_eq_two_pow_mul_odd
      (n := m * s) fun zero => part (zero ▸ Nat.dvd_zero _)
    have short : v < f + k := by
      by_contra long
      exact part (split ▸ (pow_dvd_pow 2 (Nat.le_of_not_lt long)).mul_right odd)
    -- as many periods as make an odd number of half turns
    obtain ⟨start, same⟩ := repeats_times repeats (2 ^ (f + (k - 1) - v))
    have half : 2 ^ (f + (k - 1) - v) * m * s = 2 ^ (f + (k - 1)) * odd := by
      rw [Nat.mul_assoc, split, ← Nat.mul_assoc, ← pow_add, Nat.sub_add_cancel (by omega)]
    have even := position_half pos half start (same start (Nat.le_refl _))
    exact (Nat.not_even_iff_odd.mpr isOdd) (even_iff_two_dvd.mpr even)
  · exact fun whole => ⟨0, fun n _ => position_whole whole n⟩

/-- The accumulator falls back exactly when it completes a turn. -/
theorem turn_iff {M s : Nat} (fits : s < M) (x : Nat) :
    (x + s) / M = x / M + if (x + s) % M < x % M then 1 else 0 := by
  have pos : 0 < M := by omega
  have split := Nat.add_div (a := x) (b := s) pos
  rw [Nat.div_eq_of_lt fits, Nat.mod_eq_of_lt fits, Nat.add_zero] at split
  rw [split, Nat.add_mod, Nat.mod_eq_of_lt fits]
  have inside := Nat.mod_lt x pos
  by_cases turn : M ≤ x % M + s
  · rw [if_pos turn, Nat.mod_eq_sub_mod turn, Nat.mod_eq_of_lt (by omega), if_pos (by omega)]
  · rw [if_neg turn, Nat.mod_eq_of_lt (by omega), if_neg (by omega)]

/-- **The turns of an accumulator.** -/
theorem stepCount_turns {M : Nat} (fits : s < M) (first : a < M) (R : Nat) :
    stepCount (fun r => decide ((a + (r + 1) * s) % M < (a + r * s) % M)) R = (a + R * s) / M := by
  induction R with
  | zero => rw [stepCount, Nat.zero_mul, Nat.add_zero, Nat.div_eq_of_lt first]
  | succ R ih =>
    have turn := turn_iff fits (a + R * s)
    have next : a + (R + 1) * s = a + R * s + s := by rw [Nat.succ_mul, Nat.add_assoc]
    rw [stepCount, ih, next, turn]
    by_cases falls : (a + R * s + s) % M < (a + R * s) % M
    · rw [if_pos falls, decide_eq_true falls]
      rfl
    · rw [if_neg falls, decide_eq_false falls]
      rfl

end

end Chiptune.Phase
