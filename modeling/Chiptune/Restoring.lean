import Chiptune.Digits

/-!
# Restoring division

The digits of a number from the top: the rest is doubled and takes one in, and the divisor
comes off it unless a test says that it does not fit.

* `run_right`: as long as the test is right, these are quotient and rest.
* `quot_iff`: a test that skips too rarely gives the quotient only if it never errs.
* `quot_iff_low`: how far one goes that compares all but the leading digit.
-/

namespace Chiptune.Restoring

open Digits

structure State where
  rest : Nat
  quot : Nat

section
variable (M b : Nat) (skip : Nat → Bool)

/-- The rest is a register of `M` values. -/
def step (s : State) (d : Nat) : State :=
  let r := (2 * s.rest + d) % M
  if skip r then ⟨r, 2 * s.quot⟩ else ⟨(r + (M - b)) % M, 2 * s.quot + 1⟩

def run (w a : Nat) : Nat → State
  | 0 => ⟨0, 0⟩
  | k + 1 => step M b skip (run w a k) (digit w a k)

/-- What the divisor is compared with next. -/
def partialRest (w a k : Nat) : Nat := 2 * (top w a k % b) + digit w a k

end

section
variable {b w a k : Nat} {skip : Nat → Bool}

theorem partial_lt (ha : a < 2 ^ w) (hk : k < w) : partialRest b w a k < 2 ^ w := by
  have high := top_lt ha (Nat.le_of_lt hk)
  have le := Nat.mod_le (top w a k) b
  have digit : digit w a k ≤ 1 := digit_le
  have pow : 2 * 2 ^ k ≤ 2 ^ w := by
    rw [← Nat.pow_succ']
    exact Nat.pow_le_pow_right (by decide) hk
  rw [partialRest]
  omega

theorem run_right (ha : a < 2 ^ w) (hb : 0 < b) (fits : b ≤ 2 ^ w) (hk : k ≤ w)
    (right : ∀ j, j < k → (skip (partialRest b w a j) = true ↔ partialRest b w a j < b)) :
    run (2 ^ w) b skip w a k = ⟨top w a k % b, top w a k / b⟩ := by
  induction k with
  | zero => simp [run, top_zero ha]
  | succ k ih =>
    have inside := partial_lt (b := b) ha hk
    have decided := right k (Nat.lt_succ_self k)
    obtain ⟨quot, rest⟩ := div_digit (p := top w a k) hb (digit_le (w := w) (a := a) (k := k))
    rw [run, ih (Nat.le_of_lt hk) fun j hj => right j (Nat.lt_succ_of_lt hj), step,
      top_succ hk, quot, rest]
    change (if skip (partialRest b w a k % 2 ^ w) then _ else _) = _
    rw [Nat.mod_eq_of_lt inside]
    by_cases less : partialRest b w a k < b
    · have less' : ¬ b ≤ 2 * (top w a k % b) + digit w a k := Nat.not_le.mpr less
      rw [if_pos (decided.mpr less), if_neg less', if_neg less', Nat.add_zero]
      exact congrArg (State.mk · _) (Nat.mod_eq_of_lt inside)
    · have fit : b ≤ 2 * (top w a k % b) + digit w a k := Nat.not_lt.mp less
      rw [if_neg (mt decided.mp less), if_pos fit, if_pos fit]
      refine congrArg (State.mk · _) ?_
      have wrap : partialRest b w a k + (2 ^ w - b) = partialRest b w a k - b + 2 ^ w := by omega
      change (partialRest b w a k % 2 ^ w + (2 ^ w - b)) % 2 ^ w = partialRest b w a k - b
      rw [Nat.mod_eq_of_lt inside, wrap, Nat.add_mod_right]
      exact Nat.mod_eq_of_lt (by omega)

/-- Where nothing is ever skipped, dividing by zero keeps the dividend and gives ones. -/
theorem run_zero (ha : a < 2 ^ w) (never : ∀ r, skip r = false) (hk : k ≤ w) :
    run (2 ^ w) 0 skip w a k = ⟨top w a k, 2 ^ k - 1⟩ := by
  induction k with
  | zero => simp [run, top_zero ha]
  | succ k ih =>
    have inside := top_lt ha hk
    have fits : top w a (k + 1) < 2 ^ w :=
      inside.trans_le (Nat.pow_le_pow_right (by decide) hk)
    have positive : 0 < 2 ^ k := Nat.two_pow_pos k
    rw [run, ih (Nat.le_of_lt hk), step, never, if_neg Bool.false_ne_true, ← top_succ hk]
    refine congrArg₂ State.mk ?_ ?_
    · rw [Nat.sub_zero, Nat.add_mod_right, Nat.mod_mod, Nat.mod_eq_of_lt fits]
    · change 2 * (2 ^ k - 1) + 1 = _
      rw [Nat.pow_succ]
      omega

theorem run_quot_lt (M : Nat) : (run M b skip w a k).quot < 2 ^ k := by
  induction k with
  | zero => exact Nat.one_pos
  | succ k ih =>
    rw [run, step, Nat.pow_succ]
    generalize run M b skip w a k = s at ih ⊢
    split
    · change 2 * s.quot < _
      omega
    · change 2 * s.quot + 1 < _
      omega

theorem step_quot (M : Nat) (s : State) (d : Nat) :
    (step M b skip s d).quot / 2 = s.quot := by
  rw [step]
  split
  · exact Nat.mul_div_cancel_left _ (by decide)
  · change (2 * s.quot + 1) / 2 = _
    omega

/-- A digit of the quotient stays. -/
theorem run_quot (M j : Nat) :
    (run M b skip w a (k + j)).quot / 2 ^ j = (run M b skip w a k).quot := by
  induction j with
  | zero => simp
  | succ j ih =>
    rw [Nat.pow_succ', ← Nat.div_div_eq_div_mul, ← Nat.add_assoc, run, step_quot]
    exact ih

/-- **A test that never skips where the divisor fits** gives the quotient exactly if it skips
wherever the divisor does not fit. -/
theorem quot_iff (ha : a < 2 ^ w) (hb : 0 < b) (fits : b ≤ 2 ^ w)
    (sound : ∀ r, skip r = true → r < b) :
    (run (2 ^ w) b skip w a w).quot = a / b ↔
      ∀ k, k < w → partialRest b w a k < b → skip (partialRest b w a k) = true := by
  constructor
  · intro same k
    induction k using Nat.strongRecOn with
    | ind k ih =>
      intro hk less
      by_contra taken
      have before := run_right (k := k) ha hb fits (Nat.le_of_lt hk) fun j hj =>
        ⟨sound _, ih j hj (hj.trans hk)⟩
      have inside := partial_lt (b := b) ha hk
      have odd : (run (2 ^ w) b skip w a (k + 1)).quot = 2 * (top w a k / b) + 1 := by
        rw [run, before, step]
        change State.quot (if skip (partialRest b w a k % 2 ^ w) then _ else _) = _
        rw [Nat.mod_eq_of_lt inside, if_neg taken]
      have even := (div_digit (p := top w a k) hb (digit_le (w := w) (a := a) (k := k))).1
      have less' : ¬ b ≤ 2 * (top w a k % b) + digit w a k := Nat.not_le.mpr less
      rw [if_neg less', ← top_succ hk] at even
      have stays : (run (2 ^ w) b skip w a (k + 1 + (w - (k + 1)))).quot / 2 ^ (w - (k + 1)) =
          (run (2 ^ w) b skip w a (k + 1)).quot := run_quot _ _
      rw [show k + 1 + (w - (k + 1)) = w by omega, same, Nat.div_div_eq_div_mul, Nat.mul_comm,
        ← Nat.div_div_eq_div_mul, odd] at stays
      change top w a (k + 1) / b = _ at stays
      omega
  · intro skips
    rw [run_right ha hb fits (Nat.le_refl w) fun k hk => ⟨sound _, skips k hk⟩, top_self]

end

/-- The leading digit of the divisor left out of the comparison. -/
def skipLow (T b r : Nat) : Bool := r / T = 0 ∧ r % T < b % T

section
variable {T b w a : Nat}

theorem skipLow_iff {r : Nat} (hT : 0 < T) :
    skipLow T b r = true ↔ r < T ∧ r < b % T := by
  rw [skipLow, decide_eq_true_eq, Nat.div_eq_zero_iff_lt hT]
  constructor
  · rintro ⟨small, less⟩
    exact ⟨small, Nat.mod_eq_of_lt small ▸ less⟩
  · rintro ⟨small, less⟩
    exact ⟨small, (Nat.mod_eq_of_lt small).symm ▸ less⟩

theorem skipLow_sound (hT : 0 < T) (r : Nat) (skips : skipLow T b r = true) : r < b :=
  Nat.lt_of_lt_of_le ((skipLow_iff hT).mp skips).2 (Nat.mod_le b T)

/-- It never errs exactly if the divisor has no leading digit, or the dividend is below the
other digits of the divisor. -/
theorem skips_iff (hT : 1 < T) (hw : 0 < w) (ha : a < 2 ^ w) :
    (∀ k, k < w → partialRest b w a k < b → skipLow T b (partialRest b w a k) = true) ↔
      b < T ∨ a < b % T := by
  have positive : 0 < T := by omega
  constructor
  · intro skips
    by_cases small : b < T
    · exact .inl small
    right
    have whole : T + b % T ≤ b := by
      have split := Nat.mod_add_div b T
      have one : 1 ≤ b / T := Nat.div_pos (by omega) positive
      have := Nat.mul_le_mul_left T one
      omega
    have low (k : Nat) (hk : k < w) : top w a (k + 1) < b % T := by
      induction k with
      | zero =>
        have digit : digit w a 0 ≤ 1 := digit_le
        have first : partialRest b w a 0 = top w a (0 + 1) := by
          rw [top_succ hk, partialRest, top_zero ha, Nat.zero_mod]
        rw [← first]
        have less : partialRest b w a 0 < b := by
          rw [partialRest, top_zero ha, Nat.zero_mod]
          omega
        exact ((skipLow_iff positive).mp (skips 0 hk less)).2
      | succ k ih =>
        have below := ih (by omega)
        have digit : digit w a (k + 1) ≤ 1 := digit_le
        have next : partialRest b w a (k + 1) = top w a (k + 1 + 1) := by
          rw [top_succ hk, partialRest, Nat.mod_eq_of_lt (by omega)]
        rw [← next]
        have mod := Nat.mod_lt b positive
        have less : partialRest b w a (k + 1) < b := by
          rw [next, top_succ hk]
          omega
        exact ((skipLow_iff positive).mp (skips (k + 1) hk less)).2
    have last := low (w - 1) (by omega)
    rwa [Nat.sub_add_cancel hw, top_self] at last
  · rintro (small | low) k hk less
    · rw [skipLow_iff positive, Nat.mod_eq_of_lt small]
      exact ⟨less.trans small, less⟩
    · have high : top w a (k + 1) ≤ a := Nat.div_le_self _ _
      have mod := Nat.mod_lt b positive
      have le := Nat.mod_le b T
      have next : partialRest b w a k = top w a (k + 1) := by
        rw [top_succ hk] at high ⊢
        rw [partialRest, Nat.mod_eq_of_lt (by omega)]
      rw [skipLow_iff positive, next]
      omega

theorem quot_iff_low (hT : 1 < T) (hw : 0 < w) (ha : a < 2 ^ w) (hb : 0 < b)
    (fits : b ≤ 2 ^ w) :
    (run (2 ^ w) b (skipLow T b) w a w).quot = a / b ↔ b < T ∨ a < b % T :=
  (quot_iff ha hb fits (skipLow_sound (by omega))).trans (skips_iff hT hw ha)

/-- Where the quotient is right, so is the rest. -/
theorem run_low (hT : 1 < T) (hw : 0 < w) (ha : a < 2 ^ w) (hb : 0 < b) (fits : b ≤ 2 ^ w)
    (low : b < T ∨ a < b % T) : run (2 ^ w) b (skipLow T b) w a w = ⟨a % b, a / b⟩ := by
  have skips := (skips_iff hT hw ha).mpr low
  rw [run_right ha hb fits (Nat.le_refl w)
    fun k hk => ⟨skipLow_sound (by omega) _, skips k hk⟩, top_self]

end

end Chiptune.Restoring
