import Mathlib.Algebra.Order.Ring.Nat
import Mathlib.Data.Nat.Bitwise
import Mathlib.Data.Nat.ModEq
import Mathlib.Tactic.Ring
import Mathlib.Tactic.Positivity

/-!
# Digit-serial arithmetic

Loops that take a number apart from its leading binary digit and build their
result one digit at a time. `top w a k` is the number the first `k` of `w` digits
form, `digit w a k` the next one. `value B f n` is the number of digits from the lowest
on, and `ripple` adds up a chain of stages that pass a carry.
-/

namespace Chiptune.Digits

def top (w a k : Nat) : Nat := a / 2 ^ (w - k)

def digit (w a k : Nat) : Nat := a / 2 ^ (w - (k + 1)) % 2

section
variable {w a b k : Nat}

theorem top_zero (h : a < 2 ^ w) : top w a 0 = 0 := Nat.div_eq_of_lt h

theorem top_self : top w a w = a := by simp [top]

theorem digit_le : digit w a k ≤ 1 := by
  have := Nat.mod_lt (a / 2 ^ (w - (k + 1))) (by decide : 0 < 2)
  rw [digit]
  omega

theorem top_succ (hk : k < w) : top w a (k + 1) = 2 * top w a k + digit w a k := by
  have half : top w a k = top w a (k + 1) / 2 := by
    rw [top, top, Nat.div_div_eq_div_mul, ← Nat.pow_succ]
    congr 2
    omega
  rw [half, digit, ← top]
  omega

theorem top_lt (h : a < 2 ^ w) (hk : k ≤ w) : top w a k < 2 ^ k := by
  rw [top, Nat.div_lt_iff_lt_mul (Nat.two_pow_pos _), ← Nat.pow_add]
  convert h using 2
  omega

/-- The digit is what doubling the remaining digits carries out. -/
theorem digit_carry (hk : k < w) : 2 * (a * 2 ^ k % 2 ^ w) / 2 ^ w = digit w a k := by
  obtain ⟨m, rfl⟩ : ∃ m, w = k + (m + 1) := ⟨w - (k + 1), by omega⟩
  have rest : a * 2 ^ k % 2 ^ (k + (m + 1)) = 2 ^ k * (a % 2 ^ (m + 1)) := by
    rw [Nat.mul_comm, Nat.pow_add, Nat.mul_mod_mul_left]
  have scale : 2 ^ (k + (m + 1)) = 2 ^ k * 2 * 2 ^ m := by ring
  rw [rest, scale, Nat.mul_comm 2, Nat.mul_right_comm, Nat.mul_div_mul_left _ _ (by positivity),
    digit, show k + (m + 1) - (k + 1) = m by omega, Nat.pow_succ, Nat.mod_mul_right_div_self]

/-- A register that doubles has lost its leading digits. -/
theorem shift_out {M : Nat} (reg : Nat → Nat) (start : reg 0 < M)
    (shift : ∀ k, reg (k + 1) = 2 * reg k % M) (k : Nat) : reg k = reg 0 * 2 ^ k % M := by
  induction k with
  | zero => simp [Nat.mod_eq_of_lt start]
  | succ k ih =>
    have double : reg 0 * 2 ^ (k + 1) = 2 * (reg 0 * 2 ^ k) := by ring
    rw [shift, ih, double, Nat.mul_mod_mod]

/-- A register that takes the digits of `v` in from the right holds `v` behind the
digits it held before. -/
theorem shift_in {M : Nat} (out v d : Nat → Nat) (zero : v 0 = 0)
    (value : ∀ k, k < w → v (k + 1) = 2 * v k + d k)
    (shift : ∀ k, k < w → out (k + 1) = (2 * out k + d k) % M) :
    ∀ k, k ≤ w → out k % M = (out 0 * 2 ^ k + v k) % M := by
  intro k
  induction k with
  | zero => simp [zero]
  | succ k ih =>
    intro hk
    have held : out k ≡ out 0 * 2 ^ k + v k [MOD M] := ih (by omega)
    rw [shift k (by omega), value k (by omega), Nat.mod_mod]
    calc (2 * out k + d k) % M = (2 * (out 0 * 2 ^ k + v k) + d k) % M :=
          (held.mul_left 2).add_right (d k)
      _ = (out 0 * 2 ^ (k + 1) + (2 * v k + d k)) % M := by
          congr 1
          ring

/-- A binary digit is a bit. -/
theorem exists_bit {c : Nat} (hc : c ≤ 1) : ∃ x : Bool, x.toNat = c := by
  obtain rfl | rfl : c = 0 ∨ c = 1 := by omega
  · exact ⟨false, rfl⟩
  · exact ⟨true, rfl⟩

theorem land_digits {c d : Nat} (hc : c ≤ 1) (hd : d ≤ 1) :
    (2 * a + c) &&& (2 * b + d) = 2 * (a &&& b) + c * d := by
  obtain ⟨x, rfl⟩ := exists_bit hc
  obtain ⟨y, rfl⟩ := exists_bit hd
  have bits := Nat.land_bit x a y b
  simp only [Nat.bit_val] at bits
  cases x <;> cases y <;> exact bits

theorem xor_digits {c d : Nat} (hc : c ≤ 1) (hd : d ≤ 1) :
    (2 * a + c) ^^^ (2 * b + d) = 2 * (a ^^^ b) + (c + d) % 2 := by
  obtain ⟨x, rfl⟩ := exists_bit hc
  obtain ⟨y, rfl⟩ := exists_bit hd
  have bits := Nat.xor_bit x a y b
  simp only [Nat.bit_val] at bits
  cases x <;> cases y <;> exact bits

/-- One digit of a restoring division: the doubled remainder with the next digit is
reduced by the divisor where that fits. -/
theorem div_digit {p c : Nat} (hb : 0 < b) (hc : c ≤ 1) :
    (2 * p + c) / b = 2 * (p / b) + (if b ≤ 2 * (p % b) + c then 1 else 0) ∧
      (2 * p + c) % b =
        if b ≤ 2 * (p % b) + c then 2 * (p % b) + c - b else 2 * (p % b) + c := by
  have split := Nat.mod_add_div p b
  have less := Nat.mod_lt p hb
  apply (Nat.div_mod_unique hb).mpr
  by_cases fits : b ≤ 2 * (p % b) + c
  · have quotient : b * (2 * (p / b) + 1) = 2 * (b * (p / b)) + b := by ring
    rw [if_pos fits, if_pos fits, quotient]
    omega
  · have quotient : b * (2 * (p / b) + 0) = 2 * (b * (p / b)) := by ring
    rw [if_neg fits, if_neg fits, quotient]
    omega

/-- The lowest digit of a sum and, with its carry, the digits above. -/
theorem mod_pow_succ (B n : Nat) (hB : 0 < B) :
    (a + B * b) % B ^ (n + 1) = a % B + B * ((a / B + b) % B ^ n) := by
  rw [Nat.pow_succ', Nat.mod_mul, Nat.add_mul_mod_self_left, Nat.add_mul_div_left _ _ hB]

theorem digits_inj {B d e m n : Nat} (hd : d < B) (he : e < B) :
    d + B * m = e + B * n ↔ d = e ∧ m = n := by
  have positive : 0 < B := by omega
  constructor
  · intro same
    have low := congrArg (· % B) same
    have high := congrArg (· / B) same
    simp only [Nat.add_mul_mod_self_left, Nat.mod_eq_of_lt hd, Nat.mod_eq_of_lt he] at low
    simp only [Nat.add_mul_div_left _ _ positive, Nat.div_eq_of_lt hd, Nat.div_eq_of_lt he,
      Nat.zero_add] at high
    exact ⟨low, high⟩
  · rintro ⟨rfl, rfl⟩
    rfl

/-! ### Ripple carry -/

/-- The number of the lowest `n` digits. -/
def value (B : Nat) (f : Nat → Nat) : Nat → Nat
  | 0 => 0
  | n + 1 => value B f n + B ^ n * f n

theorem value_digits (B x n : Nat) : value B (fun i => x / B ^ i % B) n = x % B ^ n := by
  induction n with
  | zero => simp [value, Nat.mod_one]
  | succ n ih => rw [value, ih, Nat.mod_pow_succ]

/-- A chain of stages, each of which puts out a digit and a carry for the digit and the
carry it takes in. -/
theorem ripple (B : Nat) (out digit carry : Nat → Nat)
    (stage : ∀ i, out i + B * carry (i + 1) = digit i + carry i) (n : Nat) :
    value B out n + B ^ n * carry n = value B digit n + carry 0 := by
  induction n with
  | zero => simp [value]
  | succ n ih =>
    calc value B out (n + 1) + B ^ (n + 1) * carry (n + 1)
        = value B out n + B ^ n * (out n + B * carry (n + 1)) := by rw [value]; ring
      _ = value B out n + B ^ n * carry n + B ^ n * digit n := by rw [stage]; ring
      _ = value B digit (n + 1) + carry 0 := by rw [ih, value]; ring

end

end Chiptune.Digits
