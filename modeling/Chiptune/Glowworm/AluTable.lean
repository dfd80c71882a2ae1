import Chiptune.Digits
import Chiptune.Glowworm.Sim

/-!
# The ALU table

What the start-up routine `glow_cpu_init` of `compiler/glow.cpp` stores in the ALU
table for two operands, and for which operands and which carry latch
`alu_compute` reads that byte. A table is filled from the ones before it.
-/

namespace Chiptune.Glowworm

/-- The modes in the order of `alu_str`. -/
inductive AluMode
  | add | sub | addC | subC | equalC | and | or | aNot | xor
  | aBhLsh | bAlRsh | aAhRsh | a0Rsh | a0Lsh | b0Lsh
  | mulL | mulH | div | mod
  | aAdd1 | aSub1 | aAdd1C | aSub1C | outA | outB
  deriving DecidableEq

/-- The mode number in an instruction. -/
def AluMode.code : AluMode → Byte
  | add => 0
  | sub => 1
  | addC => 2
  | subC => 3
  | equalC => 4
  | and => 5
  | or => 6
  | aNot => 7
  | xor => 8
  | aBhLsh => 9
  | bAlRsh => 10
  | aAhRsh => 11
  | a0Rsh => 12
  | a0Lsh => 13
  | b0Lsh => 14
  | mulL => 15
  | mulH => 16
  | div => 17
  | mod => 18
  | aAdd1 => 19
  | aSub1 => 20
  | aAdd1C => 21
  | aSub1C => 22
  | outA => 23
  | outB => 24

namespace CpuInit

/-! ## The routine -/

/-- `REG_ALU_OUT_1` when `REG_ALU_OUT_0` is stored: set as that wraps to 0. `REG_0` is
-1 in the first row and 0 behind it. -/
def addFlag (a out0 out1 : Byte) : Byte :=
  if out0 = 0 then (if a = 0 then -1 else 0) + 1 else out1

/-- `REG_ALU_OUT_0` and `REG_ALU_OUT_1` as they are stored in the rows of `a` for
`REG_ALU_B = n`. -/
def addRow (a : Byte) : Nat → Byte × Byte
  | 0 => (a, addFlag a a 0)
  | n + 1 =>
    let out0 := (addRow a n).1 + 1
    (out0, addFlag a out0 (addRow a n).2)

def add (a b : Byte) : Byte := (addRow a b.toNat).1

def addC (a b : Byte) : Byte := (addRow a b.toNat).2

def aAdd1 (a : Byte) : Byte := add a 1

def aAdd1C (a : Byte) : Byte := addC a 1

def a0Lsh (a : Byte) : Byte := add a a

def b0Lsh (b : Byte) : Byte := add b b

def aBhLsh (a b : Byte) : Byte := add (a0Lsh a) (addC b b)

/-- The part of the `EQUAL_C` table for `B = 0`, which is filled first. -/
def equalC0 (a : Byte) : Byte := if a = 0 then 1 else 0

/-- A round of the `A_NOT` loop on `REG_ALU_OUT_0` and `REG_1`. -/
def notRound (r : Byte × Byte) : Byte × Byte :=
  (add (equalC0 (addC r.2 r.2)) (a0Lsh r.1), a0Lsh r.2)

/-- Eight rounds. What the output register held before is shifted out of it, here as in
the loops below. -/
def aNot (a : Byte) : Byte := (notRound^[8] (0, a)).1

def sub (a b : Byte) : Byte := aNot (add (aNot a) b)

def subC (a b : Byte) : Byte := addC (aNot a) b

def aSub1 (a : Byte) : Byte := sub a 1

def aSub1C (a : Byte) : Byte := subC a 1

def equalC (a b : Byte) : Byte :=
  if (equalC0 (sub a b)).getLsbD 0 = false then 0x00 else 0x01

structure LogicRegs where
  out0 : Byte
  out1 : Byte
  reg1 : Byte
  reg2 : Byte

/-- A round of the loop for `AND` and for the complement of `XOR`. -/
def logicRound (r : LogicRegs) : LogicRegs where
  out0 := add (equalC0 (add (equalC0 (addC r.reg2 r.reg2)) (equalC0 (addC r.reg1 r.reg1))))
    (a0Lsh r.out0)
  out1 := add (equalC0 (sub (addC r.reg2 r.reg2) (addC r.reg1 r.reg1))) (a0Lsh r.out1)
  reg1 := a0Lsh r.reg1
  reg2 := a0Lsh r.reg2

def logicLoop (out0 out1 a b : Byte) : LogicRegs := logicRound^[8] ⟨out0, out1, a, b⟩

def and (a b : Byte) : Byte := (logicLoop 0 0 a b).out0

/-- The complement of `AND` is stored at the complemented operands. -/
def or (a b : Byte) : Byte := aNot (and (aNot a) (aNot b))

def xor (a b : Byte) : Byte := aNot (logicLoop 0 0 a b).out1

structure MulRegs where
  out1 : Byte
  out0 : Byte
  reg1 : Byte

def mulRound (b : Byte) (r : MulRegs) : MulRegs :=
  let out0 := b0Lsh r.out0
  let out1 := aBhLsh r.out1 r.out0
  if (addC r.reg1 r.reg1).getLsbD 0 = false then ⟨out1, out0, a0Lsh r.reg1⟩
  else ⟨add out1 (addC b out0), add b out0, a0Lsh r.reg1⟩

def mulLoop (a b : Byte) : MulRegs := (mulRound b)^[8] ⟨0, 0, a⟩

def mulH (a b : Byte) : Byte := (mulLoop a b).out1

def mulL (a b : Byte) : Byte := (mulLoop a b).out0

structure DivRegs where
  out0 : Byte
  out1 : Byte
  reg1 : Byte

def divRound (b : Byte) (r : DivRegs) : DivRegs :=
  let out0 := a0Lsh r.out0
  let out1 := aBhLsh r.out1 r.reg1
  if (aNot (subC out1 b)).getLsbD 0 = false then ⟨out0, out1, b0Lsh r.reg1⟩
  else ⟨aAdd1 out0, sub out1 b, b0Lsh r.reg1⟩

def divLoop (out0 a b : Byte) : DivRegs := (divRound b)^[8] ⟨out0, 0, a⟩

def div (a b : Byte) : Byte := (divLoop 0 a b).out0

def mod (a b : Byte) : Byte := (divLoop 0 a b).out1

def a0Rsh (a : Byte) : Byte := div a 2

def aAhRsh (a : Byte) : Byte := add (and a 0x80) (a0Rsh a)

def bAlRsh (a b : Byte) : Byte := add (a0Rsh b) (mulL a 128)

/-- The table. -/
def stored (m : AluMode) (a b : Byte) : Byte :=
  match m with
  | .add => add a b
  | .sub => sub a b
  | .addC => addC a b
  | .subC => subC a b
  | .equalC => equalC a b
  | .and => and a b
  | .or => or a b
  | .aNot => aNot a
  | .xor => xor a b
  | .aBhLsh => aBhLsh a b
  | .bAlRsh => bAlRsh a b
  | .aAhRsh => aAhRsh a
  | .a0Rsh => a0Rsh a
  | .a0Lsh => a0Lsh a
  | .b0Lsh => b0Lsh b
  | .mulL => mulL a b
  | .mulH => mulH a b
  | .div => div a b
  | .mod => mod a b
  | .aAdd1 => aAdd1 a
  | .aSub1 => aSub1 a
  | .aAdd1C => aAdd1C a
  | .aSub1C => aSub1C a
  | .outA => a
  | .outB => b

/-! ## What the rows come to -/

theorem addRow_eq (a : Byte) (n : Nat) (hn : n < 256) :
    (addRow a n).1.toNat = (a.toNat + n) % 256 ∧
      (addRow a n).2 = if 256 ≤ a.toNat + n then 1 else 0 := by
  have ha := a.isLt
  induction n with
  | zero =>
    refine ⟨by simp [addRow]; omega, ?_⟩
    rw [if_neg (by omega), addRow, addFlag]
    by_cases zero : a = 0
    · rw [if_pos zero, if_pos zero]
      rfl
    · rw [if_neg zero]
  | succ n ih =>
    obtain ⟨out0, out1⟩ := ih (by omega)
    have one : (1 : Byte).toNat = 1 := rfl
    have next : (addRow a (n + 1)).1.toNat = (a.toNat + (n + 1)) % 256 := by
      change ((addRow a n).1 + 1).toNat = _
      rw [BitVec.toNat_add, out0, one]
      omega
    refine ⟨next, ?_⟩
    change addFlag a (addRow a (n + 1)).1 (addRow a n).2 = _
    rw [addFlag, out1]
    by_cases wraps : (addRow a (n + 1)).1 = 0
    · have zero : (addRow a (n + 1)).1.toNat = 0 := congrArg BitVec.toNat wraps
      have nonzero : a ≠ 0 := by
        intro h
        have : a.toNat = 0 := congrArg BitVec.toNat h
        omega
      rw [if_pos wraps, if_neg nonzero, if_pos (by omega)]
      rfl
    · have nonzero : (addRow a (n + 1)).1.toNat ≠ 0 := fun h => wraps (BitVec.eq_of_toNat_eq h)
      rw [if_neg wraps]
      congr 1
      apply propext
      omega

theorem add_toNat (a b : Byte) : (add a b).toNat = (a.toNat + b.toNat) % 256 :=
  (addRow_eq a b.toNat b.isLt).1

theorem add_eq (a b : Byte) : add a b = a + b := BitVec.eq_of_toNat_eq (add_toNat a b)

theorem addC_eq (a b : Byte) : addC a b = if 256 ≤ a.toNat + b.toNat then 1 else 0 :=
  (addRow_eq a b.toNat b.isLt).2

theorem addC_toNat (a b : Byte) : (addC a b).toNat = (a.toNat + b.toNat) / 256 := by
  have ha := a.isLt
  have hb := b.isLt
  rw [addC_eq]
  split
  · change 1 = _
    omega
  · change 0 = _
    omega

theorem double_toNat (a : Byte) : (a0Lsh a).toNat = 2 * a.toNat % 256 := by
  rw [a0Lsh, add_toNat, Nat.two_mul]

theorem double_eq (a : Byte) : a0Lsh a = a <<< 1 := by
  apply BitVec.eq_of_toNat_eq
  rw [double_toNat, BitVec.toNat_shiftLeft, Nat.shiftLeft_eq]
  omega

theorem carry_toNat (a : Byte) : (addC a a).toNat = 2 * a.toNat / 256 := by
  rw [addC_toNat, Nat.two_mul]

theorem aBhLsh_toNat (a b : Byte) :
    (aBhLsh a b).toNat = (2 * a.toNat + 2 * b.toNat / 256) % 256 := by
  rw [aBhLsh, add_toNat, double_toNat, carry_toNat]
  omega

theorem equalC0_toNat (a : Byte) : (equalC0 a).toNat = if a.toNat = 0 then 1 else 0 := by
  by_cases zero : a = 0
  · rw [equalC0, if_pos zero, zero]
    rfl
  · have nonzero : a.toNat ≠ 0 := fun h => zero (BitVec.eq_of_toNat_eq h)
    rw [equalC0, if_neg zero, if_neg nonzero]
    rfl

/-- A register that is doubled `k` times carries out digit `k` of what it held. -/
theorem reg_digit (reg : Nat → Byte) (double : ∀ k, reg (k + 1) = a0Lsh (reg k)) {k : Nat}
    (hk : k < 8) : (addC (reg k) (reg k)).toNat = Digits.digit 8 (reg 0).toNat k := by
  have step (k : Nat) : (reg (k + 1)).toNat = 2 * (reg k).toNat % 256 := by
    rw [double, double_toNat]
  have held := Digits.shift_out (fun k => (reg k).toNat) (reg 0).isLt step k
  rw [carry_toNat, held]
  exact Digits.digit_carry hk

/-- An output register that takes a digit in at every doubling ends as the number of
these digits. -/
theorem out_value (out : Nat → Byte) (digits : Nat → Byte) (v : Nat → Nat) (zero : v 0 = 0)
    (shift : ∀ k, out (k + 1) = add (digits k) (a0Lsh (out k)))
    (value : ∀ k, k < 8 → v (k + 1) = 2 * v k + (digits k).toNat) :
    (out 8).toNat = v 8 % 256 := by
  have step (k : Nat) (_ : k < 8) :
      (out (k + 1)).toNat = (2 * (out k).toNat + (digits k).toNat) % 256 := by
    rw [shift, add_toNat, double_toNat]
    omega
  have held := Digits.shift_in (fun k => (out k).toNat) v _ zero value step 8 (Nat.le_refl 8)
  have := (out 8).isLt
  omega

/-- The first `k` digits of the complement of `a`. -/
def notTop (a k : Nat) : Nat := 2 ^ k - 1 - Digits.top 8 a k

theorem notTop_succ {a k : Nat} (ha : a < 2 ^ 8) (hk : k < 8) :
    notTop a (k + 1) = 2 * notTop a k + (1 - Digits.digit 8 a k) := by
  have below := Digits.top_lt ha (Nat.le_of_lt hk)
  have digit : Digits.digit 8 a k ≤ 1 := Digits.digit_le
  have pow : 2 ^ (k + 1) = 2 * 2 ^ k := by ring
  rw [notTop, notTop, Digits.top_succ hk, pow]
  omega

theorem equalC0_digit {c : Byte} (hc : c.toNat ≤ 1) : (equalC0 c).toNat = 1 - c.toNat := by
  rw [equalC0_toNat]
  split <;> omega

theorem notLoop_eq (left a : Byte) : (notRound^[8] (left, a)).1 = ~~~a := by
  have round (k : Nat) : notRound^[k + 1] (left, a) = notRound (notRound^[k] (left, a)) :=
    Function.iterate_succ_apply' _ _ _
  have bit {k : Nat} (hk : k < 8) := reg_digit (fun k => (notRound^[k] (left, a)).2)
    (fun k => by rw [round]; rfl) hk
  have value (k : Nat) (hk : k < 8) : notTop a.toNat (k + 1) = 2 * notTop a.toNat k +
      (equalC0 (addC (notRound^[k] (left, a)).2 (notRound^[k] (left, a)).2)).toNat := by
    have digit : Digits.digit 8 a.toNat k ≤ 1 := Digits.digit_le
    rw [equalC0_digit ((bit hk).trans_le digit), bit hk]
    exact notTop_succ a.isLt hk
  have out := out_value (fun k => (notRound^[k] (left, a)).1) _ (notTop a.toNat)
    (by simp [notTop]) (fun k => by rw [round]; rfl) value
  have ha := a.isLt
  apply BitVec.eq_of_toNat_eq
  rw [out, notTop, Digits.top_self, BitVec.toNat_not]
  omega

theorem aNot_eq (a : Byte) : aNot a = ~~~a := notLoop_eq 0 a

theorem sub_eq (a b : Byte) : sub a b = a - b := by
  have ha := a.isLt
  have hb := b.isLt
  apply BitVec.eq_of_toNat_eq
  rw [sub, aNot_eq, aNot_eq, BitVec.toNat_not, add_toNat, BitVec.toNat_not, BitVec.toNat_sub]
  omega

theorem subC_eq (a b : Byte) : subC a b = if a.toNat < b.toNat then 1 else 0 := by
  have ha := a.isLt
  rw [subC, aNot_eq, addC_eq, BitVec.toNat_not]
  congr 1
  apply propext
  omega

theorem equalC_eq (a b : Byte) : equalC a b = if a = b then 1 else 0 := by
  have zero : 0 + b = b := BitVec.zero_add b
  have same : a - b = 0 ↔ a = b := by rw [BitVec.sub_eq_iff_eq_add, zero]
  rw [equalC, sub_eq, equalC0]
  by_cases equal : a = b
  · rw [if_pos (same.mpr equal), if_pos equal]
    rfl
  · rw [if_neg (mt same.mp equal), if_neg equal]
    rfl

/-! ### Logic -/

theorem both_digit {c d : Byte} (hc : c.toNat ≤ 1) (hd : d.toNat ≤ 1) :
    (equalC0 (add (equalC0 d) (equalC0 c))).toNat = c.toNat * d.toNat := by
  rw [equalC0_toNat, add_toNat, equalC0_digit hc, equalC0_digit hd]
  obtain hc | hc : c.toNat = 0 ∨ c.toNat = 1 := by omega
  · rw [hc, if_neg (by omega), Nat.zero_mul]
  · obtain hd | hd : d.toNat = 0 ∨ d.toNat = 1 := by omega
    · rw [hc, hd]
      rfl
    · rw [hc, hd]
      rfl

theorem same_digit {c d : Byte} (hc : c.toNat ≤ 1) (hd : d.toNat ≤ 1) :
    (equalC0 (sub d c)).toNat = 1 - (c.toNat + d.toNat) % 2 := by
  rw [equalC0_toNat, sub_eq, BitVec.toNat_sub]
  split <;> omega

/-- The first `k` digits of the complement of `a ^^^ b`. -/
def xnorTop (a b k : Nat) : Nat := 2 ^ k - 1 - (Digits.top 8 a k ^^^ Digits.top 8 b k)

theorem xnorTop_succ {a b k : Nat} (ha : a < 2 ^ 8) (hb : b < 2 ^ 8) (hk : k < 8) :
    xnorTop a b (k + 1) =
      2 * xnorTop a b k + (1 - (Digits.digit 8 a k + Digits.digit 8 b k) % 2) := by
  have below := Nat.xor_lt_two_pow (Digits.top_lt ha (Nat.le_of_lt hk))
    (Digits.top_lt hb (Nat.le_of_lt hk))
  have pow : 2 ^ (k + 1) = 2 * 2 ^ k := by ring
  rw [xnorTop, xnorTop, Digits.top_succ hk, Digits.top_succ hk,
    Digits.xor_digits Digits.digit_le Digits.digit_le, pow]
  omega

theorem logicLoop_eq (out0 out1 a b : Byte) :
    (logicLoop out0 out1 a b).out0 = a &&& b ∧ (logicLoop out0 out1 a b).out1 = ~~~(a ^^^ b) := by
  let regs (k : Nat) : LogicRegs := logicRound^[k] ⟨out0, out1, a, b⟩
  have round (k : Nat) : regs (k + 1) = logicRound (regs k) := Function.iterate_succ_apply' _ _ _
  have bit1 {k : Nat} (hk : k < 8) :
      (addC (regs k).reg1 (regs k).reg1).toNat = Digits.digit 8 a.toNat k :=
    reg_digit (fun k => (regs k).reg1) (fun k => by rw [round]; rfl) hk
  have bit2 {k : Nat} (hk : k < 8) :
      (addC (regs k).reg2 (regs k).reg2).toNat = Digits.digit 8 b.toNat k :=
    reg_digit (fun k => (regs k).reg2) (fun k => by rw [round]; rfl) hk
  have le1 {k : Nat} (hk : k < 8) := (bit1 hk).trans_le Digits.digit_le
  have le2 {k : Nat} (hk : k < 8) := (bit2 hk).trans_le Digits.digit_le
  have both := out_value (fun k => (regs k).out0) _
    (fun k => Digits.top 8 a.toNat k &&& Digits.top 8 b.toNat k)
    (by simp [Digits.top_zero a.isLt]) (fun k => by rw [round]; rfl) (by
      intro k hk
      rw [both_digit (le1 hk) (le2 hk), bit1 hk, bit2 hk, Digits.top_succ hk, Digits.top_succ hk]
      exact Digits.land_digits Digits.digit_le Digits.digit_le)
  have same := out_value (fun k => (regs k).out1) _ (xnorTop a.toNat b.toNat)
    (by simp [xnorTop]) (fun k => by rw [round]; rfl) (by
      intro k hk
      rw [same_digit (le1 hk) (le2 hk), bit1 hk, bit2 hk]
      exact xnorTop_succ a.isLt b.isLt hk)
  simp only [xnorTop, Digits.top_self] at both same
  constructor
  · apply BitVec.eq_of_toNat_eq
    rw [BitVec.toNat_and]
    exact both.trans (Nat.mod_eq_of_lt (Nat.and_lt_two_pow _ b.isLt))
  · apply BitVec.eq_of_toNat_eq
    rw [BitVec.toNat_not, BitVec.toNat_xor]
    exact same.trans (Nat.mod_eq_of_lt (by omega))

theorem and_eq (a b : Byte) : and a b = a &&& b := (logicLoop_eq 0 0 a b).1

theorem or_eq (a b : Byte) : or a b = a ||| b := by
  rw [or, and_eq, aNot_eq, aNot_eq, aNot_eq, BitVec.not_and, BitVec.not_not, BitVec.not_not]

theorem xor_eq (a b : Byte) : xor a b = a ^^^ b := by
  rw [xor, (logicLoop_eq 0 0 a b).2, aNot_eq, BitVec.not_not]

/-! ### Multiplication and division -/

theorem low_digit {c : Byte} (hc : c.toNat ≤ 1) : c.getLsbD 0 = false ↔ c.toNat = 0 := by
  rw [BitVec.getLsbD, Nat.testBit_zero, decide_eq_false_iff_not]
  omega

theorem b0Lsh_toNat (b : Byte) : (b0Lsh b).toNat = 2 * b.toNat % 256 := double_toNat b

/-- A round doubles the product and adds `b` for a digit 1. -/
theorem mulRound_value {b : Byte} {r : MulRegs} (hc : (addC r.reg1 r.reg1).toNat ≤ 1)
    (fits : 2 * (256 * r.out1.toNat + r.out0.toNat) + b.toNat < 2 ^ 16) :
    256 * (mulRound b r).out1.toNat + (mulRound b r).out0.toNat =
      2 * (256 * r.out1.toNat + r.out0.toNat) + (addC r.reg1 r.reg1).toNat * b.toNat := by
  have hb := b.isLt
  have h0 := r.out0.isLt
  by_cases skip : (addC r.reg1 r.reg1).getLsbD 0 = false
  · have round : mulRound b r = ⟨aBhLsh r.out1 r.out0, b0Lsh r.out0, a0Lsh r.reg1⟩ := if_pos skip
    rw [round, (low_digit hc).mp skip, aBhLsh_toNat, b0Lsh_toNat]
    omega
  · have round : mulRound b r = ⟨add (aBhLsh r.out1 r.out0) (addC b (b0Lsh r.out0)),
        add b (b0Lsh r.out0), a0Lsh r.reg1⟩ := if_neg skip
    have one : (addC r.reg1 r.reg1).toNat = 1 := by
      have := mt (low_digit hc).mpr skip
      omega
    rw [round, one, add_toNat, add_toNat, addC_toNat, aBhLsh_toNat, b0Lsh_toNat]
    omega

theorem mulLoop_eq (a b : Byte) :
    256 * (mulLoop a b).out1.toNat + (mulLoop a b).out0.toNat = a.toNat * b.toNat := by
  let regs (k : Nat) : MulRegs := (mulRound b)^[k] ⟨0, 0, a⟩
  have round (k : Nat) : regs (k + 1) = mulRound b (regs k) := Function.iterate_succ_apply' _ _ _
  have double (k : Nat) : (regs (k + 1)).reg1 = a0Lsh (regs k).reg1 := by
    rw [round, mulRound]
    split <;> rfl
  have bit {k : Nat} (hk : k < 8) :
      (addC (regs k).reg1 (regs k).reg1).toNat = Digits.digit 8 a.toNat k :=
    reg_digit (fun k => (regs k).reg1) double hk
  have product (k : Nat) (hk : k ≤ 8) :
      256 * (regs k).out1.toNat + (regs k).out0.toNat = Digits.top 8 a.toNat k * b.toNat := by
    induction k with
    | zero => simp [regs, Digits.top_zero a.isLt]
    | succ k ih =>
      have held := ih (by omega)
      have below : Digits.top 8 a.toNat k ≤ 127 := by
        have top := Digits.top_lt a.isLt (Nat.le_of_lt hk)
        have pow : 2 ^ k ≤ 2 ^ 7 := Nat.pow_le_pow_right (by decide) (by omega)
        omega
      have hb : b.toNat ≤ 255 := by omega
      have bound := Nat.mul_le_mul below hb
      rw [round, mulRound_value ((bit hk).trans_le Digits.digit_le) (by omega), held, bit hk,
        Digits.top_succ hk]
      ring
  have all := product 8 (Nat.le_refl 8)
  rwa [Digits.top_self] at all

theorem mulL_eq (a b : Byte) : mulL a b = a * b := by
  have product := mulLoop_eq a b
  have low := (mulLoop a b).out0.isLt
  apply BitVec.eq_of_toNat_eq
  rw [mulL, BitVec.toNat_mul, ← product]
  omega

theorem mulH_toNat (a b : Byte) : (mulH a b).toNat = a.toNat * b.toNat / 256 := by
  have product := mulLoop_eq a b
  have low := (mulLoop a b).out0.isLt
  rw [mulH]
  omega

/-- A round of the division subtracts `b` where it fits. -/
theorem divRound_value {b : Byte} {r : DivRegs}
    (fits : 2 * r.out1.toNat + (addC r.reg1 r.reg1).toNat < 256) :
    let rest := 2 * r.out1.toNat + (addC r.reg1 r.reg1).toNat
    (divRound b r).out0.toNat =
      (2 * r.out0.toNat + if b.toNat ≤ rest then 1 else 0) % 256 ∧
    (divRound b r).out1.toNat = if b.toNat ≤ rest then rest - b.toNat else rest := by
  intro rest
  have restEq : (aBhLsh r.out1 r.reg1).toNat = rest := by
    rw [aBhLsh_toNat, ← carry_toNat]
    exact Nat.mod_eq_of_lt fits
  have hb := b.isLt
  by_cases less : rest < b.toNat
  · have borrow : (aNot (subC (aBhLsh r.out1 r.reg1) b)).getLsbD 0 = false := by
      rw [subC_eq, restEq, if_pos less, aNot_eq]
      rfl
    have round : divRound b r = ⟨a0Lsh r.out0, aBhLsh r.out1 r.reg1, b0Lsh r.reg1⟩ :=
      if_pos borrow
    rw [round, if_neg (by omega), if_neg (by omega)]
    exact ⟨double_toNat _, restEq⟩
  · have borrow : ¬ (aNot (subC (aBhLsh r.out1 r.reg1) b)).getLsbD 0 = false := by
      rw [subC_eq, restEq, if_neg less, aNot_eq]
      decide
    have round : divRound b r =
        ⟨aAdd1 (a0Lsh r.out0), sub (aBhLsh r.out1 r.reg1) b, b0Lsh r.reg1⟩ := if_neg borrow
    have one : (1 : Byte).toNat = 1 := rfl
    rw [round, if_pos (by omega), if_pos (by omega), aAdd1, add_toNat, double_toNat, one, sub_eq,
      BitVec.toNat_sub, restEq]
    omega

/-- The first `k` digits of the quotient. -/
def quotTop (a b k : Nat) : Nat := if b = 0 then 2 ^ k - 1 else Digits.top 8 a k / b

theorem quotTop_succ {a b k : Nat} (hk : k < 8) :
    quotTop a b (k + 1) = 2 * quotTop a b k +
      (if b ≤ 2 * (Digits.top 8 a k % b) + Digits.digit 8 a k then 1 else 0) := by
  rw [quotTop, quotTop, Digits.top_succ hk]
  by_cases zero : b = 0
  · have pow : 2 ^ (k + 1) = 2 * 2 ^ k := by ring
    have positive := Nat.two_pow_pos k
    rw [if_pos zero, if_pos zero, if_pos (by omega), pow]
    omega
  · rw [if_neg zero, if_neg zero]
    exact (Digits.div_digit (Nat.pos_of_ne_zero zero) Digits.digit_le).1

theorem restTop_succ {a b k : Nat} (hk : k < 8) :
    Digits.top 8 a (k + 1) % b =
      (if b ≤ 2 * (Digits.top 8 a k % b) + Digits.digit 8 a k
      then 2 * (Digits.top 8 a k % b) + Digits.digit 8 a k - b
      else 2 * (Digits.top 8 a k % b) + Digits.digit 8 a k) := by
  rw [Digits.top_succ hk]
  obtain zero | positive := Nat.eq_zero_or_pos b
  · rw [zero, Nat.mod_zero, Nat.mod_zero, if_pos (Nat.zero_le _), Nat.sub_zero]
  · exact (Digits.div_digit positive Digits.digit_le).2

theorem divLoop_toNat (left a b : Byte) :
    (divLoop left a b).out0.toNat = quotTop a.toNat b.toNat 8 % 256 ∧
      (divLoop left a b).out1.toNat = a.toNat % b.toNat := by
  let regs (k : Nat) : DivRegs := (divRound b)^[k] ⟨left, 0, a⟩
  have round (k : Nat) : regs (k + 1) = divRound b (regs k) := Function.iterate_succ_apply' _ _ _
  have double (k : Nat) : (regs (k + 1)).reg1 = a0Lsh (regs k).reg1 := by
    rw [round, divRound]
    split <;> rfl
  have bit {k : Nat} (hk : k < 8) :
      (addC (regs k).reg1 (regs k).reg1).toNat = Digits.digit 8 a.toNat k :=
    reg_digit (fun k => (regs k).reg1) double hk
  have fits {k : Nat} (hk : k < 8)
      (rest : (regs k).out1.toNat = Digits.top 8 a.toNat k % b.toNat) :
      2 * (regs k).out1.toNat + (addC (regs k).reg1 (regs k).reg1).toNat < 256 := by
    have top := Digits.top_lt a.isLt (Nat.le_of_lt hk)
    have pow : 2 ^ k ≤ 2 ^ 7 := Nat.pow_le_pow_right (by decide) (by omega)
    have le := Nat.mod_le (Digits.top 8 a.toNat k) b.toNat
    have digit := (bit hk).trans_le Digits.digit_le
    omega
  have rest (k : Nat) (hk : k ≤ 8) :
      (regs k).out1.toNat = Digits.top 8 a.toNat k % b.toNat := by
    induction k with
    | zero => simp [regs, Digits.top_zero a.isLt]
    | succ k ih =>
      have held := ih (by omega)
      rw [round, (divRound_value (fits hk held)).2, held, bit hk, restTop_succ hk]
  have step (k : Nat) (hk : k < 8) := (divRound_value (b := b) (fits hk (rest k (by omega)))).1
  have quot := Digits.shift_in (fun k => (regs k).out0.toNat) (quotTop a.toNat b.toNat)
    (fun k => if b.toNat ≤ 2 * (Digits.top 8 a.toNat k % b.toNat) + Digits.digit 8 a.toNat k
      then 1 else 0)
    (by rw [quotTop]; split <;> simp [Digits.top_zero a.isLt]) (fun k hk => quotTop_succ hk)
    (fun k hk => by rw [round, step k hk, rest k (by omega), bit hk]) 8 (Nat.le_refl 8)
  have all := rest 8 (Nat.le_refl 8)
  rw [Digits.top_self] at all
  have last := (regs 8).out0.isLt
  refine ⟨?_, all⟩
  change (regs 8).out0.toNat = _
  omega

theorem div_eq (a b : Byte) : div a b = if b = 0 then 0xFF else a / b := by
  have quot := (divLoop_toNat 0 a b).1
  apply BitVec.eq_of_toNat_eq
  rw [div, quot, quotTop]
  by_cases zero : b = 0
  · rw [if_pos zero, zero]
    rfl
  · have nonzero : b.toNat ≠ 0 := fun h => zero (BitVec.eq_of_toNat_eq h)
    have below := Nat.lt_of_le_of_lt (Nat.div_le_self a.toNat b.toNat) a.isLt
    rw [if_neg zero, if_neg nonzero, Digits.top_self, BitVec.toNat_udiv]
    exact Nat.mod_eq_of_lt below

theorem mod_eq (a b : Byte) : mod a b = if b = 0 then a else a % b := by
  have rest := (divLoop_toNat 0 a b).2
  apply BitVec.eq_of_toNat_eq
  rw [mod, rest]
  by_cases zero : b = 0
  · rw [if_pos zero, zero]
    exact Nat.mod_zero _
  · rw [if_neg zero, BitVec.toNat_umod]

theorem a0Rsh_eq (a : Byte) : a0Rsh a = a >>> 1 := by
  have two : (2 : Byte).toNat = 2 := rfl
  have nonzero : (2 : Byte) ≠ 0 := by decide
  apply BitVec.eq_of_toNat_eq
  rw [a0Rsh, div_eq, if_neg nonzero, BitVec.toNat_udiv, two, BitVec.toNat_ushiftRight,
    Nat.shiftRight_one]

end CpuInit

/-! ## What the simulator reads -/

/-- The operands and the carry latch for which `alu_compute` reads the stored byte. -/
def Faithful (m : AluMode) (a b : Byte) (c : Bool) : Prop :=
  match m with
  | .addC => a.toNat + b.toNat + c.toNat = 0 ∨ a.toNat + b.toNat + c.toNat = 257 ∨
      a.toNat + b.toNat = 255 ∧ c = true
  | .subC => if a.toNat < b.toNat then b.toNat + c.toNat = a.toNat + 255
      else a.toNat = b.toNat + c.toNat
  | .equalC => False
  | .aBhLsh => b.toNat < 128 ∧ (a.toNat < 8 ∨ 248 ≤ a.toNat)
  | .bAlRsh => a.toNat % 2 = b.toNat / 128
  | .aAhRsh => a.toNat / 16 ∈ [0, 8, 12, 14, 15]
  | .aAdd1C => 254 ≤ a.toNat ∧ c = true
  | .aSub1C => a.toNat = 1 + c.toNat
  | _ => True

open CpuInit

section
variable (l : BitVec 16) (a b : Byte)

theorem flag_iff (n : Nat) (p : Prop) [Decidable p] :
    BitVec.ofNat 8 n = (if p then 1 else 0) ↔ n % 256 = if p then 1 else 0 := by
  rw [← BitVec.toNat_inj, BitVec.toNat_ofNat]
  split <;> rfl

theorem int_flag_iff (n : Int) (p : Prop) [Decidable p] :
    BitVec.ofInt 8 n = (if p then 1 else 0) ↔ n % 256 = if p then 1 else 0 := by
  rw [← BitVec.toNat_inj, BitVec.toNat_ofInt]
  have positive := Int.emod_nonneg n (by decide : (256 : Int) ≠ 0)
  split
  · change (n % 256).toNat = 1 ↔ n % 256 = 1
    omega
  · change (n % 256).toNat = 0 ↔ n % 256 = 0
    omega

theorem carry_reads (c : Bool) :
    BitVec.ofNat 8 (a.toNat + b.toNat + c.toNat) = addC a b ↔ Faithful .addC a b c := by
  have ha := a.isLt
  have hb := b.isLt
  rw [addC_eq, flag_iff, Faithful]
  cases c <;> simp <;> split <;> omega

theorem borrow_reads (c : Bool) :
    BitVec.ofInt 8 (a.toNat - b.toNat - c.toNat) = subC a b ↔ Faithful .subC a b c := by
  have ha := a.isLt
  have hb := b.isLt
  rw [subC_eq, int_flag_iff, Faithful]
  cases c <;> simp <;> split <;> omega

theorem read_addC : (aluCompute l a b 2).setWidth 8 = addC a b ↔
    Faithful .addC a b (l.getLsbD 8) := by
  have carry : (aluCompute l a b 2).setWidth 8 = _ := sum16_byte _
  rw [carry]
  exact carry_reads a b (l.getLsbD 8)

theorem read_subC : (aluCompute l a b 3).setWidth 8 = subC a b ↔
    Faithful .subC a b (l.getLsbD 8) := by
  have borrow : (aluCompute l a b 3).setWidth 8 = _ := diff16_byte _
  rw [borrow]
  exact borrow_reads a b (l.getLsbD 8)

theorem read_aAdd1C : (aluCompute l a b 21).setWidth 8 = aAdd1C a ↔
    Faithful .aAdd1C a b (l.getLsbD 8) := by
  have ha := a.isLt
  have one : (1 : Byte).toNat = 1 := rfl
  have carry : (aluCompute l a b 21).setWidth 8 = _ := sum16_byte _
  have reads := carry_reads a 1 (l.getLsbD 8)
  rw [one] at reads
  rw [carry, aAdd1C]
  refine reads.trans ?_
  rw [Faithful, Faithful, one]
  cases l.getLsbD 8 <;> simp <;> omega

theorem read_aSub1C : (aluCompute l a b 22).setWidth 8 = aSub1C a ↔
    Faithful .aSub1C a b (l.getLsbD 8) := by
  have ha := a.isLt
  have one : (1 : Byte).toNat = 1 := rfl
  have borrow : (aluCompute l a b 22).setWidth 8 = _ := diff16_byte _
  have reads := borrow_reads a 1 (l.getLsbD 8)
  rw [one] at reads
  rw [borrow, aSub1C]
  refine reads.trans ?_
  rw [Faithful, Faithful, one]
  cases l.getLsbD 8 <;> simp <;> omega

theorem read_equalC : (aluCompute l a b 4).setWidth 8 ≠ equalC a b := by
  have flag : aluCompute l a b 4 = if a ≠ b then 1 else 0 := rfl
  rw [flag, equalC_eq]
  by_cases equal : a = b
  · rw [if_neg (not_not.mpr equal), if_pos equal]
    decide
  · rw [if_pos equal, if_neg equal]
    decide

/-- A mode without a flag reads the byte it widens. -/
theorem widened (x : Byte) : (x.setWidth 16).setWidth 8 = x := by
  rw [BitVec.setWidth_setWidth_of_le _ (by decide), BitVec.setWidth_eq]

/-- What the three odd shifts come to, byte by byte. -/
theorem shift_bytes : (∀ a : Byte, ∀ top : Bool,
      a &&& 0xF0 ||| a <<< 1 &&& 0x0F = a + a + (if top then 1 else 0) ↔
        top = false ∧ (a.toNat < 8 ∨ 248 ≤ a.toNat)) ∧
    (∀ b : Byte, ∀ low : Bool,
      b >>> 1 ||| b &&& (0x80 : Byte) = b >>> 1 + (if low then 128 else 0) ↔
        low.toNat = b.toNat / 128) ∧
    ∀ a : Byte, a >>> 1 ||| a &&& (0xF0 : Byte) = (a &&& (0x80 : Byte)) + a >>> 1 ↔
      a.toNat / 16 ∈ [0, 8, 12, 14, 15] := by
  decide +kernel

theorem read_aBhLsh : (aluCompute l a b 9).setWidth 8 = aBhLsh a b ↔
    Faithful .aBhLsh a b (l.getLsbD 8) := by
  have all := shift_bytes.1
  have shift : (aluCompute l a b 9).setWidth 8 = _ := widened _
  have carry : addC b b = if decide (128 ≤ b.toNat) then 1 else 0 := by
    rw [addC_eq]
    congr 1
    simp only [decide_eq_true_eq, eq_iff_iff]
    omega
  rw [shift, aBhLsh, a0Lsh, add_eq, add_eq, carry, all, Faithful, decide_eq_false_iff_not,
    Nat.not_le]

theorem read_bAlRsh : (aluCompute l a b 10).setWidth 8 = bAlRsh a b ↔
    Faithful .bAlRsh a b (l.getLsbD 8) := by
  have all := shift_bytes.2.1
  have shift : (aluCompute l a b 10).setWidth 8 = _ := widened _
  have half : (128 : Byte).toNat = 128 := rfl
  rw [shift, bAlRsh, add_eq, a0Rsh_eq, mulL_eq, Faithful]
  obtain even | odd := Nat.mod_two_eq_zero_or_one a.toNat
  · have low : a * 128 = if false then 128 else 0 := by
      apply BitVec.eq_of_toNat_eq
      rw [BitVec.toNat_mul, half]
      change a.toNat * 128 % 256 = 0
      omega
    rw [low, all, even]
    rfl
  · have low : a * 128 = if true then 128 else 0 := by
      apply BitVec.eq_of_toNat_eq
      rw [BitVec.toNat_mul, half]
      change a.toNat * 128 % 256 = 128
      omega
    rw [low, all, odd]
    rfl

theorem read_aAhRsh : (aluCompute l a b 11).setWidth 8 = aAhRsh a ↔
    Faithful .aAhRsh a b (l.getLsbD 8) := by
  have all := shift_bytes.2.2
  have shift : (aluCompute l a b 11).setWidth 8 = _ := widened _
  rw [shift, aAhRsh, add_eq, and_eq, a0Rsh_eq, all, Faithful]

theorem read_arith : (aluCompute l a b 0).setWidth 8 = add a b ∧
    (aluCompute l a b 1).setWidth 8 = sub a b ∧ (aluCompute l a b 19).setWidth 8 = aAdd1 a ∧
    (aluCompute l a b 20).setWidth 8 = aSub1 a := by
  have one : (1 : Byte).toNat = 1 := rfl
  have sum (a b : Byte) : BitVec.ofNat 8 (a.toNat + b.toNat) = a + b := BitVec.eq_of_toNat_eq rfl
  have diff (a b : Byte) : BitVec.ofInt 8 (a.toNat - b.toNat) = a - b := by
    apply BitVec.eq_of_toNat_eq
    rw [BitVec.toNat_ofInt, BitVec.toNat_sub]
    omega
  have h0 : (aluCompute l a b 0).setWidth 8 = _ := sum16_byte _
  have h1 : (aluCompute l a b 1).setWidth 8 = _ := diff16_byte _
  have h19 : (aluCompute l a b 19).setWidth 8 = _ := sum16_byte (a.toNat + (1 : Byte).toNat)
  have h20 : (aluCompute l a b 20).setWidth 8 = _ := diff16_byte (a.toNat - (1 : Byte).toNat)
  rw [h0, h1, h19, h20, sum, sum, diff, diff, add_eq, sub_eq, aAdd1, add_eq, aSub1, sub_eq]
  exact ⟨rfl, rfl, rfl, rfl⟩

theorem read_mulH : (aluCompute l a b 16).setWidth 8 = mulH a b := by
  have high : aluCompute l a b 16 = (a.setWidth 16 * b.setWidth 16) >>> 8 := rfl
  have ha := a.isLt
  have hb := b.isLt
  have bound := Nat.mul_le_mul (Nat.le_of_lt_succ ha) (Nat.le_of_lt_succ hb)
  apply BitVec.eq_of_toNat_eq
  rw [high, mulH_toNat, BitVec.toNat_setWidth, BitVec.toNat_ushiftRight, BitVec.toNat_mul,
    BitVec.toNat_setWidth, BitVec.toNat_setWidth, Nat.shiftRight_eq_div_pow,
    Nat.mod_eq_of_lt (by omega : a.toNat < 2 ^ 16), Nat.mod_eq_of_lt (by omega : b.toNat < 2 ^ 16)]
  omega

/-- **The table.** The byte a mode reads is the stored one exactly for these operands
and this carry latch. -/
theorem read_stored_iff (m : AluMode) : (aluCompute l a b m.code).setWidth 8 = stored m a b ↔
    Faithful m a b (l.getLsbD 8) := by
  have arith := read_arith l a b
  cases m with
  | add => exact iff_true_intro arith.1
  | sub => exact iff_true_intro arith.2.1
  | addC => exact read_addC l a b
  | subC => exact read_subC l a b
  | equalC => exact iff_false_intro (read_equalC l a b)
  | and => exact iff_true_intro ((widened _).trans (and_eq a b).symm)
  | or => exact iff_true_intro ((widened _).trans (or_eq a b).symm)
  | aNot => exact iff_true_intro ((widened _).trans (aNot_eq a).symm)
  | xor => exact iff_true_intro ((widened _).trans (xor_eq a b).symm)
  | aBhLsh => exact read_aBhLsh l a b
  | bAlRsh => exact read_bAlRsh l a b
  | aAhRsh => exact read_aAhRsh l a b
  | a0Rsh => exact iff_true_intro ((widened _).trans (a0Rsh_eq a).symm)
  | a0Lsh => exact iff_true_intro ((widened _).trans (double_eq a).symm)
  | b0Lsh => exact iff_true_intro ((widened _).trans (double_eq b).symm)
  | mulL => exact iff_true_intro ((widened _).trans (mulL_eq a b).symm)
  | mulH => exact iff_true_intro (read_mulH l a b)
  | div => exact iff_true_intro ((widened _).trans (div_eq a b).symm)
  | mod => exact iff_true_intro ((widened _).trans (mod_eq a b).symm)
  | aAdd1 => exact iff_true_intro arith.2.2.1
  | aSub1 => exact iff_true_intro arith.2.2.2
  | aAdd1C => exact read_aAdd1C l a b
  | aSub1C => exact read_aSub1C l a b
  | outA => exact iff_true_intro (widened _)
  | outB => exact iff_true_intro (widened _)

end

end Chiptune.Glowworm
