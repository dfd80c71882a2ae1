import Mathlib.Algebra.Ring.Nat
import Mathlib.Logic.Function.Basic
import Mathlib.Tactic.Common

/-!
# The 74HC chips

Each chip of `rtl/` as its combinational outputs and, for a clocked chip, the
value it holds after a rising clock. Propagation delays are left out: a clock
edge sees the levels that settled before it.
-/

namespace Chiptune

abbrev Byte := BitVec 8

/-- A concatenation `{hi, lo}` as a number. -/
theorem toNat_append {m n : Nat} (hi : BitVec m) (lo : BitVec n) :
    (hi ++ lo).toNat = hi.toNat * 2 ^ n + lo.toNat := by
  rw [BitVec.toNat_append, ← Nat.shiftLeft_add_eq_or_of_lt lo.isLt, Nat.shiftLeft_eq]

/-- Digit `i` of a bus of 4-bit chips. -/
def nibble {n : Nat} (x : BitVec n) (i : Nat) : BitVec 4 := x.extractLsb' (4 * i) 4

theorem nibble_toNat {n : Nat} (x : BitVec n) (i : Nat) :
    (nibble x i).toNat = x.toNat / 16 ^ i % 16 := by
  rw [nibble, BitVec.extractLsb'_toNat, Nat.shiftRight_eq_div_pow, Nat.pow_mul]

theorem byte_nibbles_toNat (x : Byte) :
    (nibble x 0).toNat + 16 * (nibble x 1).toNat = x.toNat := by
  have hx := x.isLt
  simp only [nibble_toNat]
  omega

theorem word_toNat (q3 q2 q1 q0 : BitVec 4) : (q3 ++ q2 ++ q1 ++ q0 : BitVec 16).toNat =
    q0.toNat + 16 * (q1.toNat + 16 * (q2.toNat + 16 * q3.toNat)) := by
  simp only [toNat_append]
  omega

theorem byte_nibbles (x : Byte) : nibble x 1 ++ nibble x 0 = x := by
  apply BitVec.eq_of_toNat_eq
  have hx := x.isLt
  simp only [toNat_append, nibble_toNat]
  omega

theorem word_nibbles (x : BitVec 16) :
    nibble x 3 ++ nibble x 2 ++ nibble x 1 ++ nibble x 0 = x := by
  apply BitVec.eq_of_toNat_eq
  have hx := x.isLt
  simp only [word_toNat, nibble_toNat]
  omega

theorem append_bytes (v : BitVec 16) : v.extractLsb' 8 8 ++ v.setWidth 8 = v := by
  apply BitVec.eq_of_toNat_eq
  have hv := v.isLt
  simp only [toNat_append, BitVec.extractLsb'_toNat, BitVec.toNat_setWidth,
    Nat.shiftRight_eq_div_pow]
  omega

theorem append_high (hi lo : Byte) : (hi ++ lo).extractLsb' 8 8 = hi := by
  apply BitVec.eq_of_toNat_eq
  have h := hi.isLt
  have l := lo.isLt
  simp only [toNat_append, BitVec.extractLsb'_toNat, Nat.shiftRight_eq_div_pow]
  omega

theorem append_low {m : Nat} (hi : BitVec m) (lo : Byte) : (hi ++ lo).setWidth 8 = lo := by
  apply BitVec.eq_of_toNat_eq
  have l := lo.isLt
  simp only [toNat_append, BitVec.toNat_setWidth]
  omega

/-! ## 74HC283: 4-bit full adder -/

/-- `sum = {1'b0, A} + {1'b0, B} + {4'b0, C0}`. -/
def hc283Sum (a b : BitVec 4) (c0 : Bool) : BitVec 5 :=
  a.setWidth 5 + b.setWidth 5 + (BitVec.ofBool c0).setWidth 5

def hc283S (a b : BitVec 4) (c0 : Bool) : BitVec 4 := (hc283Sum a b c0).setWidth 4

def hc283C4 (a b : BitVec 4) (c0 : Bool) : Bool := (hc283Sum a b c0).getLsbD 4

theorem hc283Sum_toNat (a b : BitVec 4) (c0 : Bool) :
    (hc283Sum a b c0).toNat = a.toNat + b.toNat + c0.toNat := by
  have ha := a.isLt
  have hb := b.isLt
  have hc := c0.toNat_le
  simp only [hc283Sum, BitVec.toNat_add, BitVec.toNat_setWidth, BitVec.toNat_ofBool]
  omega

/-- The sum digit and the carry out together are the sum. -/
theorem hc283_split (a b : BitVec 4) (c0 : Bool) :
    (hc283S a b c0).toNat + 16 * (hc283C4 a b c0).toNat = a.toNat + b.toNat + c0.toNat := by
  have sum := hc283Sum_toNat a b c0
  have hlt := (hc283Sum a b c0).isLt
  have carry : (hc283C4 a b c0).toNat = (hc283Sum a b c0).toNat / 16 := by
    rw [hc283C4, BitVec.getLsbD, Nat.toNat_testBit]
    omega
  simp only [hc283S, BitVec.toNat_setWidth, carry]
  omega

/-- Two cascaded 283 add bytes. -/
theorem hc283_pair (a0 a1 b0 b1 : BitVec 4) (c : Bool) :
    (hc283S a1 b1 (hc283C4 a0 b0 c) ++ hc283S a0 b0 c).toNat =
      (a0.toNat + 16 * a1.toNat + (b0.toNat + 16 * b1.toNat) + c.toNat) % 256 := by
  have lo := hc283_split a0 b0 c
  have hi := hc283_split a1 b1 (hc283C4 a0 b0 c)
  have h0 := (hc283S a0 b0 c).isLt
  have h1 := (hc283S a1 b1 (hc283C4 a0 b0 c)).isLt
  rw [toNat_append]
  omega

/-- Four cascaded 283 add words. -/
theorem hc283_four (a0 a1 a2 a3 b0 b1 b2 b3 : BitVec 4) (c : Bool) :
    let c0 := hc283C4 a0 b0 c
    let c1 := hc283C4 a1 b1 c0
    let c2 := hc283C4 a2 b2 c1
    (hc283S a0 b0 c).toNat + 16 * (hc283S a1 b1 c0).toNat + 256 * (hc283S a2 b2 c1).toNat +
        4096 * (hc283S a3 b3 c2).toNat =
      (a0.toNat + 16 * a1.toNat + 256 * a2.toNat + 4096 * a3.toNat +
        (b0.toNat + 16 * b1.toNat + 256 * b2.toNat + 4096 * b3.toNat) + c.toNat) % 65536 := by
  intro c0 c1 c2
  have s0 : _ + 16 * c0.toNat = _ := hc283_split a0 b0 c
  have s1 : _ + 16 * c1.toNat = _ := hc283_split a1 b1 c0
  have s2 : _ + 16 * c2.toNat = _ := hc283_split a2 b2 c1
  have s3 := hc283_split a3 b3 c2
  have h0 := (hc283S a0 b0 c).isLt
  have h1 := (hc283S a1 b1 c0).isLt
  have h2 := (hc283S a2 b2 c1).isLt
  have h3 := (hc283S a3 b3 c2).isLt
  omega

/-! ## 74HC86: four exclusive-or gates, with one input common to the four -/

def hc86 (a : BitVec 4) (b : Bool) : BitVec 4 :=
  BitVec.ofBool (a.getLsbD 3 ^^ b) ++ BitVec.ofBool (a.getLsbD 2 ^^ b) ++
    BitVec.ofBool (a.getLsbD 1 ^^ b) ++ BitVec.ofBool (a.getLsbD 0 ^^ b)

@[simp] theorem hc86_false (a : BitVec 4) : hc86 a false = a := by
  revert a; decide

@[simp] theorem hc86_true (a : BitVec 4) : hc86 a true = ~~~a := by
  revert a; decide

/-! ## 74HC161: 4-bit counter with synchronous load -/

/-- `Q` after a rising clock: clear, load, count or hold. -/
def hc161 (mr pe cep cet : Bool) (d q : BitVec 4) : BitVec 4 :=
  if !mr then 0 else if !pe then d else if cep && cet then q + 1 else q

def hc161Tc (cet : Bool) (q : BitVec 4) : Bool := cet && q == 15

/-- One counting stage: its digit and the carry out of it together are the digit
it held and the carry into it. -/
theorem hc161_count_split (cet : Bool) (d q : BitVec 4) :
    (hc161 true true cet cet d q).toNat + 16 * (hc161Tc cet q).toNat = q.toNat + cet.toNat := by
  have hq := q.isLt
  cases cet with
  | false => simp [hc161, hc161Tc]
  | true =>
    by_cases full : q = 15
    · simp [hc161, hc161Tc, full]
    · have : q.toNat ≠ 15 := fun h => full (BitVec.eq_of_toNat_eq h)
      have one : (1 : BitVec 4).toNat = 1 := rfl
      simp only [hc161, hc161Tc, BitVec.toNat_add, one, Bool.and_self, Bool.not_true,
        Bool.false_eq_true, ↓reduceIte, Bool.toNat_true, Bool.true_and,
        beq_eq_false_iff_ne.mpr full, Bool.toNat_false]
      omega

/-- Four cascaded 161, each with `CEP` and `CET` tied to the carry of the chip
below and the common enable. -/
def hc161x4 (mr pe en : Bool) (d q : BitVec 16) : BitVec 16 :=
  let stage (i : Nat) (ce : Bool) : BitVec 4 := hc161 mr pe ce ce (nibble d i) (nibble q i)
  let tc0 := hc161Tc en (nibble q 0)
  let tc1 := hc161Tc (tc0 && en) (nibble q 1)
  let tc2 := hc161Tc (tc1 && en) (nibble q 2)
  stage 3 (tc2 && en) ++ stage 2 (tc1 && en) ++ stage 1 (tc0 && en) ++ stage 0 en

/-! ## 74HC154: 4-to-16 decoder, and 74HC157: four 2-to-1 selectors -/

/-- Active low: `Y[a]` is the only low output while `G_n` is low. -/
def hc154 (a : BitVec 4) (gN : Bool) : BitVec 16 :=
  if !gN then ~~~(1#16 <<< a.toNat) else 0xFFFF

theorem hc154_getLsbD (a k : BitVec 4) (gN : Bool) :
    (hc154 a gN).getLsbD k.toNat = (gN || a != k) := by
  revert a k gN
  decide

def hc157 (enableN select : Bool) (a b : BitVec 4) : BitVec 4 :=
  if enableN then 0 else if select then b else a

@[simp] theorem hc157_select (a b : BitVec 4) : hc157 false true a b = b := rfl

@[simp] theorem hc157_deselect (a b : BitVec 4) : hc157 false false a b = a := rfl

/-! ## 74HC377: eight flip-flops with a common enable -/

/-- `Q` after a rising clock. -/
def hc377 (enableBar : Bool) (d q : Byte) : Byte := if !enableBar then d else q

/-! ## CD4029: presettable up/down counter, and 74HC112: JK flip-flop -/

def cd4029Max (bd : Bool) : BitVec 4 := if bd then 15 else 9

/-- `Q` after a rising clock. -/
def cd4029 (pe ci bd ud : Bool) (jam q : BitVec 4) : BitVec 4 :=
  if pe then jam
  else if !ci then
    if ud then if cd4029Max bd ≤ q then 0 else q + 1
    else if q = 0 then cd4029Max bd else q - 1
  else q

/-- Active low, at the end of the count. -/
def cd4029Co (ci bd ud : Bool) (q : BitVec 4) : Bool :=
  if !ci && (ud && q == cd4029Max bd || !ud && q == 0) then false else true

/-- `Q` after a falling clock. -/
def hc112 (preN clrN j k q : Bool) : Bool :=
  if !preN then true
  else if !clrN then false
  else match j, k with
    | false, false => q
    | true, false => true
    | false, true => false
    | true, true => !q

end Chiptune
