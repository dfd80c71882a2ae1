import Chiptune.Chips
import Chiptune.Clocked
import Chiptune.Digits

/-!
# Counters of 74HC161 in cascade

`k` chips with the clock, `MR` and `PE` in common. The lowest has both its enables on `en`,
and a `Wiring` says where the others take the `TC` of the chip below. As long as `CET` takes
it, the `TC` of a stage is the carry of all the digits up to it (`last_tc`), so the
stages are a ripple and the chips are one register (`step_eq_register`). Where `CEP` alone
takes it, the `TC` of a stage knows its own digit only, which is enough for two stages.
-/

namespace Chiptune.Cascade

/-- The enables of a stage behind the lowest. -/
inductive Wiring
  /-- `sq_top`, `psg3_top`, `psg_voice` -/
  | both
  /-- `miniglow_top` -/
  | again
  /-- `cpu39040`, `fsm_player` -/
  | cet
  /-- `wt_top`, `wt3_top`, `wt3_core` -/
  | cep
  deriving DecidableEq

/-- `CEP` for the `TC` of the stage below. -/
def Wiring.cepOf (en tc : Bool) : Wiring → Bool
  | both => tc
  | again => tc && en
  | cet => true
  | cep => tc && en

/-- `CET` for the `TC` of the stage below. -/
def Wiring.cetOf (en tc : Bool) : Wiring → Bool
  | both => tc
  | again => tc && en
  | cet => tc
  | cep => en

/-- The pins that the stages have in common, `en`, and the data, at an edge of the clock or
at a falling `MR`: the chip runs the same block for both. -/
structure Pins (k : Nat) where
  mr : Bool
  pe : Bool
  en : Bool
  d : BitVec (4 * k)

/-- `{Q[k-1], .., Q[0]}`. -/
def concat : (k : Nat) → (Nat → BitVec 4) → BitVec (4 * k)
  | 0, _ => 0
  | k + 1, f => (f k ++ concat k f).cast (by omega)

section
variable {k : Nat} (w : Wiring) (en : Bool) (q : BitVec (4 * k))

/-- `TC` of stage `i`. -/
def tc : Nat → Bool
  | 0 => hc161Tc en (nibble q 0)
  | i + 1 => hc161Tc (w.cetOf en (tc i)) (nibble q (i + 1))

def cepAt : Nat → Bool
  | 0 => en
  | i + 1 => w.cepOf en (tc w en q i)

def cetAt : Nat → Bool
  | 0 => en
  | i + 1 => w.cetOf en (tc w en q i)

def step (p : Pins k) (q : BitVec (4 * k)) : BitVec (4 * k) :=
  concat k fun i =>
    hc161 p.mr p.pe (cepAt w p.en q i) (cetAt w p.en q i) (nibble p.d i) (nibble q i)

end

/-- One register of `4 * k` bits. -/
def register {k : Nat} (p : Pins k) (q : BitVec (4 * k)) : BitVec (4 * k) :=
  if !p.mr then 0 else if !p.pe then p.d else if p.en then q + 1 else q

/-! ## Digits -/

theorem weight_eq (k : Nat) : 16 ^ k = 2 ^ (4 * k) := (Nat.pow_mul 2 4 k).symm

theorem concat_toNat (k : Nat) (f : Nat → BitVec 4) :
    (concat k f).toNat = Digits.value 16 (fun i => (f i).toNat) k := by
  induction k with
  | zero => rfl
  | succ k ih =>
    rw [concat, BitVec.toNat_cast, toNat_append, ih, ← weight_eq, Digits.value, Nat.mul_comm,
      Nat.add_comm]

theorem digits_eq {k : Nat} (q : BitVec (4 * k)) :
    Digits.value 16 (fun i => (nibble q i).toNat) k = q.toNat := by
  have same : (fun i => (nibble q i).toNat) = fun i => q.toNat / 16 ^ i % 16 :=
    funext (nibble_toNat q)
  rw [same, Digits.value_digits, weight_eq, Nat.mod_eq_of_lt q.isLt]

theorem concat_nibble {k : Nat} (q : BitVec (4 * k)) : concat k (nibble q) = q := by
  apply BitVec.eq_of_toNat_eq
  rw [concat_toNat, digits_eq]

theorem concat_zero (k : Nat) : concat k (fun _ => 0) = 0 := by
  induction k with
  | zero => rfl
  | succ k ih =>
    apply BitVec.eq_of_toNat_eq
    rw [concat, BitVec.toNat_cast, toNat_append, ih]
    simp

/-! ## The ripple -/

section
variable {k : Nat} {w : Wiring} (en : Bool) (q : BitVec (4 * k))

/-- What stage `i` is to add. -/
def carry (w : Wiring) : Nat → Bool
  | 0 => en
  | i + 1 => tc w en q i

theorem tc_en {i : Nat} (high : tc w en q i = true) : en = true := by
  induction i with
  | zero => exact (Bool.and_eq_true_iff.mp high).1
  | succ i ih =>
    have cet := (Bool.and_eq_true_iff.mp high).1
    cases w with
    | both => exact ih cet
    | again => exact (Bool.and_eq_true_iff.mp cet).2
    | cet => exact ih cet
    | cep => exact cet

theorem cetAt_eq_carry (through : w ≠ .cep) (i : Nat) : cetAt w en q i = carry en q w i := by
  cases i with
  | zero => rfl
  | succ i =>
    cases w with
    | both => rfl
    | again =>
      change (tc .again en q i && en) = tc .again en q i
      cases high : tc .again en q i with
      | false => rfl
      | true => exact tc_en en q high
    | cet => rfl
    | cep => exact absurd rfl through

/-- A stage counts by its `CET`. -/
theorem cepAt_and (through : w ≠ .cep) (i : Nat) :
    (cepAt w en q i && cetAt w en q i) = cetAt w en q i := by
  cases i with
  | zero => exact Bool.and_self en
  | succ i =>
    cases w with
    | both => exact Bool.and_self _
    | again => exact Bool.and_self _
    | cet => rfl
    | cep => exact absurd rfl through

theorem tc_eq (i : Nat) : tc w en q i = hc161Tc (cetAt w en q i) (nibble q i) := by
  cases i <;> rfl

theorem hc161_enable (mr pe cep cet : Bool) (d q : BitVec 4) :
    hc161 mr pe cep cet d q = hc161 mr pe (cep && cet) (cep && cet) d q := by
  rw [hc161, hc161, Bool.and_self]

theorem stage_split (through : w ≠ .cep) (d : BitVec (4 * k)) (i : Nat) :
    (hc161 true true (cepAt w en q i) (cetAt w en q i) (nibble d i) (nibble q i)).toNat +
        16 * (carry en q w (i + 1)).toNat =
      (nibble q i).toNat + (carry en q w i).toNat := by
  have split := hc161_count_split (carry en q w i) (nibble d i) (nibble q i)
  rw [hc161_enable, cepAt_and en q through, cetAt_eq_carry en q through]
  rwa [carry, tc_eq, cetAt_eq_carry en q through]

/-- The stages together, and the carry out of the last. -/
theorem stages_split (through : w ≠ .cep) (d : BitVec (4 * k)) :
    (step w ⟨true, true, en, d⟩ q).toNat + 16 ^ k * (carry en q w k).toNat =
      q.toNat + en.toNat := by
  have chain := Digits.ripple 16 _ (fun i => (nibble q i).toNat)
    (fun i => (carry en q w i).toNat) (stage_split en q through d) k
  rw [digits_eq] at chain
  rw [step, concat_toNat]
  exact chain

theorem step_count (through : w ≠ .cep) (d : BitVec (4 * k)) :
    step w ⟨true, true, en, d⟩ q = if en then q + 1 else q := by
  have split := stages_split en q through d
  have fits := (step w ⟨true, true, en, d⟩ q).isLt
  have held := q.isLt
  apply BitVec.eq_of_toNat_eq
  rw [weight_eq] at split
  calc (step w ⟨true, true, en, d⟩ q).toNat
      = ((step w ⟨true, true, en, d⟩ q).toNat + 2 ^ (4 * k) * (carry en q w k).toNat) %
          2 ^ (4 * k) := by rw [Nat.add_mul_mod_self_left, Nat.mod_eq_of_lt fits]
    _ = (q.toNat + en.toNat) % 2 ^ (4 * k) := by rw [split]
    _ = (if en then q + 1 else q).toNat := by
      cases en with
      | false => exact Nat.mod_eq_of_lt held
      | true => simp [BitVec.toNat_add]

end

/-- The chips are a register. -/
theorem step_eq_register {k : Nat} {w : Wiring} (through : w ≠ .cep) (p : Pins k)
    (q : BitVec (4 * k)) : step w p q = register p q := by
  obtain ⟨mr, pe, en, d⟩ := p
  cases mr with
  | false => exact concat_zero k
  | true =>
    cases pe with
    | false => exact concat_nibble d
    | true => exact step_count en q through d

/-- The last `TC` is the carry out of the register. -/
theorem last_tc {k : Nat} {w : Wiring} (through : w ≠ .cep) (en : Bool)
    (q : BitVec (4 * (k + 1))) : tc w en q k = (en && q == BitVec.allOnes _) := by
  have split := stages_split en q through 0
  have fits := (step w ⟨true, true, en, 0⟩ q).isLt
  have held := q.isLt
  have out : carry en q w (k + 1) = tc w en q k := rfl
  have full : (BitVec.allOnes (4 * (k + 1))).toNat = 2 ^ (4 * (k + 1)) - 1 :=
    BitVec.toNat_allOnes
  rw [weight_eq, out] at split
  have one_or := (tc w en q k).toNat_le
  have adds := en.toNat_le
  rw [Bool.eq_iff_iff, Bool.and_eq_true, beq_iff_eq, ← BitVec.toNat_inj, full,
    ← Bool.toNat_eq_one, ← Bool.toNat_eq_one]
  obtain low | high : (tc w en q k).toNat = 0 ∨ (tc w en q k).toNat = 1 := by omega
  · rw [low, Nat.mul_zero] at split
    omega
  · rw [high, Nat.mul_one] at split
    omega

/-! ## `CEP` alone -/

theorem concat_congr {k : Nat} {f g : Nat → BitVec 4} (same : ∀ i, i < k → f i = g i) :
    concat k f = concat k g := by
  induction k with
  | zero => rfl
  | succ k ih =>
    have low := ih fun i hi => same i (by omega)
    rw [concat, concat, same k (by omega), low]

/-- The second stage has the `TC` of the lowest behind `en` already. -/
theorem enable_second {k : Nat} (w : Wiring) (en : Bool) (q : BitVec (4 * k)) :
    (cepAt w en q 1 && cetAt w en q 1) = tc w en q 0 := by
  change (w.cepOf en (tc w en q 0) && w.cetOf en (tc w en q 0)) = tc w en q 0
  cases high : tc w en q 0 with
  | false => cases w <;> rfl
  | true =>
    rw [tc_en en q high]
    cases w <;> rfl

/-- Up to two stages any wiring will do. -/
theorem step_two {k : Nat} (two : k ≤ 2) (w : Wiring) (p : Pins k) (q : BitVec (4 * k)) :
    step w p q = register p q := by
  rw [← step_eq_register (show Wiring.both ≠ .cep by decide)]
  apply concat_congr
  intro i hi
  rw [hc161_enable, hc161_enable _ _ (cepAt .both p.en q i)]
  obtain rfl | rfl : i = 0 ∨ i = 1 := by omega
  · rfl
  · rw [enable_second, enable_second]
    rfl

/-- With a third stage it is not: this one counts while the lowest is at zero. -/
example : step .cep ⟨true, true, true, 0⟩ (0x0F0 : BitVec (4 * 3)) = 0x1F1 := by decide

theorem tc_cep {k : Nat} (en : Bool) (q : BitVec (4 * k)) (i : Nat) :
    tc .cep en q i = (en && nibble q i == 15) := by
  cases i <;> rfl

/-! ## Counters of the repository -/

theorem append_two (f : Nat → BitVec 4) : f 1 ++ f 0 = concat 2 f := by
  apply BitVec.eq_of_toNat_eq
  rw [concat_toNat]
  simp only [toNat_append, Digits.value]
  omega

theorem append_three (f : Nat → BitVec 4) : f 2 ++ f 1 ++ f 0 = concat 3 f := by
  apply BitVec.eq_of_toNat_eq
  rw [concat_toNat]
  simp only [toNat_append, Digits.value]
  omega

theorem append_four (f : Nat → BitVec 4) : f 3 ++ f 2 ++ f 1 ++ f 0 = concat 4 f := by
  apply BitVec.eq_of_toNat_eq
  rw [concat_toNat]
  simp only [toNat_append, Digits.value]
  omega

theorem append_five (f : Nat → BitVec 4) :
    f 4 ++ (f 3 ++ f 2 ++ f 1 ++ f 0) = concat 5 f := by
  apply BitVec.eq_of_toNat_eq
  rw [concat_toNat]
  simp only [toNat_append, Digits.value]
  omega

/-- `miniglow_top`, and with `en` high `sq_top`. -/
theorem hc161x4_eq_step (mr pe en : Bool) (d q : BitVec 16) :
    hc161x4 mr pe en d q = step (k := 4) .again ⟨mr, pe, en, d⟩ q :=
  append_four fun i => hc161 mr pe (cepAt (k := 4) .again en q i) (cetAt (k := 4) .again en q i)
    (nibble d i) (nibble q i)

theorem hc161x4_eq (mr pe en : Bool) (d q : BitVec 16) :
    hc161x4 mr pe en d q = if !mr then 0 else if !pe then d else if en then q + 1 else q := by
  rw [hc161x4_eq_step]
  exact step_eq_register (by decide) _ _

/-- The address counter of `fsm_player`, at an edge of its clock or of its reset. -/
def playerAddr (rstN : Bool) (addr : BitVec 20) : BitVec 20 :=
  step (k := 5) .cet ⟨rstN, true, true, 0⟩ addr

/-! ## Runs -/

section
open Clocked

variable {k : Nat} (inputs : Nat → Pins (k + 1)) (q : BitVec (4 * (k + 1))) (n : Nat)

/-- **The cascade is a counter.** -/
theorem cascade_register :
    (∀ w ≠ .cep, run (step w) inputs q n = run register inputs q n ∧
      ∀ en, tc w en (run (step w) inputs q n) k =
        (en && run (step w) inputs q n == BitVec.allOnes _)) ∧
    (k ≤ 1 → run (step .cep) inputs q n = run register inputs q n) ∧
    ∀ en, tc .cep en (run (step .cep) inputs q n) k =
      (en && nibble (run (step .cep) inputs q n) k == 15) := by
  refine ⟨?_, ?_, ?_⟩
  · intro w through
    have steps : step (k := k + 1) w = register := by
      funext p q
      exact step_eq_register through p q
    exact ⟨by rw [steps], fun en => last_tc through en _⟩
  · intro two
    have steps : step (k := k + 1) .cep = register := by
      funext p q
      exact step_two (by omega) .cep p q
    rw [steps]
  · exact fun en => tc_cep en _ k

theorem register_count :
    run register (fun _ => ⟨true, true, true, 0⟩) q n = q + BitVec.ofNat _ n := by
  induction n with
  | zero => exact (BitVec.add_zero q).symm
  | succ n ih =>
    rw [run_succ, ih, BitVec.ofNat_add, ← BitVec.add_assoc]
    rfl

end

/-- With the reset high `fsm_player` goes through the ROM in order, over and over. -/
theorem playerAddr_run (n : Nat) :
    Clocked.run playerAddr (fun _ => true) 0 n = BitVec.ofNat 20 n := by
  induction n with
  | zero => rfl
  | succ n ih =>
    have next : playerAddr true (BitVec.ofNat 20 n) = BitVec.ofNat 20 n + 1 :=
      step_eq_register (by decide) _ _
    rw [Clocked.run_succ, ih, next, BitVec.ofNat_add]
    rfl

/-- `wt_top`: after 240 clocks the `TC` of the upper counter is high. -/
theorem cep_tc_early : ¬ ∀ (w : Wiring) (k : Nat) (inputs : Nat → Pins (k + 1)) (n : Nat),
    Clocked.run (step w) inputs 0 n = Clocked.run register inputs 0 n ∧
      ∀ en, tc w en (Clocked.run (step w) inputs 0 n) k =
        (en && Clocked.run (step w) inputs 0 n == BitVec.allOnes _) := by
  intro claimed
  have early := claimed .cep 1 (fun _ => ⟨true, true, true, 0⟩) 240
  rw [early.1, register_count] at early
  exact absurd (early.2 true) (by decide)

end Chiptune.Cascade
