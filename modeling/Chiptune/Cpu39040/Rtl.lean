import Mathlib.Logic.Function.Basic
import Chiptune.Cascade
import Chiptune.Chips
import Chiptune.Clocked

/-!
# The 39040 CPU, clock by clock

`39040cpu/rtl/cpu39040.v` with the RAM of `rtl/hc62256.v` and the ALU ROM of
`39040cpu/gen_roms.py`. A clock executes the microcode word at the program counter.
The RAM stores on the falling edge of `WE_n`, 55 ns after the word's control bits
appear, so the state keeps the level that the word before left on that line.
-/

namespace Chiptune.Cpu39040

/-- A word of the three microcode ROMs. -/
structure Word where
  uctlLo : Byte
  uctlHi : Byte
  udata : Byte
  deriving DecidableEq

namespace Word
variable (w : Word)

def acDisN : Bool := w.uctlLo.getLsbD 0
def aluOp : BitVec 3 := w.uctlLo.extractLsb' 1 3
def busSel : Bool := w.uctlLo.getLsbD 4
def ramWeN : Bool := w.uctlLo.getLsbD 5
def memSel : Bool := w.uctlLo.getLsbD 6
def toXN : Bool := w.uctlLo.getLsbD 7
def jmpDisN : Bool := w.uctlHi.getLsbD 0
def toYN : Bool := w.uctlHi.getLsbD 1
def toOutN : Bool := w.uctlHi.getLsbD 2
def condEn : Bool := w.uctlHi.getLsbD 3
def condSel : Bool := w.uctlHi.getLsbD 4

end Word

/-- The contents of `rom/alu.hex`. -/
def aluRom (addr : BitVec 19) : Byte :=
  let d : Byte := addr.setWidth 8
  let acc : Byte := addr.extractLsb' 8 8
  let op : BitVec 3 := addr.extractLsb' 16 3
  if op = 1 then acc + d
  else if op = 2 then acc - d
  else if op = 3 then acc
  else d

structure Cpu where
  pc : BitVec 20
  ac : Byte
  x : Byte
  y : Byte
  out : Byte
  mem : BitVec 15 → Byte
  /-- `WE_n` of the RAM before the present word's control bits appear. -/
  weN : Bool

/-- The two 157 that select a byte. -/
def byteMux (select : Bool) (a b : Byte) : Byte :=
  hc157 false select (nibble a 1) (nibble b 1) ++ hc157 false select (nibble a 0) (nibble b 0)

@[simp] theorem byteMux_eq (select : Bool) (a b : Byte) :
    byteMux select a b = if select then b else a := by
  cases select <;> exact byte_nibbles _

namespace Cpu
variable (w : Word) (unknown : Byte) (c : Cpu)

/-- The two HC32 and the HC04: the OR tree over the accumulator, inverted. -/
def zeroFlag : Bool :=
  let orN0 := c.ac.getLsbD 0 || c.ac.getLsbD 1
  let orN1 := c.ac.getLsbD 2 || c.ac.getLsbD 3
  let orN2 := c.ac.getLsbD 4 || c.ac.getLsbD 5
  let orN3 := c.ac.getLsbD 6 || c.ac.getLsbD 7
  let orN4 := orN0 || orN1
  let orN5 := orN2 || orN3
  let anyBitSet := orN4 || orN5
  !anyBitSet

def condTaken : Bool :=
  let tUncond := w.condEn && !w.condSel
  let tZero := w.condEn && c.zeroFlag
  !w.jmpDisN && (tUncond || tZero)

/-- `{4'b0, 8'b0, y_reg, udata}` on the inputs of the five counters. -/
def jmpAddr : BitVec 20 := (c.y ++ w.udata).setWidth 20

/-- Five 161, `CEP` high and `CET` tied to the carry of the chip below. -/
def pcNext : BitVec 20 :=
  let peN := !c.condTaken w
  let stage (i : Nat) (cet : Bool) : BitVec 4 :=
    hc161 true peN true cet (nibble (c.jmpAddr w) i) (nibble c.pc i)
  let tc0 := hc161Tc true (nibble c.pc 0)
  let tc1 := hc161Tc tc0 (nibble c.pc 1)
  let tc2 := hc161Tc tc1 (nibble c.pc 2)
  let tc3 := hc161Tc tc2 (nibble c.pc 3)
  stage 4 tc3 ++ (stage 3 tc2 ++ stage 2 tc1 ++ stage 1 tc0 ++ stage 0 true)

def memAddr : BitVec 15 := (byteMux w.memSel w.udata c.x).setWidth 15

/-- The bus behind its selector; `none` is the RAM's output while `WE_n` is low,
high impedance. -/
def aluD : Option Byte :=
  if w.busSel && !w.ramWeN then none
  else some (byteMux w.busSel w.udata (c.mem (c.memAddr w)))

/-- A ROM whose address floats shows an unknown byte. -/
def aluResult : Byte :=
  match c.aluD w with
  | some d => aluRom (w.aluOp ++ c.ac ++ d)
  | none => unknown

/-- The RAM stores when `WE_n` falls, with the new word's address. -/
def memNext : BitVec 15 → Byte :=
  if c.weN && !w.ramWeN then Function.update c.mem (c.memAddr w) c.ac else c.mem

/-- One clock with the word `w` on the microcode lines. -/
def exec : Cpu where
  pc := c.pcNext w
  ac := hc377 w.acDisN (c.aluResult w unknown) c.ac
  x := hc377 w.toXN (c.aluResult w unknown) c.x
  y := hc377 w.toYN (c.aluResult w unknown) c.y
  out := hc377 w.toOutN (c.aluResult w unknown) c.out
  mem := c.memNext w
  weN := w.ramWeN

end Cpu

section
variable (rom : BitVec 19 → Word)

/-- Address lines 0 to 18 of the ROMs are the low bits of the program counter. -/
def Cpu.word (c : Cpu) : Word := rom (c.pc.setWidth 19)

def Cpu.step (unknown : Byte) (c : Cpu) : Cpu := c.exec (c.word rom) unknown

/-- The state after `n` clocks. -/
def Cpu.run (unknown : Nat → Byte) (c : Cpu) (n : Nat) : Cpu :=
  Clocked.run (Cpu.step rom) unknown c n

end

/-! ## The parts -/

theorem aluRom_append (op : BitVec 3) (acc d : Byte) : aluRom (op ++ acc ++ d) =
    if op = 1 then acc + d else if op = 2 then acc - d else if op = 3 then acc else d := by
  have hd := d.isLt
  have ha := acc.isLt
  have ho := op.isLt
  have low : (op ++ acc ++ d).setWidth 8 = d := append_low _ _
  have mid : (op ++ acc ++ d).extractLsb' 8 8 = acc := by
    apply BitVec.eq_of_toNat_eq
    simp only [BitVec.extractLsb'_toNat, toNat_append, Nat.shiftRight_eq_div_pow]
    omega
  have top : (op ++ acc ++ d).extractLsb' 16 3 = op := by
    apply BitVec.eq_of_toNat_eq
    simp only [BitVec.extractLsb'_toNat, toNat_append, Nat.shiftRight_eq_div_pow]
    omega
  simp only [aluRom, low, mid, top]

namespace Cpu
variable (w : Word) (unknown : Byte) (c : Cpu)

theorem zeroFlag_eq : c.zeroFlag = (c.ac == 0) := by
  have every : ∀ ac : Byte, (!(ac.getLsbD 0 || ac.getLsbD 1 || (ac.getLsbD 2 || ac.getLsbD 3) ||
      (ac.getLsbD 4 || ac.getLsbD 5 || (ac.getLsbD 6 || ac.getLsbD 7)))) = (ac == 0) := by
    decide
  exact every c.ac

theorem pcNext_eq_step : c.pcNext w =
    Cascade.step (k := 5) .cet ⟨true, !c.condTaken w, true, c.jmpAddr w⟩ c.pc :=
  Cascade.append_five fun i => hc161 true (!c.condTaken w)
    (Cascade.cepAt (k := 5) .cet true c.pc i) (Cascade.cetAt (k := 5) .cet true c.pc i)
    (nibble (c.jmpAddr w) i) (nibble c.pc i)

theorem pcNext_eq : c.pcNext w = if c.condTaken w then c.jmpAddr w else c.pc + 1 := by
  have counter := @Cascade.step_eq_register 5 .cet (by decide)
    ⟨true, !c.condTaken w, true, c.jmpAddr w⟩ c.pc
  rw [pcNext_eq_step, counter, Cascade.register, Bool.not_not]
  rfl

theorem memAddr_eq : c.memAddr w = (if w.memSel then c.x else w.udata).setWidth 15 := by
  rw [memAddr, byteMux_eq]

end Cpu

end Chiptune.Cpu39040
