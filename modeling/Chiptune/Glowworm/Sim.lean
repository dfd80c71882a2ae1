import Chiptune.Chips
import Chiptune.Clocked

/-!
# glowworm_sim

The execution loop of `Glowworm-1/sim/glowworm_sim.c`. The statistics, the trace
and the marks it prints read the machine state and do not change it.
-/

namespace Chiptune.Glowworm

abbrev Word := BitVec 16

/-! ## Fields of an instruction -/

def op (ir : Word) : Byte := ir.extractLsb' 8 8
def xx (ir : Word) : Byte := ir.setWidth 8
def srcHi (ir : Word) : BitVec 4 := (op ir).extractLsb' 4 4
def dstLo (ir : Word) : BitVec 4 := (op ir).extractLsb' 0 4

/-- Opcode byte in front. -/
def word (o x : Byte) : Word := o ++ x

@[simp] theorem op_word (o x : Byte) : op (word o x) = o := append_high o x

@[simp] theorem xx_word (o x : Byte) : xx (word o x) = x := append_low o x

@[simp] theorem srcHi_word (o x : Byte) : srcHi (word o x) = o.extractLsb' 4 4 := by
  rw [srcHi, op_word]

@[simp] theorem dstLo_word (o x : Byte) : dstLo (word o x) = o.extractLsb' 0 4 := by
  rw [dstLo, op_word]

/-- A program as the simulator's bytes. -/
def romImage (prog : List Word) (addr : BitVec 20) : Byte :=
  let ir := prog.getD (addr.toNat / 2) 0
  if addr.toNat % 2 = 0 then op ir else xx ir

/-! ## `alu_compute` -/

/-- `(carry << 8) | r8` of a sum. -/
def sum16 (sum : Nat) : BitVec 16 :=
  (BitVec.ofBool (sum.testBit 8) ++ BitVec.ofNat 8 sum).setWidth 16

/-- `(carry << 8) | r8` of a difference. -/
def diff16 (diff : Int) : BitVec 16 :=
  (BitVec.ofBool (decide (diff < 0)) ++ BitVec.ofInt 8 diff).setWidth 16

theorem sum16_byte (sum : Nat) : (sum16 sum).setWidth 8 = BitVec.ofNat 8 sum := by
  rw [sum16, BitVec.setWidth_setWidth_of_le _ (by decide)]
  exact append_low _ _

theorem sum16_carry (sum : Nat) : (sum16 sum).getLsbD 8 = sum.testBit 8 := by
  rw [sum16, BitVec.getLsbD_setWidth, BitVec.getLsbD_append]
  simp

theorem diff16_byte (diff : Int) : (diff16 diff).setWidth 8 = BitVec.ofInt 8 diff := by
  rw [diff16, BitVec.setWidth_setWidth_of_le _ (by decide)]
  exact append_low _ _

/-- `aluOut` is the latch that the carry modes take bit 8 of. The flag `bit0` that
some modes compute is not part of the result. -/
def aluCompute (aluOut : BitVec 16) (a b mode : Byte) : BitVec 16 :=
  let carryIn := (aluOut.getLsbD 8).toNat
  match mode.toNat with
  | 0 => sum16 (a.toNat + b.toNat)
  | 1 => diff16 (a.toNat - b.toNat)
  | 2 => sum16 (a.toNat + b.toNat + carryIn)
  | 3 => diff16 (a.toNat - b.toNat - carryIn)
  | 4 => if a ≠ b then 1 else 0
  | 5 => (a &&& b).setWidth 16
  | 6 => (a ||| b).setWidth 16
  | 7 => (~~~a).setWidth 16
  | 8 => (a ^^^ b).setWidth 16
  | 9 => (a &&& 0xF0 ||| a <<< 1 &&& 0x0F).setWidth 16
  | 10 => (b >>> 1 ||| b &&& 0x80).setWidth 16
  | 11 => (a >>> 1 ||| a &&& 0xF0).setWidth 16
  | 12 => (a >>> 1).setWidth 16
  | 13 => (a <<< 1).setWidth 16
  | 14 => (b <<< 1).setWidth 16
  | 15 => (a * b).setWidth 16
  | 16 => (a.setWidth 16 * b.setWidth 16) >>> 8
  | 17 => (if b = 0 then 0xFF else a / b).setWidth 16
  | 18 => (if b = 0 then a else a % b).setWidth 16
  | 19 => sum16 (a.toNat + 1)
  | 20 => diff16 (a.toNat - 1)
  | 21 => sum16 (a.toNat + 1 + carryIn)
  | 22 => diff16 (a.toNat - 1 - carryIn)
  | 23 => a.setWidth 16
  | 24 => b.setWidth 16
  | _ => a.setWidth 16

/-! ## State and execution -/

structure Sim where
  rf : Byte → Byte
  dataRam : BitVec 16 → Byte
  pc : BitVec 32
  a : Byte
  b : Byte
  ra : Byte
  a0 : Byte
  a1 : Byte
  a2 : Byte
  io0 : Byte
  io1 : Byte
  io0Oe : Bool
  io1Oe : Bool
  aluOut : BitVec 16

namespace Sim

/-- The state `main` starts in. -/
def init : Sim where
  rf := fun _ => 0
  dataRam := fun _ => 0
  pc := 0
  a := 0
  b := 0
  ra := 0
  a0 := 0
  a1 := 0
  a2 := 0
  io0 := 0xFF
  io1 := 0xFF
  io0Oe := false
  io1Oe := false
  aluOut := 0

section
variable (rom : BitVec 20 → Byte) (ir : Word) (s : Sim)

/-- `ROM_SIZE` bytes; beyond them every word is a NOP. -/
def fetch (addr : BitVec 32) : Word :=
  if 2 ^ 20 ≤ (addr + 1).toNat then 0xFFFF
  else rom (addr.setWidth 20) ++ rom ((addr + 1).setWidth 20)

def alu (mode : Byte) : BitVec 16 := aluCompute s.aluOut s.a s.b mode

def a2a1a0 : BitVec 24 := s.a2 ++ s.a1 ++ s.a0

/-- `& (DATA_SIZE-1)`. -/
def dataIndex : BitVec 16 := s.a2a1a0.setWidth 16

/-- `A2A1A0` is a word address and the program counter a byte address. -/
def jumpTarget : BitVec 32 := s.a2a1a0.setWidth 32 * 2

def src : Byte :=
  match (srcHi ir).toNat with
  | 0 => xx ir
  | 1 => (s.alu (xx ir)).setWidth 8
  | 2 => s.rf s.ra
  | 3 => s.dataRam s.dataIndex
  | 4 => s.io0
  | 5 => s.io1
  | _ => 0

def srcValid : Bool := srcHi ir ≤ 5

/-- The ALU as a source latches its output. -/
def latch : Sim := if srcHi ir = 1 then { s with aluOut := s.alu (xx ir) } else s

def write (src : Byte) : Sim :=
  match (dstLo ir).toNat with
  | 0 => { s with rf := Function.update s.rf s.ra src }
  | 1 => { s with a := src }
  | 2 => { s with a0 := src }
  | 3 => { s with a1 := src }
  | 4 => { s with a2 := src }
  | 5 => { s with ra := src }
  | 6 => { s with b := src }
  | 8 => { s with dataRam := Function.update s.dataRam s.dataIndex src }
  | 9 => { s with
      aluOut := s.alu (xx ir)
      rf := Function.update s.rf s.ra ((s.alu (xx ir)).setWidth 8) }
  | 10 => { s with io0 := src, io0Oe := true }
  | 11 => { s with io1 := src, io1Oe := true }
  | _ => s

/-- What the loop body does with the fetched word. A conditional jump has latched
its ALU output as a source before it computes it. -/
def exec : Sim :=
  let s' := s.latch ir
  if op ir = 0x07 then { s' with pc := s.jumpTarget }
  else if op ir = 0x17 then
    { s' with
      aluOut := s'.alu (xx ir)
      pc := if (s'.alu (xx ir)).getLsbD 0 then s.pc + 2 else s.jumpTarget }
  else if op ir = 0xFF then { s' with pc := s.pc + 2 }
  else if srcValid ir then { s'.write ir (s.src ir) with pc := s.pc + 2 }
  else { s' with pc := s.pc + 2 }

def fetched : Word := fetch rom s.pc

def step : Sim := s.exec (s.fetched rom)

def run : Nat → Sim := Clocked.run (fun _ s => s.step rom) (fun _ => ()) s

/-- The byte that ends a run without `-mark`. -/
def passed : Bool := s.io0Oe && s.io0 == 0x55

end

/-- The loop of `main`: the final state and `insn_count`. -/
def loop (rom : BitVec 20 → Byte) (markMode : Bool) : Nat → Sim → Sim × Nat
  | 0, s => (s, 0)
  | maxCycles + 1, s =>
    let s := s.step rom
    if !markMode && s.passed then (s, 1)
    else
      let r := loop rom markMode maxCycles s
      (r.1, r.2 + 1)

theorem run_succ' (rom : BitVec 20 → Byte) (s : Sim) (n : Nat) :
    s.run rom (n + 1) = (s.step rom).run rom n := by
  rw [run, run, Nat.add_comm, Clocked.run_add]
  rfl

theorem run_succ (rom : BitVec 20 → Byte) (s : Sim) (n : Nat) :
    s.run rom (n + 1) = (s.run rom n).step rom := rfl

theorem run_add (rom : BitVec 20 → Byte) (s : Sim) (m n : Nat) :
    s.run rom (m + n) = (s.run rom m).run rom n := Clocked.run_add _ _ _ _ _

/-- `main` ends in the state after the instructions it counts: all `max_cycles` of
them, or without `-mark` those up to the one that passes. -/
theorem loop_run (rom : BitVec 20 → Byte) (markMode : Bool) (maxCycles : Nat) (s : Sim) :
    (loop rom markMode maxCycles s).1 = s.run rom (loop rom markMode maxCycles s).2 ∧
      ((loop rom markMode maxCycles s).2 = maxCycles ∨
        (loop rom markMode maxCycles s).2 ≤ maxCycles ∧ markMode = false ∧
          (loop rom markMode maxCycles s).1.passed) := by
  induction maxCycles generalizing s with
  | zero => exact ⟨rfl, .inl rfl⟩
  | succ n ih =>
    by_cases stop : (!markMode && (s.step rom).passed) = true
    · simp only [loop, stop, ↓reduceIte]
      rw [Bool.and_eq_true, Bool.not_eq_true'] at stop
      exact ⟨rfl, .inr ⟨by omega, stop.1, stop.2⟩⟩
    · obtain ⟨state, count⟩ := ih (s.step rom)
      simp only [loop, stop, Bool.false_eq_true, ↓reduceIte]
      constructor
      · rw [run_succ']
        exact state
      · obtain all | ⟨le, mark, passed⟩ := count
        · exact .inl (congrArg (· + 1) all)
        · exact .inr ⟨Nat.succ_le_succ le, mark, passed⟩

end Sim

end Chiptune.Glowworm
