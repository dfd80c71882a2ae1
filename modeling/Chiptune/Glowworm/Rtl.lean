import Chiptune.Glowworm.Sim

/-!
# glowworm1

`Glowworm-1/rtl/glowworm1.v`, one rising clock at a time. The parameter `PROG_AW`
is the width of the program memory's address; the other two have their defaults.
-/

namespace Chiptune.Glowworm

/-- The inputs at a rising clock. `unknown` is what `8'hxx` reads. -/
structure Pins where
  rstN : Bool
  io0I : Byte
  io1I : Byte
  unknown : Byte

structure Rtl where
  pc : BitVec 24
  a : Byte
  b : Byte
  ra : Byte
  a0 : Byte
  a1 : Byte
  a2 : Byte
  io0R : Byte
  io1R : Byte
  io0IsOe : Bool
  io1IsOe : Bool
  io0O : Byte
  io1O : Byte
  io0Oe : Bool
  io1Oe : Bool
  ir : Word
  rfRam : Byte → Byte
  dataRam : BitVec 16 → Byte

/-- Seven zero bits, a flag and the result byte. -/
def aluFunc (a b mode : Byte) : BitVec 16 :=
  let sum : BitVec 9 := a.setWidth 9 + b.setWidth 9
  let diff : BitVec 9 := a.setWidth 9 - b.setWidth 9
  match mode.toNat with
  | 0 => sum.setWidth 16
  | 1 => (BitVec.ofBool (!diff.getLsbD 8) ++ diff.setWidth 8).setWidth 16
  | 2 => (a &&& b).setWidth 16
  | 3 => (a ||| b).setWidth 16
  | 4 => (a ^^^ b).setWidth 16
  | 5 => if a = b then 1 else 0
  | 6 => (BitVec.ofBool (a == 0xFF) ++ (a + 1)).setWidth 16
  | _ => sum.setWidth 16

namespace Rtl

section
variable {progAw : Nat} (progRom : BitVec progAw → Word) (p : Pins) (r : Rtl)

def a2a1a0 : BitVec 24 := r.a2 ++ r.a1 ++ r.a0

def rfRd : Byte := r.rfRam r.ra

/-- `A2A1A0[DATA_AW-1:0]`. -/
def dataIndex : BitVec 16 := r.a2a1a0.setWidth 16

def ramRd : Byte := r.dataRam r.dataIndex

def aluRd : BitVec 16 := aluFunc r.a r.b (xx r.ir)

def srcData : Byte :=
  match (srcHi r.ir).toNat with
  | 0 => xx r.ir
  | 1 => r.aluRd.setWidth 8
  | 2 => r.rfRd
  | 3 => r.ramRd
  | 4 => p.io0I
  | 5 => p.io1I
  | _ => p.unknown

/-- The program counter after the clock. A data instruction with destination
nibble 7 steps on: the later of its two assignments wins. -/
def pcNext : BitVec 24 :=
  if op r.ir = 0x07 then r.a2a1a0
  else if op r.ir = 0x17 then if r.aluRd.getLsbD 0 = false then r.a2a1a0 else r.pc + 1
  else r.pc + 1

def isData : Bool := op r.ir != 0x07 && op r.ir != 0x17 && op r.ir != 0xFF

/-- The destination of a data instruction. -/
def write (src : Byte) : Rtl :=
  match (dstLo r.ir).toNat with
  | 0 => { r with rfRam := Function.update r.rfRam r.ra src }
  | 1 => { r with a := src }
  | 2 => { r with a0 := src }
  | 3 => { r with a1 := src }
  | 4 => { r with a2 := src }
  | 5 => { r with ra := src }
  | 6 => { r with b := src }
  | 8 => { r with dataRam := Function.update r.dataRam r.dataIndex src }
  | 9 => { r with a := src }
  | 10 => { r with io0R := src, io0IsOe := true, io0O := src, io0Oe := true }
  | 11 => { r with io1R := src, io1IsOe := true, io1O := src, io1Oe := true }
  | _ => r

def reset : Rtl :=
  { r with
    pc := 0
    a := 0
    b := 0
    ra := 0
    a0 := 0
    a1 := 0
    a2 := 0
    io0R := 0xFF
    io1R := 0xFF
    io0IsOe := false
    io1IsOe := false
    io0O := 0xFF
    io1O := 0xFF
    io0Oe := false
    io1Oe := false
    ir := 0xFFFF }

/-- The memories are addressed, and every register read, as they were before the
clock; `ir` takes the word at the program counter. -/
def clock : Rtl :=
  if p.rstN then
    { (if r.isData then r.write (r.srcData p) else r) with
      pc := r.pcNext
      ir := progRom (r.pc.setWidth progAw) }
  else r.reset

end

def run {progAw : Nat} (progRom : BitVec progAw → Word) (pins : Nat → Pins) (r : Rtl) : Nat → Rtl :=
  Clocked.run (fun p r => r.clock progRom p) pins r

end Rtl

end Chiptune.Glowworm
