import Chiptune.Cascade
import Chiptune.Chips
import Chiptune.Clocked

/-!
# miniglow_top

The netlist of `miniglow/rtl/miniglow_top.v` with its SRAM
`miniglow/rtl/miniglow_ram.v`, one rising clock at a time. A bus that nobody
drives (`8'hzz`) is `none`; a clock on which a register or a memory cell would
take such a level has no successor state.
-/

namespace Chiptune.Miniglow

abbrev Word := BitVec 16

/-- `PROG_ROM`. -/
abbrev Rom := Word → Word

/-- What the coprocessor board on segment 4 does on `CP_OE` and on a clock with
`CP_WE`. -/
structure Coprocessor (κ : Type) where
  read : κ → BitVec 3 → Byte
  write : κ → BitVec 3 → Byte → κ

/-- The input pins at a rising clock. `ftD` is what the FT232H drives in
download mode. -/
structure Pins where
  mode : Bool
  rstN : Bool
  ftD : Byte
  ftA : BitVec 19
  ftWeN : Bool
  ftOeN : Bool
  ftCeN : Bool

structure Top (κ : Type) where
  pc : Word
  a : Byte
  b : Byte
  raL : Byte
  raH : Byte
  audioOut : Byte
  ioOut : Byte
  seg : BitVec 3
  ioIn : Byte
  mem : BitVec 19 → Byte
  cp : κ

/-! ## Instruction decode -/

def opcode (ir : Word) : Byte := ir.extractLsb' 8 8
def xx (ir : Word) : Byte := ir.extractLsb' 0 8
def srcHi (ir : Word) : BitVec 4 := (opcode ir).extractLsb' 4 4
def dstLo (ir : Word) : BitVec 4 := (opcode ir).extractLsb' 0 4

def isJmp (ir : Word) : Bool := opcode ir == 0x07
def isJcc (ir : Word) : Bool := opcode ir == 0x17
def isNop (ir : Word) : Bool := opcode ir == 0xFF
def isSeg (ir : Word) : Bool := opcode ir == 0x0C
def isData (ir : Word) : Bool := !isJmp ir && !isJcc ir && !isNop ir && !isSeg ir

def srcIsImm (ir : Word) : Bool := srcHi ir == 0
def srcIsAlu (ir : Word) : Bool := srcHi ir == 1
def srcIsRam (ir : Word) : Bool := srcHi ir == 3
def srcIsIo0 (ir : Word) : Bool := srcHi ir == 4

def Pins.cpuRun (p : Pins) : Bool := p.mode && p.rstN

/-- Not gated by `cpu_run`, unlike the register destinations below. -/
def dstIsRamWrite (ir : Word) : Bool := isData ir && dstLo ir == 8

def dstReg (p : Pins) (ir : Word) (code : BitVec 4) : Bool :=
  isData ir && p.cpuRun && dstLo ir == code

def dstA (p : Pins) (ir : Word) : Bool := dstReg p ir 0x1
def dstB (p : Pins) (ir : Word) : Bool := dstReg p ir 0x6
def dstRal (p : Pins) (ir : Word) : Bool := dstReg p ir 0x2
def dstRah (p : Pins) (ir : Word) : Bool := dstReg p ir 0x3
def dstAud (p : Pins) (ir : Word) : Bool := dstReg p ir 0xA

/-! ## ALU: two 283 behind two 86 -/

def subMode (ir : Word) : Bool := xx ir == 0x01

section
variable {κ : Type} (cp : Coprocessor κ) (p : Pins) (ir : Word) (t : Top κ)

def Top.aluS : Byte :=
  let lo := hc86 (nibble t.b 0) (subMode ir)
  let hi := hc86 (nibble t.b 1) (subMode ir)
  let c4Lo := hc283C4 (nibble t.a 0) lo (subMode ir)
  hc283S (nibble t.a 1) hi c4Lo ++ hc283S (nibble t.a 0) lo (subMode ir)

theorem Top.aluS_eq : t.aluS ir = if subMode ir then t.a - t.b else t.a + t.b := by
  have ha := byte_nibbles_toNat t.a
  have hb := byte_nibbles_toNat t.b
  have la := t.a.isLt
  have lb := t.b.isLt
  have l0 := (nibble t.b 0).isLt
  have l1 := (nibble t.b 1).isLt
  apply BitVec.eq_of_toNat_eq
  rw [aluS, hc283_pair]
  cases subMode ir with
  | false =>
    simp only [hc86_false, Bool.toNat_false, Bool.false_eq_true, ↓reduceIte, BitVec.toNat_add]
    omega
  | true =>
    simp only [hc86_true, BitVec.toNat_not, Bool.toNat_true, ↓reduceIte, BitVec.toNat_sub]
    omega

def Top.aluZero : Bool := t.aluS ir == 0

/-! ## Memory map and data bus -/

def Top.seg4CpAccess : Bool := t.seg == 4 && t.raH == 0 && t.raL.extractLsb' 3 5 == 0
def Top.seg3CommAccess : Bool := t.seg == 3 && t.raH == 0 && t.raL.extractLsb' 3 5 == 0

def Top.dstIout : Bool :=
  p.cpuRun && dstIsRamWrite ir && t.seg3CommAccess && t.raL.extractLsb' 0 3 == 0

def Top.commReadData : Byte :=
  if t.raL.extractLsb' 0 3 == 1 then t.ioIn
  else if t.raL.extractLsb' 0 3 == 0 then t.ioOut
  else 0x01

def Top.sramAddrCpu : BitVec 19 := t.seg ++ t.raH ++ t.raL
def Top.sramAddr : BitVec 19 := if p.mode then t.sramAddrCpu else p.ftA

def Top.sramWriteCpu : Bool := dstIsRamWrite ir && !t.seg4CpAccess && !t.seg3CommAccess
def Top.sramWeN : Bool := if p.mode then !t.sramWriteCpu ir else p.ftWeN
def Top.sramCeN : Bool := if p.mode then t.seg4CpAccess || t.seg3CommAccess else p.ftCeN
def Pins.sramOeN : Bool := if p.mode then false else p.ftOeN

/-- `miniglow_ram` drives `DO` only while `WE_n` is high. -/
def Top.sramDo : Option Byte :=
  if !t.sramCeN p && !p.sramOeN && t.sramWeN p ir then some (t.mem (t.sramAddr p)) else none

def Top.cpWrite : Bool := dstIsRamWrite ir && t.seg4CpAccess
def Top.cpRead : Bool := srcIsRam ir && t.seg4CpAccess

/-- `CP_REG_DATA` as the RAM source sees it: the board drives it on `CP_OE`. When
`CP_WE` is active as well, the CPU's own driver only repeats that byte. -/
def Top.cpRegData : Option Byte :=
  if t.cpRead ir then some (cp.read t.cp (t.raL.extractLsb' 0 3)) else none

def Top.ramReadData : Option Byte :=
  if t.seg4CpAccess then t.cpRegData cp ir
  else if t.seg3CommAccess then some t.commReadData
  else t.sramDo p ir

def Top.dbOe : Option Byte :=
  if srcIsImm ir then some (xx ir)
  else if srcIsAlu ir then some (t.aluS ir)
  else if srcIsRam ir then t.ramReadData cp p ir
  else if srcIsIo0 ir then some t.audioOut
  else none

def Top.sramDi : Option Byte := if p.mode then t.dbOe cp p ir else some p.ftD

/-! ## Program counter: four cascaded 161 -/

def Top.jccTake : Bool := isJcc ir && t.aluZero ir
def Top.pcLoad : Bool := isJmp ir || t.jccTake ir
def Top.pcEn : Bool := p.cpuRun && !t.pcLoad ir
def Top.pcLoadData : Word := t.raH ++ t.raL

def Top.pcNext : Word :=
  hc161x4 p.rstN (!t.pcLoad ir) (t.pcEn p ir) t.pcLoadData t.pc

theorem Top.pcNext_eq : t.pcNext p ir =
    if !p.rstN then 0
    else if t.pcLoad ir then t.pcLoadData
    else if p.cpuRun then t.pc + 1 else t.pc := by
  rw [pcNext, Cascade.hc161x4_eq, Bool.not_not, pcEn]
  cases t.pcLoad ir with
  | true => rfl
  | false => rw [Bool.not_false, Bool.and_true]

/-! ## One clock -/

/-- `RST_n` low clears the PC chips, `SEG_r` and `IO_IN_r` at once. -/
def Top.clear : Top κ :=
  if p.rstN then t else { t with pc := 0, seg := 0, ioIn := 0 }

/-- A 374 with its `D` input switched between the data bus and its own `Q`. -/
def Top.latch (dst : Bool) (q : Byte) : Option Byte :=
  if dst then t.dbOe cp p ir else some q

def Top.memNext : Option (BitVec 19 → Byte) :=
  if !t.sramCeN p && !t.sramWeN p ir then
    (t.sramDi cp p ir).map fun di => Function.update t.mem (t.sramAddr p) di
  else some t.mem

def Top.cpNext : Option κ :=
  if t.cpWrite ir then (t.dbOe cp p ir).map (cp.write t.cp (t.raL.extractLsb' 0 3)) else some t.cp

def Top.segNext : BitVec 3 := if p.cpuRun && isSeg ir then (xx ir).extractLsb' 0 3 else t.seg

/-- The state after the clock edge, on the word `ir` that the ROM shows. -/
def Top.edge : Option (Top κ) := do
  let a ← t.latch cp p ir (dstA p ir) t.a
  let b ← t.latch cp p ir (dstB p ir) t.b
  let raL ← t.latch cp p ir (dstRal p ir) t.raL
  let raH ← t.latch cp p ir (dstRah p ir) t.raH
  let audioOut ← t.latch cp p ir (dstAud p ir) t.audioOut
  let ioOut ← t.latch cp p ir (t.dstIout p ir) t.ioOut
  let mem ← t.memNext cp p ir
  let board ← t.cpNext cp p ir
  return { t with
    pc := t.pcNext p ir, a, b, raL, raH, audioOut, ioOut, seg := t.segNext p ir, mem, cp := board }

end

/-- One rising clock of the board. -/
def Top.clock {κ : Type} (cp : Coprocessor κ) (rom : Rom) (p : Pins) (t : Top κ) :
    Option (Top κ) :=
  let s := t.clear p
  s.edge cp p (rom s.pc)

/-- A run of the board. It has no state once the level of a floating bus is stored. -/
def Top.run {κ : Type} (cp : Coprocessor κ) (rom : Rom) (pins : Nat → Pins) (t : Top κ) :
    Nat → Option (Top κ) :=
  Clocked.run (fun p s => s.bind (Top.clock cp rom p)) pins (some t)

/-- Every register and cell zero. -/
def Top.zero {κ : Type} (board : κ) : Top κ where
  pc := 0
  a := 0
  b := 0
  raL := 0
  raH := 0
  audioOut := 0
  ioOut := 0
  seg := 0
  ioIn := 0
  mem := fun _ => 0
  cp := board

/-- The pins with the host's controls idle. -/
def Pins.idle (mode rstN : Bool) : Pins where
  mode := mode
  rstN := rstN
  ftD := 0
  ftA := 0
  ftWeN := true
  ftOeN := true
  ftCeN := true

end Chiptune.Miniglow
