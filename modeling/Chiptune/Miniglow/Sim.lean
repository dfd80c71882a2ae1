import Chiptune.Miniglow.Rtl

/-!
# miniglow_sim

`step` of `miniglow/sim/miniglow_sim.c`. The counters and the trace output that
`step` also keeps read the machine state and do not change it.
-/

namespace Chiptune.Miniglow

structure Sim (κ : Type) where
  pc : Word
  a : Byte
  b : Byte
  raL : Byte
  raH : Byte
  seg : Byte
  ioOut : Byte
  ioIn : Byte
  audioOut : Byte
  sram : BitVec 19 → Byte
  cp : κ

namespace Sim

section
variable {κ : Type} (s : Sim κ)

def makeAddr : BitVec 32 :=
  s.seg.setWidth 32 <<< 16 ||| s.raH.setWidth 32 <<< 8 ||| s.raL.setWidth 32

/-- `sram[addr & (SRAM_SIZE-1)]`. -/
def sramIndex : BitVec 19 := (s.makeAddr &&& 0x7FFFF).setWidth 19

def aluCompute (mode : Byte) : Byte := if mode = 0x01 then s.a - s.b else s.a + s.b

def commRead (idx : Byte) : Byte :=
  if idx = 0 then s.ioOut else if idx = 1 then s.ioIn else 0x01

def ra : Word := s.raH.setWidth 16 <<< 8 ||| s.raL.setWidth 16

def seg3Comm : Bool := s.seg = 3 ∧ s.raH = 0 ∧ s.raL &&& 0xF8 = 0
def seg4Cp : Bool := s.seg = 4 ∧ s.raH = 0 ∧ s.raL &&& 0xF8 = 0

/-- The `RA_L & 7` that `cp_read` and `cp_write` index the board with. -/
def cpIdx : BitVec 3 := (s.raL &&& 7).setWidth 3

variable (cp : Coprocessor κ)

/-- The source byte `db` of a data instruction. -/
def db (src xx aluOut : Byte) : Byte :=
  if src = 0 then xx
  else if src = 1 then aluOut
  else if src = 3 then
    if s.seg4Cp then cp.read s.cp s.cpIdx
    else if s.seg3Comm then s.commRead (s.raL &&& 7)
    else s.sram s.sramIndex
  else if src = 4 then s.audioOut
  else 0

/-- The destination write of a data instruction. -/
def write (dst db : Byte) : Sim κ :=
  if dst = 8 then
    if s.seg4Cp then { s with cp := cp.write s.cp s.cpIdx db }
    else if s.seg3Comm then if s.raL &&& 7 = 0 then { s with ioOut := db } else s
    else { s with sram := Function.update s.sram s.sramIndex db }
  else if dst = 1 then { s with a := db }
  else if dst = 2 then { s with raL := db }
  else if dst = 3 then { s with raH := db }
  else if dst = 6 then { s with b := db }
  else if dst = 0xA then { s with audioOut := db }
  else s

def step (rom : Rom) : Sim κ :=
  let ir := rom s.pc
  let opcode : Byte := (ir >>> 8).setWidth 8
  let xx : Byte := (ir &&& 0xFF).setWidth 8
  let src := opcode >>> 4
  let dst := opcode &&& 0xF
  if opcode = 0x0C then { s with seg := xx &&& 7, pc := s.pc + 1 }
  else if opcode = 0xFF then { s with pc := s.pc + 1 }
  else if opcode = 0x07 then { s with pc := s.ra }
  else
    let aluOut := s.aluCompute xx
    if opcode = 0x17 then
      if aluOut = 0 then { s with pc := s.ra } else { s with pc := s.pc + 1 }
    else
      let t := s.write cp dst (s.db cp src xx aluOut)
      { t with pc := t.pc + 1 }

def run (rom : Rom) : Nat → Sim κ :=
  Clocked.run (fun (_ : Unit) s => s.step cp rom) (fun _ => ()) s

end

end Sim

/-! ## The dummy coprocessor of the simulator -/

structure Dummy where
  regData : Byte
  outL : Byte

/-- `cp_read` and `cp_write`. -/
def dummy : Coprocessor Dummy where
  read s idx := if idx = 0 then 0xAA else if idx = 5 then s.outL else 0
  write s idx data :=
    if idx = 2 then { s with regData := data }
    else if idx = 3 then { s with outL := ~~~s.regData }
    else s

def Dummy.reset : Dummy := { regData := 0, outL := 0 }

end Chiptune.Miniglow
