import Chiptune.Glowworm.Code

/-!
# The instruction emitter of the compiler

`compiler/glow.cpp` emits one assignment at a time. It remembers what it has put into the
address registers, and with `optimize` it leaves out what is there already. Labels and
jumps make it forget.
-/

namespace Chiptune.Glowworm

/-! ## Assignments -/

inductive AddrReg
  | a0 | a1 | a2
  deriving DecidableEq

inductive Dst
  | rf | a | addr (k : AddrReg) | ra | b | ram | alu | io0 | io1
  deriving DecidableEq

inductive Src
  | imm | alu | rf | ram | io0 | io1
  deriving DecidableEq

/-- The low half of the opcode. -/
def Dst.code : Dst → BitVec 4
  | rf => 0
  | a => 1
  | addr .a0 => 2
  | addr .a1 => 3
  | addr .a2 => 4
  | ra => 5
  | b => 6
  | ram => 8
  | alu => 9
  | io0 => 10
  | io1 => 11

/-- The high half. -/
def Src.code : Src → BitVec 4
  | imm => 0
  | alu => 1
  | rf => 2
  | ram => 3
  | io0 => 4
  | io1 => 5

/-- `dst = src`, with a number, an ALU mode, or `FF`. -/
structure Prim where
  dst : Dst
  src : Src
  x : Byte
  deriving DecidableEq

def Prim.op (p : Prim) : Byte := p.src.code ++ p.dst.code

def Prim.word (p : Prim) : Word := Glowworm.word p.op p.x

/-- The destinations that the instruction before must not have: `UP_IS_.._GEN_NOP`. -/
def Prim.hazards (p : Prim) : List Dst :=
  match p.dst, p.src with
  | .rf, .alu => [.a, .b, .rf]
  | .ram, .alu => [.a, .b]
  | .addr _, .ram => [.addr .a0, .addr .a1, .addr .a2]
  | .alu, .ram => [.a, .b, .addr .a0, .addr .a1, .addr .a2]
  | .alu, _ => [.a, .b]
  | dst, _ => [dst]

/-! ## What the emitter remembers -/

/-- `REG_X`, a number, or `REG_F` and a register of the file. -/
inductive Known
  | x
  | num (n : Byte)
  | rf (r : Byte)
  deriving DecidableEq

/-- `CPU_O`. -/
structure CpuO where
  ra : Option Byte
  addr : AddrReg → Known

/-- `reset_cpu_o`. -/
def CpuO.reset : CpuO where
  ra := none
  addr := fun _ => .x

/-- A copy of a register of the file is one no more when it may be the one written. -/
def Known.written (ra : Option Byte) (k : Known) : Known :=
  match ra with
  | none => .x
  | some r => if k = .rf r then .x else k

/-- What becomes known of an address register. -/
def CpuO.assigned (c : CpuO) (p : Prim) : Known :=
  match p.src, c.ra with
  | .imm, _ => .num p.x
  | .rf, some r => .rf r
  | _, _ => .x

def CpuO.assign (c : CpuO) (p : Prim) : CpuO :=
  match p.dst with
  | .rf => { c with addr := fun k => (c.addr k).written c.ra }
  | .addr k => { c with addr := Function.update c.addr k (c.assigned p) }
  | .ra => { c with ra := if p.src = .imm then some p.x else none }
  | _ => c

/-! ## The emitter -/

/-- Half of `ROM_SIZE`. -/
def romWords : Nat := 524288

structure Gen where
  rom : List Word
  cpMax : Nat
  cpu : CpuO

namespace Gen

variable (g : Gen)

/-- `rom_cp`. -/
def cp : Nat := 2 * g.rom.length

/-- `ROM_ADD_INS`. What does not fit is counted only. -/
def romAddIns (ir : Word) : Gen :=
  if g.cp < 2 * romWords then { g with rom := g.rom ++ [ir], cpMax := g.cp + 2 }
  else { g with cpMax := g.cpMax + 2 }

/-- Whether the last instruction has this destination. -/
def upIs (d : Dst) : Bool := g.rom.getLast?.map dstLo == some d.code

def genNop (d : Dst) : Gen := if g.upIs d then g.romAddIns nop else g

def prim (p : Prim) : Gen :=
  let h := p.hazards.foldl genNop g
  { h.romAddIns p.word with cpu := h.cpu.assign p }

end Gen

/-- An assignment, or one that may be left out: of a number to RA or to an address register,
or of a register of the file to an address register. -/
inductive Asgn
  | prim (p : Prim)
  | raO (r : Byte)
  | addrO (k : AddrReg) (n : Byte)
  | addrRfO (k : AddrReg) (r : Byte)
  deriving DecidableEq

namespace Gen

section
variable (optimize : Bool) (g : Gen)

def raO (r : Byte) : Gen :=
  if !optimize || g.cpu.ra ≠ some r then g.prim ⟨.ra, .imm, r⟩ else g

def asgn : Asgn → Gen
  | .prim p => g.prim p
  | .raO r => g.raO optimize r
  | .addrO k n =>
    if !optimize || g.cpu.addr k ≠ .num n then g.prim ⟨.addr k, .imm, n⟩ else g
  | .addrRfO k r =>
    if !optimize || g.cpu.addr k ≠ .rf r then
      (g.raO optimize r).prim ⟨.addr k, .rf, 0xFF⟩
    else g

end

end Gen

/-! ## The assignments of the source -/

section
variable (x r : Byte) (addr : BitVec 24)

def raAsgnImm : Asgn := .prim ⟨.ra, .imm, x⟩

/-- `A2A1A0_ASGN_IMMNUM`. -/
def a2a1a0AsgnImm : List Asgn :=
  [.prim ⟨.addr .a2, .imm, addr.extractLsb' 16 8⟩, .prim ⟨.addr .a1, .imm, addr.extractLsb' 8 8⟩,
    .prim ⟨.addr .a0, .imm, addr.setWidth 8⟩]

/-- `A2A1A0_ASGN_IMMNUM_O`. -/
def a2a1a0AsgnImmO : List Asgn :=
  [.addrO .a2 (addr.extractLsb' 16 8), .addrO .a1 (addr.extractLsb' 8 8),
    .addrO .a0 (addr.setWidth 8)]

end

/-! ## Programs -/

/-- A piece of a function: `LABEL`, `PC_ASGN_IMMNUM` and `IFALU_PC_ASGN_IMMNUM` name labels. -/
inductive Item
  | asgn (a : Asgn)
  | label (l : Nat)
  | jump (l : Nat)
  | ifalu (m : Byte) (l : Nat)
  deriving DecidableEq

/-- The emitter, the word address of each label so far, and the words to be redirected. -/
structure Out where
  gen : Gen
  base : Nat → Option Nat
  redirect : List (Nat × Nat)

namespace Out

variable (optimize : Bool) (o : Out)

/-- `insertaddr`, the three assignments of an address still unknown, and a jump. -/
def jumpTo (ir : Word) (l : Nat) : Out :=
  let g := (a2a1a0AsgnImm 0).foldl (Gen.asgn optimize) o.gen
  { o with
    gen := { g.romAddIns ir with cpu := .reset }
    redirect := (o.gen.rom.length, l) :: o.redirect }

def item : Item → Out
  | .asgn a => { o with gen := o.gen.asgn optimize a }
  | .label l => { o with
      gen := { o.gen with cpu := .reset }
      base := Function.update o.base l (some o.gen.rom.length) }
  | .jump l => o.jumpTo optimize (word 0x07 0xFE) l
  | .ifalu m l => o.jumpTo optimize (word 0x17 m) l

def items (is : List Item) : Out := is.foldl (item optimize) o

/-- The bytes of a label's address go into the three words from `p` on. -/
def redirectOne (base : Nat → Option Nat) (rom : List Word) (at_label : Nat × Nat) : List Word :=
  match base at_label.2 with
  | none => rom
  | some a =>
    let set (p : Nat) (n : Nat) (rom : List Word) : List Word :=
      rom.modify p fun ir => word (op ir) (BitVec.ofNat 8 n)
    set at_label.1 (a / 2 ^ 16) (set (at_label.1 + 1) (a / 2 ^ 8) (set (at_label.1 + 2) a rom))

/-- `one_c_file_redirect_addr`. -/
def linked : List Word := o.redirect.foldl (redirectOne o.base) o.gen.rom

end Out

end Chiptune.Glowworm
