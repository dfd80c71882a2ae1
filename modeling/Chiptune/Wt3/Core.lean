import Chiptune.Chips

/-!
# wt3_core

`rtl/wt3_core.v` with `rtl/wt3_spfm_bus.v` and the microcode of
`rom/gen_wt3_microcode.py`. The engine and the host have a clock each, so the
machine moves by events: a rising `STEP_CLK`, a rising `SPFM_CLK`, or new levels
on the host's pins. The chips that listen to an edge of a decoded signal (the RAM
on `WE_n`, the DAC register on `latch_dac`) compare that signal before and after
the event. The chips have no delays here: every event finds the levels settled. For a host
that leaves the chip deselected `delayed_refines` says that this is right.
-/

namespace Chiptune.Wt3

/-- 39SF040. -/
abbrev Rom := BitVec 19 → Byte

/-- 62256. -/
abbrev Ram := BitVec 15 → Byte

/-! ## Microcode -/

def addrAccLo : Nat := 0
def addrAccHi : Nat := 1
def addrStepLo : Nat := 2
def addrStepHi : Nat := 3
def addrVolume : Nat := 4

def makeUcode (ramSubAddr ramOeN ramWeN : Nat) : Nat :=
  (ramOeN &&& 1) <<< 7 ||| (ramWeN &&& 1) <<< 6 ||| (ramSubAddr &&& 0x07)

/-- Ten reads, the two write-backs with a step between them, the DAC step and two
empty ones. -/
def makeChannelSteps : List Nat :=
  [makeUcode addrAccLo 0 1, makeUcode addrAccLo 0 1,
    makeUcode addrAccHi 0 1, makeUcode addrAccHi 0 1,
    makeUcode addrStepLo 0 1, makeUcode addrStepLo 0 1,
    makeUcode addrStepHi 0 1, makeUcode addrStepHi 0 1,
    makeUcode addrVolume 0 1, makeUcode addrVolume 0 1,
    makeUcode addrAccLo 1 0, makeUcode 0 1 1, makeUcode addrAccHi 1 0,
    makeUcode 0 1 1, makeUcode 0 1 1, makeUcode 0 1 1]

/-- The ROM image, four channels of sixteen steps. -/
def microcode (step : BitVec 6) : Byte :=
  BitVec.ofNat 8 (((List.range 4).flatMap fun _ => makeChannelSteps).getD step.toNat 0)

/-! ## SPFM bus -/

structure Pins where
  d : Byte
  a0 : Bool
  csN : Bool
  wrN : Bool
  rstN : Bool

def Pins.le (p : Pins) : Bool := !(p.csN || p.wrN)
def Pins.writeActive (p : Pins) : Bool := !p.csN && !p.wrN && p.rstN
def Pins.addrWrComb (p : Pins) : Bool := p.writeActive && !p.a0
def Pins.dataWrComb (p : Pins) : Bool := p.writeActive && p.a0

/-- The 373, the 174 and the address register. -/
structure Bus where
  pins : Pins
  dLatch : Byte
  addrQ1 : Bool
  addrQ2 : Bool
  addrQ3 : Bool
  dataQ1 : Bool
  dataQ2 : Bool
  regAddr : Byte

def Bus.dataWrPulseN (b : Bus) : Bool := !b.dataQ2

/-- A rising `SPFM_CLK`. The address register takes its byte at once: its 15 ns are in `Port` and
in `SpfmRam`. -/
def Bus.clock (b : Bus) : Bus :=
  { b with
    addrQ1 := b.pins.rstN && b.pins.addrWrComb
    addrQ2 := b.pins.rstN && b.addrQ1
    addrQ3 := b.pins.rstN && b.addrQ2
    dataQ1 := b.pins.rstN && b.pins.dataWrComb
    dataQ2 := b.pins.rstN && b.dataQ1
    regAddr := if b.addrQ3 then b.dLatch else b.regAddr }

/-- New levels on the pins: the 373 is transparent while `LE` is high, and a falling
reset clears the 174. -/
def Bus.drive (p : Pins) (b : Bus) : Bus :=
  let keep := !(b.pins.rstN && !p.rstN)
  { b with
    pins := p
    dLatch := if p.le then p.d else b.dLatch
    addrQ1 := keep && b.addrQ1
    addrQ2 := keep && b.addrQ2
    addrQ3 := keep && b.addrQ3
    dataQ1 := keep && b.dataQ1
    dataQ2 := keep && b.dataQ2 }

/-! ## Engine -/

/-- The two 161, the five 377, the 273 and the RAM. -/
@[ext] structure Engine where
  stepLo : BitVec 4
  stepHi : BitVec 4
  aLo : Byte
  aHi : Byte
  bLo : Byte
  bHi : Byte
  c : Byte
  dac : Byte
  mem : Ram

section
variable (e : Engine)

def Engine.curChannel : BitVec 2 := e.stepHi.extractLsb' 0 2
def Engine.step : BitVec 6 := e.curChannel ++ e.stepLo
def Engine.ucode : Byte := microcode e.step
def Engine.ramOeNMc : Bool := e.ucode.getLsbD 7
def Engine.mcWeN : Bool := e.ucode.getLsbD 6
def Engine.mcRamSubAddr : BitVec 3 := e.ucode.extractLsb' 0 3
def Engine.mcRamAddrFull : BitVec 5 := e.curChannel ++ e.mcRamSubAddr

/-! Four 283: a carry runs from each to the next. -/

def Engine.adder0 : BitVec 4 := hc283S (nibble e.aLo 0) (nibble e.bLo 0) false
def Engine.c40 : Bool := hc283C4 (nibble e.aLo 0) (nibble e.bLo 0) false
def Engine.adder1 : BitVec 4 := hc283S (nibble e.aLo 1) (nibble e.bLo 1) e.c40
def Engine.c41 : Bool := hc283C4 (nibble e.aLo 1) (nibble e.bLo 1) e.c40
def Engine.adder2 : BitVec 4 := hc283S (nibble e.aHi 0) (nibble e.bHi 0) e.c41
def Engine.c42 : Bool := hc283C4 (nibble e.aHi 0) (nibble e.bHi 0) e.c41
def Engine.adder3 : BitVec 4 := hc283S (nibble e.aHi 1) (nibble e.bHi 1) e.c42

def Engine.adderLo : Byte := e.adder1 ++ e.adder0
def Engine.adderHi : Byte := e.adder3 ++ e.adder2

/-- The byte of the adder that goes back to the RAM, by `mc_ram_sub_addr[0]`. -/
def Engine.writebackData : Byte :=
  let hi := e.mcRamSubAddr.getLsbD 0
  hc157 false hi (nibble e.adderLo 1) (nibble e.adderHi 1) ++
    hc157 false hi (nibble e.adderLo 0) (nibble e.adderHi 0)

/-- `A[6:0] = reg_a[15:9]`, `A[10:7] = reg_c[3:0]`. -/
def Engine.waveDo (rom : Rom) : Byte := rom (0#8 ++ e.c.setWidth 4 ++ e.aHi.extractLsb' 1 7)

end

/-! ## The two sides together -/

structure Core where
  bus : Bus
  eng : Engine

section
variable (c : Core)

def Core.decodeDisable : Bool := !c.bus.pins.rstN || !c.bus.pins.csN

def Core.decodeY : BitVec 16 := hc154 c.eng.stepLo c.decodeDisable

def Core.latchDac : Bool := !c.decodeY.getLsbD 13

def Core.ramAddr : Byte :=
  let select := c.bus.pins.csN
  let full := c.eng.mcRamAddrFull
  hc157 false select (nibble c.bus.regAddr 1) (0#3 ++ full.extractLsb' 4 1) ++
    hc157 false select (nibble c.bus.regAddr 0) (full.extractLsb' 0 4)

def Core.ramDi : Byte :=
  let select := c.bus.pins.csN
  hc157 false select (nibble c.bus.dLatch 1) (nibble c.eng.writebackData 1) ++
    hc157 false select (nibble c.bus.dLatch 0) (nibble c.eng.writebackData 0)

def Core.ramWeN : Bool := if c.bus.pins.csN then c.eng.mcWeN else c.bus.dataWrPulseN

def Core.ramOeN : Bool := if c.bus.pins.csN then c.eng.ramOeNMc else true

/-- `float` is what an undriven `ram_do` reads as. -/
def Core.ramDo (float : Byte) : Byte :=
  if !c.ramOeN && c.ramWeN then c.eng.mem (0#7 ++ c.ramAddr) else float

/-- A 377 on `ram_do`. -/
def Core.latch (float : Byte) (k : Nat) (q : Byte) : Byte :=
  if c.decodeY.getLsbD k then q else c.ramDo float

/-- A rising `STEP_CLK`. -/
def Core.stepClk (float : Byte) : Core :=
  let run := c.bus.pins.rstN
  let cep := hc161Tc run c.eng.stepLo && run
  { c with
    eng := { c.eng with
      stepLo := hc161 true true run run 0 c.eng.stepLo
      stepHi := hc161 true true cep run 0 c.eng.stepHi
      aLo := c.latch float 1 c.eng.aLo
      aHi := c.latch float 3 c.eng.aHi
      bLo := c.latch float 5 c.eng.bLo
      bHi := c.latch float 7 c.eng.bHi
      c := c.latch float 9 c.eng.c } }

/-- The DAC register is clocked by an event that took the core from `old` to `c`. -/
def Core.dacCp (old : Core) : Bool := !old.latchDac && c.latchDac

/-- The event took the core from `old` to `c`: the RAM stores on a falling `WE_n`,
and the DAC register takes `wave_do` on a rising `latch_dac` or is cleared by a
falling reset. -/
def Core.edges (rom : Rom) (old : Core) : Core :=
  { c with
    eng := { c.eng with
      mem :=
        if old.ramWeN && !c.ramWeN then Function.update c.eng.mem (0#7 ++ c.ramAddr) c.ramDi
        else c.eng.mem
      dac :=
        if old.bus.pins.rstN && !c.bus.pins.rstN then 0
        else if c.dacCp old then c.eng.waveDo rom
        else c.eng.dac } }

end

/-- What the host's side does. -/
inductive HostEvent where
  | clock
  | drive (p : Pins)

def Bus.host (b : Bus) : HostEvent → Bus
  | .clock => b.clock
  | .drive p => b.drive p

def Bus.hosts (b : Bus) (hs : List HostEvent) : Bus := hs.foldl Bus.host b

section
variable (rom : Rom) (float : Byte)

def Core.host (c : Core) (h : HostEvent) : Core :=
  { c with bus := c.bus.host h }.edges rom c

def Core.tick (c : Core) : Core := (c.stepClk float).edges rom c

def Core.hosts (c : Core) (hs : List HostEvent) : Core := hs.foldl (Core.host rom) c

/-- The run of the core: in the step period `n` the host does `hs n`, and then
`STEP_CLK` rises. -/
def Core.run (hs : Nat → List HostEvent) (c : Core) : Nat → Core
  | 0 => c
  | n + 1 => ((c.run hs n).hosts rom (hs n)).tick rom float

end

/-- The host leaves the bus alone. -/
def Pins.idle : Pins where
  d := 0
  a0 := false
  csN := true
  wrN := true
  rstN := true

/-- The registers as they power up, with an idle bus and some RAM. -/
def Core.powerUp (mem : Ram) : Core where
  bus := { pins := Pins.idle, dLatch := 0, addrQ1 := false, addrQ2 := false, addrQ3 := false,
           dataQ1 := false, dataQ2 := false, regAddr := 0 }
  eng := { stepLo := 0, stepHi := 0, aLo := 0, aHi := 0, bLo := 0, bHi := 0, c := 0, dac := 0,
           mem := mem }

/-! ## What the signals are -/

/-- Byte `o` of a channel's block. -/
def paramAddr (ch : BitVec 2) (o : BitVec 3) : BitVec 15 := 0#10 ++ ch ++ o

/-- The two muxes put a channel and a sub-address together. -/
theorem paramAddr_full (ch : BitVec 2) (o : BitVec 3) :
    0#7 ++ ((0#3 ++ (ch ++ o).extractLsb' 4 1) ++ (ch ++ o).extractLsb' 0 4) = paramAddr ch o := by
  revert ch o
  decide

/-- The sub-address of a step, as the microcode has it. -/
def subAddr (k : BitVec 4) : BitVec 3 := (microcode (0#2 ++ k)).extractLsb' 0 3

theorem microcode_channel (ch : BitVec 2) (k : BitVec 4) :
    microcode (ch ++ k) = microcode (0#2 ++ k) := by
  revert ch k
  decide

theorem microcode_oe (k : BitVec 4) :
    (microcode (0#2 ++ k)).getLsbD 7 = !decide (k.toNat < 10) := by
  revert k
  decide

theorem microcode_we (k : BitVec 4) :
    (microcode (0#2 ++ k)).getLsbD 6 = !(k == 10 || k == 12) := by
  revert k
  decide

section
variable (e : Engine)

theorem Engine.ramOeNMc_eq : e.ramOeNMc = !decide (e.stepLo.toNat < 10) := by
  rw [ramOeNMc, ucode, step, microcode_channel, microcode_oe]

theorem Engine.mcWeN_eq : e.mcWeN = !(e.stepLo == 10 || e.stepLo == 12) := by
  rw [mcWeN, ucode, step, microcode_channel, microcode_we]

theorem Engine.mcRamSubAddr_eq : e.mcRamSubAddr = subAddr e.stepLo := by
  rw [mcRamSubAddr, ucode, step, microcode_channel, subAddr]

def Engine.regA : BitVec 16 := e.aHi ++ e.aLo
def Engine.regB : BitVec 16 := e.bHi ++ e.bLo

/-- The four 283 add words. -/
theorem Engine.adder_eq : e.adderHi ++ e.adderLo = e.regA + e.regB := by
  have sum := hc283_four (nibble e.aLo 0) (nibble e.aLo 1) (nibble e.aHi 0) (nibble e.aHi 1)
    (nibble e.bLo 0) (nibble e.bLo 1) (nibble e.bHi 0) (nibble e.bHi 1) false
  have aLo := byte_nibbles_toNat e.aLo
  have aHi := byte_nibbles_toNat e.aHi
  have bLo := byte_nibbles_toNat e.bLo
  have bHi := byte_nibbles_toNat e.bHi
  rw [Bool.toNat_false] at sum
  apply BitVec.eq_of_toNat_eq
  simp only [regA, regB, adderHi, adderLo, adder0, adder1, adder2, adder3, toNat_append,
    BitVec.toNat_add, c40, c41, c42]
  omega

theorem Engine.writebackData_eq : e.writebackData =
    if e.mcRamSubAddr.getLsbD 0 then e.adderHi else e.adderLo := by
  unfold writebackData
  cases e.mcRamSubAddr.getLsbD 0
  · exact byte_nibbles e.adderLo
  · exact byte_nibbles e.adderHi

end

section
variable {c : Core}

theorem ramAddr_engine (select : c.bus.pins.csN = true) :
    0#7 ++ c.ramAddr = paramAddr c.eng.curChannel (subAddr c.eng.stepLo) := by
  simp only [Core.ramAddr, select, hc157_select, Engine.mcRamAddrFull, Engine.mcRamSubAddr_eq]
  exact paramAddr_full c.eng.curChannel (subAddr c.eng.stepLo)

theorem ramDi_engine (select : c.bus.pins.csN = true) : c.ramDi = c.eng.writebackData := by
  simp only [Core.ramDi, select, hc157_select]
  exact byte_nibbles c.eng.writebackData

theorem ramWeN_engine (select : c.bus.pins.csN = true) : c.ramWeN = c.eng.mcWeN := by
  simp only [Core.ramWeN, select, ↓reduceIte]

/-- While the engine reads, `ram_do` is the byte of the current step. -/
theorem ramDo_engine (float : Byte) (select : c.bus.pins.csN = true)
    (reads : c.eng.stepLo.toNat < 10) :
    c.ramDo float = c.eng.mem (paramAddr c.eng.curChannel (subAddr c.eng.stepLo)) := by
  have write : (c.eng.stepLo == 10 || c.eng.stepLo == 12) = false := by
    revert reads
    generalize c.eng.stepLo = k
    revert k
    decide
  rw [Core.ramDo, ramAddr_engine select, ramWeN_engine select, Engine.mcWeN_eq, write, Core.ramOeN,
    if_pos select, Engine.ramOeNMc_eq, decide_eq_true reads]
  rfl

theorem decodeY_eq (k : BitVec 4) : c.decodeY.getLsbD k.toNat =
    !(c.bus.pins.rstN && c.bus.pins.csN && c.eng.stepLo == k) := by
  rw [Core.decodeY, hc154_getLsbD, Core.decodeDisable]
  cases c.bus.pins.rstN <;> cases c.bus.pins.csN <;> simp [bne]

theorem latchDac_eq : c.latchDac =
    (c.bus.pins.rstN && c.bus.pins.csN && c.eng.stepLo == 13) := by
  rw [Core.latchDac]
  change (!c.decodeY.getLsbD (13#4).toNat) = _
  rw [decodeY_eq, Bool.not_not]
  rfl

/-- A 377 takes `ram_do` in its own step while the decoder is enabled. -/
theorem latch_eq (float : Byte) (k : BitVec 4) (q : Byte) : c.latch float k.toNat q =
    if c.bus.pins.rstN = true ∧ c.bus.pins.csN = true ∧ c.eng.stepLo = k then c.ramDo float
    else q := by
  rw [Core.latch, decodeY_eq]
  cases c.bus.pins.rstN <;> cases c.bus.pins.csN <;> simp

end

end Chiptune.Wt3
