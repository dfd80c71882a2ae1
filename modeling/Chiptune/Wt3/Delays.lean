import Chiptune.Delay
import Chiptune.Wt3.Step

/-!
# wt3_core with its delays

`rtl/wt3_core.v` in time that goes by ticks, `ns` of them in a nanosecond. The outputs of the
two ROMs, of the 154 and of the RAM are nets behind an inertial delay. A 377 that is enabled at
its clock waits 15 ns and takes its inputs then, and the RAM waits 55 ns when `WE_n` falls and
stores what is at its pins then; while they wait they miss other edges. The muxes, the adders,
the counters and the other chips of the SPFM bus have no delay. What is due at an instant, and
the clocks at it, find the levels just before it.
-/

namespace Chiptune.Wt3

open Delay

/-- What comes from outside at an instant: `STEP_CLK` rises, or the host does something. -/
structure Instant where
  step : Bool
  host : Option HostEvent

/-! ## The SPFM side -/

/-- The bus, and how long the 377 of the address register still waits. -/
structure Port where
  bus : Bus
  wait : Nat

/-- An edge of `SPFM_CLK` at which that 377 is enabled. -/
def Bus.enables (b : Bus) : Option HostEvent → Bool
  | some .clock => b.addrQ3
  | _ => false

def Port.tick (ns : Nat) (p : Port) (h : Option HostEvent) : Port where
  bus := { h.elim p.bus p.bus.host with
    regAddr := if p.wait = 1 then p.bus.dLatch else p.bus.regAddr }
  wait := timer (15 * ns) p.wait (p.bus.enables h)

def Port.run (ns : Nat) (p : Port) (is : Nat → Instant) : Nat → Port
  | 0 => p
  | t + 1 => (Port.run ns p is t).tick ns (is (t + 1)).host

/-! ## Levels that follow at once -/

/-- The registers on both sides, and what the microcode ROM shows. -/
structure Levels extends Core where
  ucode : Byte

section
variable (l : Levels)

def Levels.ramOeNMc : Bool := l.ucode.getLsbD 7
def Levels.mcWeN : Bool := l.ucode.getLsbD 6
def Levels.mcRamSubAddr : BitVec 3 := l.ucode.extractLsb' 0 3
def Levels.mcRamAddrFull : BitVec 5 := l.eng.curChannel ++ l.mcRamSubAddr

def Levels.writebackData : Byte :=
  let hi := l.mcRamSubAddr.getLsbD 0
  hc157 false hi (nibble l.eng.adderLo 1) (nibble l.eng.adderHi 1) ++
    hc157 false hi (nibble l.eng.adderLo 0) (nibble l.eng.adderHi 0)

def Levels.ramAddr : Byte :=
  let select := l.bus.pins.csN
  hc157 false select (nibble l.bus.regAddr 1) (0#3 ++ l.mcRamAddrFull.extractLsb' 4 1) ++
    hc157 false select (nibble l.bus.regAddr 0) (l.mcRamAddrFull.extractLsb' 0 4)

def Levels.ramDi : Byte :=
  let select := l.bus.pins.csN
  hc157 false select (nibble l.bus.dLatch 1) (nibble l.writebackData 1) ++
    hc157 false select (nibble l.bus.dLatch 0) (nibble l.writebackData 0)

def Levels.ramWeN : Bool := if l.bus.pins.csN then l.mcWeN else l.bus.dataWrPulseN

def Levels.ramOeN : Bool := if l.bus.pins.csN then l.ramOeNMc else true

/-- What the RAM is about to show, or that it is about to let go of `ram_do`. -/
def Levels.ramDo : Option Byte :=
  if !l.ramOeN && l.ramWeN then some (l.eng.mem (0#7 ++ l.ramAddr)) else none

end

/-! ## The core -/

/-- How long the 377 on `ram_do` still wait. -/
structure Waits where
  aLo : Nat
  aHi : Nat
  bLo : Nat
  bHi : Nat
  c : Nat

structure DelayedCore where
  port : Port
  eng : Engine
  ucode : Net Byte
  decodeY : Net (BitVec 16)
  ramDo : Net (Option Byte)
  waveDo : Net Byte
  waits : Waits
  ramWait : Nat

section
variable (ns : Nat) (rom : Rom) (float : Byte) (c : DelayedCore)

def DelayedCore.levels : Levels := { bus := c.port.bus, eng := c.eng, ucode := c.ucode.out }

/-- `q_reg` of a 377 on `ram_do`. -/
def DelayedCore.take (wait : Nat) (q : Byte) : Byte :=
  if wait = 1 then c.ramDo.out.getD float else q

/-- `latch_dac` rises. -/
def DelayedCore.dacCp : Bool :=
  c.decodeY.out.getLsbD 13 && !(c.decodeY.shown c.levels.decodeY).getLsbD 13

def DelayedCore.nextEng (i : Instant) : Engine :=
  let run := c.port.bus.pins.rstN
  let cep := hc161Tc run c.eng.stepLo && run
  let on := (c.port.tick ns i.host).bus.pins.rstN
  { stepLo := if i.step then hc161 true true run run 0 c.eng.stepLo else c.eng.stepLo
    stepHi := if i.step then hc161 true true cep run 0 c.eng.stepHi else c.eng.stepHi
    aLo := c.take float c.waits.aLo c.eng.aLo
    aHi := c.take float c.waits.aHi c.eng.aHi
    bLo := c.take float c.waits.bLo c.eng.bLo
    bHi := c.take float c.waits.bHi c.eng.bHi
    c := c.take float c.waits.c c.eng.c
    dac := if run && !on then 0 else if c.dacCp then (if on then c.waveDo.out else 0)
      else c.eng.dac
    mem := if c.ramWait = 1 then Function.update c.eng.mem (0#7 ++ c.levels.ramAddr) c.levels.ramDi
      else c.eng.mem }

def DelayedCore.nextUcode (i : Instant) : Net Byte :=
  c.ucode.step (55 * ns) c.eng.ucode (c.nextEng ns float i).ucode

def DelayedCore.nextLevels (i : Instant) : Levels where
  bus := (c.port.tick ns i.host).bus
  eng := c.nextEng ns float i
  ucode := (c.nextUcode ns float i).out

/-- A `STEP_CLK` with output `k` of the 154 low. -/
def DelayedCore.enables (i : Instant) (k : Nat) : Bool := i.step && !c.decodeY.out.getLsbD k

/-- A tick, and what comes from outside at its end. -/
def DelayedCore.tick (i : Instant) : DelayedCore :=
  let old := c.levels
  let new := c.nextLevels ns float i
  { port := c.port.tick ns i.host
    eng := new.eng
    ucode := c.nextUcode ns float i
    decodeY := c.decodeY.step (15 * ns) old.decodeY new.decodeY
    ramDo := c.ramDo.step (55 * ns) old.ramDo new.ramDo
    waveDo := c.waveDo.step (55 * ns) (old.eng.waveDo rom) (new.eng.waveDo rom)
    waits :=
      { aLo := timer (15 * ns) c.waits.aLo (c.enables i 1)
        aHi := timer (15 * ns) c.waits.aHi (c.enables i 3)
        bLo := timer (15 * ns) c.waits.bLo (c.enables i 5)
        bHi := timer (15 * ns) c.waits.bHi (c.enables i 7)
        c := timer (15 * ns) c.waits.c (c.enables i 9) }
    ramWait := timer (55 * ns) c.ramWait (old.ramWeN && !new.ramWeN) }

/-- The run of the core, with what comes from outside with each tick. -/
def DelayedCore.run (is : Nat → Instant) : Nat → DelayedCore
  | 0 => c
  | t + 1 => (DelayedCore.run is t).tick ns rom float (is (t + 1))

/-- All levels have settled. -/
structure DelayedCore.Settled : Prop where
  ucode : c.ucode = ⟨c.eng.ucode, 0⟩
  decodeY : c.decodeY = ⟨c.levels.decodeY, 0⟩
  ramDo : c.ramDo = ⟨c.levels.ramDo, 0⟩
  waveDo : c.waveDo = ⟨c.eng.waveDo rom, 0⟩
  waits : c.waits = ⟨0, 0, 0, 0, 0⟩
  ramWait : c.ramWait = 0
  port : c.port.wait = 0

end

/-- The core with all levels settled. -/
def Core.settle (rom : Rom) (core : Core) : DelayedCore :=
  let levels : Levels := { core with ucode := core.eng.ucode }
  { port := ⟨core.bus, 0⟩
    eng := core.eng
    ucode := ⟨core.eng.ucode, 0⟩
    decodeY := ⟨core.decodeY, 0⟩
    ramDo := ⟨levels.ramDo, 0⟩
    waveDo := ⟨core.eng.waveDo rom, 0⟩
    waits := ⟨0, 0, 0, 0, 0⟩
    ramWait := 0 }

theorem settle_settled (rom : Rom) (core : Core) : (core.settle rom).Settled rom :=
  ⟨rfl, rfl, rfl, rfl, rfl, rfl, rfl⟩

/-! ## What the signals are -/

section
variable {l : Levels}

theorem Levels.ramAddr_engine (select : l.bus.pins.csN = true) :
    0#7 ++ l.ramAddr = paramAddr l.eng.curChannel l.mcRamSubAddr := by
  simp only [Levels.ramAddr, select, hc157_select, Levels.mcRamAddrFull]
  exact paramAddr_full _ _

theorem Levels.ramAddr_host (select : l.bus.pins.csN = false) : l.ramAddr = l.bus.regAddr := by
  simp only [Levels.ramAddr, select, hc157_deselect]
  exact byte_nibbles l.bus.regAddr

/-- The sum byte for byte `o`. -/
def Engine.sumByte (e : Engine) (o : BitVec 3) : Byte :=
  if o.getLsbD 0 then e.adderHi else e.adderLo

theorem Levels.ramDi_engine (select : l.bus.pins.csN = true) :
    l.ramDi = l.eng.sumByte l.mcRamSubAddr := by
  simp only [Levels.ramDi, select, hc157_select]
  rw [byte_nibbles, Levels.writebackData, Engine.sumByte]
  cases l.mcRamSubAddr.getLsbD 0
  · exact byte_nibbles l.eng.adderLo
  · exact byte_nibbles l.eng.adderHi

theorem Levels.ramWeN_engine (select : l.bus.pins.csN = true) : l.ramWeN = l.mcWeN := by
  simp only [Levels.ramWeN, select, ↓reduceIte]

theorem Levels.ramWeN_host (select : l.bus.pins.csN = false) :
    l.ramWeN = l.bus.dataWrPulseN := by
  simp only [Levels.ramWeN, select, Bool.false_eq_true, ↓reduceIte]

end

end Chiptune.Wt3
