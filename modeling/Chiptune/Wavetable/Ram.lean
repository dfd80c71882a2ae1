import Chiptune.Clocked
import Chiptune.Chips

/-!
# wt_ram

`rtl/wt_ram.v` on the RAM and ROM models of `tb/wt_ram_tb.v`. The state is split
by what its parts depend on: the bus synchroniser, the host registers, the
pending slot of the host commands, the sample and step counters, and the engine
that the microprogram runs on. An assignment that a later one of the same clock
overrides does not appear.
-/

namespace Chiptune.Wavetable

/-- 39SF040. -/
abbrev Rom := BitVec 19 → Byte

/-- 62256. -/
abbrev Ram := BitVec 15 → Byte

/-! ## RAM map -/

def oPhaseLo : BitVec 4 := 0
def oPhaseHi : BitVec 4 := 1
def oStepLo : BitVec 4 := 2
def oStepHi : BitVec 4 := 3
def oLevel : BitVec 4 := 4
def oEnvState : BitVec 4 := 5
def oEnvCnt : BitVec 4 := 6
def oVol : BitVec 4 := 7
def oDacOut : BitVec 4 := 8
def oWaveIdx : BitVec 4 := 9
def oEnvRate : BitVec 4 := 10

/-- `{9'b0, ch, 4'b0} + {11'b0, o}`. -/
def chAddr (ch : BitVec 2) (o : BitVec 4) : BitVec 15 := 0#9 ++ ch ++ 0#4 + (0#11 ++ o)

def sampleDiv : BitVec 16 := 312
def totalSteps : Byte := 128

/-! ## Pins and the data bus -/

/-- The host's levels. `d` is `none` while the host leaves the bus alone. -/
structure Pins where
  d : Option Byte
  csN : Bool
  a0 : Bool
  wrN : Bool
  rdN : Bool
  rstN : Bool

def Pins.busRd (p : Pins) : Bool := !p.csN && !p.rdN
def Pins.addrReqAsync (p : Pins) : Bool := !p.csN && !p.wrN && !p.a0 && p.rstN
def Pins.dataReqAsync (p : Pins) : Bool := !p.csN && !p.wrN && p.a0 && p.rstN

/-- What the circuit around the chip decides: the ROM, the level that a floating
bus is read as, and the level where the chip and the host both drive `d`. -/
structure Board where
  rom : Rom
  float : Byte
  clash : Byte → Byte → Byte

structure BusSync where
  dLatch : Byte
  addrReqMeta : Bool
  addrReqSync : Bool
  addrReqPrev : Bool
  addrReqPulse : Bool
  dataReqMeta : Bool
  dataReqSync : Bool
  dataReqPrev : Bool
  dataReqPulse : Bool

structure Host where
  regAddr : Byte
  hostCh : BitVec 2
  waveIdx : BitVec 2 → BitVec 3
  vol : BitVec 2 → BitVec 5
  envRate : BitVec 2 → Byte
  step : BitVec 2 → BitVec 16
  dataOut : Byte

/-- The pending host command: `op` is 1 for note_on and 2 for note_off. -/
structure Slot where
  pending : Bool
  op : BitVec 4
  ch : BitVec 2
  phase : BitVec 4

/-- The strobes of the RAM port: `ram_oe_n`, `ram_we_n`, `ram_cs_n` and
`ram_drive_en` have only these three settings. -/
inductive Port
  | idle
  | read
  | write

structure Timer where
  sampleCnt : BitVec 16
  ustep : Byte

/-- The working registers, the RAM and ROM ports and the DAC. -/
structure Engine where
  accLo : Byte
  accHi : Byte
  carry : Bool
  levelR : BitVec 4
  envStateR : BitVec 3
  envCntR : Byte
  volR : BitVec 5
  waveIdxR : BitVec 3
  envRateR : Byte
  mixSum : BitVec 16
  port : Port
  ramAddr : BitVec 15
  ramWdata : Byte
  romAddr : BitVec 19
  dacOut : Byte
  chActive : BitVec 2 → Bool

/-! ## Counters -/

namespace Timer

section
variable (t : Timer)

def sampleStart : Bool := t.sampleCnt == 0
def uch : BitVec 2 := t.ustep.extractLsb' 5 2
def ums : BitVec 5 := t.ustep.extractLsb' 0 5

/-- Neither a clock of the pass nor the one that starts it. -/
def idle : Bool := !t.sampleStart && totalSteps ≤ t.ustep

def next : Timer where
  sampleCnt := if t.sampleCnt = 0 then sampleDiv - 1 else t.sampleCnt - 1
  ustep := if t.sampleStart then 0 else if t.ustep < totalSteps then t.ustep + 1 else t.ustep

end

end Timer

/-! ## Microprogram -/

namespace Engine

section
variable (e : Engine)

def readRam (a : BitVec 15) : Engine := { e with port := .read, ramAddr := a }

def writeRam (a : BitVec 15) (v : Byte) : Engine :=
  { e with port := .write, ramAddr := a, ramWdata := v }

/-- The level on `ram_io` at a rising clock. -/
def ramIo (float : Byte) (sram : Ram) : Byte :=
  match e.port with
  | .idle => float
  | .read => sram e.ramAddr
  | .write => e.ramWdata

/-- `{1'b0, a} + {1'b0, b} + {8'b0, c}`. -/
def add9 (a b : Byte) (c : Bool) : BitVec 9 :=
  a.setWidth 9 + b.setWidth 9 + (BitVec.ofBool c).setWidth 9

/-- Micro-step 14: latch env_rate and run the envelope. -/
def envelope (io : Byte) : Engine :=
  let e := { e with envRateR := io }
  if e.envStateR ≠ 0 then
    if io ≤ e.envCntR then
      let e := { e with envCntR := 0 }
      if e.envStateR = 1 then
        if e.levelR < 15 then { e with levelR := e.levelR + 1 } else { e with envStateR := 2 }
      else if e.envStateR = 3 then
        if 0 < e.levelR then { e with levelR := e.levelR - 1 }
        else { e with levelR := 0, envStateR := 0 }
      else e
    else { e with envCntR := e.envCntR + 1 }
  else e

/-- Micro-step `k` of channel `ch`, with `io` on the RAM bus, `rom` at the ROM's
output and `lo`, `hi` at the second input of the adder in steps 2 and 5. -/
def micro (ch : BitVec 2) (io rom lo hi : Byte) : Nat → Engine
  | 0 => e.readRam (chAddr ch oPhaseLo)
  | 1 => { e with accLo := io }.readRam (chAddr ch oStepLo)
  | 2 =>
    let sum := add9 e.accLo lo false
    { e with carry := sum.getLsbD 8, accLo := sum.setWidth 8 }.writeRam (chAddr ch oPhaseLo)
      (e.accLo + lo)
  | 3 => e.readRam (chAddr ch oPhaseHi)
  | 4 => { e with accHi := io }.readRam (chAddr ch oStepHi)
  | 5 =>
    let sum := add9 e.accHi hi e.carry
    { e with carry := sum.getLsbD 8, accHi := sum.setWidth 8 }.writeRam (chAddr ch oPhaseHi)
      (e.accHi + hi + (BitVec.ofBool e.carry).setWidth 8)
  | 6 => e.readRam (chAddr ch oLevel)
  | 7 => { e with levelR := io.setWidth 4 }.readRam (chAddr ch oVol)
  | 8 => { e with volR := io.setWidth 5 }.readRam (chAddr ch oWaveIdx)
  | 9 => { e with waveIdxR := io.setWidth 3 }.readRam (chAddr ch oEnvState)
  | 10 =>
    let env : BitVec 3 := io.setWidth 3
    { e with
      envStateR := env
      romAddr :=
        if env ≠ 0 then
          e.waveIdxR ++ e.levelR ++ e.volR ++ e.accHi.extractLsb' 0 5 ++ e.accLo.extractLsb' 6 2
        else e.romAddr }
  | 11 => { e with mixSum := if e.envStateR ≠ 0 then e.mixSum + rom.setWidth 16 else e.mixSum }
  | 12 => e.readRam (chAddr ch oEnvCnt)
  | 13 => { e with envCntR := io }.readRam (chAddr ch oEnvRate)
  | 14 => e.envelope io
  | 15 => e.writeRam (chAddr ch oEnvState) (e.envStateR.setWidth 8)
  | 16 => e.writeRam (chAddr ch oLevel) (e.levelR.setWidth 8)
  | 17 =>
    { e with chActive := Function.update e.chActive ch (e.envStateR != 0) }.writeRam
      (chAddr ch oEnvCnt) e.envCntR
  | 18 => e.writeRam (chAddr ch oDacOut) (if e.envStateR ≠ 0 then rom else 0)
  | _ => e

/-- The last step of the pass: the DAC takes the low byte of the sum, and the sum
itself is clipped. -/
def output (mix : BitVec 16) : Engine :=
  { e with
    dacOut := mix.setWidth 8
    mixSum := if 127 < mix.toInt then 127 else if mix.toInt < -128 then -128 else e.mixSum }

/-- The defaults of every clock leave the port idle. -/
def rest : Engine := { e with port := .idle }

/-- A clock of the pass, or the one that starts it. -/
def pass (t : Timer) (io rom lo hi : Byte) : Engine :=
  if t.sampleStart then { e.rest with mixSum := 0 }
  else
    let m := e.rest.micro t.uch io rom lo hi t.ums.toNat
    if t.ustep = 127 then m.output e.mixSum else m

end

end Engine

/-! ## Host commands -/

/-- A data write to the selected register. -/
def Host.write (h : Host) (d : Byte) : Host :=
  let ch := h.hostCh
  match h.regAddr.toNat with
  | 0x00 => { h with hostCh := d.setWidth 2 }
  | 0x01 => { h with waveIdx := Function.update h.waveIdx ch (d.setWidth 3) }
  | 0x02 => { h with vol := Function.update h.vol ch (d.setWidth 5) }
  | 0x03 => { h with envRate := Function.update h.envRate ch d }
  | 0x04 => { h with step := Function.update h.step ch ((h.step ch).extractLsb' 8 8 ++ d) }
  | 0x05 => { h with step := Function.update h.step ch (d ++ (h.step ch).setWidth 8) }
  | _ => h

/-- The readback register. -/
def Host.readback (h : Host) (busRd : Bool) (chActive : BitVec 2 → Bool) : Byte :=
  if busRd then
    if h.regAddr = 0x00 then h.hostCh.setWidth 8
    else if h.regAddr = 0x06 then
      0#4 ++ BitVec.ofBool (chActive 3) ++ BitVec.ofBool (chActive 2) ++
        BitVec.ofBool (chActive 1) ++ BitVec.ofBool (chActive 0)
    else 0xFF
  else 0xFF

/-- A data write to 0x06 or 0x07 fills the slot. -/
def Slot.trigger (s : Slot) (h : Host) : Slot :=
  match h.regAddr.toNat with
  | 0x06 => { pending := true, op := 1, ch := h.hostCh, phase := 0 }
  | 0x07 => { s with pending := true, op := 2, ch := h.hostCh }
  | _ => s

/-- The byte that note_on stores in phase `k`, with its offset. -/
def Host.note (h : Host) (ch : BitVec 2) : Nat → Option (BitVec 4 × Byte)
  | 0 => some (oPhaseLo, 0)
  | 1 => some (oPhaseHi, 0)
  | 2 => some (oStepLo, (h.step ch).setWidth 8)
  | 3 => some (oStepHi, (h.step ch).extractLsb' 8 8)
  | 4 => some (oLevel, 0)
  | 5 => some (oEnvState, 1)
  | 6 => some (oEnvCnt, 0)
  | 7 => some (oVol, (h.vol ch).setWidth 8)
  | 8 => some (oWaveIdx, (h.waveIdx ch).setWidth 8)
  | 9 => some (oEnvRate, h.envRate ch)
  | _ => none

/-- The RAM write of an idle clock. -/
def Slot.store (s : Slot) (h : Host) : Option (BitVec 15 × Byte) :=
  if s.pending then
    if s.op = 1 then (h.note s.ch s.phase.toNat).map fun (o, v) => (chAddr s.ch o, v)
    else if s.op = 2 then some (chAddr s.ch oEnvState, 3)
    else none
  else none

/-- The slot after an idle clock on the command `s`; `t` is the slot with this
clock's trigger, whose assignments the command's own override. -/
def Slot.advance (s t : Slot) : Slot :=
  if s.pending then
    if s.op = 1 then
      if s.phase.toNat < 9 then { t with phase := s.phase + 1 } else { t with pending := false }
    else { t with pending := false }
  else t

/-- note_on marks its channel active with its last byte. -/
def Slot.lastNote (s : Slot) : Bool := s.pending && s.op == 1 && s.phase == 9

/-- An idle clock of the engine. -/
def Engine.idle (e : Engine) (s : Slot) (h : Host) : Engine :=
  let t := e.rest
  let t := if s.lastNote then { t with chActive := Function.update t.chActive s.ch true } else t
  match s.store h with
  | some (a, v) => t.writeRam a v
  | none => t

/-! ## The chip -/

structure Chip where
  bus : BusSync
  host : Host
  slot : Slot
  time : Timer
  eng : Engine
  sram : Ram

def BusSync.next (b : BusSync) (p : Pins) : BusSync :=
  { b with
    addrReqMeta := p.addrReqAsync
    addrReqSync := b.addrReqMeta
    addrReqPrev := b.addrReqSync
    addrReqPulse := b.addrReqSync && !b.addrReqPrev
    dataReqMeta := p.dataReqAsync
    dataReqSync := b.dataReqMeta
    dataReqPrev := b.dataReqSync
    dataReqPulse := b.dataReqSync && !b.dataReqPrev }

/-- The values of a reset. It does not touch `d_latch` and the RAM. -/
def Chip.initial (dLatch : Byte) (sram : Ram) : Chip where
  bus := {
    dLatch := dLatch
    addrReqMeta := false
    addrReqSync := false
    addrReqPrev := false
    addrReqPulse := false
    dataReqMeta := false
    dataReqSync := false
    dataReqPrev := false
    dataReqPulse := false }
  host := {
    regAddr := 0
    hostCh := 0
    waveIdx := fun _ => 0
    vol := fun _ => 0
    envRate := fun _ => 0
    step := fun _ => 0
    dataOut := 0xFF }
  slot := { pending := false, op := 0, ch := 0, phase := 0 }
  time := { sampleCnt := sampleDiv - 1, ustep := totalSteps }
  eng := {
    accLo := 0
    accHi := 0
    carry := false
    levelR := 0
    envStateR := 0
    envCntR := 0
    volR := 0
    waveIdxR := 0
    envRateR := 0
    mixSum := 0
    port := .idle
    ramAddr := 0
    ramWdata := 0
    romAddr := 0
    dacOut := 0
    chActive := fun _ => false }
  sram := sram

/-- `negedge rst_n`. -/
def Chip.reset (c : Chip) : Chip := Chip.initial c.bus.dLatch c.sram

/-- The level on `d`. -/
def Board.dBus (board : Board) (p : Pins) (dataOut : Byte) : Byte :=
  match p.busRd, p.d with
  | true, some d => board.clash dataOut d
  | true, none => dataOut
  | false, some d => d
  | false, none => board.float

/-- The pins settle: `d_latch` is transparent during a write strobe, and the
reset is asynchronous. -/
def Chip.settle (board : Board) (p : Pins) (c : Chip) : Chip :=
  let c := if p.rstN then c else c.reset
  if !p.csN && !p.wrN then
    { c with bus := { c.bus with dLatch := board.dBus p c.host.dataOut } }
  else c

/-- A write of this clock reaches the host registers. -/
def Chip.hostNext (p : Pins) (c : Chip) : Host :=
  let h := if c.bus.addrReqPulse then { c.host with regAddr := c.bus.dLatch } else c.host
  let h := if c.bus.dataReqPulse then
      { c.host.write c.bus.dLatch with regAddr := h.regAddr } else h
  { h with dataOut := c.host.readback p.busRd c.eng.chActive }

/-- The clock fires a command. -/
def Chip.triggers (c : Chip) : Bool :=
  c.bus.dataReqPulse && (c.host.regAddr == 0x06 || c.host.regAddr == 0x07)

def Chip.slotNext (c : Chip) : Slot :=
  let t := if c.bus.dataReqPulse then c.slot.trigger c.host else c.slot
  if c.time.idle then c.slot.advance t else t

/-- The engine's clock, with `lo` and `hi` at the adder. -/
def Chip.engNext (board : Board) (lo hi : Byte) (c : Chip) : Engine :=
  if c.time.idle then c.eng.idle c.slot c.host
  else c.eng.pass c.time (c.eng.ramIo board.float c.sram) (board.rom c.eng.romAddr) lo hi

/-- `posedge clk`, with `lo` and `hi` at the adder. -/
def Chip.posedgeWith (board : Board) (p : Pins) (lo hi : Byte) (c : Chip) : Chip :=
  if p.rstN then
    { bus := c.bus.next p
      host := c.hostNext p
      slot := c.slotNext
      time := c.time.next
      eng := c.engNext board lo hi
      sram := c.sram }
  else c

/-- `wt_ram` adds straight from the RAM bus. -/
def Chip.posedge (board : Board) (p : Pins) (c : Chip) : Chip :=
  let io := c.eng.ramIo board.float c.sram
  c.posedgeWith board p io io

/-- What the RAM holds once the port's write has been taken. -/
def Engine.stored (e : Engine) (sram : Ram) : Ram :=
  match e.port with
  | .write => Function.update sram e.ramAddr e.ramWdata
  | _ => sram

/-- The RAM model stores at `negedge clk`. -/
def Chip.negedge (c : Chip) : Chip := { c with sram := c.eng.stored c.sram }

/-- One clock: the pin settings of its low half, the last of which stands at the
rising edge, then those of its high half. -/
structure Cycle where
  low : List Pins
  edge : Pins
  high : List Pins

def Chip.settleAll (board : Board) (ps : List Pins) (c : Chip) : Chip :=
  ps.foldl (fun c p => c.settle board p) c

def Chip.cycle (board : Board) (i : Cycle) (c : Chip) : Chip :=
  let c := (c.settleAll board i.low).settle board i.edge
  let c := (c.posedge board i.edge).settle board i.edge
  (c.settleAll board i.high).negedge

def Chip.run (board : Board) (inputs : Nat → Cycle) (c : Chip) : Nat → Chip :=
  Clocked.run (Chip.cycle board) inputs c

/-! ## A cycle out of reset -/

/-- `rst_n` stays high. -/
def Cycle.Live (i : Cycle) : Prop :=
  (∀ p ∈ i.low, p.rstN = true) ∧ i.edge.rstN = true ∧ ∀ p ∈ i.high, p.rstN = true

/-- The same chip with another byte in `d_latch`. -/
def Chip.relatch (x : Byte) (c : Chip) : Chip := { c with bus := { c.bus with dLatch := x } }

section
variable (board : Board) (c : Chip)

theorem Chip.settle_live (p : Pins) (live : p.rstN = true) :
    ∃ x, c.settle board p = c.relatch x := by
  rw [settle, if_pos live]
  split
  · exact ⟨_, rfl⟩
  · exact ⟨c.bus.dLatch, rfl⟩

theorem Chip.settleAll_live (ps : List Pins) (live : ∀ p ∈ ps, p.rstN = true) :
    ∃ x, c.settleAll board ps = c.relatch x := by
  induction ps generalizing c with
  | nil => exact ⟨c.bus.dLatch, rfl⟩
  | cons p ps ih =>
    obtain ⟨x, hx⟩ := c.settle_live board p (live p (by simp))
    obtain ⟨y, hy⟩ := ih (c.relatch x) fun q hq => live q (by simp [hq])
    refine ⟨y, ?_⟩
    rw [settleAll, List.foldl_cons, hx]
    exact hy

/-- The pins reach the rest of the chip through `d_latch` and the synchroniser. -/
theorem Chip.cycle_live (i : Cycle) (live : i.Live) : ∃ x y, c.cycle board i =
    (((c.relatch x).posedge board i.edge).relatch y).negedge := by
  obtain ⟨low, edge, high⟩ := live
  obtain ⟨x, hx⟩ := c.settleAll_live board i.low low
  obtain ⟨y, hy⟩ := (c.relatch x).settle_live board i.edge edge
  obtain ⟨z, hz⟩ := ((c.relatch y).posedge board i.edge).settle_live board i.edge edge
  obtain ⟨w, hw⟩ := (((c.relatch y).posedge board i.edge).relatch z).settleAll_live board i.high high
  refine ⟨y, w, ?_⟩
  rw [cycle, hx, hy]
  change ((((c.relatch y).posedge board i.edge).settle board i.edge).settleAll board i.high).negedge
    = _
  rw [hz, hw]
  rfl

/-- The engine at the rising edge of a cycle. -/
def Chip.engStep : Engine :=
  let io := c.eng.ramIo board.float c.sram
  c.engNext board io io

theorem Chip.cycle_spec (i : Cycle) (live : i.Live) :
    (c.cycle board i).time = c.time.next ∧ (c.cycle board i).slot = c.slotNext ∧
      (c.cycle board i).eng = c.engStep board ∧
      (c.cycle board i).sram = (c.engStep board).stored c.sram := by
  obtain ⟨x, y, h⟩ := c.cycle_live board i live
  rw [h, posedge, posedgeWith, if_pos live.2.1]
  exact ⟨rfl, rfl, rfl, rfl⟩

theorem Chip.cycle_bus (i : Cycle) (live : i.Live) :
    ∃ x, (c.cycle board i).bus = { c.bus.next i.edge with dLatch := x } := by
  obtain ⟨x, y, h⟩ := c.cycle_live board i live
  rw [h, posedge, posedgeWith, if_pos live.2.1]
  exact ⟨y, rfl⟩

/-- No data write is on its way through the synchroniser. -/
structure BusSync.Clear (b : BusSync) : Prop where
  first : b.dataReqMeta = false
  sync : b.dataReqSync = false
  pulse : b.dataReqPulse = false

/-- A deselected chip stays clear. -/
theorem Chip.run_clear (inputs : Nat → Cycle)
    (idle : ∀ n, (inputs n).Live ∧ (inputs n).edge.csN = true) (clear : c.bus.Clear) (n : Nat) :
    (c.run board inputs n).bus.Clear := by
  induction n with
  | zero => exact clear
  | succ n ih =>
    obtain ⟨x, h⟩ := (c.run board inputs n).cycle_bus board (inputs n) (idle n).1
    rw [run, Clocked.run_succ]
    change ((c.run board inputs n).cycle board (inputs n)).bus.Clear
    rw [h]
    exact ⟨by simp [BusSync.next, Pins.dataReqAsync, (idle n).2], ih.first,
      by simp [BusSync.next, ih.sync]⟩

/-- A chip that is clear has no trigger. -/
theorem BusSync.Clear.calm {c : Chip} (clear : c.bus.Clear) : c.triggers = false := by
  rw [Chip.triggers, clear.pulse, Bool.false_and]

end

/-- The host leaves the bus alone. -/
def Pins.idle : Pins where
  d := none
  csN := true
  a0 := false
  wrN := true
  rdN := true
  rstN := true

def Cycle.idle : Cycle where
  low := []
  edge := Pins.idle
  high := []

end Chiptune.Wavetable
