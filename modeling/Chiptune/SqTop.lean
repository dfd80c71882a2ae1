import Chiptune.Cascade
import Chiptune.Chips
import Chiptune.Clocked
import Chiptune.Divider

/-!
# sq_top

`rtl/sq_top.v` with `rtl/wt_spfm_bus.v` and `rom/spfm_decode.hex`: a frequency word
written over the bus, a counter of four 161 that is loaded with it when full, and a 74
that the counter's last carry clocks.

`reloads_every` says when the counter reloads and `sq_rises` that `sq_out` toggles on the
rising carry. The carry does not rise between reloads that follow one another at once.
-/

namespace Chiptune

open Divider

namespace SqTop

/-- The host's pins. -/
structure Pins where
  rstN : Bool
  d : Byte
  a0 : Bool
  csN : Bool
  wrN : Bool

/-- `rom/spfm_decode.hex`, its outputs being `{le, data_wr_n, addr_wr_n}`. -/
def decode (addr : Nat) : Byte := if addr = 1 then 0x06 else if addr = 3 then 0x05 else 0x03

namespace Pins
variable (p : Pins)

def decodeDq : Byte :=
  decode (p.rstN.toNat + 2 * p.a0.toNat + 4 * p.wrN.toNat + 8 * p.csN.toNat)

def le : Bool := p.decodeDq.getLsbD 2
def dataWrN : Bool := p.decodeDq.getLsbD 1
def addrWrN : Bool := p.decodeDq.getLsbD 0

end Pins

end SqTop

structure SqTop where
  pins : SqTop.Pins
  dLatched : Byte
  regAddr : Byte
  freqLo : Byte
  freqHi : Byte
  cnt : BitVec 16
  sqOut : Bool

namespace SqTop
variable (s : SqTop)

/-- Power-up values, the bus idle. -/
def powerUp : SqTop where
  pins := ⟨true, 0, false, true, true⟩
  dLatched := 0
  regAddr := 0
  freqLo := 0
  freqHi := 0
  cnt := 0
  sqOut := false

def freq : BitVec 16 := s.freqHi ++ s.freqLo

def tc0 : Bool := hc161Tc true (nibble s.cnt 0)
def tc1 : Bool := hc161Tc s.tc0 (nibble s.cnt 1)
def tc2 : Bool := hc161Tc s.tc1 (nibble s.cnt 2)
def tc3 : Bool := hc161Tc s.tc2 (nibble s.cnt 3)

def peN : Bool := !s.tc3

def loEnBar : Bool := s.pins.dataWrN || s.regAddr.getLsbD 0
def hiEnBar : Bool := s.pins.dataWrN || !s.regAddr.getLsbD 0

/-- The pins move, and the 373 follows the data while it is transparent. -/
def drive (p : Pins) : SqTop :=
  { s with pins := p, dLatched := if p.le then p.d else s.dLatched }

/-- A rising `SPFM_CLK`. The 74, with `D = Q_n`, toggles when the carry rises with it. -/
def posedge : SqTop :=
  let edge : SqTop :=
    { s with
      regAddr := hc377 s.pins.addrWrN s.dLatched s.regAddr
      freqLo := hc377 s.loEnBar s.dLatched s.freqLo
      freqHi := hc377 s.hiEnBar s.dLatched s.freqHi
      cnt := hc161x4 true s.peN true s.freq s.cnt }
  { edge with sqOut := if !s.tc3 && edge.tc3 then !s.sqOut else s.sqOut }

/-- The levels that the pins go through before a clock, and the clock. -/
def clock (levels : List Pins) : SqTop := (levels.foldl drive s).posedge

def run (inputs : Nat → List Pins) (n : Nat) : SqTop :=
  Clocked.run (fun levels s => clock s levels) inputs s n

/-- The clock loads the counter. -/
def reloads (inputs : Nat → List Pins) (n : Nat) : Bool := (s.run inputs n).tc3

/-- The clock changes the output. -/
def toggles (inputs : Nat → List Pins) (n : Nat) : Bool :=
  (s.run inputs n).sqOut ^^ (s.run inputs (n + 1)).sqOut

/-! ## The counter -/

theorem tc3_eq : s.tc3 = (s.cnt == BitVec.allOnes 16) :=
  @Cascade.last_tc 3 .both (by decide) true s.cnt

variable (levels : List Pins)

/-- Before the clock only the bus side moves. -/
theorem drives_still :
    let t := levels.foldl drive s
    t.cnt = s.cnt ∧ t.sqOut = s.sqOut ∧ t.freq = s.freq := by
  induction levels generalizing s with
  | nil => exact ⟨rfl, rfl, rfl⟩
  | cons p levels ih => exact ih (s.drive p)

theorem clock_cnt :
    (s.clock levels).cnt = if s.cnt = BitVec.allOnes 16 then s.freq else s.cnt + 1 := by
  obtain ⟨cnt, -, freq⟩ := s.drives_still levels
  have tc := (levels.foldl drive s).tc3_eq
  change hc161x4 true (levels.foldl drive s).peN true (levels.foldl drive s).freq
    (levels.foldl drive s).cnt = _
  rw [peN, tc, cnt, freq]
  by_cases full : s.cnt = BitVec.allOnes 16
  · rw [if_pos full, beq_iff_eq.mpr full]
    exact Cascade.hc161x4_eq _ _ _ _ _
  · rw [if_neg full, beq_eq_false_iff_ne.mpr full]
    exact Cascade.hc161x4_eq _ _ _ _ _

theorem clock_sqOut : (s.clock levels).sqOut =
    if !s.tc3 && (s.clock levels).tc3 then !s.sqOut else s.sqOut := by
  obtain ⟨cnt, sqOut, -⟩ := s.drives_still levels
  have same : (levels.foldl drive s).tc3 = s.tc3 := by rw [tc3_eq, tc3_eq, cnt]
  rw [← same, ← sqOut]
  rfl

/-! ## Runs -/

section
variable {s} {inputs : Nat → List Pins} {f : BitVec 16}

theorem reloads_every (held : ∀ n, (s.run inputs n).freq = f) :
    StepsEvery (65536 - f.toNat) (s.reloads inputs) := by
  have every := @full_stepsEvery 16 f (fun n => (s.run inputs n).cnt) <| by
    intro n
    have step := (s.run inputs n).clock_cnt (inputs n)
    rw [held n] at step
    exact step
  have same : s.reloads inputs = fun n => (s.run inputs n).cnt == BitVec.allOnes 16 := by
    funext n
    exact (s.run inputs n).tc3_eq
  rw [same]
  exact every

/-- `sq_out` toggles a clock ahead of the reload, on the clock that fills the counter. -/
theorem sq_rises (m n : Nat) (hn : n + 1 = m + 1) :
    s.toggles inputs n = (!s.reloads inputs m && s.reloads inputs (m + 1)) := by
  obtain rfl : n = m := Nat.succ_inj.mp hn
  have step := (s.run inputs n).clock_sqOut (inputs n)
  change ((s.run inputs n).sqOut ^^ ((s.run inputs n).clock (inputs n)).sqOut) =
    (!(s.run inputs n).tc3 && ((s.run inputs n).clock (inputs n)).tc3)
  rw [step]
  cases !(s.run inputs n).tc3 && ((s.run inputs n).clock (inputs n)).tc3 <;>
    cases (s.run inputs n).sqOut <;> rfl

end

/-! ## Host writes -/

/-- One write as the host makes it, each level longer than a clock. -/
def write (a0 : Bool) (d : Byte) : List (List Pins) :=
  [[⟨true, d, a0, true, true⟩], [⟨true, d, a0, false, false⟩], [⟨true, d, a0, true, true⟩]]

/-- The bus traffic `ws`, and then none. -/
def traffic (ws : List (List Pins)) (n : Nat) : List Pins := ws.getD n []

theorem clock_idle (quiet : s.pins.addrWrN = true ∧ s.pins.dataWrN = true) :
    (s.clock []).freq = s.freq ∧ (s.clock []).pins = s.pins := by
  refine ⟨?_, rfl⟩
  change (hc377 s.hiEnBar s.dLatched s.freqHi ++ hc377 s.loEnBar s.dLatched s.freqLo :
    BitVec 16) = s.freq
  rw [hiEnBar, loEnBar, quiet.2]
  rfl

/-- The frequency word stays as the traffic left it. -/
theorem freq_held (ws : List (List Pins))
    (quiet : (s.run (traffic ws) ws.length).pins.addrWrN = true ∧
      (s.run (traffic ws) ws.length).pins.dataWrN = true) (n : Nat) :
    let t := s.run (traffic ws) ws.length
    (t.run (fun _ => []) n).freq = t.freq := by
  intro t
  have kept : (t.run (fun _ => []) n).freq = t.freq ∧ (t.run (fun _ => []) n).pins = t.pins := by
    induction n with
    | zero => exact ⟨rfl, rfl⟩
    | succ n ih =>
      have idle := (t.run (fun _ => []) n).clock_idle (by rw [ih.2]; exact quiet)
      exact ⟨idle.1.trans ih.1, idle.2.trans ih.2⟩
  exact kept.1

end SqTop

end Chiptune
