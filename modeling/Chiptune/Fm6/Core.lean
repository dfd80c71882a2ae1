import Chiptune.Chips
import Chiptune.Clocked

/-!
# The two-operator FM core

`FM6 v0.7/rtl/fm6_core.v`, one rising clock at a time, against the sample of
`docs/design.md` 1.1 without feedback. `vol_reg` has no sign, so Verilog takes the
output's product and its shift without sign too, `carrier_reg` zero-extended:
`samples_iff` says for which pulses the DAC is right all the same.
-/

namespace Chiptune.Fm6

/-- The inputs at a rising clock. -/
structure Ports where
  sampEn : Bool
  stepM : BitVec 16
  stepC : BitVec 16
  envLevelM : BitVec 5
  envLevelC : BitVec 5
  vol : BitVec 4

structure Core where
  phaseM : BitVec 16
  phaseC : BitVec 16
  modOutReg : Byte
  carrierReg : Byte
  volReg : BitVec 4

/-- Four 283; the last carry is left. -/
def hc283x4 (a b : BitVec 16) : BitVec 16 :=
  let cy0 := hc283C4 (nibble a 0) (nibble b 0) false
  let cy1 := hc283C4 (nibble a 1) (nibble b 1) cy0
  let cy2 := hc283C4 (nibble a 2) (nibble b 2) cy1
  hc283S (nibble a 3) (nibble b 3) cy2 ++ hc283S (nibble a 2) (nibble b 2) cy1 ++
    hc283S (nibble a 1) (nibble b 1) cy0 ++ hc283S (nibble a 0) (nibble b 0) false

namespace Core

section
variable (convVol : BitVec 11 → Byte) (i : Ports) (c : Core)

def idxM : BitVec 6 := c.phaseM.extractLsb' 10 6

def modOutU : Byte := convVol (i.envLevelM ++ c.idxM)

def idxCBase : BitVec 6 := c.phaseC.extractLsb' 10 6

def idxCSum : BitVec 7 :=
  (c.idxCBase).setWidth 7 + ((c.modOutU convVol i).setWidth 6).setWidth 7

def idxC : BitVec 6 := (c.idxCSum convVol i).setWidth 6

def carrierU : Byte := convVol (i.envLevelC ++ c.idxC convVol i)

/-- The operands of `(carrier_reg * (16 - vol_reg)) >>> 2` are 32 bits wide like `16`. -/
def scaled : BitVec 16 :=
  ((c.carrierReg.setWidth 32 * (16 - c.volReg.setWidth 32)) >>> 2).setWidth 16

def dacOut : Byte := c.scaled.setWidth 8 + 128

/-- One rising clock. -/
def clock : Core :=
  if i.sampEn then
    { phaseM := hc283x4 c.phaseM i.stepM
      phaseC := hc283x4 c.phaseC i.stepC
      modOutReg := c.modOutU convVol i
      carrierReg := c.carrierU convVol i
      volReg := i.vol }
  else c

end

/-- The state after `n` clocks. -/
def run (convVol : BitVec 11 → Byte) (ports : Nat → Ports) (c : Core) (n : Nat) : Core :=
  Clocked.run (fun i c => Core.clock convVol i c) ports c n

end Core

/-! ## The reference -/

/-- The phases and the sample that they gave at the last pulse. -/
structure Sample where
  phaseM : Nat
  phaseC : Nat
  modulator : Int
  carrier : Int
  dac : Int

/-- `conv_vol[level][index]`, the index mod 64. -/
def conv (convVol : BitVec 11 → Byte) (level : BitVec 5) (index : Int) : Int :=
  (convVol (level ++ BitVec.ofInt 6 index)).toInt

namespace Sample
variable (convVol : BitVec 11 → Byte) (i : Ports) (s : Sample)

def nextModulator : Int := conv convVol i.envLevelM (s.phaseM / 1024)

def nextCarrier : Int := conv convVol i.envLevelC (s.phaseC / 1024 + s.nextModulator convVol i)

/-- `carrier * (16 - vol) >> 2` about the middle of the DAC. -/
def nextDac : Int := (128 + s.nextCarrier convVol i * (16 - i.vol.toNat) / 4) % 256

def next : Sample :=
  if i.sampEn then
    { phaseM := (s.phaseM + i.stepM.toNat) % 65536
      phaseC := (s.phaseC + i.stepC.toNat) % 65536
      modulator := s.nextModulator convVol i
      carrier := s.nextCarrier convVol i
      dac := s.nextDac convVol i }
  else s

def run (ports : Nat → Ports) (n : Nat) : Sample :=
  Clocked.run (fun i s => Sample.next convVol i s) ports s n

end Sample

/-- The core's phases before the first pulse. -/
def Core.sample (c : Core) : Sample where
  phaseM := c.phaseM.toNat
  phaseC := c.phaseC.toNat
  modulator := c.modOutReg.toInt
  carrier := c.carrierReg.toInt
  dac := c.dacOut.toNat

/-- The core holds the sample: its phases, the modulator, `carrier_out` and `dac_out`. -/
def Core.Holds (c : Core) (s : Sample) : Prop := c.sample = s

/-- The sign that the product loses does no harm: there is none, or it is a multiple of
256 by which the product is off. -/
def Sample.KeepsSign (convVol : BitVec 11 → Byte) (i : Ports) (s : Sample) : Prop :=
  0 ≤ s.nextCarrier convVol i ∨ i.vol.toNat % 4 = 0

/-! ## Adders and addresses -/

theorem hc283x4_eq (a b : BitVec 16) : hc283x4 a b = a + b := by
  have sum := hc283_four (nibble a 0) (nibble a 1) (nibble a 2) (nibble a 3) (nibble b 0)
    (nibble b 1) (nibble b 2) (nibble b 3) false
  have wa := congrArg BitVec.toNat (word_nibbles a)
  have wb := congrArg BitVec.toNat (word_nibbles b)
  rw [word_toNat] at wa wb
  rw [Bool.toNat_false] at sum
  apply BitVec.eq_of_toNat_eq
  simp only [hc283x4, word_toNat, BitVec.toNat_add]
  omega

theorem index_phase (phase : BitVec 16) :
    phase.extractLsb' 10 6 = BitVec.ofInt 6 ((phase.toNat : Int) / 1024) := by
  have hp := phase.isLt
  apply BitVec.eq_of_toNat_eq
  rw [BitVec.extractLsb'_toNat, BitVec.toNat_ofInt, Nat.shiftRight_eq_div_pow]
  omega

/-- Six bits of the modulator are enough, sign and all. -/
theorem index_modulated (base : BitVec 6) (mod : Byte) :
    (base.setWidth 7 + (mod.setWidth 6).setWidth 7).setWidth 6 =
      BitVec.ofInt 6 (base.toNat + mod.toInt) := by
  have hb := base.isLt
  have hm := mod.isLt
  have sign := BitVec.toInt_eq_toNat_cond mod
  apply BitVec.eq_of_toNat_eq
  simp only [BitVec.toNat_setWidth, BitVec.toNat_add, BitVec.toNat_ofInt]
  split at sign <;> omega

section
variable (convVol : BitVec 11 → Byte) (i : Ports) (c : Core)

theorem modOutU_toInt : (c.modOutU convVol i).toInt = c.sample.nextModulator convVol i := by
  rw [Core.modOutU, Core.idxM, index_phase]
  rfl

theorem carrierU_toInt : (c.carrierU convVol i).toInt = c.sample.nextCarrier convVol i := by
  have base : (c.idxCBase.toNat : Int) = (c.phaseC.toNat : Int) / 1024 := by
    have hp := c.phaseC.isLt
    rw [Core.idxCBase, BitVec.extractLsb'_toNat, Nat.shiftRight_eq_div_pow]
    omega
  rw [Core.carrierU, Core.idxC, Core.idxCSum, index_modulated, base, modOutU_toInt]
  rfl

/-! ## The output -/

/-- `carrier_reg` counts as its byte without sign. -/
theorem dacOut_toNat :
    c.dacOut.toNat = (c.carrierReg.toNat * (16 - c.volReg.toNat) / 4 + 128) % 256 := by
  have hc := c.carrierReg.isLt
  have hv := c.volReg.isLt
  have gain : (16 - c.volReg.setWidth 32 : BitVec 32).toNat = 16 - c.volReg.toNat := by
    have sixteen : (16 : BitVec 32).toNat = 16 := rfl
    rw [BitVec.toNat_sub, sixteen, BitVec.toNat_setWidth]
    omega
  have product : c.carrierReg.toNat * (16 - c.volReg.toNat) ≤ 255 * 16 :=
    Nat.mul_le_mul (by omega) (by omega)
  have middle : (128 : Byte).toNat = 128 := rfl
  have wide : c.carrierReg.toNat % 2 ^ 32 = c.carrierReg.toNat := Nat.mod_eq_of_lt (by omega)
  simp only [Core.dacOut, Core.scaled, BitVec.toNat_add, BitVec.toNat_setWidth,
    BitVec.toNat_ushiftRight, BitVec.toNat_mul, gain, middle, wide, Nat.shiftRight_eq_div_pow]
  omega

theorem dacOut_iff :
    (c.dacOut.toNat : Int) = (128 + c.carrierReg.toInt * (16 - c.volReg.toNat) / 4) % 256 ↔
      0 ≤ c.carrierReg.toInt ∨ c.volReg.toNat % 4 = 0 := by
  have hv := c.volReg.isLt
  have hc := c.carrierReg.isLt
  have sign := BitVec.toInt_eq_toNat_cond c.carrierReg
  rw [dacOut_toNat]
  obtain ⟨k, hk⟩ : ∃ k, k = 16 - c.volReg.toNat := ⟨_, rfl⟩
  have gain : (16 : Int) - c.volReg.toNat = k := by omega
  rw [gain, ← hk]
  by_cases positive : 2 * c.carrierReg.toNat < 2 ^ 8
  · rw [if_pos positive] at sign
    rw [sign, ← Int.natCast_mul]
    omega
  · rw [if_neg positive] at sign
    -- `(c - 256) * k / 4` is `c * k / 4` less 64 times `k`
    have product : c.carrierReg.toInt * k = (c.carrierReg.toNat * k : Nat) - 256 * (k : Int) := by
      rw [sign, Int.sub_mul, Int.natCast_mul]
      rfl
    rw [product]
    omega

/-- A pulse leaves all of the sample but, when the sign is lost, the DAC. -/
theorem clock_holds (pulse : i.sampEn = true) :
    (c.clock convVol i).Holds (c.sample.next convVol i) ↔ c.sample.KeepsSign convVol i := by
  have core : c.clock convVol i =
      { phaseM := hc283x4 c.phaseM i.stepM
        phaseC := hc283x4 c.phaseC i.stepC
        modOutReg := c.modOutU convVol i
        carrierReg := c.carrierU convVol i
        volReg := i.vol } := if_pos pulse
  have dac := dacOut_iff (c.clock convVol i)
  have level : (c.clock convVol i).carrierReg.toInt = c.sample.nextCarrier convVol i := by
    rw [core]
    exact carrierU_toInt convVol i c
  have volume : (c.clock convVol i).volReg = i.vol := by rw [core]
  rw [level, volume] at dac
  rw [Sample.KeepsSign, ← dac, Core.Holds, Sample.next, if_pos pulse]
  constructor
  · intro same
    exact congrArg Sample.dac same
  · intro same
    have phases (a b : BitVec 16) : (hc283x4 a b).toNat = (a.toNat + b.toNat) % 65536 := by
      rw [hc283x4_eq, BitVec.toNat_add]
    have modulator : (c.clock convVol i).modOutReg.toInt = c.sample.nextModulator convVol i := by
      rw [core]
      exact modOutU_toInt convVol i c
    rw [Core.sample, level, modulator, same, core, phases, phases]
    rfl

/-- The phases advance alike whatever the output. -/
def SamePhases (s : Sample) : Prop :=
  s.phaseM = c.phaseM.toNat ∧ s.phaseC = c.phaseC.toNat

variable {c}

theorem SamePhases.next {s : Sample} (same : SamePhases c s) (pulse : i.sampEn = true) :
    s.next convVol i = c.sample.next convVol i := by
  obtain ⟨m, d⟩ := same
  simp only [Sample.next, Sample.nextDac, Sample.nextCarrier, Sample.nextModulator, pulse,
    ↓reduceIte, Core.sample, m, d]

theorem SamePhases.keepsSign {s : Sample} (same : SamePhases c s) :
    s.KeepsSign convVol i ↔ c.sample.KeepsSign convVol i := by
  obtain ⟨m, d⟩ := same
  simp only [Sample.KeepsSign, Sample.nextCarrier, Sample.nextModulator, Core.sample, m, d]

theorem SamePhases.clock {s : Sample} (same : SamePhases c s) :
    SamePhases (c.clock convVol i) (s.next convVol i) := by
  by_cases pulse : i.sampEn = true
  · obtain ⟨m, d⟩ := same
    have phases (a b : BitVec 16) : (a.toNat + b.toNat) % 65536 = (hc283x4 a b).toNat := by
      rw [hc283x4_eq, BitVec.toNat_add]
    rw [Core.clock, Sample.next, if_pos pulse, if_pos pulse, SamePhases, m, d]
    exact ⟨phases _ _, phases _ _⟩
  · rw [Core.clock, Sample.next, if_neg pulse, if_neg pulse]
    exact same

end

section
variable (convVol : BitVec 11 → Byte) (ports : Nat → Ports) (c : Core)

theorem run_phases (n : Nat) :
    SamePhases (c.run convVol ports n) (c.sample.run convVol ports n) := by
  induction n with
  | zero => exact ⟨rfl, rfl⟩
  | succ n ih => exact ih.clock convVol (ports n)

/-- **The FM core.** After every pulse of the first `N` clocks the core holds the sample of
the reference, exactly when every pulse among them has a carrier that is not negative or
a volume that is a multiple of 4. -/
theorem samples_iff (N : Nat) :
    (∀ n, n < N → (ports n).sampEn = true →
      (c.run convVol ports (n + 1)).Holds (c.sample.run convVol ports (n + 1))) ↔
    ∀ n, n < N → (ports n).sampEn = true →
      (c.sample.run convVol ports n).KeepsSign convVol (ports n) := by
  have step (n : Nat) (pulse : (ports n).sampEn = true) :
      (c.run convVol ports (n + 1)).Holds (c.sample.run convVol ports (n + 1)) ↔
        (c.sample.run convVol ports n).KeepsSign convVol (ports n) := by
    have same := run_phases convVol ports c n
    rw [same.keepsSign, ← clock_holds convVol (ports n) _ pulse,
      ← same.next convVol (ports n) pulse]
    rfl
  constructor
  · intro holds n hn pulse
    exact (step n pulse).mp (holds n hn pulse)
  · intro keeps n hn pulse
    exact (step n pulse).mpr (keeps n hn pulse)

end

/-- The table with -31 at level 31, index 0, and else 0. -/
def spike (addr : BitVec 11) : Byte := if addr = 0x7C0 then -31 else 0

def pulse : Ports where
  sampEn := true
  stepM := 435
  stepC := 435
  envLevelM := 0
  envLevelC := 31
  vol := 1

def Core.reset : Core := ⟨0, 0, 0, 0, 0⟩

/-- The reference has 11 at the DAC, the core 203. -/
theorem sign_lost :
    (∀ addr, -31 ≤ (spike addr).toInt ∧ (spike addr).toInt ≤ 31) ∧
    (Core.reset.sample.next spike pulse).carrier = -31 ∧
    (Core.reset.sample.next spike pulse).dac = 11 ∧
    (Core.reset.clock spike pulse).dacOut = 203 ∧
    ¬ (Core.reset.clock spike pulse).Holds (Core.reset.sample.next spike pulse) := by
  have reference : (Core.reset.sample.next spike pulse).dac = 11 := by decide +kernel
  have core : (Core.reset.clock spike pulse).dacOut = 203 := by decide +kernel
  refine ⟨?_, by decide +kernel, reference, core, ?_⟩
  · intro addr
    unfold spike
    split <;> decide
  · intro holds
    have dac := congrArg Sample.dac holds
    rw [reference] at dac
    simp only [Core.sample, core] at dac
    exact absurd dac (by decide)

end Chiptune.Fm6
