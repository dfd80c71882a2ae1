import Chiptune.Wavetable.Ram

/-!
# One sample of a voice

What a sample period is for: every channel record holds a voice, and a sample
lets all four voices take one step at once. `Voice.next` and `Voice.sound` are
the meaning; `sample` is that step on the RAM.
-/

namespace Chiptune.Wavetable

structure Voice where
  phase : BitVec 16
  step : BitVec 16
  level : BitVec 4
  env : BitVec 3
  envCnt : Byte
  vol : BitVec 5
  wave : BitVec 3
  rate : Byte

namespace Voice

section
variable (v : Voice)

def On : Prop := v.env ≠ 0

instance : Decidable v.On := inferInstanceAs (Decidable (v.env ≠ 0))

/-- One step of the envelope: attack (1) raises the level and then sustains (2),
release (3) lowers it and then switches the voice off. -/
def envelope : Voice :=
  if v.env = 1 then
    if v.level = 15 then { v with env := 2 } else { v with level := v.level + 1 }
  else if v.env = 3 then
    if v.level = 0 then { v with env := 0 } else { v with level := v.level - 1 }
  else v

/-- The phase moves always, the envelope counter while the voice is on, and the
envelope whenever the counter has reached the rate. -/
def next : Voice :=
  let w := { v with phase := v.phase + v.step }
  if ¬ v.On then w
  else if v.envCnt < v.rate then { w with envCnt := v.envCnt + 1 }
  else { w.envelope with envCnt := 0 }

/-- `{wave_idx, level, vol, phase'[12:6]}`. -/
def romAddr : BitVec 19 :=
  v.wave ++ v.level ++ v.vol ++ (v.phase + v.step).extractLsb' 6 7

end

/-- The byte that the voice adds to the mix. -/
def sound (rom : Rom) (v : Voice) : Byte := if v.On then rom v.romAddr else 0

end Voice

/-! ## Channel records -/

/-- The sixteen bytes of a channel. -/
abbrev Block := BitVec 4 → Byte

def block (sram : Ram) (ch : BitVec 2) : Block := fun o => sram (chAddr ch o)

namespace Block

section
variable (rom : Rom) (b : Block)

def voice : Voice where
  phase := b oPhaseHi ++ b oPhaseLo
  step := b oStepHi ++ b oStepLo
  level := (b oLevel).setWidth 4
  env := (b oEnvState).setWidth 3
  envCnt := b oEnvCnt
  vol := (b oVol).setWidth 5
  wave := (b oWaveIdx).setWidth 3
  rate := b oEnvRate

/-- The record after a sample. The debug byte is the sound of a voice that is
still on. -/
def tick : Block :=
  let v := b.voice
  let w := v.next
  fun o =>
    if o = oDacOut then if w.On then rom v.romAddr else 0
    else if o = oEnvCnt then w.envCnt
    else if o = oLevel then w.level.setWidth 8
    else if o = oEnvState then w.env.setWidth 8
    else if o = oPhaseHi then w.phase.extractLsb' 8 8
    else if o = oPhaseLo then w.phase.setWidth 8
    else b o

end

end Block

/-! ## A sample on the RAM -/

/-- The RAM with the record of one channel replaced. -/
def setBlock (sram : Ram) (ch : BitVec 2) (b : Block) : Ram :=
  fun a => if a.toNat / 16 = ch.toNat then b (a.setWidth 4) else sram a

/-- The records of the first `n` channels take their step. -/
def sampleFirst (rom : Rom) (sram : Ram) (n : Nat) : Ram :=
  fun a =>
    if a.toNat / 16 < n then (block sram (BitVec.ofNat 2 (a.toNat / 16))).tick rom (a.setWidth 4)
    else sram a

/-- One sample: all four records at once. -/
def sample (rom : Rom) (sram : Ram) : Ram := sampleFirst rom sram 4

/-- What the first `n` voices add to the mix. -/
def mixFirst (rom : Rom) (sram : Ram) (n : Nat) : Nat :=
  ((List.range n).map fun ch => ((block sram (BitVec.ofNat 2 ch)).voice.sound rom).toNat).sum

/-- The sum that the DAC takes its byte from. -/
def mix (rom : Rom) (sram : Ram) : Nat := mixFirst rom sram 4

/-! ## Addresses -/

theorem chAddr_toNat (ch : BitVec 2) (o : BitVec 4) :
    (chAddr ch o).toNat = 16 * ch.toNat + o.toNat := by
  have hc := ch.isLt
  have ho := o.isLt
  simp only [chAddr, BitVec.toNat_add, toNat_append]
  simp
  omega

theorem chAddr_inj {ch ch' : BitVec 2} {o o' : BitVec 4} :
    chAddr ch o = chAddr ch' o' ↔ ch = ch' ∧ o = o' := by
  constructor
  · intro h
    have h := congrArg BitVec.toNat h
    have ho := o.isLt
    have ho' := o'.isLt
    rw [chAddr_toNat, chAddr_toNat] at h
    exact ⟨BitVec.eq_of_toNat_eq (by omega), BitVec.eq_of_toNat_eq (by omega)⟩
  · rintro ⟨rfl, rfl⟩
    rfl

theorem chAddr_low (ch : BitVec 2) (o : BitVec 4) : (chAddr ch o).setWidth 4 = o := by
  apply BitVec.eq_of_toNat_eq
  have ho := o.isLt
  rw [BitVec.toNat_setWidth, chAddr_toNat]
  omega

theorem chAddr_split (a : BitVec 15) (ch : BitVec 2) (h : a.toNat / 16 = ch.toNat) :
    a = chAddr ch (a.setWidth 4) := by
  apply BitVec.eq_of_toNat_eq
  rw [chAddr_toNat, BitVec.toNat_setWidth]
  omega

/-- A store to a record shows at its own offset. -/
theorem update_chAddr (sram : Ram) (ch : BitVec 2) (o o' : BitVec 4) (v : Byte) :
    Function.update sram (chAddr ch o) v (chAddr ch o') =
      if o' = o then v else sram (chAddr ch o') := by
  simp only [Function.update_apply, chAddr_inj, true_and]

/-- A store to a record does not show outside it. -/
theorem update_outside (sram : Ram) (ch : BitVec 2) (o : BitVec 4) (v : Byte) (a : BitVec 15)
    (h : a.toNat / 16 ≠ ch.toNat) : Function.update sram (chAddr ch o) v a = sram a := by
  refine Function.update_of_ne ?_ _ _
  rintro rfl
  have ho := o.isLt
  rw [chAddr_toNat] at h
  omega

theorem block_setBlock (sram : Ram) (ch ch' : BitVec 2) (b : Block) :
    block (setBlock sram ch b) ch' = if ch' = ch then b else block sram ch' := by
  funext o
  have ho := o.isLt
  simp only [block, setBlock, chAddr_toNat, chAddr_low]
  by_cases h : ch' = ch
  · rw [if_pos h, if_pos (by rw [h]; omega)]
  · have : ch'.toNat ≠ ch.toNat := fun e => h (BitVec.eq_of_toNat_eq e)
    rw [if_neg h, if_neg (by omega), block]

theorem block_sampleFirst (rom : Rom) (sram : Ram) (n : Nat) (hn : n < 4) :
    block (sampleFirst rom sram n) (BitVec.ofNat 2 n) = block sram (BitVec.ofNat 2 n) := by
  funext o
  have ho := o.isLt
  have hc : (chAddr (BitVec.ofNat 2 n) o).toNat / 16 = n := by
    rw [chAddr_toNat, BitVec.toNat_ofNat]
    omega
  rw [block, sampleFirst, if_neg (by omega), block]

/-- The next record takes its step after the earlier ones as before them. -/
theorem sampleFirst_succ (rom : Rom) (sram : Ram) (n : Nat) (hn : n < 4) :
    sampleFirst rom sram (n + 1) = setBlock (sampleFirst rom sram n) (BitVec.ofNat 2 n)
      ((block sram (BitVec.ofNat 2 n)).tick rom) := by
  funext a
  have hc : (BitVec.ofNat 2 n).toNat = n := by
    rw [BitVec.toNat_ofNat]
    omega
  simp only [sampleFirst, setBlock, hc]
  obtain h | h | h := Nat.lt_trichotomy (a.toNat / 16) n
  · rw [if_pos (by omega), if_neg (by omega), if_pos h]
  · rw [if_pos (by omega), if_pos h, h]
  · rw [if_neg (by omega), if_neg (by omega), if_neg (by omega)]

end Chiptune.Wavetable
