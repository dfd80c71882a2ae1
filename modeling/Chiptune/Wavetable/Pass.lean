import Chiptune.Wavetable.Schedule
import Chiptune.Wavetable.Voice

/-!
# A pass of the microprogram is a sample

The 4 x 32 micro-steps of `wt_ram` take the channels one after the other through
one set of working registers and one RAM port. Each channel's run is followed
here in five stretches: the phase addition, the loads up to the ROM byte, the
envelope, the write-back and the empty steps.
-/

namespace Chiptune.Wavetable

/-! ## The byte adder -/

theorem Engine.add9_toNat (a b : Byte) (c : Bool) :
    (add9 a b c).toNat = a.toNat + b.toNat + c.toNat := by
  have ha := a.isLt
  have hb := b.isLt
  have hc := c.toNat_le
  simp only [add9, BitVec.toNat_add, BitVec.toNat_setWidth, BitVec.toNat_ofBool]
  omega

/-- The byte that `ram_wdata` takes is the one that the accumulator takes. -/
theorem Engine.add9_low (a b : Byte) (c : Bool) :
    (add9 a b c).setWidth 8 = a + b + (BitVec.ofBool c).setWidth 8 := by
  apply BitVec.eq_of_toNat_eq
  rw [BitVec.toNat_setWidth, add9_toNat]
  simp [BitVec.toNat_add, BitVec.toNat_setWidth, BitVec.toNat_ofBool]

theorem Engine.add9_carry (a b : Byte) (c : Bool) :
    ((add9 a b c).getLsbD 8).toNat = (a.toNat + b.toNat + c.toNat) / 256 := by
  have hlt := (add9 a b c).isLt
  rw [← add9_toNat, BitVec.getLsbD, Nat.toNat_testBit]
  omega

/-- Two byte additions, the carry of the low one into the high one, add words. -/
theorem Engine.add9_pair (hi lo shi slo : Byte) :
    (add9 hi shi ((add9 lo slo false).getLsbD 8)).setWidth 8 ++
      (add9 lo slo false).setWidth 8 = (hi ++ lo) + (shi ++ slo) := by
  have carry := add9_carry lo slo false
  have h0 := lo.isLt
  have h1 := slo.isLt
  apply BitVec.eq_of_toNat_eq
  rw [BitVec.toNat_add, toNat_append, toNat_append, toNat_append, BitVec.toNat_setWidth,
    BitVec.toNat_setWidth, add9_toNat, add9_toNat, carry, Bool.toNat_false]
  omega

/-! ## The envelope step -/

theorem envelope_eq (v : Voice) {e : Engine} {io : Byte} (level : e.levelR = v.level)
    (env : e.envStateR = v.env) (cnt : e.envCntR = v.envCnt) (rate : io = v.rate) :
    e.envelope io = { e with
      envRateR := v.rate
      envCntR := v.next.envCnt
      levelR := v.next.level
      envStateR := v.next.env } := by
  have full : v.level < 15 ↔ ¬ v.level = 15 := by
    rw [BitVec.lt_def, ← BitVec.toNat_inj]
    have := v.level.isLt
    simp
    omega
  have empty : 0 < v.level ↔ ¬ v.level = 0 := by
    rw [BitVec.lt_def, ← BitVec.toNat_inj]
    simp
    omega
  have due : v.rate ≤ v.envCnt ↔ ¬ v.envCnt < v.rate := BitVec.not_lt.symm
  simp only [Engine.envelope, Voice.next, Voice.envelope, Voice.On, level, env, cnt, rate, full,
    empty, due]
  split_ifs <;> simp_all

/-! ## The micro-steps of one channel -/

theorem romAddr_bytes (v : Voice) :
    let p := v.phase + v.step
    v.wave ++ v.level ++ v.vol ++ (p.extractLsb' 8 8).extractLsb' 0 5 ++
      (p.setWidth 8).extractLsb' 6 2 = v.romAddr := by
  apply BitVec.eq_of_toNat_eq
  simp only [Voice.romAddr, toNat_append, BitVec.extractLsb'_toNat, BitVec.toNat_setWidth,
    Nat.shiftRight_eq_div_pow]
  omega

section
variable (board : Board) (ch : BitVec 2)

/-- Micro-step `k` of channel `ch` on the engine and the RAM. -/
def microStep (k : Nat) (x : Engine × Ram) : Engine × Ram :=
  let io := x.1.ramIo board.float x.2
  let e := x.1.rest.micro ch io (board.rom x.1.romAddr) io io k
  (e, e.stored x.2)

/-- The `n` micro-steps from `k` on. -/
def microRun (k : Nat) (x : Engine × Ram) : Nat → Engine × Ram
  | 0 => x
  | n + 1 => microStep board ch (k + n) (microRun k x n)

theorem microRun_add (k m n : Nat) (x : Engine × Ram) :
    microRun board ch k x (m + n) = microRun board ch (k + m) (microRun board ch k x m) n := by
  induction n with
  | zero => rfl
  | succ n ih => rw [← Nat.add_assoc, microRun, microRun, ih, Nat.add_assoc]

/-- What the phase addition has stored. -/
def phaseStored (sram : Ram) : Ram :=
  let v := (block sram ch).voice
  Function.update (Function.update sram (chAddr ch oPhaseLo) ((v.phase + v.step).setWidth 8))
    (chAddr ch oPhaseHi) ((v.phase + v.step).extractLsb' 8 8)

theorem phaseStored_at (sram : Ram) (o : BitVec 4) (lo : o ≠ oPhaseLo) (hi : o ≠ oPhaseHi) :
    phaseStored ch sram (chAddr ch o) = sram (chAddr ch o) := by
  simp only [phaseStored, update_chAddr, if_neg lo, if_neg hi]

/-- The phase addition, low byte first. -/
theorem micro_phase (e : Engine) (sram : Ram) :
    let v := (block sram ch).voice
    ∃ c, microRun board ch 0 (e, sram) 6 =
      ({ e with
          accLo := (v.phase + v.step).setWidth 8
          accHi := (v.phase + v.step).extractLsb' 8 8
          carry := c
          port := .write
          ramAddr := chAddr ch oPhaseHi
          ramWdata := (v.phase + v.step).extractLsb' 8 8 }, phaseStored ch sram) := by
  let b := block sram ch
  let lo := Engine.add9 (b oPhaseLo) (b oStepLo) false
  let hi := Engine.add9 (b oPhaseHi) (b oStepHi) (lo.getLsbD 8)
  have pair : hi.setWidth 8 ++ lo.setWidth 8 = b.voice.phase + b.voice.step :=
    Engine.add9_pair _ _ _ _
  refine ⟨hi.getLsbD 8, ?_⟩
  rw [phaseStored, ← pair, append_low, append_high]
  simp only [microRun, microStep, Engine.micro, Engine.ramIo, Engine.readRam, Engine.writeRam,
    Engine.rest, Engine.stored, update_chAddr, Nat.zero_add, hi, lo, b, block, Engine.add9_low,
    BitVec.ofBool_false]
  simp [oPhaseLo, oPhaseHi, oStepLo, oStepHi]

theorem micro_load (e : Engine) (sram : Ram) :
    let v := (block sram ch).voice
    let a := v.wave ++ v.level ++ v.vol ++ e.accHi.extractLsb' 0 5 ++ e.accLo.extractLsb' 6 2
    microRun board ch 6 (e, sram) 6 =
      ({ e with
          levelR := v.level
          volR := v.vol
          waveIdxR := v.wave
          envStateR := v.env
          romAddr := if v.On then a else e.romAddr
          mixSum := if v.On then e.mixSum + (board.rom a).setWidth 16 else e.mixSum
          port := .idle
          ramAddr := chAddr ch oEnvState }, sram) := by
  have on : (block sram ch).voice.On ↔ (sram (chAddr ch oEnvState)).setWidth 3 ≠ (0 : BitVec 3) :=
    Iff.rfl
  simp only [microRun, microStep, Engine.micro, Engine.ramIo, Engine.readRam, Engine.rest,
    Engine.stored, Block.voice, block] at on ⊢
  split <;> simp_all

theorem micro_env (e : Engine) (sram : Ram) (v : Voice) (level : e.levelR = v.level)
    (env : e.envStateR = v.env) (cnt : sram (chAddr ch oEnvCnt) = v.envCnt)
    (rate : sram (chAddr ch oEnvRate) = v.rate) :
    microRun board ch 12 (e, sram) 3 =
      ({ e with
          envRateR := v.rate
          envCntR := v.next.envCnt
          levelR := v.next.level
          envStateR := v.next.env
          port := .idle
          ramAddr := chAddr ch oEnvRate }, sram) := by
  simp only [microRun, microStep, Engine.micro, Engine.ramIo, Engine.readRam, Engine.rest,
    Engine.stored, cnt, rate]
  rw [envelope_eq v]
  exacts [level, env, rfl, rfl]

theorem micro_store (e : Engine) (sram : Ram) :
    let debug := if e.envStateR ≠ 0 then board.rom e.romAddr else 0
    microRun board ch 15 (e, sram) 4 =
      ({ e with
          chActive := Function.update e.chActive ch (e.envStateR != 0)
          port := .write
          ramAddr := chAddr ch oDacOut
          ramWdata := debug },
        Function.update (Function.update (Function.update (Function.update sram
          (chAddr ch oEnvState) (e.envStateR.setWidth 8)) (chAddr ch oLevel)
          (e.levelR.setWidth 8)) (chAddr ch oEnvCnt) e.envCntR) (chAddr ch oDacOut) debug) := by
  simp only [microRun, microStep, Engine.micro, Engine.writeRam, Engine.rest, Engine.stored]

theorem micro_rest (e : Engine) (sram : Ram) :
    microRun board ch 19 (e, sram) 13 = (e.rest, sram) := by
  simp only [microRun, microStep, Engine.micro, Engine.rest, Engine.stored]

/-- The first twelve steps: the new phase is stored and the voice has sounded. -/
theorem micro_sound (e : Engine) (sram : Ram) :
    let v := (block sram ch).voice
    ∃ e', microRun board ch 0 (e, sram) 12 = (e', phaseStored ch sram) ∧
      e'.levelR = v.level ∧ e'.envStateR = v.env ∧ (v.On → e'.romAddr = v.romAddr) ∧
      e'.mixSum = e.mixSum + (v.sound board.rom).setWidth 16 ∧ e'.dacOut = e.dacOut := by
  intro v
  obtain ⟨c, phase⟩ := micro_phase board ch e sram
  have keep (o : BitVec 4) (lo : o ≠ oPhaseLo) (hi : o ≠ oPhaseHi) :
      block (phaseStored ch sram) ch o = block sram ch o := phaseStored_at ch sram o lo hi
  have level : (block (phaseStored ch sram) ch).voice.level = v.level :=
    congrArg (BitVec.setWidth 4) (keep oLevel (by decide) (by decide))
  have env : (block (phaseStored ch sram) ch).voice.env = v.env :=
    congrArg (BitVec.setWidth 3) (keep oEnvState (by decide) (by decide))
  have vol : (block (phaseStored ch sram) ch).voice.vol = v.vol :=
    congrArg (BitVec.setWidth 5) (keep oVol (by decide) (by decide))
  have wave : (block (phaseStored ch sram) ch).voice.wave = v.wave :=
    congrArg (BitVec.setWidth 3) (keep oWaveIdx (by decide) (by decide))
  rw [microRun_add board ch 0 6 6, phase, micro_load]
  refine ⟨_, rfl, level, env, ?_, ?_, rfl⟩
  · intro on
    have on' : (block (phaseStored ch sram) ch).voice.On := by rwa [Voice.On, env]
    change (if (block (phaseStored ch sram) ch).voice.On then _ else _) = _
    rw [if_pos on', level, vol, wave]
    exact romAddr_bytes v
  · change (if (block (phaseStored ch sram) ch).voice.On then _ else _) = _
    rw [Voice.sound]
    by_cases on : v.On
    · rw [if_pos on, if_pos (by rwa [Voice.On, env]), level, vol, wave, ← romAddr_bytes v]
    · rw [if_neg on, if_neg (by rwa [Voice.On, env])]
      simp

/-- The last twenty steps: the envelope and the write-back. -/
theorem micro_finish (e : Engine) (sram : Ram) (v : Voice) (level : e.levelR = v.level)
    (env : e.envStateR = v.env) (cnt : sram (chAddr ch oEnvCnt) = v.envCnt)
    (rate : sram (chAddr ch oEnvRate) = v.rate) :
    let w := v.next
    let debug := if w.On then board.rom e.romAddr else 0
    ∃ e', microRun board ch 12 (e, sram) 20 = (e',
        Function.update (Function.update (Function.update (Function.update sram
          (chAddr ch oEnvState) (w.env.setWidth 8)) (chAddr ch oLevel) (w.level.setWidth 8))
          (chAddr ch oEnvCnt) w.envCnt) (chAddr ch oDacOut) debug) ∧
      e'.mixSum = e.mixSum ∧ e'.dacOut = e.dacOut := by
  rw [microRun_add board ch 12 7 13, microRun_add board ch 12 3 4,
    micro_env board ch e sram v level env cnt rate, micro_store, micro_rest]
  exact ⟨_, rfl, rfl, rfl⟩

theorem next_on (v : Voice) (on : v.next.On) : v.On := by
  by_contra off
  rw [Voice.next, if_pos off] at on
  exact off on

theorem next_phase (v : Voice) : v.next.phase = v.phase + v.step := by
  simp only [Voice.next, Voice.envelope]
  split_ifs <;> rfl

/-- **A channel's run** gives its record its step and the mix its sound. -/
theorem micro_channel (e : Engine) (sram : Ram) :
    let b := block sram ch
    ∃ e', microRun board ch 0 (e, sram) 32 = (e', setBlock sram ch (b.tick board.rom)) ∧
      e'.mixSum = e.mixSum + (b.voice.sound board.rom).setWidth 16 ∧ e'.dacOut = e.dacOut := by
  intro b
  obtain ⟨e1, first, level, env, addr, sum, dac⟩ := micro_sound board ch e sram
  obtain ⟨e2, last, sum', dac'⟩ := micro_finish board ch e1 (phaseStored ch sram) b.voice level env
    (phaseStored_at ch sram _ (by decide) (by decide))
    (phaseStored_at ch sram _ (by decide) (by decide))
  refine ⟨e2, ?_, sum'.trans sum, dac'.trans dac⟩
  rw [microRun_add board ch 0 12 20, first, last]
  have debug : (if b.voice.next.On then board.rom e1.romAddr else 0) =
      if b.voice.next.On then board.rom b.voice.romAddr else 0 := by
    by_cases on : b.voice.next.On
    · rw [if_pos on, if_pos on, addr (next_on _ on)]
    · rw [if_neg on, if_neg on]
  rw [debug]
  congr 1
  funext a
  by_cases inside : a.toNat / 16 = ch.toNat
  · rw [setBlock, if_pos inside, chAddr_split a ch inside]
    generalize a.setWidth 4 = o
    simp only [phaseStored, update_chAddr, Block.tick, next_phase, chAddr_low]
    rfl
  · rw [setBlock, if_neg inside, phaseStored]
    simp only [update_outside _ _ _ _ _ inside]
end

/-! ## The four channels -/

section
variable (board : Board) (x : Engine × Ram)

/-- The first `n` of the 128 micro-steps. -/
def passRun : Nat → Engine × Ram
  | 0 => x
  | n + 1 => microStep board (BitVec.ofNat 2 (n / 32)) (n % 32) (passRun n)

theorem passRun_succ (n : Nat) : passRun board x (n + 1) =
    microStep board (BitVec.ofNat 2 (n / 32)) (n % 32) (passRun board x n) := rfl

theorem passRun_channel (c k : Nat) (hk : k ≤ 32) : passRun board x (32 * c + k) =
    microRun board (BitVec.ofNat 2 c) 0 (passRun board x (32 * c)) k := by
  induction k with
  | zero => rfl
  | succ k ih =>
    rw [← Nat.add_assoc, passRun, ih (by omega), microRun, Nat.zero_add,
      show (32 * c + k) / 32 = c by omega, show (32 * c + k) % 32 = k by omega]

theorem mixFirst_succ (rom : Rom) (sram : Ram) (n : Nat) : mixFirst rom sram (n + 1) =
    mixFirst rom sram n + ((block sram (BitVec.ofNat 2 n)).voice.sound rom).toNat := by
  simp [mixFirst, List.range_succ]

/-- After `c` channels their records have taken the step and their sounds are in
the mix. -/
theorem passRun_spec (c : Nat) (hc : c ≤ 4) :
    (passRun board x (32 * c)).2 = sampleFirst board.rom x.2 c ∧
      (passRun board x (32 * c)).1.mixSum =
        x.1.mixSum + BitVec.ofNat 16 (mixFirst board.rom x.2 c) ∧
      (passRun board x (32 * c)).1.dacOut = x.1.dacOut := by
  induction c with
  | zero =>
    refine ⟨funext fun a => ?_, ?_, rfl⟩
    · simp [passRun, sampleFirst]
    · simp [passRun, mixFirst]
  | succ c ih =>
    obtain ⟨ram, sum, dac⟩ := ih (by omega)
    obtain ⟨e, channel, sum', dac'⟩ := micro_channel board (BitVec.ofNat 2 c)
      (passRun board x (32 * c)).1 (passRun board x (32 * c)).2
    have same := block_sampleFirst board.rom x.2 c (by omega)
    rw [ram, same] at sum' channel
    rw [← ram] at channel
    rw [Nat.mul_succ, passRun_channel board x c 32 (Nat.le_refl _), channel]
    refine ⟨?_, ?_, dac'.trans dac⟩
    · rw [ram, ← sampleFirst_succ board.rom x.2 c (by omega)]
    · rw [sum', sum, mixFirst_succ]
      apply BitVec.eq_of_toNat_eq
      simp only [BitVec.toNat_add, BitVec.toNat_ofNat, BitVec.toNat_setWidth]
      omega

end

/-! ## The sample period -/

section
variable (board : Board) (i : Cycle) (c : Chip) (n : Nat)

/-- Between a pass start and the next one, with the slot empty and no trigger. -/
structure Chip.Quiet : Prop where
  live : i.Live
  free : c.slot.pending = false
  calm : c.triggers = false

variable {board i c n}

theorem slot_free (quiet : c.Quiet i) : (c.cycle board i).slot.pending = false := by
  rw [(c.cycle_spec board i quiet.live).2.1, Chip.slotNext, trigger_calm quiet.calm, Slot.advance]
  simp [quiet.free]

theorem eng_start (live : i.Live) (start : c.time.sampleCnt = 0) :
    (c.cycle board i).eng = { c.eng.rest with mixSum := 0 } ∧ (c.cycle board i).sram = c.sram := by
  have hs : c.time.sampleStart = true := by simp [Timer.sampleStart, start]
  obtain ⟨-, -, eng, sram⟩ := c.cycle_spec board i live
  have step : c.engStep board = { c.eng.rest with mixSum := 0 } := by
    simp [Chip.engStep, Chip.engNext, Timer.idle, hs, Engine.pass]
  rw [eng, sram, step]
  exact ⟨rfl, rfl⟩

/-- A clock of the pass runs one micro-step; the last also drives the DAC. -/
theorem engStep_pass (board : Board) (pos : c.time.At n) (hn : n < 128) : c.engStep board =
    let e := (microStep board (BitVec.ofNat 2 (n / 32)) (n % 32) (c.eng, c.sram)).1
    if n = 127 then e.output c.eng.mixSum else e := by
  obtain ⟨hs, idle, -⟩ := Timer.at_next c.time n (by omega) pos
  have idle : c.time.idle = false := by
    rw [Bool.eq_false_iff]
    exact fun h => absurd (idle.mp h) (by omega)
  have ustep : c.time.ustep.toNat = n := by
    rw [pos.step]
    omega
  have uch : c.time.uch = BitVec.ofNat 2 (n / 32) := by
    apply BitVec.eq_of_toNat_eq
    rw [Timer.uch, BitVec.extractLsb'_toNat, ustep, BitVec.toNat_ofNat, Nat.shiftRight_eq_div_pow]
  have ums : c.time.ums.toNat = n % 32 := by
    rw [Timer.ums, BitVec.extractLsb'_toNat, ustep]
    rfl
  have last : c.time.ustep = 127 ↔ n = 127 := by
    rw [← BitVec.toNat_inj, ustep]
    rfl
  simp only [Chip.engStep, Chip.engNext, idle, Engine.pass, hs, uch, ums, last, microStep,
    Bool.false_eq_true, ↓reduceIte]

theorem eng_pass (live : i.Live) (pos : c.time.At n) (hn : n < 127) :
    ((c.cycle board i).eng, (c.cycle board i).sram) =
      microStep board (BitVec.ofNat 2 (n / 32)) (n % 32) (c.eng, c.sram) := by
  obtain ⟨-, -, eng, sram⟩ := c.cycle_spec board i live
  have step := engStep_pass board pos (by omega)
  rw [eng, sram, step, if_neg (by omega)]
  rfl

theorem eng_last (live : i.Live) (pos : c.time.At 127) :
    (c.cycle board i).eng.dacOut = c.eng.mixSum.setWidth 8 ∧
      (c.cycle board i).sram = (microStep board 3 31 (c.eng, c.sram)).2 := by
  obtain ⟨-, -, eng, sram⟩ := c.cycle_spec board i live
  have step := engStep_pass board pos (by omega)
  rw [eng, sram, step]
  exact ⟨rfl, rfl⟩

theorem eng_idle (quiet : c.Quiet i) (idle : c.time.idle = true) :
    (c.cycle board i).eng = c.eng.rest ∧ (c.cycle board i).sram = c.sram := by
  obtain ⟨-, -, eng, sram⟩ := c.cycle_spec board i quiet.live
  have step : c.engStep board = c.eng.rest := by
    simp [Chip.engStep, Chip.engNext, idle, Engine.idle, Slot.lastNote, Slot.store, quiet.free]
  rw [eng, sram, step]
  exact ⟨rfl, rfl⟩

end

/-- The clocks since a pass start without a reset. -/
theorem time_since {board : Board} {inputs : Nat → Cycle} {c : Chip} (start : c.time.sampleCnt = 0)
    (n : Nat) (hn : n ≤ 311) (live : ∀ k, k ≤ n → (inputs k).Live) :
    (c.run board inputs (n + 1)).time.At n := by
  have next (k : Nat) (hk : k ≤ n) : (c.run board inputs (k + 1)).time =
      (c.run board inputs k).time.next :=
    ((c.run board inputs k).cycle_spec board (inputs k) (live k hk)).1
  induction n with
  | zero =>
    rw [next 0 (Nat.le_refl 0)]
    exact Timer.at_start c.time start
  | succ n ih =>
    have before := ih (by omega) (fun k hk => live k (by omega)) fun k hk => next k (by omega)
    rw [next (n + 1) (Nat.le_refl _)]
    exact (Timer.at_next _ n (by omega) before).2.2

/-- A pass starts, and no reset comes until its end. -/
structure Chip.Passes (inputs : Nat → Cycle) (c : Chip) : Prop where
  start : c.time.sampleCnt = 0
  live : ∀ n, n < 129 → (inputs n).Live

section
variable {board : Board} {inputs : Nat → Cycle} {c : Chip}

theorem pass_time (h : c.Passes inputs) (n : Nat) (hn : n ≤ 128) :
    (c.run board inputs (n + 1)).time.At n :=
  time_since h.start n (by omega) fun k hk => h.live k (by omega)

theorem pass_run (h : c.Passes inputs) (n : Nat) (hn : n ≤ 127) :
    ((c.run board inputs (n + 1)).eng, (c.run board inputs (n + 1)).sram) =
      passRun board ({ c.eng.rest with mixSum := 0 }, c.sram) n := by
  induction n with
  | zero =>
    obtain ⟨eng, sram⟩ := @eng_start board _ _ (h.live 0 (by omega)) h.start
    exact Prod.ext eng sram
  | succ n ih =>
    rw [passRun, ← ih (by omega)]
    exact eng_pass (h.live (n + 1) (by omega)) (pass_time h n (by omega)) (by omega)

theorem pass_mix (h : c.Passes inputs) :
    (c.run board inputs 128).eng.mixSum = BitVec.ofNat 16 (mix board.rom c.sram) := by
  have spec := passRun_spec board ({ c.eng.rest with mixSum := 0 }, c.sram) 4 (Nat.le_refl 4)
  have last := passRun_succ board ({ c.eng.rest with mixSum := 0 }, c.sram) 127
  rw [← pass_run h 127 (Nat.le_refl _)] at last
  have sum := spec.2.1
  rw [last] at sum
  exact sum.trans (BitVec.zero_add _)

/-- At its end the DAC has the low byte of the mix and the records their step. -/
theorem pass_end (h : c.Passes inputs) :
    (c.run board inputs 129).sram = sample board.rom c.sram ∧
      (c.run board inputs 129).eng.dacOut = BitVec.ofNat 8 (mix board.rom c.sram) := by
  obtain ⟨dac, sram⟩ := @eng_last board _ _ (h.live 128 (by omega)) (pass_time h 127 (by omega))
  have spec := passRun_spec board ({ c.eng.rest with mixSum := 0 }, c.sram) 4 (Nat.le_refl 4)
  have last := passRun_succ board ({ c.eng.rest with mixSum := 0 }, c.sram) 127
  rw [← pass_run h 127 (Nat.le_refl _)] at last
  have ram := spec.1
  rw [last] at ram
  refine ⟨sram.trans ram, dac.trans ?_⟩
  rw [pass_mix h]
  apply BitVec.eq_of_toNat_eq
  simp only [BitVec.toNat_setWidth, BitVec.toNat_ofNat]
  omega

end

/-- What a sample period needs: it starts at a pass start with an empty slot, and no
trigger comes. -/
structure Chip.QuietPeriod (board : Board) (inputs : Nat → Cycle) (c : Chip) : Prop where
  start : c.time.sampleCnt = 0
  free : c.slot.pending = false
  live : ∀ n, n < 312 → (inputs n).Live
  calm : ∀ n, n < 312 → (c.run board inputs n).triggers = false

section
variable {board : Board} {inputs : Nat → Cycle} {c : Chip}

theorem period_quiet (h : c.QuietPeriod board inputs) (n : Nat) (hn : n < 312) :
    (c.run board inputs n).Quiet (inputs n) := by
  refine ⟨h.live n hn, ?_, h.calm n hn⟩
  induction n with
  | zero => exact h.free
  | succ n ih => exact slot_free ⟨h.live n (by omega), ih (by omega), h.calm n (by omega)⟩

theorem period_time (h : c.QuietPeriod board inputs) (n : Nat) (hn : n ≤ 311) :
    (c.run board inputs (n + 1)).time.At n :=
  time_since h.start n hn fun k hk => h.live k (by omega)

theorem period_passes (h : c.QuietPeriod board inputs) : c.Passes inputs :=
  ⟨h.start, fun n hn => h.live n (by omega)⟩

theorem period_end (h : c.QuietPeriod board inputs) (n : Nat) (hn : 128 ≤ n) (hn' : n ≤ 311) :
    (c.run board inputs (n + 1)).sram = sample board.rom c.sram ∧
      (c.run board inputs (n + 1)).eng.dacOut = BitVec.ofNat 8 (mix board.rom c.sram) := by
  induction hn with
  | refl => exact pass_end (period_passes h)
  | @step n hn ih =>
    obtain ⟨sram, dac⟩ := ih (by omega)
    have idle := (Timer.at_next _ n (by omega) (period_time h n (by omega))).2.1.mpr hn
    obtain ⟨eng, ram⟩ := eng_idle (period_quiet h (n + 1) (by omega)) idle
    exact ⟨ram.trans sram, (congrArg Engine.dacOut eng).trans dac⟩

/-- **A pass refines a sample.** Over a quiet sample period the RAM takes the step of
all four voices at once, and the DAC takes the low byte of their mix. -/
theorem pass_refines_sample (board : Board) (inputs : Nat → Cycle) (c : Chip)
    (h : c.QuietPeriod board inputs) :
    let s := c.run board inputs 312
    s.sram = sample board.rom c.sram ∧
      (c.run board inputs 128).eng.mixSum = BitVec.ofNat 16 (mix board.rom c.sram) ∧
      s.eng.dacOut = BitVec.ofNat 8 (mix board.rom c.sram) ∧
      s.time.sampleCnt = 0 ∧ s.slot.pending = false := by
  obtain ⟨sram, dac⟩ := period_end h 311 (by omega) (by omega)
  have cnt := (period_time h 311 (by omega)).cnt
  refine ⟨sram, pass_mix (period_passes h), dac, BitVec.eq_of_toNat_eq (by rw [cnt]; rfl), ?_⟩
  exact slot_free (period_quiet h 311 (by omega))

end

/-- Channel 0 sustains on a ROM of sevens, the other voices are off. -/
theorem sample_seven :
    let board : Board := { rom := fun _ => 7, float := 0, clash := fun a _ => a }
    let c := { Chip.initial 0 (Function.update (fun _ => 0) (chAddr 0 oEnvState) 2) with
      time := { sampleCnt := 0, ustep := totalSteps } }
    (c.run board (fun _ => Cycle.idle) 312).eng.dacOut = 7 := by
  intro board c
  have clear := c.run_clear board (fun _ => Cycle.idle) (fun _ => ⟨idle_live, rfl⟩) ⟨rfl, rfl, rfl⟩
  obtain ⟨-, -, dac, -⟩ := pass_refines_sample board (fun _ => Cycle.idle) c
    ⟨rfl, rfl, fun _ _ => idle_live, fun n _ => (clear n).calm⟩
  exact dac.trans (by decide)

end Chiptune.Wavetable
