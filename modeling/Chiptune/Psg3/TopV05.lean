import Chiptune.Psg3.Folds
import Chiptune.Psg3.Top

/-!
# The PSG3 v0.5 chip

`psg3_top` of `PSG3 v0.5/rtl/psg3_top.v` as a whole: the square and the noise channel on
the crystal divided by 63, and the waveform channel on the crystal itself. `prescaled_law`
is what is heard of all three once the bus rests.
-/

namespace Chiptune.Psg3

open Divider Period

/-! ## The waveform channel comparing -/

namespace Uni

/-- The length of a waveform, in steps. -/
def waveLen (w : BitVec 2) : Nat := if w = 1 then 30 else 16

/-- How many of the steps are below the threshold. -/
def waveHigh (w : BitVec 2) (duty : BitVec 4) : Nat :=
  if w = 1 then 2 * duty.toNat - 1 else duty.toNat

theorem triangle_below (s : Wave) (duty : BitVec 4) :
    Pulses 30 (2 * duty.toNat - 1) fun k => decide ((s.steps 1 k).q < duty) := by
  have inside : s.place ≤ 29 := by
    have fits := s.q.isLt
    unfold Wave.place
    split <;> omega
  have fits := duty.isLt
  have pattern : ∀ (duty : BitVec 4) (r : Fin 30),
      triangle (61 - duty.toNat + r.val) < duty ↔ r.val < 2 * duty.toNat - 1 := by decide +kernel
  refine ⟨61 - duty.toNat - s.place, fun n hn => ?_⟩
  obtain ⟨r, rfl⟩ := Nat.exists_eq_add_of_le hn
  have place : s.place + (61 - duty.toNat - s.place + r) = 61 - duty.toNat + r := by omega
  have turn : triangle (61 - duty.toNat + r) = triangle (61 - duty.toNat + r % 30) := by
    rw [← triangle_mod, ← triangle_mod (61 - duty.toNat + r % 30), Nat.add_mod_mod]
  rw [decide_eq_true_eq, Wave.steps_triangle, place, turn, Nat.add_sub_cancel_left]
  exact pattern duty ⟨r % 30, Nat.mod_lt _ (by decide)⟩

theorem steps_below (s : Wave) (w : BitVec 2) (duty : BitVec 4) :
    Pulses (waveLen w) (waveHigh w duty) fun k => decide ((s.steps w k).q < duty) := by
  by_cases tri : w = 1
  · subst tri
    exact triangle_below s duty
  · have line := s.shape_single w tri
    have q0 := (s.steps w 0).q.isLt
    have fits := duty.isLt
    rw [Shape, if_neg tri] at line
    rw [waveLen, if_neg tri, waveHigh, if_neg tri]
    by_cases reverse : w = 3
    · rw [if_pos reverse] at line
      refine ⟨(s.steps w 0).q.toNat + 17 - duty.toNat, fun n hn => ?_⟩
      obtain ⟨r, rfl⟩ := Nat.exists_eq_add_of_le hn
      rw [decide_eq_true_eq, line, BitVec.lt_def, BitVec.toNat_sub, BitVec.toNat_ofNat]
      omega
    · rw [if_neg reverse] at line
      refine ⟨16 - (s.steps w 0).q.toNat, fun n hn => ?_⟩
      obtain ⟨r, rfl⟩ := Nat.exists_eq_add_of_le hn
      rw [decide_eq_true_eq, line, BitVec.lt_def, BitVec.toNat_add, BitVec.toNat_ofNat]
      omega

variable (v : Voice) (u : Uni)

theorem altb_pulses : Pulses ((4096 - v.period12.toNat) * waveLen v.waveSel)
    ((4096 - v.period12.toNat) * waveHigh v.waveSel v.duty) fun n => (u.runFrom v n).altb v := by
  have fits := v.period12.isLt
  have some : 0 < waveLen v.waveSel := by
    unfold waveLen
    split <;> decide
  let s : Wave := ⟨(u.posedge v).q, (u.posedge v).dirQ⟩
  have held := (steps_below s v.waveSel v.duty).held ((u.clock v).reloads_every v) (by omega) some
  have same (n : Nat) : (u.runFrom v (1 + n)).altb v =
      decide ((s.steps v.waveSel (stepCount ((u.clock v).reloads v) n)).q < v.duty) := by
    have shows := runFrom_shows (u.clock_settles v) n
    rw [runFrom_add, altb]
    exact congrArg (fun q => decide (q < v.duty)) shows.clean
  apply Pulses.later 1
  simp only [same]
  exact held

theorem audio_compare (mode : v.modeSel = true) :
    u.audio v = if u.altb v then 15 * v.vol.setWidth 8 else 0 := by
  have gates : ∀ (high : Bool) (vol : BitVec 4),
      (((if high then 0xF#4 else 0) ++ 0#4 : Byte).setWidth 16 *
        (vol ++ 0#4 : Byte).setWidth 16).extractLsb' 8 8 =
          if high then 15 * vol.setWidth 8 else 0 := by decide
  rw [audio, waveDb, sel, mode, hc157_select]
  exact gates (u.altb v) v.vol

end Uni

/-! ## The chip -/

structure Top5 where
  bus : Bus
  /-- `sq_pre_hi_q`, `sq_pre_lo_q` -/
  pre : Byte
  ch : Channels
  uni : Uni

/-- Channels CH0 and CH1 as in v0.4, with the noise control in register 2. -/
def moved (regs : Fin 8 → Byte) : Fin 8 → Byte := fun n => if n = 6 then regs 2 else regs n

/-- Registers 3, 4 and 5. -/
def voice (regs : Fin 8 → Byte) : Voice where
  period12 := (regs 4).extractLsb' 4 4 ++ regs 3
  waveSel := (regs 5).extractLsb' 5 2
  duty := (regs 5).extractLsb' 0 4
  modeSel := (regs 5).getLsbD 4
  vol := (regs 4).extractLsb' 0 4

namespace Top5

def preTcLo (pre : Byte) : Bool := hc161Tc true (nibble pre 0)
def preTcHi (pre : Byte) : Bool := hc161Tc (preTcLo pre) (nibble pre 1)

/-- Two 161 that load `0xC1`. -/
def preNext (rstN : Bool) (pre : Byte) : Byte :=
  let peN := !(preTcHi pre && preTcHi pre)
  hc161 rstN peN (preTcLo pre) (preTcLo pre) 0xC (nibble pre 1) ++
    hc161 rstN peN true true 0x1 (nibble pre 0)

inductive Event where
  | rise
  | fall
  | pin (cmd : Cmd) (i : Fin 8)

section
variable (hc153 : BitVec 2 → BitVec 4 → Bool) (s : Top5)

/-- The waveform channel at a rising `clk`; the counter stands still with `rst_n` low. -/
def uniRise (rstN : Bool) (v : Voice) (u : Uni) : Uni :=
  if rstN then u.posedge v else { u.posedge v with cnt := 0 }

def uniFall (rstN : Bool) (v : Voice) (u : Uni) : Uni :=
  if rstN then u.negedge v
  else { u with
    dirQ := hc112 true false (u.atExtreme v) (u.atExtreme v) u.dirQ
    waveClean := 0 }

/-- `sq_clk` is the carry of the counter that divides by 63. -/
def event : Event → Top5
  | .rise =>
    let rstN := Top.rstN s.bus.d
    let pre := preNext rstN s.pre
    let sqRise := !preTcHi s.pre && preTcHi pre
    { s with
      pre
      ch := if sqRise then s.ch.clock hc153 (moved s.bus.regs) rstN else s.ch
      uni := uniRise rstN (voice s.bus.regs) s.uni }
  | .fall => { s with uni := uniFall (Top.rstN s.bus.d) (voice s.bus.regs) s.uni }
  | .pin cmd i =>
    let bus := s.bus.switch cmd i
    let resets := Top.rstN s.bus.d && !Top.rstN bus.d
    let ch := Top.reset (Top.rstN s.bus.d) (Top.rstN bus.d) s.ch
    { bus
      pre := if resets then 0 else s.pre
      ch := ch.settle hc153 (moved bus.regs) (s.ch.noiseClk hc153 (moved s.bus.regs))
      uni := if resets then { s.uni with cnt := 0, dirQ := false, waveClean := 0 } else s.uni }

def run (es : List Event) : Top5 := es.foldl (event hc153) s

/-- The bus rests for `n` periods of the crystal. -/
def rest (n : Nat) : Top5 := s.run hc153 (List.replicate n [Event.rise, Event.fall]).flatten

def sqAudio : Byte := s.ch.ch0.sqAudio (moved s.bus.regs)
def nzAudio : Byte := s.ch.nzAudio (moved s.bus.regs)
def uniAudio : Byte := s.uni.audio (voice s.bus.regs)

end

def powerUp (d c : Byte) : Top5 :=
  ⟨⟨d, c, 0, fun _ => 0⟩, 0, ⟨Ch0.reset, 0, Lfsr.powerUp⟩, Uni.reset⟩

/-! ## The prescaler -/

/-- The prescaler with `rst_n` high. -/
def preRun (pre : Byte) (n : Nat) : Byte :=
  Clocked.run (fun (_ : Unit) pre => preNext true pre) (fun _ => ()) pre n

/-- `sq_clk` rises with the clock. -/
def sqTicks (pre : Byte) (n : Nat) : Bool :=
  !preTcHi (preRun pre n) && preTcHi (preRun pre (n + 1))

theorem preTcHi_eq (pre : Byte) : preTcHi pre = (pre == BitVec.allOnes 8) :=
  Ch0.tcHi_eq ⟨pre, false, false, false, false⟩

theorem preNext_eq (pre : Byte) :
    preNext true pre = if pre = BitVec.allOnes 8 then 0xC1 else pre + 1 :=
  Ch0.cntNext_eq (fun _ => 0xC1) ⟨pre, false, false, false, false⟩

theorem sqTicks_every (pre : Byte) : StepsEvery 63 (sqTicks pre) := by
  have full := @full_stepsEvery 8 0xC1 (preRun pre) fun n => preNext_eq (preRun pre n)
  have every : StepsEvery 63 fun n => preTcHi (preRun pre n) := by
    simp only [preTcHi_eq]
    exact full
  exact stepsEvery_rise every (by decide) (by decide)

/-! ## The chip at rest -/

section
variable {hc153 : BitVec 2 → BitVec 4 → Bool} {s : Top5}

theorem rest_eq (high : Top.rstN s.bus.d = true) (n : Nat) :
    s.rest hc153 n = ⟨s.bus, preRun s.pre n,
      s.ch.run hc153 (moved s.bus.regs) (stepCount (sqTicks s.pre) n),
      s.uni.runFrom (voice s.bus.regs) n⟩ := by
  induction n with
  | zero => rfl
  | succ n ih =>
    have last : s.rest hc153 (n + 1) = ((s.rest hc153 n).event hc153 .rise).event hc153 .fall := by
      rw [rest, run, List.replicate_succ', List.flatten_append, List.foldl_append]
      rfl
    have rise : (!preTcHi (preRun s.pre n) && preTcHi (preNext true (preRun s.pre n))) =
        sqTicks s.pre n := rfl
    rw [last, ih, stepCount]
    simp only [event, high, rise, uniRise, uniFall, ↓reduceIte]
    cases sqTicks s.pre n <;> rfl

/-- The register is clocked or it is not. -/
theorem event_ran {e : Event} (ran : ∃ k, s.ch.lfsr = Lfsr.after k) :
    ∃ k, (s.event hc153 e).ch.lfsr = Lfsr.after k := by
  obtain ⟨k, since⟩ := ran
  have clocked (times : Nat) : ∃ k', Lfsr.clock^[times] s.ch.lfsr = Lfsr.after k' :=
    ⟨times + k, by rw [since, Lfsr.after, Lfsr.after, Function.iterate_add_apply]⟩
  cases e with
  | rise =>
    simp only [event]
    split
    · rw [Channels.clock, Channels.settle_lfsr]
      exact clocked _
    · exact ⟨k, since⟩
  | fall => exact ⟨k, since⟩
  | pin cmd i =>
    have kept (before after : Bool) : (Top.reset before after s.ch).lfsr = s.ch.lfsr := by
      unfold Top.reset
      split <;> rfl
    simp only [event]
    rw [Channels.settle_lfsr, kept]
    exact clocked _

theorem run_ran (d c : Byte) (es : List Event) :
    ∃ k, ((powerUp d c).run hc153 es).ch.lfsr = Lfsr.after k := by
  induction es using List.reverseRecOn with
  | nil => exact ⟨0, rfl⟩
  | append_singleton rest e ih =>
    rw [run, List.foldl_append]
    exact event_ran ih

/-- **All three channels.** From any state reached, with the bus at rest: the square wave
and the noise are those of v0.4 slowed down 63 times, and a waveform that is compared with
the threshold is a pulse wave. -/
theorem prescaled_law (selects : Channels.Selects hc153) (d c : Byte) (es : List Event)
    (high : Top.rstN ((powerUp d c).run hc153 es).bus.d = true) :
    let s := (powerUp d c).run hc153 es
    let regs := moved s.bus.regs
    let T := 256 - (periodQ regs).toNat
    let v := voice s.bus.regs
    let U := 4096 - v.period12.toNat
    (periodQ regs ≠ 0xFF → ∃ first, ∀ n, first ≤ n → (s.rest hc153 n).sqAudio =
      if (n - first) % (63 * (T * Ch0.dutyLen (dutySel regs))) <
          63 * (T * Ch0.dutyHigh (dutySel regs)) then (sqVol regs).setWidth 8 <<< 4 else 0) ∧
    (periodQ regs = 0xFF → Repeats 1 fun n => (s.rest hc153 n).sqAudio) ∧
    (∀ m, Repeats m (fun n => (s.rest hc153 n).nzAudio) ↔
      nzVol regs = 0 ∨ Channels.Stuck regs ∨ 63 * (255 * Channels.noisePeriod regs) ∣ m) ∧
    (v.modeSel = true → ∃ first, ∀ n, first ≤ n → (s.rest hc153 n).uniAudio =
      if (n - first) % (U * Uni.waveLen v.waveSel) < U * Uni.waveHigh v.waveSel v.duty then
        15 * v.vol.setWidth 8 else 0) := by
  intro s regs T v U
  have up : Top.rstN s.bus.d = true := high
  have every := sqTicks_every s.pre
  have sq (n : Nat) : (s.rest hc153 n).sqAudio =
      (s.ch.ch0.run regs (stepCount (sqTicks s.pre) n)).sqAudio regs := by
    rw [rest_eq up, sqAudio, Channels.run_ch0]
  have nz (n : Nat) : (s.rest hc153 n).nzAudio =
      (s.ch.run hc153 regs (stepCount (sqTicks s.pre) n)).nzAudio regs := by
    rw [rest_eq up, nzAudio]
  have uni (n : Nat) : (s.rest hc153 n).uniAudio = (s.uni.runFrom v n).audio v := by
    rw [rest_eq up, uniAudio]
  simp only [sq, nz, uni]
  refine ⟨?_, ?_, ?_, ?_⟩
  · intro ne
    have fits := (periodQ regs).isLt
    have some : ∀ sel : BitVec 2, 0 < Ch0.dutyLen sel := by decide
    have wave := Ch0.wave_pulses (s := s.ch.ch0) (dutySel regs) ne
    obtain ⟨first, pulses⟩ := wave.held every (by decide)
      (Nat.mul_pos (by omega) (some (dutySel regs)))
    refine ⟨first, fun n hn => ?_⟩
    simp only [Ch0.sqAudio, pulses n hn, T]
  · intro last
    exact repeats_still every (by decide) ((Ch0.sq_audio_law regs s.ch.ch0).2 last) 1
  · obtain ⟨k, since⟩ : ∃ k, s.ch.lfsr = Lfsr.after k := run_ran d c es
    exact fun m => Channels.nz_held selects since every (by decide) m
  · intro mode
    obtain ⟨first, pulses⟩ := s.uni.altb_pulses v
    refine ⟨first, fun n hn => ?_⟩
    rw [Uni.audio_compare v _ mode]
    simp only [pulses n hn, U]

/-- A square of 5 in 16 at the shortest period but one, written with the pins in order. -/
def square : List Event :=
  (commands [⟨3, 0xFE⟩, ⟨4, 0xF9⟩, ⟨5, 0x55⟩]).flatMap fun cmd => (List.finRange 8).map (.pin cmd ·)

theorem prescaled_law_square :
    ∃ first, ∀ n, first ≤ n → (((powerUp idle 0).run (fun sel c => c.getLsbD sel.toNat) square).rest
      (fun sel c => c.getLsbD sel.toNat) n).uniAudio =
        if (n - first) % (2 * 16) < 2 * 5 then 135 else 0 := by
  have selects : Channels.Selects fun sel c => c.getLsbD sel.toNat := fun _ _ => rfl
  have law := (prescaled_law selects idle 0 square (by decide +kernel)).2.2.2
  have settings : voice ((powerUp idle 0).run (fun sel c => c.getLsbD sel.toNat) square).bus.regs =
      ⟨4094, 2, 5, true, 9⟩ := by
    decide +kernel
  rw [settings] at law
  exact law rfl

end

end Top5

end Chiptune.Psg3
