import Chiptune.Psg3.Ch0
import Chiptune.Psg3.Noise

/-!
# The square and the noise channel of PSG3

The toggle chain and the duty of CH0 and the clock of CH1 in `rtl/psg3_top.v`, with the
registers held. `sq_audio_law` is the wave of CH0 for every setting, `nz_audio_law` says
after how many clocks CH1 repeats.
-/

namespace Chiptune.Psg3

open Divider Period

/-! ## The toggle chain -/

namespace Ch0

/-- `wave_sel` -/
def waveSel (sel : BitVec 2) (s : Ch0) : Bool :=
  match sel with
  | 0b00#2 => s.q1
  | 0b01#2 => s.q1 && s.q2
  | 0b10#2 => s.q1 && s.q2 && s.q3
  | _ => s.q2 && s.q3

variable (regs : Fin 8 → Byte) (s : Ch0)

def sqAudio : Byte :=
  if s.waveSel (dutySel regs) then (sqVol regs).setWidth 8 <<< 4 else 0

/-- The three flip-flops as a number. -/
def ladder : BitVec 3 := BitVec.ofBool s.q3 ++ BitVec.ofBool s.q2 ++ BitVec.ofBool s.q1

/-- What the gates make of the number. -/
def waveOf (sel : BitVec 2) (v : BitVec 3) : Bool :=
  waveSel sel ⟨0, false, v.getLsbD 0, v.getLsbD 1, v.getLsbD 2⟩

/-- The length of a duty pattern, in reloads. -/
def dutyLen (sel : BitVec 2) : Nat :=
  match sel with
  | 0b00#2 => 2
  | 0b01#2 => 4
  | _ => 8

/-- How long it is high. -/
def dutyHigh (sel : BitVec 2) : Nat := if sel = 0b11#2 then 2 else 1

/-- `reload_pulse` rises two clocks on. -/
def ticks (n : Nat) : Bool :=
  !(s.run regs n).reloadSrc regs && (s.run regs (n + 1)).reloadSrc regs

theorem waveSel_eq (sel : BitVec 2) : s.waveSel sel = waveOf sel s.ladder := by
  have gates : ∀ (sel : BitVec 2) (q1 q2 q3 : Bool), waveSel sel ⟨0, false, q1, q2, q3⟩ =
      waveOf sel (BitVec.ofBool q3 ++ BitVec.ofBool q2 ++ BitVec.ofBool q1) := by decide
  exact gates sel s.q1 s.q2 s.q3

/-- The chain counts down. -/
theorem clock_ladder : (s.clock regs).ladder =
    if !s.reloadPulse && s.reloadSrc regs then s.ladder - 1 else s.ladder := by
  have chain (before after q1 q2 q3 : Bool) :
      let p1 := if !before && after then !q1 else q1
      let p2 := if !q1 && p1 then !q2 else q2
      let p3 := if !q2 && p2 then !q3 else q3
      (BitVec.ofBool p3 ++ BitVec.ofBool p2 ++ BitVec.ofBool p1 : BitVec 3) =
        if !before && after then
          (BitVec.ofBool q3 ++ BitVec.ofBool q2 ++ BitVec.ofBool q1 : BitVec 3) - 1
        else BitVec.ofBool q3 ++ BitVec.ofBool q2 ++ BitVec.ofBool q1 := by
    revert before after q1 q2 q3
    decide
  exact chain s.reloadPulse (s.reloadSrc regs) s.q1 s.q2 s.q3

theorem run_ladder (n : Nat) : (s.run regs (1 + n)).ladder =
    (s.run regs 1).ladder - BitVec.ofNat 3 (stepCount (s.ticks regs) n) := by
  induction n with
  | zero => exact (BitVec.sub_zero _).symm
  | succ n ih =>
    have step := (s.run regs (1 + n)).clock_ladder regs
    have pulse : (s.run regs (1 + n)).reloadPulse = (s.run regs n).reloadSrc regs := by
      rw [Nat.add_comm]
      rfl
    have next : s.run regs (1 + (n + 1)) = (s.run regs (1 + n)).clock regs := rfl
    rw [next, step, pulse, ih, stepCount, Nat.add_comm 1 n, ← ticks]
    cases s.ticks regs n with
    | false => rfl
    | true =>
      rw [if_pos rfl, Bool.toNat_true, BitVec.ofNat_add]
      exact BitVec.sub_sub _ _ _

/-- The carry, or for white noise its complement. -/
theorem reloadSrc_eq (n : Nat) :
    (s.run regs n).reloadSrc regs = (modeSel regs ^^ s.reloads regs n) := by
  rw [reloadSrc, peN, Bool.and_self, reloads]
  cases modeSel regs
  · rw [Bool.false_xor]
    rfl
  · rw [Bool.true_xor]
    rfl

section
variable {regs s}

theorem ticks_every (ne : periodQ regs ≠ 0xFF) :
    StepsEvery (256 - (periodQ regs).toNat) (s.ticks regs) := by
  have every := s.reloads_every regs
  have fits := (periodQ regs).isLt
  have apart : 256 - (periodQ regs).toNat ≠ 1 := (period_one (w := 8) (by decide) _).mpr ne
  cases mode : modeSel regs with
  | false =>
    have same : s.ticks regs = fun n => !s.reloads regs n && s.reloads regs (n + 1) := by
      funext n
      rw [ticks, reloadSrc_eq, reloadSrc_eq, mode, Bool.false_xor, Bool.false_xor]
    rw [same]
    exact stepsEvery_rise every apart (by omega)
  | true =>
    have same : s.ticks regs = fun n => s.reloads regs n && !s.reloads regs (n + 1) := by
      funext n
      rw [ticks, reloadSrc_eq, reloadSrc_eq, mode, Bool.true_xor, Bool.true_xor, Bool.not_not]
    rw [same]
    exact stepsEvery_fall every apart

/-- With the last period the source stays as it is. -/
theorem ticks_stop (last : periodQ regs = 0xFF) :
    ∃ first, ∀ n, first ≤ n → s.ticks regs n = false := by
  have every := s.reloads_every regs
  rw [last] at every
  obtain ⟨first, always⟩ := always_tick every
  refine ⟨first, fun n hn => ?_⟩
  rw [ticks, reloadSrc_eq, reloadSrc_eq, always n hn, always (n + 1) (by omega)]
  cases modeSel regs <;> rfl

/-- The duty patterns of a chain that counts down. -/
theorem waveOf_pulses (sel : BitVec 2) (v : BitVec 3) :
    Pulses (dutyLen sel) (dutyHigh sel) fun n => waveOf sel (v - BitVec.ofNat 3 n) := by
  refine ⟨v.toNat + 1, fun n hn => ?_⟩
  obtain ⟨k, rfl⟩ := Nat.exists_eq_add_of_le hn
  have down : v - BitVec.ofNat 3 (v.toNat + 1 + k) = 7#3 - BitVec.ofNat 3 (k % 8) := by
    apply BitVec.eq_of_toNat_eq
    have fits := v.isLt
    simp only [BitVec.toNat_sub, BitVec.toNat_ofNat]
    omega
  have pattern : ∀ (sel : BitVec 2) (k : Fin 8),
      waveOf sel (7#3 - BitVec.ofNat 3 k.val) = true ↔ k.val % dutyLen sel < dutyHigh sel := by
    decide
  have divides : ∀ sel : BitVec 2, dutyLen sel ∣ 8 := by decide
  simp only [down]
  rw [Nat.add_sub_cancel_left, pattern sel ⟨k % 8, Nat.mod_lt _ (by decide)⟩,
    Nat.mod_mod_of_dvd _ (divides sel)]

theorem wave_pulses (sel : BitVec 2) (ne : periodQ regs ≠ 0xFF) :
    Pulses ((256 - (periodQ regs).toNat) * dutyLen sel) ((256 - (periodQ regs).toNat) * dutyHigh sel)
      fun n => (s.run regs n).waveSel sel := by
  have fits := (periodQ regs).isLt
  have some : ∀ sel : BitVec 2, 0 < dutyLen sel := by decide
  apply Pulses.later 1
  have held := (waveOf_pulses sel (s.run regs 1).ladder).held (s.ticks_every ne) (by omega) (some sel)
  simp only [waveSel_eq, run_ladder]
  exact held

theorem wave_stops (sel : BitVec 2) (last : periodQ regs = 0xFF) :
    Repeats 1 fun n => (s.run regs n).waveSel sel := by
  obtain ⟨first, never⟩ := s.ticks_stop last
  refine ⟨1 + first, fun n hn => ?_⟩
  obtain ⟨k, rfl⟩ := Nat.exists_eq_add_of_le hn
  have before := stepCount_stops never k
  have after := stepCount_stops never (k + 1)
  simp only [waveSel_eq]
  rw [show 1 + first + k + 1 = 1 + (first + (k + 1)) by omega, Nat.add_assoc, run_ladder,
    run_ladder, before, after]

/-- **The square wave.** In every mode, from any state of the counter and the flip-flops,
the channel is high for `dutyHigh` reloads of every `dutyLen`, and with the last period it
stands still. -/
theorem sq_audio_law (regs : Fin 8 → Byte) (s : Ch0) :
    let T := 256 - (periodQ regs).toNat
    (periodQ regs ≠ 0xFF → ∃ first, ∀ n, first ≤ n → (s.run regs n).sqAudio regs =
      if (n - first) % (T * dutyLen (dutySel regs)) < T * dutyHigh (dutySel regs) then
        (sqVol regs).setWidth 8 <<< 4 else 0) ∧
    (periodQ regs = 0xFF → Repeats 1 fun n => (s.run regs n).sqAudio regs) := by
  constructor
  · intro ne
    obtain ⟨first, high⟩ := s.wave_pulses (dutySel regs) ne
    refine ⟨first, fun n hn => ?_⟩
    simp only [sqAudio, high n hn]
  · intro last
    obtain ⟨start, same⟩ := s.wave_stops (dutySel regs) last
    refine ⟨start, fun n hn => ?_⟩
    have here : (s.run regs (n + 1)).waveSel (dutySel regs) =
      (s.run regs n).waveSel (dutySel regs) := same n hn
    simp only [sqAudio, here]

end

end Ch0

/-! ## Both channels -/

structure Channels where
  ch0 : Ch0
  /-- `div_q` -/
  div : BitVec 4
  lfsr : Lfsr

namespace Channels

section
variable (hc153 : BitVec 2 → BitVec 4 → Bool) (regs : Fin 8 → Byte) (s : Channels)

/-- The upper half of the 74HC153: the selected one of four inputs. -/
def Selects : Prop := ∀ (sel : BitVec 2) (c : BitVec 4), hc153 sel c = c.getLsbD sel.toNat

/-- `noise_clk` -/
def noiseClk : Bool := if bindSw regs then s.ch0.tcHi else hc153 (freqSel regs) s.div

/-- The register is clocked if `noise_clk` has risen. -/
def settle (before : Bool) : Channels :=
  if !before && s.noiseClk hc153 regs then { s with lfsr := s.lfsr.clock } else s

/-- A rising `clk` with `rst_n` low. -/
def heldCh0 (s : Ch0) : Ch0 := { s with cnt := 0, reloadPulse := false }

/-- A rising `clk`. The divider of the noise is never reset. -/
def clock (rstN : Bool) : Channels :=
  let ch0 := if rstN then s.ch0.clock regs else heldCh0 s.ch0
  settle hc153 regs { s with ch0, div := hc161 true true true true 0 s.div }
    (s.noiseClk hc153 regs)

def nzAudio : Byte :=
  if s.lfsr.q.getLsbD 7 then (nzVol regs).setWidth 8 <<< 4 else 0

def run (n : Nat) : Channels :=
  Clocked.run (fun (_ : Unit) s => clock hc153 regs s true) (fun _ => ()) s n

/-- `noise_clk` rises with the clock. -/
def rises (n : Nat) : Bool :=
  !(s.run hc153 regs n).noiseClk hc153 regs && (s.run hc153 regs (n + 1)).noiseClk hc153 regs

/-- How many clocks one state of the register lasts. -/
def noisePeriod : Nat :=
  if bindSw regs then 256 - (periodQ regs).toNat else 2 ^ ((freqSel regs).toNat + 1)

/-- `tc_hi` stays high. -/
def Stuck : Prop := bindSw regs = true ∧ periodQ regs = 0xFF

end

section
variable {hc153 : BitVec 2 → BitVec 4 → Bool} {regs : Fin 8 → Byte} {s : Channels}

theorem settle_ch0 (before : Bool) : (s.settle hc153 regs before).ch0 = s.ch0 := by
  unfold settle
  split <;> rfl

theorem settle_div (before : Bool) : (s.settle hc153 regs before).div = s.div := by
  unfold settle
  split <;> rfl

theorem settle_noiseClk (before : Bool) :
    (s.settle hc153 regs before).noiseClk hc153 regs = s.noiseClk hc153 regs := by
  rw [noiseClk, settle_ch0, settle_div, ← noiseClk]

theorem settle_lfsr (before : Bool) : (s.settle hc153 regs before).lfsr =
    Lfsr.clock^[(!before && s.noiseClk hc153 regs).toNat] s.lfsr := by
  unfold settle
  cases !before && s.noiseClk hc153 regs <;> rfl

theorem run_ch0 (n : Nat) : (s.run hc153 regs n).ch0 = s.ch0.run regs n := by
  induction n with
  | zero => rfl
  | succ n ih =>
    have step : (s.run hc153 regs (n + 1)).ch0 = (s.run hc153 regs n).ch0.clock regs :=
      settle_ch0 _
    rw [step, ih]
    rfl

theorem run_div (n : Nat) : (s.run hc153 regs n).div = s.div + BitVec.ofNat 4 n := by
  induction n with
  | zero => exact (BitVec.add_zero _).symm
  | succ n ih =>
    have step : (s.run hc153 regs (n + 1)).div = (s.run hc153 regs n).div + 1 := settle_div _
    rw [step, ih, BitVec.ofNat_add]
    exact BitVec.add_assoc _ _ _

theorem run_lfsr (n : Nat) : (s.run hc153 regs n).lfsr =
    Lfsr.clock^[stepCount (s.rises hc153 regs) n] s.lfsr := by
  induction n with
  | zero => rfl
  | succ n ih =>
    have step : (s.run hc153 regs (n + 1)).lfsr =
        Lfsr.clock^[(s.rises hc153 regs n).toNat] (s.run hc153 regs n).lfsr := by
      rw [rises, run, Clocked.run_succ, clock, settle_noiseClk]
      exact settle_lfsr _
    rw [step, ih, ← Function.iterate_add_apply, stepCount, Nat.add_comm]

/-- Bit `f` of a free-running counter rises every `2 ^ (f + 1)` clocks. -/
theorem bit_rises (d : BitVec 4) (f : BitVec 2) :
    StepsEvery (2 ^ (f.toNat + 1)) fun n => !(d + BitVec.ofNat 4 n).getLsbD f.toNat &&
      (d + BitVec.ofNat 4 (n + 1)).getLsbD f.toNat := by
  have fits := f.isLt
  apply stepsEvery_mod (c := d.toNat) (r := 2 ^ f.toNat - 1)
  · have := Nat.two_pow_pos f.toNat
    rw [Nat.pow_succ]
    omega
  · intro n
    simp only [BitVec.getLsbD, BitVec.toNat_add, BitVec.toNat_ofNat, Nat.testBit_eq_decide_div_mod_eq,
      Bool.and_eq_true, Bool.not_eq_true', decide_eq_true_eq, decide_eq_false_iff_not]
    obtain bit | bit | bit | bit : f.toNat = 0 ∨ f.toNat = 1 ∨ f.toNat = 2 ∨ f.toNat = 3 := by omega
    all_goals
      rw [bit]
      omega

/-! ## The noise -/

theorem noisePeriod_pos : 0 < noisePeriod regs := by
  have fits := (periodQ regs).isLt
  unfold noisePeriod
  split
  · omega
  · exact Nat.two_pow_pos _

theorem run_noiseClk (selects : Selects hc153) (n : Nat) :
    (s.run hc153 regs n).noiseClk hc153 regs = if bindSw regs then s.ch0.reloads regs n else
      (s.div + BitVec.ofNat 4 n).getLsbD (freqSel regs).toNat := by
  rw [noiseClk, run_ch0, run_div, selects]
  rfl

theorem rises_every (selects : Selects hc153) (free : ¬ Stuck regs) :
    StepsEvery (noisePeriod regs) (s.rises hc153 regs) := by
  have same : s.rises hc153 regs = fun n =>
      !(if bindSw regs then s.ch0.reloads regs n else
        (s.div + BitVec.ofNat 4 n).getLsbD (freqSel regs).toNat) &&
      (if bindSw regs then s.ch0.reloads regs (n + 1) else
        (s.div + BitVec.ofNat 4 (n + 1)).getLsbD (freqSel regs).toNat) := by
    funext n
    rw [rises, run_noiseClk selects, run_noiseClk selects]
  rw [same]
  cases bound : bindSw regs with
  | false =>
    rw [noisePeriod, if_neg (by rw [bound]; decide)]
    exact bit_rises s.div (freqSel regs)
  | true =>
    rw [noisePeriod, if_pos bound]
    have ne : periodQ regs ≠ 0xFF := fun last => free ⟨bound, last⟩
    have fits := (periodQ regs).isLt
    exact stepsEvery_rise (s.ch0.reloads_every regs) ((period_one (w := 8) (by decide) _).mpr ne)
      (by omega)

theorem rises_stop (selects : Selects hc153) (stuck : Stuck regs) :
    ∃ first, ∀ n, first ≤ n → s.rises hc153 regs n = false := by
  have every := s.ch0.reloads_every regs
  rw [stuck.2] at every
  obtain ⟨first, always⟩ := always_tick every
  refine ⟨first, fun n hn => ?_⟩
  rw [rises, run_noiseClk selects, run_noiseClk selects, stuck.1, if_pos rfl, if_pos rfl,
    always n hn]
  rfl

theorem run_nzAudio {k : Nat} (since : s.lfsr = Lfsr.after k) (n : Nat) :
    (s.run hc153 regs n).nzAudio regs =
      if Lfsr.level (k + stepCount (s.rises hc153 regs) n) then (nzVol regs).setWidth 8 <<< 4
      else 0 := by
  rw [nzAudio, run_lfsr, since, Lfsr.level, Lfsr.after, Lfsr.after, ← Function.iterate_add_apply,
    Nat.add_comm k]

theorem level_moves (k : Nat) : ¬ Repeats 1 fun n => Lfsr.level (k + n) := by
  intro still
  have same : Repeats 1 Lfsr.level := (repeats_later k fun _ => rfl).mpr still
  rw [Lfsr.level_repeats_iff] at same
  omega

theorem level_held (selects : Selects hc153) (free : ¬ Stuck regs) (k m : Nat) :
    Repeats m (fun n => Lfsr.level (k + stepCount (s.rises hc153 regs) n)) ↔
      255 * noisePeriod regs ∣ m := by
  have states (i : Nat) : Repeats i (fun n => Lfsr.level (k + n)) ↔ 255 ∣ i := by
    rw [← Lfsr.level_repeats_iff]
    exact (repeats_later k fun _ => rfl).symm
  rw [repeats_held (g := fun n => Lfsr.level (k + n)) (s.rises_every selects free)
    noisePeriod_pos (level_moves k)]
  simp only [states]
  constructor
  · rintro ⟨i, rfl, cycles⟩
    rw [Nat.mul_comm 255]
    exact Nat.mul_dvd_mul_left _ cycles
  · rintro ⟨i, rfl⟩
    exact ⟨255 * i, by rw [Nat.mul_comm 255, Nat.mul_assoc], Nat.dvd_mul_right _ _⟩

/-- A full volume tells high from low. -/
theorem loud {vol : BitVec 4} (some : vol ≠ 0) : vol.setWidth 8 <<< 4 ≠ (0 : Byte) := by
  revert vol
  decide

/-- **The noise.** Whenever it is heard, the register of CH1 moves on every `noisePeriod`
clocks, and the sound repeats after 255 of its states and after no other time. -/
theorem nz_audio_law (selects : Selects hc153) {k : Nat} (since : s.lfsr = Lfsr.after k) :
    (¬ Stuck regs → ∃ d j, ∀ n, (s.run hc153 regs (d + n)).nzAudio regs =
      if Lfsr.level (j + n / noisePeriod regs) then (nzVol regs).setWidth 8 <<< 4 else 0) ∧
    ∀ m, Repeats m (fun n => (s.run hc153 regs n).nzAudio regs) ↔
      nzVol regs = 0 ∨ Stuck regs ∨ 255 * noisePeriod regs ∣ m := by
  refine ⟨fun free => ?_, fun m => ?_⟩
  · obtain ⟨d, count⟩ := stepCount_late (s.rises_every selects free)
    refine ⟨d, k + 1, fun n => ?_⟩
    rw [run_nzAudio since, count, Nat.add_comm (n / _), ← Nat.add_assoc]
  · by_cases silent : nzVol regs = 0
    · have never (n : Nat) : (s.run hc153 regs n).nzAudio regs = 0 := by
        rw [nzAudio, silent]
        split <;> rfl
      exact iff_of_true (repeats_const never m) (.inl silent)
    · simp only [run_nzAudio since]
      rw [repeats_if (loud silent)]
      by_cases stuck : Stuck regs
      · obtain ⟨first, stops⟩ := s.rises_stop selects stuck
        refine iff_of_true ⟨first, fun n hn => ?_⟩ (.inr (.inl stuck))
        obtain ⟨i, rfl⟩ := Nat.exists_eq_add_of_le hn
        have later := stepCount_stops stops (i + m)
        have here := stepCount_stops stops i
        simp only [Nat.add_assoc, later, here]
      · rw [level_held selects stuck]
        exact ⟨fun whole => .inr (.inr whole),
          fun cases => (cases.resolve_left silent).resolve_left stuck⟩

/-- The same on a clock divided by `T`. -/
theorem nz_held (selects : Selects hc153) {k : Nat} (since : s.lfsr = Lfsr.after k) {T : Nat}
    {ticks : Nat → Bool} (every : StepsEvery T ticks) (pos : 0 < T) (m : Nat) :
    Repeats m (fun n => (s.run hc153 regs (stepCount ticks n)).nzAudio regs) ↔
      nzVol regs = 0 ∨ Stuck regs ∨ T * (255 * noisePeriod regs) ∣ m := by
  have law (m : Nat) : Repeats m (fun n => (s.run hc153 regs n).nzAudio regs) ↔
      nzVol regs = 0 ∨ Stuck regs ∨ 255 * noisePeriod regs ∣ m :=
    (nz_audio_law selects since).2 m
  by_cases still : nzVol regs = 0 ∨ Stuck regs
  · have one := (law 1).mpr (or_assoc.mp (.inl still))
    exact iff_of_true (repeats_still every pos one m) (or_assoc.mp (.inl still))
  · have moves : ¬ Repeats 1 fun n => (s.run hc153 regs n).nzAudio regs := by
      rw [law, ← or_assoc]
      rintro (stands | divides)
      · exact still stands
      · have one : 255 ∣ 1 := Nat.dvd_trans (Nat.dvd_mul_right 255 _) divides
        exact absurd one (by decide)
    rw [repeats_held every pos moves]
    simp only [law, ← or_assoc, still, false_or]
    constructor
    · rintro ⟨i, rfl, whole⟩
      exact Nat.mul_dvd_mul_left T whole
    · rintro ⟨i, rfl⟩
      exact ⟨_, Nat.mul_assoc _ _ _, Nat.dvd_mul_right _ _⟩

end

end Channels

end Chiptune.Psg3
