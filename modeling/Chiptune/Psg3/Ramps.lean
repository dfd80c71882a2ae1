import Chiptune.Psg3.Song
import Chiptune.Rounding

/-!
# The ramps of the envelope

The envelope of `Voice` with its expressions computed exactly, over the rationals with
Python's rounding. Between calls of the host each phase is a rounded linear ramp in
`tick_cnt`: `attack_ticks` to `release_ticks` give the state after any number of ticks in
a phase, and `envelope_law` puts the phases together.
-/

namespace Chiptune.Psg3

open Rounding

def A_MS : ℚ := 10
def D_MS : ℚ := 300
def S_MS : ℚ := 800
def R_MS : ℚ := 30
def CLK_HZ : ℚ := 64000

/-- `_compensated_period`. -/
def compensatedPeriod (freq : ℚ) (oct : Option Int) : Int :=
  let freq := match oct with
    | none => freq
    | some oct => freq * 2 ^ oct
  max 1 (min 255 (halfEven (256 - CLK_HZ / (2 * freq))))

/-- The vibrato's triangle at a phase in 0..1. -/
def vibratoTri (phase : ℚ) : ℚ :=
  if phase < 1 / 4 then phase * 4
  else if phase < 3 / 4 then 2 - phase * 4
  else phase * 4 - 4

/-- Every expression at its exact value. -/
def exactly : Floats ℚ where
  positive freq := decide (0 < freq)
  compensated := compensatedPeriod
  attack tickCnt aTicks := halfEven (15 * (tickCnt : ℚ) / aTicks)
  decay tickCnt dTicks := halfEven (15 - (15 - sLevel) * (tickCnt : ℚ) / dTicks)
  sustain tickCnt sTicks := halfEven (sLevel - (sLevel - sFloor) * (tickCnt : ℚ) / sTicks)
  release relStart tickCnt rTicks := halfEven (relStart * (1 - (tickCnt : ℚ) / rTicks))
  aTicks := halfEven (A_MS / 1000 / TICK)
  dTicks beatT := halfEven (D_MS / 1000 / TICK * (beatT / (22 / 100)))
  sTicks beatT := halfEven (S_MS / 1000 / TICK * (beatT / (22 / 100)))
  rTicks beatT := halfEven (R_MS / 1000 / TICK * (beatT / (22 / 100)))
  delayTicks vibDelay := halfEven (vibDelay / TICK)
  amp basePeriod frac := max 0 (basePeriod * frac)
  pMod basePeriod vibAmp vibRate totalTicks :=
    halfEven (basePeriod + vibAmp * vibratoTri (Int.fract (totalTicks * TICK * vibRate)))
  beat := 22 / 100
  vibRate := 6
  vibPeriodFrac := 14 / 1000
  vibDelay := 1 / 10
  one := 1

/-! ## The ramps -/

theorem ticks_cast {total : Int} (pos : 0 < total) :
    (0 : ℚ) < total ∧ ((total.toNat : Nat) : ℚ) = total := by
  refine ⟨by exact_mod_cast pos, ?_⟩
  exact_mod_cast Int.toNat_of_nonneg (Int.le_of_lt pos)

theorem ramp_anti {start drop total : ℚ} (falls : 0 ≤ drop) (pos : 0 < total) (t : Nat) :
    start - drop * ((t + 1 : Nat) : ℚ) / total ≤ start - drop * (t : ℚ) / total := by
  gcongr
  omega

namespace Voice04
variable (v : Voice04 ℚ)

def attackVol (t : Nat) : Int := min 15 (exactly.attack t v.aTicks)
def decayVol (t : Nat) : Int := max sLevel (exactly.decay t v.dTicks)
def sustainVol (t : Nat) : Int := max sFloor (exactly.sustain t v.sTicks)
def releaseVol (t : Nat) : Int := max 0 (exactly.release v.relStart t v.rTicks)

/-- What every call keeps. -/
structure Ranged : Prop where
  aTicks_pos : 0 < v.aTicks
  dTicks_pos : 0 < v.dTicks
  sTicks_pos : 0 < v.sTicks
  rTicks_pos : 0 < v.rTicks
  vol_nonneg : 0 ≤ v.vol
  vol_le : v.vol ≤ 15
  relStart_nonneg : 0 ≤ v.relStart
  relStart_le : v.relStart ≤ 15

theorem decayVol_zero : v.decayVol 0 = 15 := by
  have start : exactly.decay 0 v.dTicks = halfEven ((15 : Int) : ℚ) := by
    change halfEven (15 - (15 - sLevel) * ((0 : Nat) : ℚ) / v.dTicks) = _
    rw [Nat.cast_zero, mul_zero, zero_div, sub_zero]
    rfl
  rw [decayVol, start, halfEven_int]
  rfl

theorem sustainVol_zero : v.sustainVol 0 = sLevel := by
  have start : exactly.sustain 0 v.sTicks = halfEven (sLevel : ℚ) := by
    change halfEven (sLevel - (sLevel - sFloor) * ((0 : Nat) : ℚ) / v.sTicks) = _
    rw [Nat.cast_zero, mul_zero, zero_div, sub_zero]
  rw [sustainVol, start, halfEven_int]
  rfl

variable {v} (ranged : v.Ranged)
include ranged

theorem attackVol_nonneg (t : Nat) : 0 ≤ v.attackVol t := by
  have total := (ticks_cast ranged.aTicks_pos).1
  refine le_min (by decide) (le_halfEven ?_)
  push_cast
  positivity

theorem attackVol_mono (t : Nat) : v.attackVol t ≤ v.attackVol (t + 1) := by
  have total := (ticks_cast ranged.aTicks_pos).1
  apply min_le_min_left
  apply halfEven_mono
  gcongr
  omega

theorem decayVol_anti (t : Nat) : v.decayVol (t + 1) ≤ v.decayVol t := by
  have total := (ticks_cast ranged.dTicks_pos).1
  apply max_le_max_left
  apply halfEven_mono
  exact ramp_anti (by norm_num [sLevel]) total t

theorem sustainVol_anti (t : Nat) : v.sustainVol (t + 1) ≤ v.sustainVol t := by
  have total := (ticks_cast ranged.sTicks_pos).1
  apply max_le_max_left
  apply halfEven_mono
  exact ramp_anti (by norm_num [sLevel, sFloor]) total t

theorem releaseVol_anti (t : Nat) : v.releaseVol (t + 1) ≤ v.releaseVol t := by
  have total := (ticks_cast ranged.rTicks_pos).1
  have start : (0 : ℚ) ≤ v.relStart := by exact_mod_cast ranged.relStart_nonneg
  apply max_le_max_left
  apply halfEven_mono
  gcongr
  omega

theorem attackVol_top : v.attackVol v.aTicks.toNat = 15 := by
  obtain ⟨pos, cast⟩ := ticks_cast ranged.aTicks_pos
  have top : exactly.attack v.aTicks.toNat v.aTicks = halfEven ((15 : Int) : ℚ) := by
    change halfEven (15 * ((v.aTicks.toNat : Nat) : ℚ) / v.aTicks) = _
    rw [cast, mul_div_cancel_right₀ _ pos.ne']
    rfl
  rw [attackVol, top, halfEven_int]
  rfl

theorem decayVol_end : v.decayVol v.dTicks.toNat = sLevel := by
  obtain ⟨pos, cast⟩ := ticks_cast ranged.dTicks_pos
  have bottom : exactly.decay v.dTicks.toNat v.dTicks = halfEven ((4 : Int) : ℚ) := by
    change halfEven (15 - (15 - sLevel) * ((v.dTicks.toNat : Nat) : ℚ) / v.dTicks) = _
    rw [cast, mul_div_cancel_right₀ _ pos.ne']
    norm_num [sLevel]
  rw [decayVol, bottom, halfEven_int]
  rfl

theorem sustainVol_floor {t : Nat} (long : v.sTicks ≤ t) : v.sustainVol t = sFloor := by
  have pos := (ticks_cast ranged.sTicks_pos).1
  have whole : (1 : ℚ) ≤ (t : ℚ) / v.sTicks := by
    rw [le_div_iff₀ pos, one_mul]
    exact_mod_cast long
  apply max_eq_left
  apply halfEven_le
  rw [mul_div_assoc]
  norm_num [sLevel, sFloor]
  linarith

theorem releaseVol_end : v.releaseVol v.rTicks.toNat = 0 := by
  obtain ⟨pos, cast⟩ := ticks_cast ranged.rTicks_pos
  have bottom : exactly.release v.relStart v.rTicks.toNat v.rTicks = halfEven ((0 : Int) : ℚ) := by
    change halfEven (v.relStart * (1 - ((v.rTicks.toNat : Nat) : ℚ) / v.rTicks)) = _
    rw [cast, div_self pos.ne', sub_self, mul_zero]
    rfl
  rw [releaseVol, bottom, halfEven_int]
  rfl

theorem releaseVol_zero : v.releaseVol 0 = v.relStart := by
  have start : exactly.release v.relStart 0 v.rTicks = halfEven (v.relStart : ℚ) := by
    change halfEven (v.relStart * (1 - ((0 : Nat) : ℚ) / v.rTicks)) = _
    rw [Nat.cast_zero, zero_div, sub_zero, mul_one]
  rw [releaseVol, start, halfEven_int]
  exact max_eq_right ranged.relStart_nonneg

theorem decayVol_le (t : Nat) : v.decayVol t ≤ 15 := by
  induction t with
  | zero => exact (decayVol_zero v).le
  | succ t ih => exact (decayVol_anti ranged t).trans ih

theorem sustainVol_le (t : Nat) : v.sustainVol t ≤ sLevel := by
  induction t with
  | zero => exact (sustainVol_zero v).le
  | succ t ih => exact (sustainVol_anti ranged t).trans ih

theorem releaseVol_le (t : Nat) : v.releaseVol t ≤ v.relStart := by
  induction t with
  | zero => exact (releaseVol_zero ranged).le
  | succ t ih => exact (releaseVol_anti ranged t).trans ih

end Voice04

/-! ## Phases -/

namespace Voice04
variable (v : Voice04 ℚ)

/-- The voice's part of a tick. -/
def tick : Voice04 ℚ := v.counted.envelope exactly

/-- `v` somewhere in a phase. -/
def placed (state : Env) (tickCnt : Nat) (vol : Int) (totalTicks : Nat) : Voice04 ℚ :=
  { v with state, tickCnt, vol, totalTicks }

section
variable {v} {state : Env} {ramp : Nat → Int} {length : Nat}

/-- A phase of `length` ticks follows its ramp until its last tick. -/
theorem phase_ticks (step : ∀ k vol total, k + 1 < length →
      (v.placed state k vol total).tick = v.placed state (k + 1) (ramp (k + 1)) (total + 1))
    (vol : Int) (total : Nat) {n : Nat} (within : n < length) :
    tick^[n] (v.placed state 0 vol total) =
      v.placed state n (if n = 0 then vol else ramp n) (total + n) := by
  induction n with
  | zero => rfl
  | succ n ih =>
    rw [Function.iterate_succ_apply', ih (by omega), step n _ _ within]
    rfl

/-- A phase that starts at the level of its ramp. -/
theorem from_zero {vol : Int} (zero : ramp 0 = vol) (n : Nat) :
    (if n = 0 then vol else ramp n) = ramp n := by
  split
  · rename_i first
    rw [first, zero]
  · rfl

/-- The last tick of a phase leads to the next one. -/
theorem phase_end {next : Env} {count : Nat} {level : Int} (pos : 0 < length)
    (step : ∀ k vol total, k + 1 < length →
      (v.placed state k vol total).tick = v.placed state (k + 1) (ramp (k + 1)) (total + 1))
    (last : ∀ vol total, (v.placed state (length - 1) vol total).tick =
      v.placed next count level (total + 1))
    (vol : Int) (total : Nat) :
    tick^[length] (v.placed state 0 vol total) = v.placed next count level (total + length) := by
  obtain ⟨k, rfl⟩ : ∃ k, length = k + 1 := ⟨length - 1, by omega⟩
  rw [Function.iterate_succ_apply', phase_ticks step vol total (Nat.lt_succ_self k)]
  exact last _ _

end

theorem attack_tick (k : Nat) (vol : Int) (total : Nat) : (v.placed .attack k vol total).tick =
    if v.aTicks ≤ (k : Int) + 1 then v.placed .decay 0 15 (total + 1)
    else v.placed .attack (k + 1) (v.attackVol (k + 1)) (total + 1) := rfl

theorem decay_tick (k : Nat) (vol : Int) (total : Nat) : (v.placed .decay k vol total).tick =
    if v.dTicks ≤ (k : Int) + 1 then v.placed .sustain 0 sLevel (total + 1)
    else v.placed .decay (k + 1) (v.decayVol (k + 1)) (total + 1) := rfl

theorem sustain_tick (k : Nat) (vol : Int) (total : Nat) : (v.placed .sustain k vol total).tick =
    if (k : Int) + 1 < v.sTicks then v.placed .sustain (k + 1) (v.sustainVol (k + 1)) (total + 1)
    else v.placed .sustain (k + 1) sFloor (total + 1) := rfl

theorem release_tick (k : Nat) (vol : Int) (total : Nat) : (v.placed .release k vol total).tick =
    if v.rTicks ≤ (k : Int) + 1 then v.placed .idle (k + 1) 0 (total + 1)
    else v.placed .release (k + 1) (v.releaseVol (k + 1)) (total + 1) := rfl

/-! ### Runs of ticks -/

section
variable {v}

theorem attack_step (k : Nat) (vol : Int) (total : Nat) (within : k + 1 < v.aTicks.toNat) :
    (v.placed .attack k vol total).tick =
      v.placed .attack (k + 1) (v.attackVol (k + 1)) (total + 1) := by
  rw [attack_tick, if_neg (by omega)]

theorem decay_step (k : Nat) (vol : Int) (total : Nat) (within : k + 1 < v.dTicks.toNat) :
    (v.placed .decay k vol total).tick =
      v.placed .decay (k + 1) (v.decayVol (k + 1)) (total + 1) := by
  rw [decay_tick, if_neg (by omega)]

theorem release_step (k : Nat) (vol : Int) (total : Nat) (within : k + 1 < v.rTicks.toNat) :
    (v.placed .release k vol total).tick =
      v.placed .release (k + 1) (v.releaseVol (k + 1)) (total + 1) := by
  rw [release_tick, if_neg (by omega)]

variable (ranged : v.Ranged) (vol : Int) (total : Nat)
include ranged

theorem sustain_step (k : Nat) (vol : Int) (total : Nat) :
    (v.placed .sustain k vol total).tick =
      v.placed .sustain (k + 1) (v.sustainVol (k + 1)) (total + 1) := by
  rw [sustain_tick]
  split
  · rfl
  · rw [sustainVol_floor ranged (by push_cast; omega)]

theorem attack_ends : tick^[v.aTicks.toNat] (v.placed .attack 0 vol total) =
    v.placed .decay 0 15 (total + v.aTicks.toNat) := by
  have pos := ranged.aTicks_pos
  apply phase_end (by omega) attack_step
  intro vol total
  rw [attack_tick, if_pos (by omega)]

theorem decay_ends : tick^[v.dTicks.toNat] (v.placed .decay 0 vol total) =
    v.placed .sustain 0 sLevel (total + v.dTicks.toNat) := by
  have pos := ranged.dTicks_pos
  apply phase_end (by omega) decay_step
  intro vol total
  rw [decay_tick, if_pos (by omega)]

theorem release_ends : tick^[v.rTicks.toNat] (v.placed .release 0 vol total) =
    v.placed .idle v.rTicks.toNat 0 (total + v.rTicks.toNat) := by
  have pos := ranged.rTicks_pos
  apply phase_end (by omega) release_step
  intro vol total
  rw [release_tick, if_pos (by omega), Nat.sub_add_cancel (by omega)]

theorem sustain_ticks (n : Nat) : tick^[n] (v.placed .sustain 0 sLevel total) =
    v.placed .sustain n (v.sustainVol n) (total + n) := by
  rw [phase_ticks (fun k vol total _ => sustain_step ranged k vol total) sLevel total
    (Nat.lt_succ_self n), from_zero (sustainVol_zero v)]

omit ranged in
theorem decay_ticks {n : Nat} (within : n < v.dTicks.toNat) :
    tick^[n] (v.placed .decay 0 15 total) = v.placed .decay n (v.decayVol n) (total + n) := by
  rw [phase_ticks decay_step 15 total within, from_zero (decayVol_zero v)]

/-- The three phases that follow a key. -/
theorem attack_to_decay {n : Nat} (within : n < v.dTicks.toNat) :
    tick^[v.aTicks.toNat + n] (v.placed .attack 0 vol total) =
      v.placed .decay n (v.decayVol n) (total + v.aTicks.toNat + n) := by
  rw [Nat.add_comm, Function.iterate_add_apply, attack_ends ranged, decay_ticks _ within]

theorem attack_to_sustain (n : Nat) :
    tick^[v.aTicks.toNat + v.dTicks.toNat + n] (v.placed .attack 0 vol total) =
      v.placed .sustain n (v.sustainVol n) (total + v.aTicks.toNat + v.dTicks.toNat + n) := by
  rw [Nat.add_comm, Function.iterate_add_apply, Nat.add_comm, Function.iterate_add_apply,
    attack_ends ranged, decay_ends ranged, sustain_ticks ranged]

end

theorem idle_ticks {v : Voice04 ℚ} (idle : v.state = .idle) (n : Nat) :
    (tick^[n] v).state = .idle ∧ (tick^[n] v).vol = v.vol := by
  induction n with
  | zero => exact ⟨idle, rfl⟩
  | succ n ih =>
    have still : (tick^[n] v).tick = (tick^[n] v).counted :=
      envelope_idle exactly (tick^[n] v).counted ih.1
    rw [Function.iterate_succ_apply', still]
    exact ih

/-! ## Every call -/

theorem Ranged.placed {v : Voice04 ℚ} (ranged : v.Ranged) {vol : Int} (nonneg : 0 ≤ vol)
    (le : vol ≤ 15) (state : Env) (k total : Nat) : (v.placed state k vol total).Ranged :=
  { ranged with vol_nonneg := nonneg, vol_le := le }

theorem tick_ranged {v : Voice04 ℚ} (ranged : v.Ranged) : v.tick.Ranged := by
  have self : v = v.placed v.state v.tickCnt v.vol v.totalTicks := rfl
  rw [self]
  cases v.state with
  | idle => exact ranged.placed ranged.vol_nonneg ranged.vol_le _ _ _
  | attack =>
    rw [attack_tick]
    split
    · exact ranged.placed (by decide) (by decide) _ _ _
    · exact ranged.placed (attackVol_nonneg ranged _) (min_le_left _ _) _ _ _
  | decay =>
    rw [decay_tick]
    split
    · exact ranged.placed (by decide) (by decide) _ _ _
    · exact ranged.placed (le_max_of_le_left (by decide)) (decayVol_le ranged _) _ _ _
  | sustain =>
    rw [sustain_tick]
    split
    · exact ranged.placed (le_max_of_le_left (by decide))
        ((sustainVol_le ranged _).trans (by decide)) _ _ _
    · exact ranged.placed (by decide) (by decide) _ _ _
  | release =>
    rw [release_tick]
    split
    · exact ranged.placed (by decide) (by decide) _ _ _
    · exact ranged.placed (le_max_left _ _)
        ((releaseVol_le ranged _).trans ranged.relStart_le) _ _ _

end Voice04

namespace Player
variable {p : Player ℚ}

theorem keyOn_ranged (ranged : p.voice.Ranged) (freq : ℚ) (oct : Option Int) :
    (p.keyOn exactly freq oct).voice.Ranged :=
  { ranged with }

theorem keyOff_ranged (ranged : p.voice.Ranged) : p.keyOff.voice.Ranged := by
  unfold keyOff
  split
  · exact
      { ranged with
        relStart_nonneg := ranged.vol_nonneg
        relStart_le := ranged.vol_le }
  · exact ranged

theorem step_ranged (ranged : p.voice.Ranged) (call : VoiceCall ℚ) :
    (p.step exactly call).voice.Ranged := by
  cases call with
  | keyOn freq oct => exact keyOn_ranged ranged freq oct
  | keyOff => exact keyOff_ranged ranged
  | setTempo beatT =>
    exact
      { ranged with
        aTicks_pos := lt_max_of_lt_left (by decide)
        dTicks_pos := lt_max_of_lt_left (by decide)
        sTicks_pos := lt_max_of_lt_left (by decide)
        rTicks_pos := lt_max_of_lt_left (by decide) }
  | setVibrato enabled rate ampFrac delay => exact { ranged with }
  | silence => exact { ranged with vol_nonneg := le_refl (0 : Int), vol_le := (by decide : (0 : Int) ≤ 15) }
  | tick => exact Voice04.tick_ranged ranged

theorem run_ranged (calls : Nat → VoiceCall ℚ) (n : Nat) :
    (run exactly calls n).voice.Ranged := by
  induction n with
  | zero =>
    exact
      { aTicks_pos := lt_max_of_lt_left (by decide)
        dTicks_pos := lt_max_of_lt_left (by decide)
        sTicks_pos := lt_max_of_lt_left (by decide)
        rTicks_pos := lt_max_of_lt_left (by decide)
        vol_nonneg := le_refl (0 : Int)
        vol_le := (by decide : (0 : Int) ≤ 15)
        relStart_nonneg := le_refl (0 : Int)
        relStart_le := (by decide : (0 : Int) ≤ 15) }
  | succ n ih => exact step_ranged ih (calls n)

variable (p)

/-- `n` ticks, and nothing else. -/
def ticks (n : Nat) : Player ℚ := (Player.tick exactly)^[n] p

def volAt (n : Nat) : Int := (p.ticks n).voice.vol
def stateAt (n : Nat) : Env := (p.ticks n).voice.state

theorem ticks_voice (n : Nat) : (p.ticks n).voice = Voice04.tick^[n] p.voice := by
  induction n with
  | zero => rfl
  | succ n ih =>
    rw [ticks, Function.iterate_succ_apply', Function.iterate_succ_apply', ← ih]
    rfl

/-- The volumes of the ticks after a `key_on`: up to 15, down to `S_LEVEL`, and on down to
`S_FLOOR`. The decay takes exactly `d_ticks`. -/
structure Strikes (a d s : Nat) : Prop where
  rises : ∀ n, 1 ≤ n → n < a → p.volAt n ≤ p.volAt (n + 1)
  top : p.volAt a = 15
  decays : ∀ n, a ≤ n → n < a + d → p.stateAt n = .decay ∧ p.volAt (n + 1) ≤ p.volAt n
  level : p.stateAt (a + d) = .sustain ∧ p.volAt (a + d) = sLevel
  falls : ∀ n, a + d ≤ n → p.volAt (n + 1) ≤ p.volAt n
  floor : ∀ n, a + d + s ≤ n → p.volAt n = sFloor

/-- The volumes of the ticks after a `key_off`. -/
structure Fades (r : Nat) : Prop where
  falls : ∀ n, p.volAt (n + 1) ≤ p.volAt n
  sounds : ∀ n < r, p.stateAt n = .release
  ends : ∀ n, r ≤ n → p.stateAt n = .idle ∧ p.volAt n = 0

variable {p}

theorem placed_at {n : Nat} {v : Voice04 ℚ} {state : Env} {k total : Nat} {vol : Int}
    (here : Voice04.tick^[n] p.voice = v.placed state k vol total) :
    p.stateAt n = state ∧ p.volAt n = vol := by
  rw [stateAt, volAt, ticks_voice, here]
  exact ⟨rfl, rfl⟩

section
variable {v : Voice04 ℚ} {vol : Int} {total : Nat} (ranged : v.Ranged)
include ranged

theorem attack_at (start : p.voice = v.placed .attack 0 vol total) {n : Nat} (pos : 1 ≤ n)
    (le : n ≤ v.aTicks.toNat) : p.volAt n = v.attackVol n := by
  rcases Nat.lt_or_eq_of_le le with within | rfl
  · have run := Voice04.phase_ticks Voice04.attack_step vol total within
    rw [← start, if_neg (by omega)] at run
    exact (placed_at run).2
  · have run := Voice04.attack_ends ranged vol total
    rw [← start] at run
    rw [Voice04.attackVol_top ranged]
    exact (placed_at run).2

theorem decay_at (start : p.voice = v.placed .attack 0 vol total) {n : Nat}
    (within : n < v.dTicks.toNat) :
    p.stateAt (v.aTicks.toNat + n) = .decay ∧ p.volAt (v.aTicks.toNat + n) = v.decayVol n := by
  have run := Voice04.attack_to_decay ranged vol total within
  rw [← start] at run
  exact placed_at run

theorem sustain_at (start : p.voice = v.placed .attack 0 vol total) (n : Nat) :
    p.stateAt (v.aTicks.toNat + v.dTicks.toNat + n) = .sustain ∧
      p.volAt (v.aTicks.toNat + v.dTicks.toNat + n) = v.sustainVol n := by
  have run := Voice04.attack_to_sustain ranged vol total n
  rw [← start] at run
  exact placed_at run

theorem strikes (start : p.voice = v.placed .attack 0 vol total) :
    p.Strikes v.aTicks.toNat v.dTicks.toNat v.sTicks.toNat := by
  have dPos := ranged.dTicks_pos
  have attack (n : Nat) (pos : 1 ≤ n) (le : n ≤ v.aTicks.toNat) := attack_at ranged start pos le
  have decay (n : Nat) (within : n < v.dTicks.toNat) := decay_at ranged start within
  have sustain := sustain_at ranged start
  refine ⟨?_, ?_, ?_, ?_, ?_, ?_⟩
  · intro n pos lt
    rw [attack n pos (by omega), attack (n + 1) (by omega) lt]
    exact Voice04.attackVol_mono ranged n
  · rw [← Voice04.decayVol_zero v, ← (decay 0 (by omega)).2]
    rfl
  · intro n after before
    obtain ⟨k, rfl⟩ := Nat.exists_eq_add_of_le after
    refine ⟨(decay k (by omega)).1, ?_⟩
    rw [(decay k (by omega)).2]
    rcases Nat.lt_or_ge (k + 1) v.dTicks.toNat with more | last
    · rw [Nat.add_assoc, (decay (k + 1) more).2]
      exact Voice04.decayVol_anti ranged k
    · have here := (sustain 0).2
      rw [Voice04.sustainVol_zero] at here
      rw [show v.aTicks.toNat + k + 1 = v.aTicks.toNat + v.dTicks.toNat + 0 by omega, here]
      exact le_max_left _ _
  · have here := sustain 0
    rw [Voice04.sustainVol_zero] at here
    exact here
  · intro n after
    obtain ⟨k, rfl⟩ := Nat.exists_eq_add_of_le after
    rw [(sustain k).2, Nat.add_assoc, (sustain (k + 1)).2]
    exact Voice04.sustainVol_anti ranged k
  · intro n after
    obtain ⟨k, rfl⟩ := Nat.exists_eq_add_of_le (by omega : v.aTicks.toNat + v.dTicks.toNat ≤ n)
    rw [(sustain k).2]
    exact Voice04.sustainVol_floor ranged (by omega)

theorem fades (start : p.voice = v.placed .release 0 vol total) (level : v.relStart = vol) :
    p.Fades v.rTicks.toNat := by
  have release (n : Nat) (within : n < v.rTicks.toNat) :
      p.stateAt n = .release ∧ p.volAt n = v.releaseVol n := by
    have run := Voice04.phase_ticks Voice04.release_step vol total within
    rw [← start, Voice04.from_zero ((Voice04.releaseVol_zero ranged).trans level)] at run
    exact placed_at run
  have idle (n : Nat) (after : v.rTicks.toNat ≤ n) : p.stateAt n = .idle ∧ p.volAt n = 0 := by
    obtain ⟨k, rfl⟩ := Nat.exists_eq_add_of_le after
    have ended := Voice04.release_ends ranged vol total
    rw [← start] at ended
    rw [stateAt, volAt, ticks_voice, Nat.add_comm, Function.iterate_add_apply, ended]
    exact Voice04.idle_ticks rfl k
  refine ⟨?_, fun n within => (release n within).1, idle⟩
  intro n
  rcases Nat.lt_or_ge (n + 1) v.rTicks.toNat with more | last
  · rw [(release n (by omega)).2, (release (n + 1) more).2]
    exact Voice04.releaseVol_anti ranged n
  · rw [(idle (n + 1) last).2]
    rcases Nat.lt_or_ge n v.rTicks.toNat with before | past
    · rw [(release n before).2]
      exact le_max_left _ _
    · rw [(idle n past).2]

end

end Player

/-- **The envelope.** After any calls the volume is in 0..15; from any such state a
`key_on` rises and decays as `Strikes` says, and a `key_off` fades. -/
theorem envelope_law (calls : Nat → VoiceCall ℚ) (n : Nat) :
    let p := Player.run exactly calls n
    (0 ≤ p.voice.vol ∧ p.voice.vol ≤ 15) ∧
      (∀ freq oct, (p.keyOn exactly freq oct).Strikes p.voice.aTicks.toNat
        p.voice.dTicks.toNat p.voice.sTicks.toNat) ∧
      (p.voice.state ≠ .idle → p.keyOff.Fades p.voice.rTicks.toNat) := by
  intro p
  have ranged := Player.run_ranged calls n
  refine ⟨⟨ranged.vol_nonneg, ranged.vol_le⟩, ?_, ?_⟩
  · intro freq oct
    have start : (p.keyOn exactly freq oct).voice =
        (p.keyOn exactly freq oct).voice.placed .attack 0 p.voice.vol 0 := rfl
    have strikes := Player.strikes (Player.keyOn_ranged ranged freq oct) start
    exact strikes
  · intro sounds
    have off : p.keyOff.voice =
        { p.voice with state := .release, tickCnt := 0, relStart := p.voice.vol } := by
      rw [Player.keyOff, if_pos sounds]
    have start : p.keyOff.voice = p.keyOff.voice.placed .release 0 p.voice.vol
        p.voice.totalTicks := by rw [off]; rfl
    have fades := Player.fades (Player.keyOff_ranged ranged) start (by rw [off])
    rw [off] at fades
    exact fades

/-- A key held for three ticks. -/
def struck (n : Nat) : VoiceCall ℚ := if n = 0 then .keyOn 440 none else .tick

/-- It is released at full volume, in its decay. -/
theorem envelope_law_struck :
    let p := Player.run exactly struck 4
    (p.voice.state, p.voice.vol, p.voice.rTicks) = (.decay, 15, 6) ∧ p.keyOff.Fades 6 := by
  intro p
  have held : (p.voice.state, p.voice.vol, p.voice.rTicks) = (.decay, 15, 6) := by
    decide +kernel
  refine ⟨held, ?_⟩
  rw [Prod.mk.injEq, Prod.mk.injEq] at held
  have fades := (envelope_law struck 4).2.2 (by rw [show _ = Env.decay from held.1]; decide)
  rw [show _ = (6 : Int) from held.2.2] at fades
  exact fades

end Chiptune.Psg3
