import Mathlib.Algebra.Ring.Int.Defs
import Mathlib.Logic.Basic
import Chiptune.Clocked

/-!
# The envelope of the v0.4 host

The class `Voice` of `host/psg_adsr_songs_v04.py` and what it tells the chip. The
values that the source computes in floating point and rounds are those of a `Floats`,
about which nothing is assumed. `told_iff` says that the chip is told the volume of the
voice exactly while no release ends with the chip still sounding: the tick that ends a
release is the one that does not write.
-/

namespace Chiptune.Psg3

/-- The computations in floating point, rounded where the source rounds them. -/
structure Floats (F : Type) where
  positive : F → Bool
  /-- `_compensated_period`, with the octaves of `duty_oct`. -/
  compensated : F → Option Int → Int
  attack : Nat → Int → Int
  decay : Nat → Int → Int
  sustain : Nat → Int → Int
  /-- `rel_start * (1 - tick_cnt / r_ticks)`. -/
  release : Int → Nat → Int → Int
  aTicks : Int
  dTicks : F → Int
  sTicks : F → Int
  rTicks : F → Int
  delayTicks : F → Int
  amp : Int → F → F
  /-- `base_period + vib_amp * tri` at `total_ticks`. -/
  pMod : Int → F → F → Nat → Int
  /-- `0.22`, `VIB_RATE`, `VIB_PERIOD_FRAC`, `VIB_DELAY` and `1.0`. -/
  beat : F
  vibRate : F
  vibPeriodFrac : F
  vibDelay : F
  one : F

inductive Env where
  | idle | attack | decay | sustain | release
  deriving DecidableEq

structure Voice04 (F : Type) where
  state : Env
  vol : Int
  tickCnt : Nat
  relStart : Int
  aTicks : Int
  dTicks : Int
  sTicks : Int
  rTicks : Int
  vibEnabled : Bool
  vibRate : F
  vibAmpFrac : F
  vibDelay : F
  basePeriod : Int
  totalTicks : Nat
  vibDelayTicks : Int
  vibAmp : F

/-- The voice and the last values it gave to `psg.volume` and `psg.set_period`. -/
structure Player (F : Type) where
  voice : Voice04 F
  volume : Int
  period : Int

inductive VoiceCall (F : Type) where
  | keyOn (freq : F) (oct : Option Int)
  | keyOff
  | setTempo (beatT : F)
  | setVibrato (enabled : Bool) (rate ampFrac delay : Option F)
  | silence
  | tick

namespace VoiceCall
variable {F : Type}

def isTick : VoiceCall F → Bool
  | .tick => true
  | _ => false

def isKeyOn : VoiceCall F → Bool
  | .keyOn _ _ => true
  | _ => false

/-- `key_on` or `key_off`. -/
def isKey : VoiceCall F → Bool
  | .keyOn _ _ => true
  | .keyOff => true
  | _ => false

end VoiceCall

def sLevel : Int := 4
def sFloor : Int := 1
def vibEvery : Nat := 2

section
variable {F : Type} (f : Floats F)

namespace Voice04
variable (v : Voice04 F)

def setTempo (beatT : F) : Voice04 F :=
  { v with
    aTicks := max 1 f.aTicks
    dTicks := max 8 (f.dTicks beatT)
    sTicks := max 8 (f.sTicks beatT)
    rTicks := max 2 (f.rTicks beatT) }

def setVibrato (enabled : Bool) (rate ampFrac delay : Option F) : Voice04 F :=
  { v with
    vibEnabled := enabled
    vibRate := rate.getD v.vibRate
    vibAmpFrac := ampFrac.getD v.vibAmpFrac
    vibAmp := match ampFrac with
      | some frac => if v.basePeriod > 0 then f.amp v.basePeriod frac else v.vibAmp
      | none => v.vibAmp
    vibDelay := delay.getD v.vibDelay }

def counted : Voice04 F := { v with totalTicks := v.totalTicks + 1 }

/-- The state machine of `tick`. -/
def envelope : Voice04 F :=
  match v.state with
  | .idle => v
  | .attack =>
    if v.aTicks ≤ v.tickCnt + 1 then { v with vol := 15, state := .decay, tickCnt := 0 }
    else { v with tickCnt := v.tickCnt + 1, vol := min 15 (f.attack (v.tickCnt + 1) v.aTicks) }
  | .decay =>
    if v.dTicks ≤ v.tickCnt + 1 then { v with vol := sLevel, state := .sustain, tickCnt := 0 }
    else
      { v with tickCnt := v.tickCnt + 1, vol := max sLevel (f.decay (v.tickCnt + 1) v.dTicks) }
  | .sustain =>
    if v.tickCnt + 1 < v.sTicks then
      { v with tickCnt := v.tickCnt + 1, vol := max sFloor (f.sustain (v.tickCnt + 1) v.sTicks) }
    else { v with tickCnt := v.tickCnt + 1, vol := sFloor }
  | .release =>
    if v.rTicks ≤ v.tickCnt + 1 then { v with tickCnt := v.tickCnt + 1, vol := 0, state := .idle }
    else
      { v with
        tickCnt := v.tickCnt + 1
        vol := max 0 (f.release v.relStart (v.tickCnt + 1) v.rTicks) }

/-- The vibrato writes a period. -/
def vibrates : Bool :=
  v.vibEnabled && decide (v.basePeriod > 0) && (v.state == .decay || v.state == .sustain) &&
    decide (v.vibDelayTicks < v.totalTicks) && v.totalTicks % vibEvery == 0

end Voice04

namespace Player
variable (p : Player F)

def keyOn (freq : F) (oct : Option Int) : Player F :=
  let base := if f.positive freq then f.compensated freq oct else 0
  { p with
    period := if f.positive freq then base else p.period
    voice :=
      { p.voice with
        basePeriod := base
        vibAmp := if f.positive freq then f.amp base p.voice.vibAmpFrac else p.voice.vibAmp
        state := .attack
        tickCnt := 0
        totalTicks := 0
        vibDelayTicks := p.voice.aTicks + f.delayTicks p.voice.vibDelay } }

def keyOff : Player F :=
  if p.voice.state ≠ .idle then
    { p with
      voice := { p.voice with state := .release, tickCnt := 0, relStart := p.voice.vol }
      period :=
        if p.voice.vibEnabled && decide (p.voice.basePeriod > 0) then p.voice.basePeriod
        else p.period }
  else p

def silence : Player F :=
  { p with voice := { p.voice with state := .idle, vol := 0 }, volume := 0 }

def tick : Player F :=
  let v := p.voice.counted.envelope f
  { voice := v
    volume := if v.state ≠ .idle ∨ v.vol ≠ 0 then v.vol else p.volume
    period :=
      if v.vibrates then f.pMod v.basePeriod v.vibAmp v.vibRate v.totalTicks else p.period }

def step (call : VoiceCall F) : Player F :=
  match call with
  | .keyOn freq oct => p.keyOn f freq oct
  | .keyOff => p.keyOff
  | .setTempo beatT => { p with voice := p.voice.setTempo f beatT }
  | .setVibrato enabled rate ampFrac delay =>
    { p with voice := p.voice.setVibrato f enabled rate ampFrac delay }
  | .silence => p.silence
  | .tick => p.tick f

/-- `Voice.__init__`, after the `write_ctrl(0)` and `set_period(1)` of `Psg.init_audio`. -/
def init : Player F where
  voice :=
    { state := .idle
      vol := 0
      tickCnt := 0
      relStart := 0
      aTicks := max 1 f.aTicks
      dTicks := max 8 (f.dTicks f.beat)
      sTicks := max 8 (f.sTicks f.beat)
      rTicks := max 2 (f.rTicks f.beat)
      vibEnabled := false
      vibRate := f.vibRate
      vibAmpFrac := f.vibPeriodFrac
      vibDelay := f.vibDelay
      basePeriod := 0
      totalTicks := 0
      vibDelayTicks := 0
      vibAmp := f.one }
  volume := 0
  period := 1

/-- The state after the first `n` calls. -/
def run (calls : Nat → VoiceCall F) (n : Nat) : Player F :=
  Clocked.run (fun call p => Player.step f p call) calls (Player.init f) n

end Player

end

/-! ## One call -/

section
variable {F : Type} (f : Floats F)

namespace Voice04
variable (v : Voice04 F)

/-- The next tick ends the release. -/
def EndsRelease : Prop := v.state = .release ∧ v.rTicks ≤ v.tickCnt + 1

theorem envelope_idle (idle : v.state = .idle) : v.envelope f = v := by
  simp only [envelope, idle]

theorem envelope_ends (ends : v.EndsRelease) :
    v.envelope f = { v with tickCnt := v.tickCnt + 1, vol := 0, state := .idle } := by
  simp only [envelope, ends.1, ends.2, ↓reduceIte]

theorem envelope_runs (sounds : v.state ≠ .idle) (lasts : ¬ v.EndsRelease) :
    (v.envelope f).state ≠ .idle := by
  cases state : v.state with
  | idle => exact absurd state sounds
  | attack => simp only [envelope, state]; split <;> simp
  | decay => simp only [envelope, state]; split <;> simp
  | sustain => simp only [envelope, state]; split <;> simp
  | release =>
    have : ¬ v.rTicks ≤ v.tickCnt + 1 := fun le => lasts ⟨state, le⟩
    simp [envelope, state, this]

theorem envelope_rTicks : (v.envelope f).rTicks = v.rTicks := by
  unfold envelope
  split <;> first | rfl | (split <;> rfl)

/-- A release that goes on counts. -/
theorem envelope_release (state : v.state = .release) (lasts : ¬ v.rTicks ≤ v.tickCnt + 1) :
    (v.envelope f).state = .release ∧ (v.envelope f).tickCnt = v.tickCnt + 1 := by
  simp only [envelope, state, lasts, ↓reduceIte, and_self]

end Voice04

namespace Player
variable (p : Player F)

/-- The chip was told the volume of the voice. -/
def Told : Prop := p.volume = p.voice.vol

/-- A voice that does not sound has told the chip so. -/
def Rests : Prop := p.voice.state = .idle → p.voice.vol = 0 ∧ p.volume = 0

/-- The call does not end a release of a chip that still sounds. -/
def EndsSilent (call : VoiceCall F) : Prop :=
  call = .tick → p.voice.EndsRelease → p.volume = 0

variable {p}

theorem tick_volume : (p.tick f).volume =
    if (p.tick f).voice.state ≠ .idle ∨ (p.tick f).voice.vol ≠ 0 then (p.tick f).voice.vol
    else p.volume := rfl

theorem tick_told (sounds : p.voice.state ≠ .idle) (lasts : ¬ p.voice.EndsRelease) :
    (p.tick f).voice.state ≠ .idle ∧ (p.tick f).Told := by
  have runs : (p.tick f).voice.state ≠ .idle :=
    Voice04.envelope_runs f p.voice.counted sounds lasts
  exact ⟨runs, if_pos (.inl runs)⟩

theorem tick_ends (ends : p.voice.EndsRelease) :
    (p.tick f).voice.vol = 0 ∧ (p.tick f).volume = p.volume := by
  have voice : (p.tick f).voice = _ := Voice04.envelope_ends f p.voice.counted ends
  rw [tick_volume, voice]
  exact ⟨rfl, rfl⟩

theorem tick_idle (idle : p.voice.state = .idle) (vol : p.voice.vol = 0) :
    (p.tick f).voice.state = .idle ∧ (p.tick f).voice.vol = 0 ∧
      (p.tick f).volume = p.volume := by
  have voice : (p.tick f).voice = p.voice.counted := Voice04.envelope_idle f p.voice.counted idle
  have state : p.voice.counted.state = .idle := idle
  have level : p.voice.counted.vol = 0 := vol
  rw [tick_volume, voice, state, level]
  exact ⟨rfl, rfl, rfl⟩

theorem step_rests (call : VoiceCall F) (rests : p.Rests) (ends : p.EndsSilent call) :
    (p.step f call).Rests := by
  cases call with
  | keyOn freq oct => intro idle; cases idle
  | keyOff =>
    by_cases idle : p.voice.state = .idle
    · rw [step, keyOff, if_neg (fun sounds => sounds idle)]
      exact rests
    · rw [step, keyOff, if_pos idle]
      intro off
      cases off
  | setTempo beatT => exact rests
  | setVibrato enabled rate ampFrac delay => exact rests
  | silence => exact fun _ => ⟨rfl, rfl⟩
  | tick =>
    by_cases idle : p.voice.state = .idle
    · obtain ⟨vol, volume⟩ := rests idle
      obtain ⟨-, vol', volume'⟩ := tick_idle f idle vol
      exact fun _ => ⟨vol', volume'.trans volume⟩
    · by_cases ending : p.voice.EndsRelease
      · obtain ⟨vol, volume⟩ := tick_ends f ending
        exact fun _ => ⟨vol, volume.trans (ends rfl ending)⟩
      · exact fun off => absurd off (tick_told f idle ending).1

theorem tick_iff (rests : p.Rests) : (p.tick f).Told ↔ p.EndsSilent .tick := by
  by_cases idle : p.voice.state = .idle
  · obtain ⟨vol, volume⟩ := rests idle
    obtain ⟨-, vol', volume'⟩ := tick_idle f idle vol
    constructor
    · exact fun _ _ _ => volume
    · intro _
      rw [Told, volume', vol', volume]
  · by_cases ending : p.voice.EndsRelease
    · obtain ⟨vol, volume⟩ := tick_ends f ending
      rw [Told, vol, volume]
      exact ⟨fun zero _ _ => zero, fun silent => silent rfl ending⟩
    · exact ⟨fun _ _ ends => absurd ends ending, fun _ => (tick_told f idle ending).2⟩

/-! ## Release -/

/-- `c` ticks after a `key_off` the voice is released or still within `R` ticks. -/
def Fading (c : Nat) (R : Int) (p : Player F) : Prop :=
  p.voice.state = .idle ∨
    p.voice.state = .release ∧ p.voice.tickCnt = c ∧ (c = 0 ∨ (c : Int) < R)

theorem keyOff_fading (R : Int) : Fading 0 R p.keyOff := by
  unfold keyOff
  by_cases idle : p.voice.state = .idle
  · rw [if_neg (fun sounds => sounds idle)]
    exact .inl idle
  · rw [if_pos idle]
    exact .inr ⟨rfl, rfl, .inl rfl⟩

theorem step_fading {c : Nat} {R : Int} {call : VoiceCall F} (fading : Fading c R p)
    (noKey : call.isKey = false) (bound : p.voice.rTicks ≤ R) :
    Fading (c + call.isTick.toNat) R (p.step f call) := by
  cases call with
  | keyOn freq oct => cases noKey
  | keyOff => cases noKey
  | setTempo beatT => exact fading
  | setVibrato enabled rate ampFrac delay => exact fading
  | silence => exact .inl rfl
  | tick =>
    rcases fading with idle | ⟨state, count, -⟩
    · left
      have voice : (p.tick f).voice = p.voice.counted :=
        Voice04.envelope_idle f p.voice.counted idle
      exact (congrArg Voice04.state voice).trans idle
    · by_cases ends : p.voice.rTicks ≤ p.voice.tickCnt + 1
      · left
        exact congrArg Voice04.state (Voice04.envelope_ends f p.voice.counted ⟨state, ends⟩)
      · right
        obtain ⟨state', count'⟩ := Voice04.envelope_release f p.voice.counted state ends
        have next : (p.tick f).voice.tickCnt = p.voice.tickCnt + 1 := count'
        refine ⟨state', next.trans (congrArg (· + 1) count), .inr ?_⟩
        simp only [VoiceCall.isTick, Bool.toNat_true]
        omega

theorem step_idle {call : VoiceCall F} (idle : p.voice.state = .idle)
    (off : call.isKeyOn = false) : (p.step f call).voice.state = .idle := by
  cases call with
  | keyOn freq oct => cases off
  | keyOff =>
    rw [step, keyOff, if_neg (fun sounds => sounds idle)]
    exact idle
  | setTempo beatT => exact idle
  | setVibrato enabled rate ampFrac delay => exact idle
  | silence => rfl
  | tick =>
    exact (congrArg Voice04.state (Voice04.envelope_idle f p.voice.counted idle)).trans idle

theorem step_rTicks (call : VoiceCall F) (two : 2 ≤ p.voice.rTicks) :
    2 ≤ (p.step f call).voice.rTicks := by
  cases call with
  | keyOn freq oct => exact two
  | keyOff =>
    rw [step, keyOff]
    split <;> exact two
  | setTempo beatT => exact Int.le_max_left _ _
  | setVibrato enabled rate ampFrac delay => exact two
  | silence => exact two
  | tick =>
    have kept : (p.tick f).voice.rTicks = p.voice.rTicks :=
      Voice04.envelope_rTicks f p.voice.counted
    exact kept ▸ two

end Player

/-! ## Runs -/

variable (calls : Nat → VoiceCall F)

/-- The ticks among the `d` calls from call `n` on. -/
def ticks (n : Nat) : Nat → Nat
  | 0 => 0
  | d + 1 => ticks n d + (calls (n + d)).isTick.toNat

/-- What the chip is told in the first `N` calls. -/
structure EnvelopeTold (N : Nat) : Prop where
  /-- After every tick it is the volume of the voice. -/
  told : ∀ n, n < N → (calls n).isTick = true → (Player.run f calls (n + 1)).Told
  /-- After a `key_off` and, without another key, `r_ticks` ticks it is 0, until the next
  `key_on`. -/
  silent : ∀ n d e, n + 1 + d + e ≤ N → calls n = .keyOff →
    (∀ k, k < d → (calls (n + 1 + k)).isKey = false) →
    (∀ k, k ≤ d → (Player.run f calls (n + 1 + k)).voice.rTicks ≤ ticks calls (n + 1) d) →
    (∀ k, k < e → (calls (n + 1 + d + k)).isKeyOn = false) →
    (Player.run f calls (n + 1 + d + e)).volume = 0

variable {f calls}

theorem run_next (n : Nat) :
    Player.run f calls (n + 1) = (Player.run f calls n).step f (calls n) := rfl

theorem run_rests {N : Nat} (ends : ∀ n, n < N → (Player.run f calls n).EndsSilent (calls n)) :
    ∀ n, n ≤ N → (Player.run f calls n).Rests := by
  intro n
  induction n with
  | zero => exact fun _ _ => ⟨rfl, rfl⟩
  | succ n ih =>
    intro hn
    rw [run_next]
    exact Player.step_rests f (calls n) (ih (by omega)) (ends n hn)

theorem run_rTicks (n : Nat) : 2 ≤ (Player.run f calls n).voice.rTicks := by
  induction n with
  | zero => exact Int.le_max_left _ _
  | succ n ih => exact Player.step_rTicks f (calls n) ih

theorem run_fading {n d : Nat} {R : Int} (off : calls n = .keyOff)
    (noKey : ∀ k, k < d → (calls (n + 1 + k)).isKey = false)
    (bound : ∀ k, k ≤ d → (Player.run f calls (n + 1 + k)).voice.rTicks ≤ R) :
    Player.Fading (ticks calls (n + 1) d) R (Player.run f calls (n + 1 + d)) := by
  induction d with
  | zero =>
    rw [Nat.add_zero, run_next, off]
    exact Player.keyOff_fading R
  | succ d ih =>
    have before := ih (fun k hk => noKey k (by omega)) (fun k hk => bound k (by omega))
    exact Player.step_fading f before (noKey d (by omega)) (bound d (by omega))

theorem run_idle {n e : Nat} (idle : (Player.run f calls n).voice.state = .idle)
    (off : ∀ k, k < e → (calls (n + k)).isKeyOn = false) :
    (Player.run f calls (n + e)).voice.state = .idle := by
  induction e with
  | zero => exact idle
  | succ e ih =>
    exact Player.step_idle f (ih fun k hk => off k (by omega)) (off e (by omega))

/-- **The envelope.** The chip is told the volume of the voice, and silence after every
release, exactly while no tick ends the release of a chip that still sounds. -/
theorem told_iff (N : Nat) : EnvelopeTold f calls N ↔
    ∀ n, n < N → (Player.run f calls n).EndsSilent (calls n) := by
  constructor
  · intro envelope n
    induction n using Nat.strongRecOn with
    | ind n ih =>
      intro hn tick ends
      have rests := run_rests (N := n) (fun k hk => ih k hk (by omega)) n (Nat.le_refl n)
      have told := envelope.told n hn (by rw [tick]; rfl)
      rw [run_next, tick] at told
      exact (Player.tick_iff f rests).mp told rfl ends
  · intro ends
    have rests := run_rests ends
    constructor
    · intro n hn tick
      cases call : calls n with
      | tick =>
        have silent := ends n hn
        rw [call] at silent
        rw [run_next, call]
        exact (Player.tick_iff f (rests n (by omega))).mpr silent
      | _ => rw [call] at tick; cases tick
    · intro n d e hN off noKey bound noOn
      have two : 2 ≤ (Player.run f calls (n + 1 + d)).voice.rTicks := run_rTicks (n + 1 + d)
      have most := bound d (Nat.le_refl d)
      have idle : (Player.run f calls (n + 1 + d)).voice.state = .idle := by
        rcases run_fading off noKey bound with idle | ⟨-, -, within⟩
        · exact idle
        · omega
      exact (rests _ hN (run_idle idle noOn)).2

end

/-- Python's `round` of a fraction, to even in the middle. -/
def roundDiv (a b : Int) : Int :=
  if 2 * (a % b) < b then a / b
  else if 2 * (a % b) > b then a / b + 1
  else if a / b % 2 = 0 then a / b else a / b + 1

/-- The computations without vibrato on numbers of thousandths, exactly. -/
def thousandths : Floats Int where
  positive freq := freq > 0
  compensated freq oct :=
    let freq := freq * 2 ^ (oct.getD 0).toNat
    max 1 (min 255 (roundDiv (256 * (2 * freq) - 64000000) (2 * freq)))
  attack t a := roundDiv (15 * t) a
  decay t d := roundDiv (15 * d - 11 * t) d
  sustain t s := roundDiv (4 * s - 3 * t) s
  release start t r := roundDiv (start * (r - t)) r
  aTicks := 2
  dTicks beat := roundDiv (60 * beat) 220
  sTicks beat := roundDiv (160 * beat) 220
  rTicks beat := roundDiv (6 * beat) 220
  delayTicks delay := roundDiv delay 5
  amp base frac := max 0 (base * frac)
  pMod base _ _ _ := base
  beat := 220
  vibRate := 6000
  vibPeriodFrac := 14
  vibDelay := 100
  one := 1000

/-- A note of two ticks, released for six. -/
def shortNote (n : Nat) : VoiceCall Int :=
  if n = 0 then .keyOn 440000 none else if n = 3 then .keyOff else .tick

/-- The voice is silent and the chip was last told the volume 2. -/
theorem release_residue :
    (Player.run thousandths shortNote 10).voice.vol = 0 ∧
    (Player.run thousandths shortNote 10).voice.state = .idle ∧
    (Player.run thousandths shortNote 10).volume = 2 ∧
    ¬ EnvelopeTold thousandths shortNote 10 := by
  have vol : (Player.run thousandths shortNote 10).voice.vol = 0 := by decide +kernel
  have state : (Player.run thousandths shortNote 10).voice.state = .idle := by decide +kernel
  have volume : (Player.run thousandths shortNote 10).volume = 2 := by decide +kernel
  refine ⟨vol, state, volume, ?_⟩
  intro envelope
  have told := envelope.told 9 (by decide) rfl
  rw [Player.Told, vol, volume] at told
  exact absurd told (by decide)

end Chiptune.Psg3
