import Chiptune.Cascade
import Chiptune.Divider
import Chiptune.Psg3.Uni

/-!
# The hardware and the simulator of the waveform channel

Both walk through the same waveform, one step each time their period counter runs out.
The hardware's counter runs out at 4095 and is loaded by the next clock; the simulator
loads its counter in the call in which it reaches 4095, one clock early. `matches_iff`
says that they keep step for the period 4095 only, where both step at every clock.
-/

namespace Chiptune.Psg3

open Divider

/-! ## The waveform -/

/-- A place in the waveform: the value and, for the triangle, the direction of the step
that led to it. -/
structure Wave where
  q : BitVec 4
  down : Bool

namespace Wave
variable (w : BitVec 2) (s : Wave)

def start : Wave := ⟨0, false⟩

/-- The direction of the triangle's next step. -/
def fold : Bool := if !s.down && s.q == 15 || s.down && s.q == 0 then !s.down else s.down

def next : Wave :=
  if w = 1 then ⟨if s.fold then s.q - 1 else s.q + 1, s.fold⟩
  else ⟨if w = 3 then s.q - 1 else s.q + 1, s.down⟩

/-- The place after `k` steps. -/
def after (k : Nat) : Wave := (next w)^[k] start

theorem after_succ (k : Nat) : after w (k + 1) = (after w k).next w :=
  Function.iterate_succ_apply' _ _ _

theorem next_ne : (s.next w).q ≠ s.q := by
  have up : ∀ q : BitVec 4, q + 1 ≠ q := by decide
  have down : ∀ q : BitVec 4, q - 1 ≠ q := by decide
  unfold next
  split
  · dsimp only
    split
    · exact down s.q
    · exact up s.q
  · dsimp only
    split
    · exact down s.q
    · exact up s.q

end Wave

/-! ## The simulator -/

namespace Hw
variable (v : Voice) (cnt12 : Nat) (s : Wave)

/-- The simulator with its counter at `cnt12` and its waveform at `s`. -/
def showing : Hw :=
  { init v with cnt12, triQ := s.q.toNat, triUd := 1 - s.down.toNat, dirQ := s.down.toNat }

theorem countUp_showing : (showing v cnt12 s).countUp = (s.q + 1).toNat := by
  have every : ∀ q : BitVec 4, (if 15 ≤ q.toNat then 0 else q.toNat + 1) = (q + 1).toNat := by
    decide
  exact every s.q

theorem countDown_showing : (showing v cnt12 s).countDown = (s.q - 1).toNat := by
  have every : ∀ q : BitVec 4, (if q.toNat ≤ 0 then 15 else q.toNat - 1) = (q - 1).toNat := by
    decide
  exact every s.q

theorem atExtreme_showing :
    (showing v cnt12 s).atExtreme = (!s.down && s.q == 15 || s.down && s.q == 0) := by
  have every (down : Bool) : ∀ q : BitVec 4,
      decide (1 - down.toNat ≠ 0 ∧ q.toNat = 15 ∨ 1 - down.toNat = 0 ∧ q.toNat = 0) =
        (!down && q == 15 || down && q == 0) := by
    cases down <;> decide
  exact every s.down s.q

theorem dirNext_showing : (showing v cnt12 s).dirNext = s.fold.toNat := by
  rw [dirNext, atExtreme_showing, Wave.fold]
  split
  · change s.down.toNat ^^^ 1 = _
    cases s.down <;> rfl
  · rfl

theorem stepTri_showing (tri : v.waveSel = 1) :
    (showing v cnt12 s).stepTri = showing v cnt12 (s.next v.waveSel) := by
  rw [Wave.next, if_pos tri]
  unfold stepTri
  rw [dirNext_showing, countUp_showing, countDown_showing]
  cases s.fold <;> rfl

theorem stepSaw_showing (saw : v.waveSel ≠ 1) :
    (showing v cnt12 s).stepSaw = showing v cnt12 (s.next v.waveSel) := by
  have wave : (showing v cnt12 s).waveSel = 3 ↔ v.waveSel = 3 := BitVec.toNat_inj (y := 3)
  rw [Wave.next, if_neg saw]
  unfold stepSaw
  rw [countUp_showing, countDown_showing]
  by_cases reverse : v.waveSel = 3
  · rw [if_pos (wave.mpr reverse), if_pos reverse]
    rfl
  · rw [if_neg (fun h => reverse (wave.mp h)), if_neg reverse]
    rfl

theorem stepWave_showing :
    (showing v cnt12 s).stepWave = showing v cnt12 (s.next v.waveSel) := by
  have wave : (showing v cnt12 s).waveSel = 1 ↔ v.waveSel = 1 := BitVec.toNat_inj (y := 1)
  unfold stepWave
  by_cases tri : v.waveSel = 1
  · rw [if_pos (wave.mpr tri), stepTri_showing v cnt12 s tri]
  · rw [if_neg (fun h => tri (wave.mp h)), stepSaw_showing v cnt12 s tri]

theorem simStep_showing : (showing v cnt12 s).simStep =
    if 4095 ≤ cnt12 + 1 then showing v v.period12.toNat (s.next v.waveSel)
    else showing v (cnt12 + 1) s := by
  have tc : (showing v cnt12 s).freqTc = decide (4095 ≤ cnt12 + 1) := rfl
  unfold simStep
  rw [tc]
  by_cases now : 4095 ≤ cnt12 + 1
  · rw [if_pos (decide_eq_true now), if_pos now]
    exact stepWave_showing v v.period12.toNat s
  · rw [if_neg (fun h => now (of_decide_eq_true h)), if_neg now]
    rfl

/-- Whether call `n` steps the waveform. -/
def stepsAt (n : Nat) : Bool := (run v n).freqTc

theorem run_showing (n : Nat) : run v n =
    showing v (run v n).cnt12 (Wave.after v.waveSel (stepCount (stepsAt v) n)) := by
  induction n with
  | zero => rfl
  | succ n ih =>
    have step : run v (n + 1) = (run v n).simStep := rfl
    have tc : stepsAt v n = decide (4095 ≤ (run v n).cnt12 + 1) := rfl
    rw [step, ih, simStep_showing, stepCount, tc]
    by_cases now : 4095 ≤ (run v n).cnt12 + 1
    · rw [if_pos now, decide_eq_true now, Bool.toNat_true, Wave.after_succ]
      rfl
    · rw [if_neg now, decide_eq_false now, Bool.toNat_false, Nat.add_zero]
      rfl

/-- The calls left before a step. -/
def left (n : Nat) : Nat := 4094 - (run v n).cnt12

theorem left_step (n : Nat) :
    left v (n + 1) = Divider.next (max 1 (4095 - v.period12.toNat)) (left v n) := by
  have step : run v (n + 1) = (run v n).simStep := rfl
  have fits := v.period12.isLt
  unfold left Divider.next
  rw [step, run_showing v n, simStep_showing]
  change 4094 - (if 4095 ≤ (run v n).cnt12 + 1 then _ else _ : Hw).cnt12 =
    if 4094 - (run v n).cnt12 = 0 then _ else 4094 - (run v n).cnt12 - 1
  split
  · rw [if_pos (by omega)]
    change 4094 - v.period12.toNat = _
    omega
  · rw [if_neg (by omega)]
    change 4094 - ((run v n).cnt12 + 1) = _
    omega

theorem stepsAt_iff (n : Nat) :
    stepsAt v n = true ↔ 4094 ≤ n ∧ max 1 (4095 - v.period12.toNat) ∣ n - 4094 := by
  have tc : stepsAt v n = true ↔ left v n = 0 := by
    rw [left, stepsAt, freqTc, decide_eq_true_iff]
    omega
  exact tc.trans (left_zero_iff (left_step v) (by omega) n)

end Hw

/-! ## The hardware -/

namespace Uni
variable (v : Voice) (u : Uni)

theorem freqTc_eq : u.freqTc = (u.cnt == BitVec.allOnes 12) :=
  @Cascade.last_tc 2 .both (by decide) true u.cnt

theorem freqTc_iff : u.freqTc = true ↔ u.cnt.toNat = 4095 := by
  rw [freqTc_eq, beq_iff_eq, ← BitVec.toNat_inj]
  rfl

theorem cntNext_eq_step : u.cntNext v =
    Cascade.step (k := 3) .both ⟨true, !(u.freqTc && u.freqTc), true, v.period12⟩ u.cnt :=
  Cascade.append_three fun i => hc161 true (!(u.freqTc && u.freqTc))
    (Cascade.cepAt (k := 3) .both true u.cnt i) (Cascade.cetAt (k := 3) .both true u.cnt i)
    (nibble v.period12 i) (nibble u.cnt i)

theorem cntNext_eq : u.cntNext v = if u.freqTc then v.period12 else u.cnt + 1 := by
  have counter := @Cascade.step_eq_register 3 .both (by decide)
    ⟨true, !(u.freqTc && u.freqTc), true, v.period12⟩ u.cnt
  rw [cntNext_eq_step, counter, Cascade.register, Bool.and_self, Bool.not_not]
  rfl

/-! ### One clock -/

theorem cd4029_step (ud : Bool) (q : BitVec 4) (ci : Bool) : cd4029 false ci true ud 0 q =
    if ci then q else if ud then q + 1 else q - 1 := by
  revert ud q ci
  decide

theorem hc112_toggle (j q : Bool) : hc112 true true j j q = if j then !q else q := by
  cases j <;> rfl

/-- The hardware after a whole clock shows the waveform at `s`. A clock before the
step the triangle's direction is the next step's already. -/
structure Shows (s : Wave) : Prop where
  q : u.q = s.q
  clean : u.waveClean = s.q
  dir : v.waveSel = 1 → u.dirQ = if u.freqTc then s.fold else s.down

variable {v u} {s : Wave}

theorem posedge_shows (shows : Shows v u s) :
    let s' := if u.freqTc then s.next v.waveSel else s
    (u.posedge v).q = s'.q ∧ (v.waveSel = 1 → (u.posedge v).dirQ = s'.down) := by
  have q : (u.posedge v).q = if !u.freqTc then u.q else if u.ud v then u.q + 1 else u.q - 1 :=
    cd4029_step _ _ _
  have dirQ : (u.posedge v).dirQ = u.dirQ := rfl
  cases tc : u.freqTc with
  | false =>
    rw [q, dirQ, tc]
    refine ⟨shows.q, ?_⟩
    intro tri
    rw [shows.dir tri, tc]
    rfl
  | true =>
    rw [q, dirQ, tc, shows.q, ud]
    by_cases tri : v.waveSel = 1
    · have dir := shows.dir tri
      rw [tc] at dir
      simp only [↓reduceIte, Wave.next, tri, dir]
      cases s.fold <;> simp
    · simp only [↓reduceIte, Wave.next, tri]
      by_cases reverse : v.waveSel = 3 <;> simp [reverse]

theorem negedge_shows (q : u.q = s.q) (dir : v.waveSel = 1 → u.dirQ = s.down) :
    Shows v (u.negedge v) s := by
  refine ⟨q, q, ?_⟩
  intro tri
  have turns : (u.negedge v).dirQ = if u.atExtreme v then !u.dirQ else u.dirQ :=
    hc112_toggle _ _
  have extreme : u.atExtreme v = (u.freqTc && (!s.down && s.q == 15 || s.down && s.q == 0)) := by
    rw [atExtreme, co, ud, if_pos tri, dir tri, q]
    cases u.freqTc <;> cases s.down <;> simp [cd4029Co, cd4029Max] <;> rfl
  rw [turns, extreme, dir tri]
  change _ = if u.freqTc then s.fold else s.down
  rw [Wave.fold]
  cases u.freqTc <;> simp

theorem clock_shows (shows : Shows v u s) :
    Shows v (u.clock v) (if u.freqTc then s.next v.waveSel else s) := by
  obtain ⟨q, dir⟩ := posedge_shows shows
  exact negedge_shows q dir

variable (v)

/-- Whether clock `n` steps the waveform. -/
def stepsAt (n : Nat) : Bool := (run v n).freqTc

theorem run_shows (n : Nat) :
    Shows v (run v n) (Wave.after v.waveSel (stepCount (stepsAt v) n)) := by
  induction n with
  | zero => exact ⟨rfl, rfl, fun _ => rfl⟩
  | succ n ih =>
    have next := clock_shows ih
    have tc : stepsAt v n = (run v n).freqTc := rfl
    rw [stepCount, tc]
    cases now : (run v n).freqTc with
    | false =>
      rw [now] at next
      exact next
    | true =>
      rw [now] at next
      rw [Bool.toNat_true, Wave.after_succ]
      exact next

/-- The clocks left before a step. -/
def left (n : Nat) : Nat := 4095 - (run v n).cnt.toNat

theorem left_step (n : Nat) :
    left v (n + 1) = Divider.next (4096 - v.period12.toNat) (left v n) := by
  have cnt : (run v (n + 1)).cnt = (run v n).cntNext v := rfl
  have fits := v.period12.isLt
  have counts := (run v n).cnt.isLt
  have tc := freqTc_iff (run v n)
  have one : (1 : BitVec 12).toNat = 1 := rfl
  unfold left Divider.next
  rw [cnt, cntNext_eq]
  by_cases now : (run v n).freqTc = true
  · have full := tc.mp now
    rw [if_pos now, if_pos (by omega)]
    omega
  · have below : (run v n).cnt.toNat ≠ 4095 := fun full => now (tc.mpr full)
    rw [if_neg now, if_neg (by omega), BitVec.toNat_add, one]
    omega

theorem stepsAt_iff (n : Nat) :
    stepsAt v n = true ↔ 4095 ≤ n ∧ 4096 - v.period12.toNat ∣ n - 4095 := by
  have fits := v.period12.isLt
  have counts := (run v n).cnt.isLt
  have tc : stepsAt v n = true ↔ left v n = 0 := by
    rw [left, stepsAt, freqTc_iff]
    omega
  exact tc.trans (left_zero_iff (left_step v) (by omega) n)

end Uni

/-! ## Output -/

section
variable {v : Voice} {u : Uni} {s : Wave}

theorem sel_toNat (shows : Uni.Shows v u s) (cnt12 : Nat) :
    (u.sel v).toNat = (Hw.showing v cnt12 s).waveOut := by
  have below : u.altb v = decide (s.q.toNat < v.duty.toNat) := by
    rw [Uni.altb, shows.clean]
    rfl
  have compare : (u.cmpOut v).toNat = if s.q.toNat < v.duty.toNat then 15 else 0 := by
    rw [Uni.cmpOut, below]
    by_cases lt : s.q.toNat < v.duty.toNat <;> simp [lt]
  have masked : (u.andOut v).toNat = s.q.toNat &&& v.duty.toNat := by
    rw [Uni.andOut, shows.clean, BitVec.toNat_and]
  change _ = if v.modeSel.toNat ≠ 0 then (if s.q.toNat < v.duty.toNat then 15 else 0)
    else s.q.toNat &&& v.duty.toNat
  rw [Uni.sel]
  cases v.modeSel with
  | true => exact compare
  | false => exact masked

theorem audio_toNat (shows : Uni.Shows v u s) (cnt12 : Nat) :
    (u.audio v).toNat = (Hw.showing v cnt12 s).audioOut := by
  have level := sel_toNat shows cnt12
  have hs := (u.sel v).isLt
  have hv := v.vol.isLt
  have product : (u.sel v).toNat * v.vol.toNat ≤ 15 * 15 :=
    Nat.mul_le_mul (by omega) (by omega)
  have scaled : (u.sel v).toNat * 16 * (v.vol.toNat * 16) =
      256 * ((u.sel v).toNat * v.vol.toNat) := by
    rw [Nat.mul_mul_mul_comm, Nat.mul_comm]
  have vol : (Hw.showing v cnt12 s).vol &&& 15 = v.vol.toNat := by
    change v.vol.toNat &&& 2 ^ 4 - 1 = _
    rw [Nat.and_two_pow_sub_one_eq_mod, Nat.mod_eq_of_lt hv]
  have zero : (0#4).toNat = 0 := rfl
  rw [Hw.audioOut, vol, ← level]
  simp only [Uni.audio, Uni.waveDb, BitVec.extractLsb'_toNat, BitVec.toNat_mul,
    BitVec.toNat_setWidth, toNat_append, zero, Nat.shiftRight_eq_div_pow, Nat.shiftLeft_eq]
  have hw : ((u.sel v).toNat * 2 ^ 4 + 0) % 2 ^ 16 = (u.sel v).toNat * 16 := by omega
  have hvol : (v.vol.toNat * 2 ^ 4 + 0) % 2 ^ 16 = v.vol.toNat * 16 := by omega
  rw [hw, hvol, scaled]
  omega

end

/-! ## The two together -/

section
variable (v : Voice)

/-- The outputs are one another's up to a start-up latency. -/
def SameOutput : Prop :=
  ∃ d e, ∀ n, (Uni.run v (d + n)).q.toNat = (Hw.run v (e + n)).triQ ∧
    ((Uni.run v (d + n)).audio v).toNat = (Hw.run v (e + n)).audioOut

/-- What hardware and simulator are to have in common. -/
structure Matches : Prop where
  hardware : StepsEvery (4096 - v.period12.toNat) (Uni.stepsAt v)
  simulator : StepsEvery (4096 - v.period12.toNat) (Hw.stepsAt v)
  steps : ∀ m n, stepCount (Uni.stepsAt v) m = stepCount (Hw.stepsAt v) n →
    (Uni.run v m).q.toNat = (Hw.run v n).triQ
  output : SameOutput v

/-- After equally many steps both are at the same place of the waveform. -/
theorem steps_agree {m n : Nat}
    (same : stepCount (Uni.stepsAt v) m = stepCount (Hw.stepsAt v) n) :
    (Uni.run v m).q.toNat = (Hw.run v n).triQ ∧
      ((Uni.run v m).audio v).toNat = (Hw.run v n).audioOut := by
  have shows := Uni.run_shows v m
  rw [same] at shows
  rw [Hw.run_showing v n, shows.q]
  exact ⟨rfl, audio_toNat shows _⟩

theorem uni_changes (n : Nat) :
    (Uni.run v (n + 1)).q ≠ (Uni.run v n).q ↔ Uni.stepsAt v n = true := by
  have here := (Uni.run_shows v n).q
  have there := (Uni.run_shows v (n + 1)).q
  rw [stepCount] at there
  cases now : Uni.stepsAt v n with
  | false =>
    rw [now, Bool.toNat_false] at there
    simp [there.trans here.symm]
  | true =>
    rw [now, Bool.toNat_true, Wave.after_succ] at there
    rw [there, here]
    simp [Wave.next_ne]

theorem hw_changes (n : Nat) :
    (Hw.run v (n + 1)).triQ ≠ (Hw.run v n).triQ ↔ Hw.stepsAt v n = true := by
  have here := congrArg Hw.triQ (Hw.run_showing v n)
  have there := congrArg Hw.triQ (Hw.run_showing v (n + 1))
  rw [stepCount] at there
  cases now : Hw.stepsAt v n with
  | false =>
    rw [now, Bool.toNat_false, Nat.add_zero] at there
    simp [there.trans here.symm]
  | true =>
    rw [now, Bool.toNat_true, Wave.after_succ] at there
    have moves := Wave.next_ne v.waveSel (Wave.after v.waveSel (stepCount (Hw.stepsAt v) n))
    rw [there, here]
    simp only [Hw.showing, ne_eq, BitVec.toNat_inj, moves, not_false_eq_true]

theorem sameOutput_period (same : SameOutput v) : v.period12 = 4095 := by
  obtain ⟨d, e, same⟩ := same
  have fits := v.period12.isLt
  have periods : 4096 - v.period12.toNat = max 1 (4095 - v.period12.toNat) := by
    apply period_unique (d := d) (e := e) (by omega) (by omega)
    intro n
    rw [← Uni.stepsAt_iff, ← Hw.stepsAt_iff, ← uni_changes, ← hw_changes]
    have here := (same n).1
    have there := (same (n + 1)).1
    rw [← Nat.add_assoc, ← Nat.add_assoc] at there
    rw [← here, ← there, ne_eq, ne_eq, BitVec.toNat_inj]
  exact BitVec.eq_of_toNat_eq (show v.period12.toNat = 4095 by omega)

theorem period_same (full : v.period12 = 4095) (n : Nat) :
    (Uni.run v (1 + n)).q.toNat = (Hw.run v n).triQ ∧
      ((Uni.run v (1 + n)).audio v).toNat = (Hw.run v n).audioOut := by
  have toNat : v.period12.toNat = 4095 := congrArg BitVec.toNat full
  apply steps_agree
  have count := stepCount_add (f := Uni.stepsAt v) (g := Hw.stepsAt v) (d := 1) (e := 0) rfl
    (fun n => by
      rw [Bool.eq_iff_iff, Uni.stepsAt_iff, Hw.stepsAt_iff, toNat,
        show max 1 (4095 - 4095) = 1 from rfl]
      simp only [Nat.reduceSub, Nat.one_dvd, and_true]
      omega) n
  rw [Nat.zero_add] at count
  exact count

/-- **The waveform channel.** The hardware and the simulator step, fold and sound alike,
up to a start-up latency, for the period 4095 only. -/
theorem matches_iff : (Matches v ↔ v.period12 = 4095) ∧ (SameOutput v ↔ v.period12 = 4095) := by
  have output : v.period12 = 4095 → SameOutput v := by
    intro full
    refine ⟨1, 0, ?_⟩
    intro n
    rw [Nat.zero_add]
    exact period_same v full n
  refine ⟨⟨fun m => sameOutput_period v m.output, ?_⟩, ⟨sameOutput_period v, output⟩⟩
  intro full
  have toNat : v.period12.toNat = 4095 := congrArg BitVec.toNat full
  constructor
  case hardware => exact ⟨4095, fun n => Uni.stepsAt_iff v n⟩
  case simulator =>
    refine ⟨4094, fun n => ?_⟩
    rw [Hw.stepsAt_iff, toNat]
    rfl
  case steps => exact fun m n same => (steps_agree v same).1
  case output => exact output full

end

/-- A sawtooth of full mask and volume with the period 4094. -/
def saw4094 : Voice := ⟨4094, 0, 15, false, 15⟩

/-- The simulator steps in two calls in a row, the hardware every second clock. -/
theorem saw4094_differs :
    (Hw.stepsAt saw4094 4094 = true ∧ Hw.stepsAt saw4094 4095 = true) ∧
    (Uni.stepsAt saw4094 4095 = true ∧ Uni.stepsAt saw4094 4096 = false) ∧
    ¬ StepsEvery (4096 - saw4094.period12.toNat) (Hw.stepsAt saw4094) ∧
    ¬ Matches saw4094 := by
  have hw (n : Nat) := Hw.stepsAt_iff saw4094 n
  have uni (n : Nat) := Uni.stepsAt_iff saw4094 n
  have late : ¬ StepsEvery (4096 - saw4094.period12.toNat) (Hw.stepsAt saw4094) := by
    intro every
    have := stepsEvery_unique (by decide) (by decide) every ⟨4094, hw⟩
    exact absurd this (by decide)
  refine ⟨⟨(hw 4094).mpr (by decide), (hw 4095).mpr (by decide)⟩,
    ⟨(uni 4095).mpr (by decide), ?_⟩, late, fun same => late same.simulator⟩
  rw [← Bool.not_eq_true, uni]
  decide

end Chiptune.Psg3
