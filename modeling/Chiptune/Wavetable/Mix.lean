import Mathlib.Algebra.Ring.Int.Defs
import Chiptune.Wavetable.Pass

/-!
# The mix at the DAC

The last clock of a pass clips `mix_sum` and latches its low byte into `dac_out`, both
from the sum as it was before. The samples are added as unsigned bytes, so the DAC
has the signed sum modulo 256. `dac_clipped_iff` says for which sums that is the clipped
one, in every run, with resets and bus traffic at any time.
-/

namespace Chiptune.Wavetable

/-! ## What the DAC should get -/

/-- The signed ROM sample of an active voice. -/
def Voice.signed (rom : Rom) (v : Voice) : Int := if v.On then (rom v.romAddr).toInt else 0

def signedFirst (rom : Rom) (sram : Ram) (n : Nat) : Int :=
  ((List.range n).map fun ch => (block sram (BitVec.ofNat 2 ch)).voice.signed rom).sum

/-- The sum over the four channels. -/
def signedMix (rom : Rom) (sram : Ram) : Int := signedFirst rom sram 4

def clip (x : Int) : Int := max (-128) (min 127 x)

/-! ## Bytes -/

theorem sound_signed (rom : Rom) (v : Voice) :
    BitVec.ofNat 8 (v.sound rom).toNat = BitVec.ofInt 8 (v.signed rom) := by
  rw [BitVec.ofNat_toNat, BitVec.setWidth_eq, Voice.sound, Voice.signed]
  split
  · exact BitVec.ofInt_toInt.symm
  · rfl

theorem mixFirst_signed (rom : Rom) (sram : Ram) (n : Nat) :
    BitVec.ofNat 8 (mixFirst rom sram n) = BitVec.ofInt 8 (signedFirst rom sram n) := by
  induction n with
  | zero => rfl
  | succ n ih =>
    have next : signedFirst rom sram (n + 1) = signedFirst rom sram n +
        (block sram (BitVec.ofNat 2 n)).voice.signed rom := by simp [signedFirst, List.range_succ]
    rw [mixFirst_succ, next, BitVec.ofNat_add, BitVec.ofInt_add, ih, sound_signed]

theorem signedFirst_bounds (rom : Rom) (sram : Ram) (n : Nat) :
    -128 * n ≤ signedFirst rom sram n ∧ signedFirst rom sram n ≤ 127 * n := by
  induction n with
  | zero => exact ⟨Int.le_refl _, Int.le_refl _⟩
  | succ n ih =>
    have next : signedFirst rom sram (n + 1) = signedFirst rom sram n +
        (block sram (BitVec.ofNat 2 n)).voice.signed rom := by simp [signedFirst, List.range_succ]
    have sample : -128 ≤ (block sram (BitVec.ofNat 2 n)).voice.signed rom ∧
        (block sram (BitVec.ofNat 2 n)).voice.signed rom ≤ 127 := by
      rw [Voice.signed]
      split
      · have lo := BitVec.le_toInt (rom (block sram (BitVec.ofNat 2 n)).voice.romAddr)
        have hi := BitVec.toInt_le (x := rom (block sram (BitVec.ofNat 2 n)).voice.romAddr)
        omega
      · omega
    omega

/-- A sum of four samples wraps to its clipped value only inside the range of a byte and at
two sums outside. -/
theorem wrap_clip_iff {x : Int} (lo : -512 ≤ x) (hi : x ≤ 508) :
    (BitVec.ofInt 8 x).toInt = clip x ↔ -128 ≤ x ∧ x ≤ 127 ∨ x = 383 ∨ x = -384 := by
  rw [BitVec.toInt_ofInt, Int.bmod_def, clip]
  split <;> omega

/-! ## The pass behind a latch -/

section
variable (board : Board) (c : Chip)

/-- The clock latches `dac_out`. -/
def Chip.Latches (i : Cycle) : Prop :=
  i.Live ∧ c.time.sampleStart = false ∧ c.time.ustep = 127

theorem settle_dead {p : Pins} (dead : p.rstN = false) :
    (c.settle board p).time = ⟨sampleDiv - 1, totalSteps⟩ := by
  simp only [Chip.settle, dead, Bool.false_eq_true, ↓reduceIte]
  split <;> rfl

theorem settle_time (p : Pins) :
    (c.settle board p).time = c.time ∨ (c.settle board p).time = ⟨sampleDiv - 1, totalSteps⟩ := by
  cases live : p.rstN with
  | false => exact .inr (settle_dead board c live)
  | true =>
    obtain ⟨x, hx⟩ := c.settle_live board p live
    rw [hx]
    exact .inl rfl

/-- No micro-step runs, and none will after the next clock. -/
def Timer.Stopped (t : Timer) : Prop := t.ustep = totalSteps ∧ t.sampleCnt ≠ 0

theorem settle_stopped {p : Pins} (stopped : c.time.Stopped ∨ p.rstN = false) :
    (c.settle board p).time.Stopped := by
  have fresh : Timer.Stopped ⟨sampleDiv - 1, totalSteps⟩ := ⟨rfl, by decide⟩
  rcases stopped with stopped | dead
  · rcases settle_time board c p with same | reset
    · rwa [same]
    · rwa [reset]
  · rwa [settle_dead board c dead]

theorem settleAll_stopped {ps : List Pins}
    (stopped : c.time.Stopped ∨ ¬ ∀ p ∈ ps, p.rstN = true) :
    (c.settleAll board ps).time.Stopped := by
  induction ps generalizing c with
  | nil =>
    rcases stopped with stopped | dead
    · exact stopped
    · exact absurd nofun dead
  | cons p rest ih =>
    refine ih (c.settle board p) ?_
    rcases stopped with stopped | dead
    · exact .inl (settle_stopped board c (.inl stopped))
    · cases live : p.rstN with
      | false => exact .inl (settle_stopped board c (.inr live))
      | true =>
        right
        intro later
        apply dead
        intro q mem
        rcases List.mem_cons.mp mem with rfl | mem
        · exact live
        · exact later q mem

theorem settleAll_ustep {ps : List Pins} (rests : c.time.ustep = totalSteps) :
    (c.settleAll board ps).time.ustep = totalSteps := by
  induction ps generalizing c with
  | nil => exact rests
  | cons p rest ih =>
    refine ih (c.settle board p) ?_
    rcases settle_time board c p with same | reset
    · rw [same, rests]
    · rw [reset]

/-- A reset in a cycle leaves no micro-step to run. -/
theorem cycle_dead {i : Cycle} (dead : ¬ i.Live) : (c.cycle board i).time.ustep = totalSteps := by
  change (Chip.settleAll board i.high _).time.ustep = totalSteps
  by_cases high : ∀ p ∈ i.high, p.rstN = true
  · apply settleAll_ustep
    have before : ((c.settleAll board i.low).settle board i.edge).time.Stopped := by
      apply settle_stopped
      by_cases edge : i.edge.rstN = true
      · left
        apply settleAll_stopped
        right
        exact fun low => dead ⟨low, edge, high⟩
      · exact .inr (Bool.eq_false_iff.mpr edge)
    generalize (c.settleAll board i.low).settle board i.edge = s at before ⊢
    have clocked : (s.posedge board i.edge).time.ustep = totalSteps := by
      obtain ⟨step, cnt⟩ := before
      have start : s.time.sampleStart = false := by simpa [Timer.sampleStart] using cnt
      rw [Chip.posedge, Chip.posedgeWith]
      split
      · simp [Timer.next, start, step]
      · exact step
    rcases settle_time board (s.posedge board i.edge) i.edge with same | reset
    · rw [same, clocked]
    · rw [reset]
  · exact (settleAll_stopped board _ (.inr high)).1

end

section
variable {board : Board} {inputs : Nat → Cycle} {c : Chip}

theorem run_from (board : Board) (inputs : Nat → Cycle) (c : Chip) (m n : Nat) :
    c.run board inputs (m + n) =
      (c.run board inputs m).run board (fun k => inputs (m + k)) n := Clocked.run_add _ _ _ _ _

/-- Every micro-step `k` is `k + 1` clocks behind the start of its pass. -/
theorem pass_since (fresh : c.time.ustep = totalSteps) (n : Nat) :
    ∀ k, k < 128 → (c.run board inputs n).time.ustep.toNat = k → k + 1 ≤ n ∧
      (c.run board inputs (n - (k + 1))).time.sampleCnt = 0 ∧
      ∀ m, n - (k + 1) ≤ m → m < n → (inputs m).Live := by
  have total : totalSteps.toNat = 128 := rfl
  induction n with
  | zero =>
    intro k hk step
    rw [show (c.run board inputs 0).time.ustep = totalSteps from fresh, total] at step
    omega
  | succ n ih =>
    intro k hk step
    have next : c.run board inputs (n + 1) = (c.run board inputs n).cycle board (inputs n) := rfl
    by_cases live : (inputs n).Live
    · rw [next, ((c.run board inputs n).cycle_spec board (inputs n) live).1, Timer.next] at step
      cases start : (c.run board inputs n).time.sampleStart with
      | true =>
        have cnt : (c.run board inputs n).time.sampleCnt = 0 := by
          simpa [Timer.sampleStart] using start
        simp only [start, ↓reduceIte, BitVec.ofNat_eq_ofNat, BitVec.toNat_ofNat] at step
        obtain rfl : k = 0 := by omega
        refine ⟨by omega, cnt, ?_⟩
        intro m lo hi
        obtain rfl : m = n := by omega
        exact live
      | false =>
        have one : (1 : Byte).toNat = 1 := rfl
        have fits := (c.run board inputs n).time.ustep.isLt
        by_cases runs : (c.run board inputs n).time.ustep < totalSteps
        · have below : (c.run board inputs n).time.ustep.toNat < 128 := runs
          simp only [start, runs, Bool.false_eq_true, ↓reduceIte, BitVec.toNat_add, one] at step
          obtain ⟨le, cnt, lives⟩ := ih (k - 1) (by omega) (by omega)
          have back : n + 1 - (k + 1) = n - (k - 1 + 1) := by omega
          rw [back]
          refine ⟨by omega, cnt, ?_⟩
          intro m lo hi
          by_cases last : m = n
          · rw [last]
            exact live
          · exact lives m lo (by omega)
        · have above : ¬ (c.run board inputs n).time.ustep.toNat < 128 := runs
          simp only [start, runs, Bool.false_eq_true, ↓reduceIte] at step
          omega
    · rw [next, cycle_dead board _ live, total] at step
      omega

/-- **The DAC.** In a run from reset, with any ROM, RAM contents and events on the pins, the
value that a pass leaves in the DAC is the clipped sum of the samples exactly if the sum
fits into a byte or wraps to the bound it exceeds. -/
theorem dac_clipped_iff (board : Board) (inputs : Nat → Cycle) (dLatch : Byte) (sram : Ram)
    (n : Nat) (latches : ((Chip.initial dLatch sram).run board inputs n).Latches (inputs n)) :
    let run := (Chip.initial dLatch sram).run board inputs
    let sum := signedMix board.rom (run (n - 128)).sram
    128 ≤ n ∧ (run (n - 128)).time.sampleCnt = 0 ∧
      ((run (n + 1)).eng.dacOut.toInt = clip sum ↔
        -128 ≤ sum ∧ sum ≤ 127 ∨ sum = 383 ∨ sum = -384) := by
  dsimp only
  obtain ⟨live, -, step⟩ := latches
  have since := @pass_since board inputs (Chip.initial dLatch sram) rfl n 127 (by omega)
    (congrArg BitVec.toNat step)
  rw [show 127 + 1 = 128 from rfl] at since
  obtain ⟨le, start, lives⟩ := since
  refine ⟨le, start, ?_⟩
  have passes : (Chip.run board inputs (Chip.initial dLatch sram) (n - 128)).Passes fun k => inputs (n - 128 + k) := by
    refine ⟨start, ?_⟩
    intro k hk
    by_cases last : n - 128 + k = n
    · rw [last]
      exact live
    · exact lives _ (by omega) (by omega)
  have split := run_from board inputs (Chip.initial dLatch sram) (n - 128) 129
  rw [show n - 128 + 129 = n + 1 by omega] at split
  have dac := (@pass_end board _ _ passes).2
  rw [← split, mix, mixFirst_signed] at dac
  have bounds := signedFirst_bounds board.rom
    (Chip.run board inputs (Chip.initial dLatch sram) (n - 128)).sram 4
  rw [dac]
  exact wrap_clip_iff (by omega) (by omega)

end

/-- A ROM of one value. -/
def flat (x : Byte) : Board := { rom := fun _ => x, float := 0, clash := fun a _ => a }

/-- The first `n` channels sustain. -/
def sustained (n : Nat) : Ram := fun a => if a.setWidth 4 = oEnvState ∧ a.toNat / 16 < n then 2 else 0

set_option maxRecDepth 20000 in
/-- Two voices of 50 add up to 100. -/
theorem dac_clipped_quiet :
    ((Chip.initial 0 (sustained 2)).run (flat 50) (fun _ => Cycle.idle) 440).eng.dacOut.toInt =
      100 := by
  have latches : ((Chip.initial 0 (sustained 2)).run (flat 50) (fun _ => Cycle.idle) 439).Latches
      Cycle.idle := ⟨idle_live, by decide +kernel, by decide +kernel⟩
  have sum : signedMix (flat 50).rom
      ((Chip.initial 0 (sustained 2)).run (flat 50) (fun _ => Cycle.idle) (439 - 128)).sram =
        100 := by decide +kernel
  have dac := (dac_clipped_iff (flat 50) (fun _ => Cycle.idle) 0 (sustained 2) 439 latches).2.2
  rw [sum] at dac
  exact dac.mpr (by decide)

set_option maxRecDepth 20000 in
/-- Two voices of 100 do not clip to 127 but wrap to -56. -/
theorem dac_wraps :
    let run := (Chip.initial 0 (sustained 2)).run (flat 100) fun _ => Cycle.idle
    (run 439).Latches Cycle.idle ∧ signedMix (flat 100).rom (run 311).sram = 200 ∧
      clip 200 = 127 ∧ (run 440).eng.dacOut.toInt = -56 := by
  refine ⟨⟨idle_live, ?_, ?_⟩, ?_, ?_, ?_⟩ <;> decide +kernel

end Chiptune.Wavetable
