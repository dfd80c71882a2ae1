import Chiptune.Phase
import Chiptune.Wt3.Round

/-!
# What an undisturbed core plays

The DAC holds each channel for sixteen steps of a round. `pitch_law` says what it holds at
every step, and how long a channel takes around its wave.
-/

namespace Chiptune.Wt3

open Divider Period Phase

/-- Byte `p` of the wave that the volume `v` selects. -/
def waveByte (rom : Rom) (v : BitVec 4) (p : BitVec 7) : Byte := rom (0#8 ++ v ++ p)

section
variable (mem : Ram) (ch : BitVec 2)

theorem rounds_param (o : BitVec 3) (param : 2 ≤ o.toNat) (r : Nat) :
    round^[r] mem (paramAddr ch o) = mem (paramAddr ch o) := by
  have fits := o.isLt
  induction r with
  | zero => rfl
  | succ r ih =>
    rw [Function.iterate_succ_apply', round_other _ _ (by rw [paramAddr_toNat]; omega), ih]

theorem rounds_acc (r : Nat) : (acc (round^[r] mem) ch).toNat =
    ((acc mem ch).toNat + r * (phaseStep mem ch).toNat) % 2 ^ 16 := by
  induction r with
  | zero =>
    have fits := (acc mem ch).isLt
    rw [Function.iterate_zero_apply, Nat.zero_mul, Nat.add_zero, Nat.mod_eq_of_lt fits]
  | succ r ih =>
    have step : phaseStep (round^[r] mem) ch = phaseStep mem ch := by
      rw [phaseStep, phaseStep, rounds_param mem ch 3 (by decide),
        rounds_param mem ch 2 (by decide)]
    rw [Function.iterate_succ_apply', acc_round, step, BitVec.toNat_add, ih, Nat.mod_add_mod,
      Nat.succ_mul, Nat.add_assoc]

/-- The wave byte of a later round. -/
theorem rounds_sound (rom : Rom) (r : Nat) : sound (round^[r] mem) ch rom =
    waveByte rom ((mem (paramAddr ch 4)).setWidth 4)
      (BitVec.ofNat 7 (position 9 7 (acc mem ch).toNat (phaseStep mem ch).toNat r)) := by
  have place : (acc (round^[r] mem) ch).extractLsb' 9 7 =
      BitVec.ofNat 7 (position 9 7 (acc mem ch).toNat (phaseStep mem ch).toNat r) := by
    apply BitVec.eq_of_toNat_eq
    rw [BitVec.extractLsb'_toNat, Nat.shiftRight_eq_div_pow, rounds_acc, BitVec.toNat_ofNat,
      ← position_mod]
  rw [sound, rounds_param mem ch 4 (by decide), place, waveByte]

end

/-! ## The DAC register -/

section
variable (rom : Rom)

/-- The register holds its byte until a step 12 comes by. -/
theorem dac_holds (e : Engine) (j : Nat) (between : ∀ i, i < j → e.stepLo + BitVec.ofNat 4 i ≠ 12) :
    ((Engine.next rom)^[j] e).dac = e.dac := by
  induction j with
  | zero => rfl
  | succ j ih =>
    have now := between j (Nat.lt_succ_self j)
    rw [← stepLo_iterate rom] at now
    rw [Function.iterate_succ_apply', Engine.next, if_neg now]
    exact ih fun i hi => between i (by omega)

/-- Sixteen steps of a slot's byte. -/
theorem slot_dac (e : Engine) (start : e.stepLo = 0) (j : Nat) (hj : j < 16) :
    ((Engine.next rom)^[13 + j] e).dac = sound e.mem e.curChannel rom := by
  obtain ⟨twelve, -, -, wave⟩ := next_twelve rom e start
  have split : (Engine.next rom)^[13 + j] e =
      (Engine.next rom)^[j] (Engine.next rom ((Engine.next rom)^[12] e)) := by
    rw [Nat.add_comm, Function.iterate_add_apply, Function.iterate_succ_apply']
  have thirteen : (Engine.next rom ((Engine.next rom)^[12] e)).stepLo = 13 := by
    rw [Engine.next, twelve]
    rfl
  rw [split, dac_holds rom, Engine.next, if_pos twelve, wave]
  intro i hi back
  have back := congrArg BitVec.toNat back
  rw [thirteen, BitVec.toNat_add, BitVec.toNat_ofNat] at back
  change (13 + i % 16) % 16 = 12 at back
  omega

theorem next_rounds (e : Engine) (start : e.stepLo = 0) (first : e.curChannel = 0) (r : Nat) :
    ((Engine.next rom)^[64 * r] e).stepLo = 0 ∧ ((Engine.next rom)^[64 * r] e).curChannel = 0 ∧
      ((Engine.next rom)^[64 * r] e).mem = round^[r] e.mem := by
  induction r with
  | zero => exact ⟨start, first, rfl⟩
  | succ r ih =>
    obtain ⟨step, channel, mem⟩ := ih
    obtain ⟨step', channel', mem', -⟩ := next_round rom _ step channel
    have turn := Function.iterate_add_apply (Engine.next rom) 64 (64 * r) e
    rw [Nat.add_comm, ← Nat.mul_succ] at turn
    rw [turn]
    exact ⟨step', channel', mem'.trans (mem ▸ (Function.iterate_succ_apply' round r e.mem).symm)⟩

theorem round_dac (e : Engine) (start : e.stepLo = 0) (first : e.curChannel = 0) (ch : BitVec 2)
    (r j : Nat) (hj : j < 16) :
    ((Engine.next rom)^[64 * r + 16 * ch.toNat + (13 + j)] e).dac =
      sound (round^[r] e.mem) ch rom := by
  have hc := ch.isLt
  obtain ⟨step, channel, mem⟩ := next_rounds rom e start first r
  have slots := next_slots rom _ step channel ch.toNat (by omega)
  have split : (Engine.next rom)^[64 * r + 16 * ch.toNat + (13 + j)] e =
      (Engine.next rom)^[13 + j] ((Engine.next rom)^[16 * ch.toNat]
        ((Engine.next rom)^[64 * r] e)) := by
    rw [← Function.iterate_add_apply, ← Function.iterate_add_apply]
    exact congrArg (fun n => (Engine.next rom)^[n] e) (by omega)
  have turn (k : BitVec 4) (c : BitVec 2) (zero : k.extractLsb' 0 2 = 0) :
      (k + BitVec.ofNat 4 c.toNat).extractLsb' 0 2 = c := by
    revert k c
    decide
  rw [split]
  generalize (Engine.next rom)^[64 * r] e = t at step channel mem slots
  obtain ⟨step', hi, mem', -⟩ := slots
  rw [slot_dac rom _ step' j hj, mem', Engine.curChannel, hi, turn _ ch channel, ← mem]
  have own := sound_own rom t.mem ch.toNat hc
  rwa [BitVec.ofNat_toNat, BitVec.setWidth_eq] at own

end

/-- **The pitch of a channel.** While the host leaves the core alone, the DAC holds for
sixteen steps of every round the wave byte of the channel, at the place to which its phase
step has taken it by then. The accumulator goes around as often as the sum of the steps
says, without drift. The bytes have every period that takes the accumulator around a whole
number of times; if the bytes of the wave are told apart, they have no other. -/
theorem pitch_law (rom : Rom) (float : Byte) (hs : Nat → List HostEvent) (c : Core)
    (off : c.bus.pins.Deselected) (quiet : ∀ n, ∀ h ∈ hs n, h.Deselected)
    (start : c.eng.step = 0) (ch : BitVec 2) :
    let a := (acc c.eng.mem ch).toNat
    let s := (phaseStep c.eng.mem ch).toNat
    let wave := waveByte rom ((c.eng.mem (paramAddr ch 4)).setWidth 4)
    let heard := fun r => (c.run rom float hs (64 * r + 16 * ch.toNat + 13)).eng.dac
    let phase := fun r => (acc (c.run rom float hs (64 * r)).eng.mem ch).toNat
    (∀ r, heard r = wave (BitVec.ofNat 7 ((a + r * s) / 2 ^ 9)) ∧ ∀ j, j < 16 →
      (c.run rom float hs (64 * r + 16 * ch.toNat + (13 + j))).eng.dac = heard r) ∧
    (∀ R, stepCount (fun r => decide (phase (r + 1) < phase r)) R = (a + R * s) / 2 ^ 16) ∧
    (∀ m, 2 ^ 16 ∣ m * s → Repeats m heard) ∧
    (Function.Injective wave → ∀ m, Repeats m heard ↔ 2 ^ 16 ∣ m * s) := by
  intro a s wave heard phase
  have split (ch : BitVec 2) (k : BitVec 4) (h : ch ++ k = 0) : k = 0 ∧ ch = 0 := by
    revert ch k
    decide
  obtain ⟨lo, first⟩ := split _ _ start
  have engine (n : Nat) : (c.run rom float hs n).eng = (Engine.next rom)^[n] c.eng :=
    (@run_deselected rom float _ hs off quiet n).1
  have byte (r j : Nat) (hj : j < 16) :
      (c.run rom float hs (64 * r + 16 * ch.toNat + (13 + j))).eng.dac =
        wave (BitVec.ofNat 7 (position 9 7 a s r)) := by
    rw [engine, round_dac rom c.eng lo first ch r j hj]
    exact rounds_sound c.eng.mem ch rom r
  have wide (x : Nat) : BitVec.ofNat 7 (x % 2 ^ 7) = BitVec.ofNat 7 x := by
    apply BitVec.eq_of_toNat_eq
    rw [BitVec.toNat_ofNat, BitVec.toNat_ofNat, Nat.mod_mod]
  have moves : heard = fun r => wave (BitVec.ofNat 7 (position 9 7 a s r)) :=
    funext fun r => byte r 0 (by decide)
  have phases (r : Nat) : phase r = (a + r * s) % 2 ^ 16 := by
    change (acc (c.run rom float hs (64 * r)).eng.mem ch).toNat = _
    rw [engine, (next_rounds rom c.eng lo first r).2.2]
    exact rounds_acc c.eng.mem ch r
  refine ⟨fun r => ⟨?_, fun j hj => ?_⟩, fun R => ?_, fun m whole => ?_, fun apart m => ?_⟩
  · rw [moves, ← wide]
    rfl
  · rw [byte r j hj, moves]
  · simp only [phases]
    exact stepCount_turns (phaseStep c.eng.mem ch).isLt (acc c.eng.mem ch).isLt R
  · obtain ⟨from_here, same⟩ := (repeats_position (k := 7) (f := 9) (by decide) m).mpr whole
    rw [moves]
    exact ⟨from_here, fun n hn => congrArg (fun p => wave (BitVec.ofNat 7 p)) (same n hn)⟩
  · rw [moves, ← repeats_position (k := 7) (f := 9) (by decide) m]
    refine repeats_window (g := fun p => wave (BitVec.ofNat 7 p)) 1 fun i j same => ?_
    have places := congrArg BitVec.toNat (apart (same 0 Nat.one_pos))
    rw [BitVec.toNat_ofNat, BitVec.toNat_ofNat] at places
    have left := position_lt (f := 9) (k := 7) (a := a) (s := s) i
    have right := position_lt (f := 9) (k := 7) (a := a) (s := s) j
    rwa [Nat.add_zero, Nat.add_zero, Nat.mod_eq_of_lt left, Nat.mod_eq_of_lt right] at places

/-- A step of 0x300 in channel 2, over a wave that counts: 256 rounds are three turns, and
no fewer rounds repeat. -/
theorem pitch_law_three :
    let c := Core.powerUp (Function.update (fun _ => 0) (paramAddr 2 3) 3)
    let heard := fun r => (c.run (fun a => a.setWidth 8) 0 (fun _ => [.clock]) (64 * r + 45)).eng.dac
    Repeats 256 heard ∧ ¬ Repeats 128 heard := by
  intro c heard
  have clocks : ∀ n, ∀ h ∈ (fun _ => [.clock] : Nat → List HostEvent) n, h.Deselected := by
    intro _ h hh
    rw [List.mem_singleton.mp hh]
    trivial
  have law := (pitch_law (fun a => a.setWidth 8) 0 (fun _ => [.clock]) c ⟨rfl, rfl⟩ clocks
    (by decide) 2).2.2.2
  have apart : Function.Injective
      (waveByte (fun a => a.setWidth 8) ((c.eng.mem (paramAddr 2 4)).setWidth 4)) := by
    intro p q same
    revert p q
    decide +kernel
  exact ⟨(law apart 256).mpr (by decide), fun half => absurd ((law apart 128).mp half) (by decide)⟩

end Chiptune.Wt3
