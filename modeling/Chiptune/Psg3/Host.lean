import Chiptune.Psg3.Bus

/-!
# The v0.4 host's fields and the v0.4 chip's

`Psg.set_period`, `write_ctrl` and `write_noise` of `host/psg_adsr_songs_v04.py`, and
the fields that `rtl/psg3_top.v` takes from its registers. The host writes the noise
control to register 2 and the chip reads it from register 6; the host's bit 6 is `ref`
and the chip's is the mode. `fields_iff` says when the chip decodes what the host was
told nevertheless.
-/

namespace Chiptune.Psg3

/-! ## The host -/

/-- The attributes that `write_ctrl` adds to the volume. -/
structure Psg where
  duty : Int
  ref : Int
  mode : Int

/-- `max(lo, min(hi, x))`. -/
def clamp (lo hi x : Int) : Int := max lo (min hi x)

/-- `x & 0xFF`. -/
def low (x : Int) : Byte := BitVec.ofInt 8 x

/-- The control byte of the square channel. -/
def Psg.ctrl (psg : Psg) (vol : Int) : Byte :=
  low (clamp 0 15 vol) &&& 0x0F ||| (low psg.duty &&& 0x03) <<< 4 |||
    (low psg.ref &&& 1) <<< 6 ||| (low psg.mode &&& 1) <<< 7

/-- The control byte of the noise channel. -/
def noiseCtrl (vol freqCode bind : Int) : Byte :=
  low (clamp 0 15 vol) &&& 0x0F ||| (low freqCode &&& 0x03) <<< 4 ||| (low bind &&& 1) <<< 6

inductive Call where
  | setPeriod (p : Int)
  | writeCtrl (vol : Int)
  | writeNoise (vol freqCode bind : Int)
  /-- New values of the attributes. -/
  | tone (duty ref mode : Int)

/-- The commands of a sequence of calls. -/
def send (psg : Psg) : List Call → List Cmd
  | [] => []
  | .setPeriod p :: rest => busWrite 0x01 (low (clamp 0 255 p)) ++ send psg rest
  | .writeCtrl vol :: rest => busWrite 0x02 (psg.ctrl vol) ++ send psg rest
  | .writeNoise vol freqCode bind :: rest =>
    busWrite 0x04 (noiseCtrl vol freqCode bind) ++ send psg rest
  | .tone duty ref mode :: rest => send ⟨duty, ref, mode⟩ rest

/-- The values of the last call of each kind. -/
structure Told where
  period : Option Int
  ctrl : Option (Int × Psg)
  noise : Option (Int × Int × Int)

def Told.after (psg : Psg) (told : Told) : List Call → Told
  | [] => told
  | .setPeriod p :: rest => Told.after psg { told with period := some p } rest
  | .writeCtrl vol :: rest => Told.after psg { told with ctrl := some (vol, psg) } rest
  | .writeNoise vol freqCode bind :: rest =>
    Told.after psg { told with noise := some (vol, freqCode, bind) } rest
  | .tone duty ref mode :: rest => Told.after ⟨duty, ref, mode⟩ told rest

def Told.nothing : Told := ⟨none, none, none⟩

/-- The chip decodes the values of the last calls. -/
structure Decodes (told : Told) (regs : Fin 8 → Byte) : Prop where
  period : ∀ p, told.period = some p → ((periodQ regs).toNat : Int) = p
  ctrl : ∀ vol psg, told.ctrl = some (vol, psg) → ((sqVol regs).toNat : Int) = vol ∧
    ((dutySel regs).toNat : Int) = psg.duty ∧ ((modeSel regs).toNat : Int) = psg.mode
  noise : ∀ vol freqCode bind, told.noise = some (vol, freqCode, bind) →
    ((nzVol regs).toNat : Int) = vol ∧ ((freqSel regs).toNat : Int) = freqCode ∧
      ((bindSw regs).toNat : Int) = bind

/-- What that takes: values in range, a mode that equals `ref`, and a noise call for what
register 6 held before. -/
structure LinesUp (told : Told) (before : Fin 8 → Byte) : Prop where
  period : ∀ p, told.period = some p → 0 ≤ p ∧ p ≤ 255
  ctrl : ∀ vol psg, told.ctrl = some (vol, psg) → (0 ≤ vol ∧ vol ≤ 15) ∧
    (0 ≤ psg.duty ∧ psg.duty ≤ 3) ∧ psg.mode = psg.ref % 2
  noise : ∀ vol freqCode bind, told.noise = some (vol, freqCode, bind) →
    ((nzVol before).toNat : Int) = vol ∧ ((freqSel before).toNat : Int) = freqCode ∧
      ((bindSw before).toNat : Int) = bind

/-! ## Bytes -/

theorem low_toNat (x : Int) : ((low x).toNat : Int) = x % 256 := by
  rw [low, BitVec.toNat_ofInt]
  omega

section
variable (v d r m : Byte)

theorem ctrl_vol :
    (v &&& 0x0F ||| (d &&& 0x03) <<< 4 ||| (r &&& 1) <<< 6 ||| (m &&& 1) <<< 7).extractLsb' 0 4 =
      v.extractLsb' 0 4 := by
  apply BitVec.eq_of_getLsbD_eq
  intro i hi
  have cases : i = 0 ∨ i = 1 ∨ i = 2 ∨ i = 3 := by omega
  rcases cases with rfl | rfl | rfl | rfl <;> simp

theorem ctrl_duty :
    (v &&& 0x0F ||| (d &&& 0x03) <<< 4 ||| (r &&& 1) <<< 6 ||| (m &&& 1) <<< 7).extractLsb' 4 2 =
      d.extractLsb' 0 2 := by
  apply BitVec.eq_of_getLsbD_eq
  intro i hi
  have cases : i = 0 ∨ i = 1 := by omega
  rcases cases with rfl | rfl <;> simp

theorem ctrl_mode :
    (v &&& 0x0F ||| (d &&& 0x03) <<< 4 ||| (r &&& 1) <<< 6 ||| (m &&& 1) <<< 7).getLsbD 6 =
      r.getLsbD 0 := by
  simp

end

section
variable (psg : Psg) (vol : Int)

/-- The first four bits of a byte. -/
theorem low_nibble (x : Int) : (((low x).extractLsb' 0 4).toNat : Int) = x % 16 := by
  have whole := low_toNat x
  rw [BitVec.extractLsb'_toNat, Nat.shiftRight_zero]
  omega

theorem low_pair (x : Int) : (((low x).extractLsb' 0 2).toNat : Int) = x % 4 := by
  have whole := low_toNat x
  rw [BitVec.extractLsb'_toNat, Nat.shiftRight_zero]
  omega

theorem low_bit (x : Int) : (((low x).getLsbD 0).toNat : Int) = x % 2 := by
  have whole := low_toNat x
  rw [BitVec.getLsbD, Nat.toNat_testBit]
  omega

theorem sqVol_ctrl {regs : Fin 8 → Byte} (sent : regs 1 = psg.ctrl vol) :
    ((sqVol regs).toNat : Int) = clamp 0 15 vol := by
  rw [sqVol, sent, Psg.ctrl, ctrl_vol, low_nibble]
  unfold clamp
  omega

theorem dutySel_ctrl {regs : Fin 8 → Byte} (sent : regs 1 = psg.ctrl vol) :
    ((dutySel regs).toNat : Int) = psg.duty % 4 := by
  rw [dutySel, sent, Psg.ctrl, ctrl_duty, low_pair]

/-- The chip's mode is the host's `ref`. -/
theorem modeSel_ctrl {regs : Fin 8 → Byte} (sent : regs 1 = psg.ctrl vol) :
    ((modeSel regs).toNat : Int) = psg.ref % 2 := by
  rw [modeSel, sent, Psg.ctrl, ctrl_mode, low_bit]

end

/-! ## Calls -/

/-- The registers hold what the host was told, and else what they held. -/
structure Holds (before : Fin 8 → Byte) (told : Told) (regs : Fin 8 → Byte) : Prop where
  period : ∀ p, told.period = some p → regs 0 = low (clamp 0 255 p)
  ctrl : ∀ vol psg, told.ctrl = some (vol, psg) → regs 1 = psg.ctrl vol
  rest : regs 6 = before 6

section
variable {before : Fin 8 → Byte}

theorem holds_nothing (before : Fin 8 → Byte) : Holds before Told.nothing before where
  period := by intro p told; cases told
  ctrl := by intro vol psg told; cases told
  rest := rfl

/-- A write of the host seen through the bus. -/
theorem sent_write {b t : Bus} {addr data : Byte} {rest : List Cmd} (n : Fin 8)
    (oneHot : addr = 1 <<< n.val) (ready : b.d = idle)
    (run : Bus.Runs (busWrite addr data ++ rest) b t) :
    ∃ s, s.d = idle ∧ s.regs = Function.update b.regs n data ∧ Bus.Runs rest s t := by
  obtain ⟨s, front, back⟩ := run.append
  obtain ⟨pins, regs⟩ := Bus.write_law ready front
  refine ⟨s, pins, ?_, back⟩
  rw [regs]
  funext k
  have hot := Bus.addr_getLsbD ⟨n, data⟩ k
  simp only [Write.addr, ← oneHot] at hot
  simp only [hot, decide_eq_true_eq, Function.update_apply]

theorem run_holds {calls : List Call} {psg : Psg} {told : Told} {b t : Bus} (ready : b.d = idle)
    (holds : Holds before told b.regs) (run : Bus.Runs (send psg calls) b t) :
    Holds before (told.after psg calls) t.regs := by
  induction calls generalizing psg told b with
  | nil =>
    rw [run.last]
    exact holds
  | cons call rest ih =>
    cases call with
    | setPeriod p =>
      obtain ⟨s, pins, regs, later⟩ := sent_write 0 rfl ready run
      refine ih pins ?_ later
      rw [regs]
      constructor
      · rintro _ ⟨⟩
        exact Function.update_self _ _ _
      · intro vol psg told
        exact holds.ctrl vol psg told
      · exact holds.rest
    | writeCtrl vol =>
      obtain ⟨s, pins, regs, later⟩ := sent_write 1 rfl ready run
      refine ih pins ?_ later
      rw [regs]
      constructor
      · intro p told
        exact holds.period p told
      · rintro _ _ ⟨⟩
        exact Function.update_self _ _ _
      · exact holds.rest
    | writeNoise vol freqCode bind =>
      obtain ⟨s, pins, regs, later⟩ := sent_write 2 rfl ready run
      refine ih pins ?_ later
      rw [regs]
      exact ⟨fun p told => holds.period p told, fun vol psg told => holds.ctrl vol psg told,
        holds.rest⟩
    | tone duty ref mode => exact ih ready holds run

theorem decodes_iff {told : Told} {regs : Fin 8 → Byte} (holds : Holds before told regs) :
    Decodes told regs ↔ LinesUp told before := by
  have noise : nzVol regs = nzVol before ∧ freqSel regs = freqSel before ∧
      bindSw regs = bindSw before := by
    simp only [nzVol, freqSel, bindSw, holds.rest, and_self]
  have period (p : Int) (last : told.period = some p) :
      ((periodQ regs).toNat : Int) = p ↔ 0 ≤ p ∧ p ≤ 255 := by
    rw [periodQ, holds.period p last, low_toNat]
    unfold clamp
    omega
  have ctrl (vol : Int) (psg : Psg) (last : told.ctrl = some (vol, psg)) :
      (((sqVol regs).toNat : Int) = vol ∧ ((dutySel regs).toNat : Int) = psg.duty ∧
        ((modeSel regs).toNat : Int) = psg.mode) ↔
      (0 ≤ vol ∧ vol ≤ 15) ∧ (0 ≤ psg.duty ∧ psg.duty ≤ 3) ∧ psg.mode = psg.ref % 2 := by
    have sent := holds.ctrl vol psg last
    rw [sqVol_ctrl psg vol sent, dutySel_ctrl psg vol sent, modeSel_ctrl psg vol sent]
    unfold clamp
    omega
  constructor
  · intro decodes
    refine ⟨?_, ?_, ?_⟩
    · intro p last
      exact (period p last).mp (decodes.period p last)
    · intro vol psg last
      exact (ctrl vol psg last).mp (decodes.ctrl vol psg last)
    · rw [← noise.1, ← noise.2.1, ← noise.2.2]
      exact decodes.noise
  · intro lines
    refine ⟨?_, ?_, ?_⟩
    · intro p last
      exact (period p last).mpr (lines.period p last)
    · intro vol psg last
      exact (ctrl vol psg last).mpr (lines.ctrl vol psg last)
    · rw [noise.1, noise.2.1, noise.2.2]
      exact lines.noise

end

/-- **Encoder and decoder.** After any sequence of calls, sent with the pins switching in
any order, the chip decodes the values of the last calls exactly when these line up. -/
theorem fields_iff {calls : List Call} {psg : Psg} {b t : Bus} (ready : b.d = idle)
    (run : Bus.Runs (send psg calls) b t) :
    Decodes (Told.nothing.after psg calls) t.regs ↔
      LinesUp (Told.nothing.after psg calls) b.regs :=
  decodes_iff (run_holds ready (holds_nothing b.regs) run)

/-- The bus after reset. -/
def quiet : Bus := ⟨idle, 0, 0, fun _ => 0⟩

/-- The bus after the calls, with the pins in ascending order. -/
def sent (calls : List Call) : Bus :=
  (send ⟨3, 0, 0⟩ calls).foldl (fun b cmd => b.exec cmd (List.finRange 8)) quiet

theorem sent_runs (calls : List Call) : Bus.Runs (send ⟨3, 0, 0⟩ calls) quiet (sent calls) :=
  Bus.Runs.fixed _ (List.Perm.refl _) _ _

/-- A tone of equal `ref` and `mode`, and silence on the noise channel. -/
def toneCalls : List Call := [.tone 2 1 1, .setPeriod 200, .writeCtrl 9, .writeNoise 0 0 0]

theorem fields_tone : Decodes (Told.nothing.after ⟨3, 0, 0⟩ toneCalls) (sent toneCalls).regs := by
  apply (fields_iff rfl (sent_runs toneCalls)).mpr
  constructor
  · rintro _ ⟨⟩
    decide
  · rintro _ _ ⟨⟩
    decide
  · rintro _ _ _ ⟨⟩
    decide

/-- White noise at full volume that the chip does not decode, and `ref` that it takes for
the white-noise mode. -/
theorem fields_lost :
    ¬ Decodes (Told.nothing.after ⟨3, 0, 0⟩ [.writeNoise 15 3 0])
      (sent [.writeNoise 15 3 0]).regs ∧
    ¬ Decodes (Told.nothing.after ⟨3, 0, 0⟩ [.tone 3 1 0, .writeCtrl 15])
      (sent [.tone 3 1 0, .writeCtrl 15]).regs := by
  constructor
  · intro decodes
    have noise := (run_holds rfl (holds_nothing quiet.regs) (sent_runs [.writeNoise 15 3 0])).rest
    have vol := (decodes.noise 15 3 0 rfl).1
    rw [nzVol, noise] at vol
    exact absurd vol (by decide)
  · intro decodes
    have ctrl := (run_holds rfl (holds_nothing quiet.regs)
      (sent_runs [.tone 3 1 0, .writeCtrl 15])).ctrl 15 ⟨3, 1, 0⟩ rfl
    have mode := (decodes.ctrl 15 ⟨3, 1, 0⟩ rfl).2.2
    rw [modeSel_ctrl ⟨3, 1, 0⟩ 15 ctrl] at mode
    exact absurd mode (by decide)

end Chiptune.Psg3
