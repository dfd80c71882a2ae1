import Chiptune.Psg3.Bus
import Chiptune.SqTop

/-!
# The square channel of PSG3 v0.4

The counter and the toggle chain of channel CH0 in `rtl/psg3_top.v`, with the registers
held. `toggles_iff` says for it and for `sq_top` which preset gives one toggle a reload:
every one but the last, which reloads at every clock and leaves no edge to toggle on.
-/

namespace Chiptune.Psg3

open Divider

structure Ch0 where
  cnt : Byte
  reloadPulse : Bool
  q1 : Bool
  q2 : Bool
  q3 : Bool

namespace Ch0

/-- After `rst_n`. -/
def reset : Ch0 := ⟨0, false, false, false, false⟩

variable (regs : Fin 8 → Byte) (s : Ch0)

def tcLo : Bool := hc161Tc true (nibble s.cnt 0)
def tcHi : Bool := hc161Tc s.tcLo (nibble s.cnt 1)
def peN : Bool := !(s.tcHi && s.tcHi)

/-- Two 161; the carry out of the upper one loads the period again. -/
def cntNext : Byte :=
  hc161 true s.peN s.tcLo s.tcLo (nibble (periodQ regs) 1) (nibble s.cnt 1) ++
    hc161 true s.peN true true (nibble (periodQ regs) 0) (nibble s.cnt 0)

/-- White noise takes the inverted carry. -/
def reloadSrc : Bool := if modeSel regs then s.peN else s.tcHi

/-- A rising `clk`. Each flip-flop of the chain is clocked by the rise of the one before. -/
def clock : Ch0 :=
  let reloadPulse := s.reloadSrc regs
  let q1 := if !s.reloadPulse && reloadPulse then !s.q1 else s.q1
  let q2 := if !s.q1 && q1 then !s.q2 else s.q2
  let q3 := if !s.q2 && q2 then !s.q3 else s.q3
  { cnt := s.cntNext regs, reloadPulse, q1, q2, q3 }

def run (n : Nat) : Ch0 := Clocked.run (fun (_ : Unit) s => clock regs s) (fun _ => ()) s n

/-- The clock loads the counter. -/
def reloads (n : Nat) : Bool := (s.run regs n).tcHi

/-- The clock changes `q1`. -/
def toggles (n : Nat) : Bool := (s.run regs n).q1 ^^ (s.run regs (n + 1)).q1

/-! ## The counter -/

theorem tcHi_eq : s.tcHi = (s.cnt == BitVec.allOnes 8) :=
  @Cascade.last_tc 1 .both (by decide) true s.cnt

theorem cntNext_eq_step :
    s.cntNext regs = Cascade.step (k := 2) .both ⟨true, s.peN, true, periodQ regs⟩ s.cnt :=
  Cascade.append_two fun i => hc161 true s.peN (Cascade.cepAt (k := 2) .both true s.cnt i)
    (Cascade.cetAt (k := 2) .both true s.cnt i) (nibble (periodQ regs) i) (nibble s.cnt i)

theorem cntNext_eq :
    s.cntNext regs = if s.cnt = BitVec.allOnes 8 then periodQ regs else s.cnt + 1 := by
  have tc := s.tcHi_eq
  have counter := @Cascade.step_eq_register 2 .both (by decide)
    ⟨true, s.peN, true, periodQ regs⟩ s.cnt
  rw [cntNext_eq_step, counter, Cascade.register, peN, tc]
  by_cases full : s.cnt = BitVec.allOnes 8
  · rw [if_pos full, beq_iff_eq.mpr full]
    rfl
  · rw [if_neg full, beq_eq_false_iff_ne.mpr full]
    rfl

theorem reloads_every : StepsEvery (256 - (periodQ regs).toNat) (s.reloads regs) := by
  have every := @full_stepsEvery 8 (periodQ regs) (fun n => (s.run regs n).cnt)
    fun n => (s.run regs n).cntNext_eq regs
  have same : s.reloads regs = fun n => (s.run regs n).cnt == BitVec.allOnes 8 := by
    funext n
    exact (s.run regs n).tcHi_eq
  rw [same]
  exact every

variable {regs}

/-- `q1` toggles on the reload: the pulse is a clock behind the carry. -/
theorem q1_rises (mode : modeSel regs = false) (m n : Nat) (hn : n + 0 = m + 1) :
    s.toggles regs n = (!s.reloads regs m && s.reloads regs (m + 1)) := by
  obtain rfl : n = m + 1 := hn
  have pulse (t : Ch0) : (t.clock regs).reloadPulse = t.tcHi := by
    change t.reloadSrc regs = _
    rw [reloadSrc, mode]
    rfl
  have before := pulse (s.run regs m)
  have after := pulse (s.run regs (m + 1))
  have q1 (t : Ch0) : (t.clock regs).q1 =
      if !t.reloadPulse && (t.clock regs).reloadPulse then !t.q1 else t.q1 := rfl
  have step := q1 (s.run regs (m + 1))
  rw [after] at step
  change ((s.run regs (m + 1)).q1 ^^ ((s.run regs (m + 1)).clock regs).q1) =
    (!(s.run regs m).tcHi && (s.run regs (m + 1)).tcHi)
  rw [step, show (s.run regs (m + 1)).reloadPulse = (s.run regs m).tcHi from before]
  cases !(s.run regs m).tcHi && (s.run regs (m + 1)).tcHi <;>
    cases (s.run regs (m + 1)).q1 <;> rfl

end Ch0

/-! ## The two square outputs -/

theorem period_one {w : Nat} (_pos : 0 < w) (p : BitVec w) :
    2 ^ w - p.toNat ≠ 1 ↔ p ≠ BitVec.allOnes w := by
  have fits := p.isLt
  rw [ne_eq, ne_eq, ← BitVec.toNat_inj, BitVec.toNat_allOnes]
  omega

/-- **One toggle a reload.** With the frequency word held, `sq_out` toggles once a reload
and every `65536 - f` clocks exactly if `f` is not the last word; with the registers held,
so does `q1` every `256 - p` clocks exactly if `p` is not the last period. Both from any
state, so after any writes. -/
theorem toggles_iff (s : SqTop) (inputs : Nat → List SqTop.Pins) (f : BitVec 16)
    (held : ∀ n, (s.run inputs n).freq = f) (t : Ch0) (regs : Fin 8 → Byte)
    (mode : modeSel regs = false) :
    (TogglesEvery (65536 - f.toNat) 1 (s.reloads inputs) (s.toggles inputs) ↔ f ≠ 0xFFFF) ∧
      (TogglesEvery (256 - (periodQ regs).toNat) 0 (t.reloads regs) (t.toggles regs) ↔
        periodQ regs ≠ 0xFF) := by
  constructor
  · exact (togglesEvery_iff (SqTop.reloads_every held) SqTop.sq_rises).trans
      (period_one (by decide) f)
  · exact (togglesEvery_iff (t.reloads_every regs) (t.q1_rises mode)).trans
      (period_one (by decide) (periodQ regs))

/-- The address and the data of each byte of a frequency word. -/
def writeFreq (hi lo : Byte) : List (List SqTop.Pins) :=
  SqTop.write false 0 ++ SqTop.write true lo ++ SqTop.write false 1 ++ SqTop.write true hi

def afterFreq (hi lo : Byte) : SqTop :=
  SqTop.powerUp.run (SqTop.traffic (writeFreq hi lo)) (writeFreq hi lo).length

def onlyPeriod (p : Byte) : Fin 8 → Byte := fun n => if n.val = 0 then p else 0

theorem toggles_middle_c :
    TogglesEvery 3419 1 ((afterFreq 0xF2 0xA5).reloads fun _ => [])
        ((afterFreq 0xF2 0xA5).toggles fun _ => []) ∧
      TogglesEvery 56 0 (Ch0.reset.reloads (onlyPeriod 200))
        (Ch0.reset.toggles (onlyPeriod 200)) := by
  have held := SqTop.powerUp.freq_held (writeFreq 0xF2 0xA5) (by decide)
  have both := toggles_iff (afterFreq 0xF2 0xA5) (fun _ => []) 0xF2A5 held Ch0.reset
    (onlyPeriod 200) rfl
  exact ⟨both.1.mpr (by decide), both.2.mpr (by decide)⟩

/-- The last word and the last period stop both outputs. -/
theorem toggles_stop :
    (afterFreq 0xFF 0xFF).freq = 0xFFFF ∧
      ¬TogglesEvery 1 1 ((afterFreq 0xFF 0xFF).reloads fun _ => [])
        ((afterFreq 0xFF 0xFF).toggles fun _ => []) ∧
      ¬TogglesEvery 1 0 (Ch0.reset.reloads (onlyPeriod 0xFF))
        (Ch0.reset.toggles (onlyPeriod 0xFF)) := by
  have held := SqTop.powerUp.freq_held (writeFreq 0xFF 0xFF) (by decide)
  refine ⟨by decide, ?_, ?_⟩
  · intro every
    exact (togglesEvery_iff (SqTop.reloads_every held) SqTop.sq_rises).mp every rfl
  · intro every
    exact (togglesEvery_iff (Ch0.reset.reloads_every (onlyPeriod 0xFF))
      (Ch0.reset.q1_rises rfl)).mp every rfl

end Chiptune.Psg3
