import Chiptune.Cascade
import Chiptune.Wt3.Core

/-!
# One step of the engine

What a `STEP_CLK` does to the engine while the host leaves the chip deselected, whatever the
bus clock does.
-/

namespace Chiptune.Wt3

theorem paramAddr_toNat (ch : BitVec 2) (o : BitVec 3) :
    (paramAddr ch o).toNat = 8 * ch.toNat + o.toNat := by
  revert ch o
  decide

theorem paramAddr_inj {ch ch' : BitVec 2} {o o' : BitVec 3} :
    paramAddr ch o = paramAddr ch' o' ↔ ch = ch' ∧ o = o' := by
  revert ch ch' o o'
  decide

/-- The byte of the current channel's block. -/
def Engine.byte (e : Engine) (o : BitVec 3) : Byte := e.mem (paramAddr e.curChannel o)

/-- A rising `STEP_CLK` while `CS_n` is high. -/
def Engine.next (rom : Rom) (e : Engine) : Engine where
  stepLo := e.stepLo + 1
  stepHi := if e.stepLo = 15 then e.stepHi + 1 else e.stepHi
  aLo := if e.stepLo = 1 then e.byte 0 else e.aLo
  aHi := if e.stepLo = 3 then e.byte 1 else e.aHi
  bLo := if e.stepLo = 5 then e.byte 2 else e.bLo
  bHi := if e.stepLo = 7 then e.byte 3 else e.bHi
  c := if e.stepLo = 9 then e.byte 4 else e.c
  dac := if e.stepLo = 12 then e.waveDo rom else e.dac
  mem :=
    if e.stepLo = 9 then Function.update e.mem (paramAddr e.curChannel 0) e.adderLo
    else if e.stepLo = 11 then Function.update e.mem (paramAddr e.curChannel 1) e.adderHi
    else e.mem

/-- The host has the chip deselected, and it is out of reset. -/
def Pins.Deselected (p : Pins) : Prop := p.csN = true ∧ p.rstN = true

def HostEvent.Deselected : HostEvent → Prop
  | .clock => True
  | .drive p => p.Deselected

section
variable {rom : Rom} {float : Byte} {c : Core}

theorem host_pins (off : c.bus.pins.Deselected) {h : HostEvent} (quiet : h.Deselected) :
    (c.bus.host h).pins.Deselected := by
  cases h with
  | clock => exact off
  | drive p => exact quiet

/-- A host that leaves the chip deselected does not touch the engine. -/
theorem host_deselected (off : c.bus.pins.Deselected) {h : HostEvent} (quiet : h.Deselected) :
    (c.host rom h).eng = c.eng ∧ ¬ Core.dacCp { c with bus := c.bus.host h } c := by
  have pins := host_pins off quiet
  have strobe : Core.ramWeN { c with bus := c.bus.host h } = c.ramWeN := by
    rw [ramWeN_engine off.1, ramWeN_engine pins.1]
  have dac : Core.latchDac { c with bus := c.bus.host h } = c.latchDac := by
    rw [latchDac_eq, latchDac_eq, off.1, off.2]
    simp [pins.1, pins.2]
  have still : Core.dacCp { c with bus := c.bus.host h } c = false := by
    rw [Core.dacCp, dac, Bool.not_and_self]
  refine ⟨?_, by rw [still]; exact Bool.false_ne_true⟩
  simp [Core.host, Core.edges, strobe, still, pins.2]

theorem stepLo_next (off : c.bus.pins.Deselected) :
    (c.stepClk float).eng.stepLo = c.eng.stepLo + 1 := by
  simp [Core.stepClk, off.2, hc161]

theorem stepHi_next (off : c.bus.pins.Deselected) : (c.stepClk float).eng.stepHi =
    if c.eng.stepLo = 15 then c.eng.stepHi + 1 else c.eng.stepHi := by
  simp [Core.stepClk, off.2, hc161, hc161Tc]

theorem nibbles_append (hi lo : BitVec 4) :
    nibble (hi ++ lo) 1 = hi ∧ nibble (hi ++ lo) 0 = lo := by
  revert hi lo
  decide

/-- The two 161 of the step counter are one of eight bits, though the upper one takes the
carry on `CEP` alone. -/
theorem stepClk_counts :
    ((c.stepClk float).eng.stepHi ++ (c.stepClk float).eng.stepLo : Byte) =
      if c.bus.pins.rstN then (c.eng.stepHi ++ c.eng.stepLo : Byte) + 1
      else c.eng.stepHi ++ c.eng.stepLo := by
  obtain ⟨high, low⟩ := nibbles_append c.eng.stepHi c.eng.stepLo
  have zero (i : Nat) : nibble (0 : Byte) i = 0 := by simp [nibble]
  have stages := Cascade.append_two fun i => hc161 true true
    (Cascade.cepAt (k := 2) .cep c.bus.pins.rstN (c.eng.stepHi ++ c.eng.stepLo) i)
    (Cascade.cetAt (k := 2) .cep c.bus.pins.rstN (c.eng.stepHi ++ c.eng.stepLo) i)
    (nibble (0 : Byte) i) (nibble (c.eng.stepHi ++ c.eng.stepLo) i)
  have counter := @Cascade.step_two 2 (Nat.le_refl 2) .cep ⟨true, true, c.bus.pins.rstN, 0⟩
    (c.eng.stepHi ++ c.eng.stepLo)
  rw [Cascade.step] at counter
  rw [counter] at stages
  simp only [Cascade.cepAt, Cascade.cetAt, Cascade.tc, Cascade.Wiring.cepOf,
    Cascade.Wiring.cetOf, Cascade.register, high, low, zero, Bool.not_true, Bool.false_eq_true,
    if_false] at stages
  have loStage : (c.stepClk float).eng.stepLo =
      hc161 true true c.bus.pins.rstN c.bus.pins.rstN 0 c.eng.stepLo := rfl
  have hiStage : (c.stepClk float).eng.stepHi =
      hc161 true true (hc161Tc c.bus.pins.rstN c.eng.stepLo && c.bus.pins.rstN)
        c.bus.pins.rstN 0 c.eng.stepHi := rfl
  rw [loStage, hiStage]
  exact stages

theorem latch_next (off : c.bus.pins.Deselected) (k : BitVec 4) (q : Byte) (reads : k.toNat < 10) :
    c.latch float k.toNat q = if c.eng.stepLo = k then c.eng.byte (subAddr k) else q := by
  rw [latch_eq]
  by_cases now : c.eng.stepLo = k
  · rw [if_pos ⟨off.2, off.1, now⟩, if_pos now, ramDo_engine float off.1 (by rw [now]; exact reads),
      now, Engine.byte]
  · rw [if_neg fun h => now h.2.2, if_neg now]

/-- `WE_n` falls into the two write-back steps. -/
theorem strobe_next (off : c.bus.pins.Deselected) : (c.ramWeN && !(c.stepClk float).ramWeN) =
    (c.eng.stepLo == 9 || c.eng.stepLo == 11) := by
  have off' : (c.stepClk float).bus.pins.Deselected := off
  rw [ramWeN_engine off.1, ramWeN_engine off'.1, Engine.mcWeN_eq, Engine.mcWeN_eq,
    stepLo_next off]
  generalize c.eng.stepLo = k
  revert k
  decide

/-- `latch_dac` rises into step 13. -/
theorem dacCp_next (off : c.bus.pins.Deselected) :
    (c.stepClk float).dacCp c = (c.eng.stepLo == 12) := by
  have off' : (c.stepClk float).bus.pins.Deselected := off
  rw [Core.dacCp, latchDac_eq, latchDac_eq, stepLo_next off, off.1, off.2, off'.1, off'.2]
  generalize c.eng.stepLo = k
  revert k
  decide

/-- The latches of a core that is deselected. -/
theorem stepClk_eng (off : c.bus.pins.Deselected) : (c.stepClk float).eng = { c.eng with
    stepLo := c.eng.stepLo + 1
    stepHi := if c.eng.stepLo = 15 then c.eng.stepHi + 1 else c.eng.stepHi
    aLo := if c.eng.stepLo = 1 then c.eng.byte 0 else c.eng.aLo
    aHi := if c.eng.stepLo = 3 then c.eng.byte 1 else c.eng.aHi
    bLo := if c.eng.stepLo = 5 then c.eng.byte 2 else c.eng.bLo
    bHi := if c.eng.stepLo = 7 then c.eng.byte 3 else c.eng.bHi
    c := if c.eng.stepLo = 9 then c.eng.byte 4 else c.eng.c } := by
  have latches (k : BitVec 4) (o : BitVec 3) (q : Byte) (reads : k.toNat < 10)
      (sub : subAddr k = o) : c.latch float k.toNat q =
        if c.eng.stepLo = k then c.eng.byte o else q := by
    rw [latch_next off k q reads, sub]
  apply Engine.ext
  case stepLo => exact stepLo_next off
  case stepHi => exact stepHi_next off
  case aLo => exact latches 1 0 _ (by decide) (by decide)
  case aHi => exact latches 3 1 _ (by decide) (by decide)
  case bLo => exact latches 5 2 _ (by decide) (by decide)
  case bHi => exact latches 7 3 _ (by decide) (by decide)
  case c => exact latches 9 4 _ (by decide) (by decide)
  case dac => rfl
  case mem => rfl

/-- From step 9 on the operands of the adder stand still. -/
theorem stepClk_late (off : c.bus.pins.Deselected) (k : BitVec 4) (now : c.eng.stepLo = k)
    (late : 9 ≤ k.toNat) (inside : k ≠ 15) : (c.stepClk float).eng = { c.eng with
      stepLo := k + 1, c := if k = 9 then c.eng.byte 4 else c.eng.c } := by
  have early (l : BitVec 4) (hl : l.toNat < 9) : c.eng.stepLo ≠ l := by
    rw [now]
    rintro rfl
    omega
  rw [stepClk_eng off, if_neg (early 1 (by decide)), if_neg (early 3 (by decide)),
    if_neg (early 5 (by decide)), if_neg (early 7 (by decide)), now, if_neg inside]

theorem write_next (off : c.bus.pins.Deselected) (k : BitVec 4) (now : c.eng.stepLo = k)
    (late : 9 ≤ k.toNat) (inside : k ≠ 15) :
    0#7 ++ (c.stepClk float).ramAddr = paramAddr c.eng.curChannel (subAddr (k + 1)) ∧
      (c.stepClk float).ramDi =
        if (subAddr (k + 1)).getLsbD 0 then c.eng.adderHi else c.eng.adderLo := by
  have off' : (c.stepClk float).bus.pins.Deselected := off
  rw [ramAddr_engine off'.1, ramDi_engine off'.1, Engine.writebackData_eq,
    Engine.mcRamSubAddr_eq, stepClk_late off k now late inside]
  exact ⟨rfl, rfl⟩

theorem tick_next (off : c.bus.pins.Deselected) :
    (c.tick rom float).eng = c.eng.next rom := by
  have live : (c.bus.pins.rstN && !(c.stepClk float).bus.pins.rstN) = false := by
    rw [off.2]
    exact congrArg Bool.not off.2
  rw [Core.tick, Core.edges, live, strobe_next off, dacCp_next off]
  apply Engine.ext
  case dac =>
    by_cases now : c.eng.stepLo = 12
    · rw [stepClk_late off 12 now (by decide) (by decide)]
      simp [Engine.next, now, Engine.waveDo]
    · simp only [Engine.next, now, beq_iff_eq, Bool.false_eq_true, ↓reduceIte]
      rfl
  case mem =>
    by_cases lo : c.eng.stepLo = 9
    · obtain ⟨addr, di⟩ := @write_next float c off 9 lo (by decide) (by decide)
      simp only [Engine.next, lo, addr, di, BEq.rfl, Bool.true_or, ↓reduceIte]
      rfl
    · by_cases hi : c.eng.stepLo = 11
      · obtain ⟨addr, di⟩ := @write_next float c off 11 hi (by decide) (by decide)
        simp only [Engine.next, hi, addr, di, BEq.rfl, Bool.or_true, ↓reduceIte]
        rfl
      · simp only [Engine.next, beq_eq_false_iff_ne.mpr lo, beq_eq_false_iff_ne.mpr hi,
          Bool.or_self, Bool.false_eq_true, lo, hi, ↓reduceIte]
        rfl
  all_goals
    simp only [stepClk_eng off, Engine.next]

end

end Chiptune.Wt3
