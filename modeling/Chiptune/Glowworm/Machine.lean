import Chiptune.Glowworm.Code

/-!
# The machine, whatever its ALU

On the board the ALU is a table in a memory chip, filled by the start-up routine of the
compiler; `alu_compute` of the simulator takes its place. Here it is a parameter.

* `execBy_simulator`: with `alu_compute` the machine is the simulator.
* `Tabled`: the ALU reads what `glow_cpu_init` stores.
-/

namespace Chiptune.Glowworm

/-- The output for the latch, `A`, `B` and a mode. -/
abbrev Alu := BitVec 16 → Byte → Byte → Byte → BitVec 16

namespace Sim

section
variable (alu : Alu) (rom : BitVec 20 → Byte) (ir : Word) (s : Sim)

def aluBy (mode : Byte) : BitVec 16 := alu s.aluOut s.a s.b mode

def srcBy : Byte :=
  match (srcHi ir).toNat with
  | 0 => xx ir
  | 1 => (s.aluBy alu (xx ir)).setWidth 8
  | 2 => s.rf s.ra
  | 3 => s.dataRam s.dataIndex
  | 4 => s.io0
  | 5 => s.io1
  | _ => 0

def latchBy : Sim := if srcHi ir = 1 then { s with aluOut := s.aluBy alu (xx ir) } else s

def writeBy (src : Byte) : Sim :=
  match (dstLo ir).toNat with
  | 0 => { s with rf := Function.update s.rf s.ra src }
  | 1 => { s with a := src }
  | 2 => { s with a0 := src }
  | 3 => { s with a1 := src }
  | 4 => { s with a2 := src }
  | 5 => { s with ra := src }
  | 6 => { s with b := src }
  | 8 => { s with dataRam := Function.update s.dataRam s.dataIndex src }
  | 9 => { s with
      aluOut := s.aluBy alu (xx ir)
      rf := Function.update s.rf s.ra ((s.aluBy alu (xx ir)).setWidth 8) }
  | 10 => { s with io0 := src, io0Oe := true }
  | 11 => { s with io1 := src, io1Oe := true }
  | _ => s

def execBy : Sim :=
  let s' := s.latchBy alu ir
  if op ir = 0x07 then { s' with pc := s.jumpTarget }
  else if op ir = 0x17 then
    { s' with
      aluOut := s'.aluBy alu (xx ir)
      pc := if (s'.aluBy alu (xx ir)).getLsbD 0 then s.pc + 2 else s.jumpTarget }
  else if op ir = 0xFF then { s' with pc := s.pc + 2 }
  else if srcValid ir then { s'.writeBy alu ir (s.srcBy alu ir) with pc := s.pc + 2 }
  else { s' with pc := s.pc + 2 }

def stepBy : Sim := s.execBy alu (s.fetched rom)

def runBy : Nat → Sim := Clocked.run (fun _ s => s.stepBy alu rom) (fun _ => ()) s

/-- The effect of instructions in order. -/
def execAllBy (ws : List Word) : Sim := ws.foldl (fun s ir => s.execBy alu ir) s

theorem writeBy_simulator (src : Byte) : s.writeBy aluCompute ir src = s.write ir src := by
  unfold writeBy write
  rfl

/-- With `alu_compute` it is the simulator. -/
theorem execBy_simulator : s.execBy aluCompute ir = s.exec ir := by
  have latch : s.latchBy aluCompute ir = s.latch ir := rfl
  have src : s.srcBy aluCompute ir = s.src ir := rfl
  rw [execBy, exec, latch, src, writeBy_simulator]
  rfl

theorem runBy_simulator (n : Nat) : s.runBy aluCompute rom n = s.run rom n := by
  have step : (fun (_ : Unit) (s : Sim) => s.stepBy aluCompute rom) = fun _ s => s.step rom :=
    funext fun _ => funext fun s => s.execBy_simulator (s.fetched rom)
  rw [runBy, step]
  rfl

theorem runBy_succ' (n : Nat) :
    s.runBy alu rom (n + 1) = (s.stepBy alu rom).runBy alu rom n := by
  rw [runBy, runBy, Nat.add_comm, Clocked.run_add]
  rfl

theorem runBy_succ (n : Nat) : s.runBy alu rom (n + 1) = (s.runBy alu rom n).stepBy alu rom := rfl

theorem runBy_add (m n : Nat) :
    s.runBy alu rom (m + n) = (s.runBy alu rom m).runBy alu rom n := Clocked.run_add _ _ _ _ _

@[simp] theorem execAllBy_nil : s.execAllBy alu [] = s := rfl

@[simp] theorem execAllBy_cons (ws : List Word) :
    s.execAllBy alu (ir :: ws) = (s.execBy alu ir).execAllBy alu ws := rfl

theorem execAllBy_append (ws vs : List Word) :
    s.execAllBy alu (ws ++ vs) = (s.execAllBy alu ws).execAllBy alu vs := List.foldl_append

/-- A data instruction with a source that exists. -/
theorem execBy_data {o : Byte} (x : Byte) (valid : o.extractLsb' 4 4 ≤ 5) (h07 : o ≠ 0x07)
    (h17 : o ≠ 0x17) (hff : o ≠ 0xFF) : s.execBy alu (word o x) =
      { (s.latchBy alu (word o x)).writeBy alu (word o x) (s.srcBy alu (word o x)) with
        pc := s.pc + 2 } := by
  have ok : srcValid (word o x) = true := by
    rw [srcValid, srcHi_word]
    exact decide_eq_true valid
  rw [execBy, op_word, if_neg h07, if_neg h17, if_neg hff, if_pos ok]

@[simp] theorem execBy_nop : s.execBy alu nop = { s with pc := s.pc + 2 } := by
  simp [nop, execBy, latchBy]

theorem execBy_jump (x : Byte) : s.execBy alu (word 0x07 x) = { s with pc := s.jumpTarget } := by
  simp [execBy, latchBy]

end

section
variable {alu : Alu} {rom : BitVec 20 → Byte}

theorem execBy_straight {ir : Word} (straight : Straight ir) (s : Sim) :
    (s.execBy alu ir).pc = s.pc + 2 := by
  rw [execBy, if_neg straight.1, if_neg straight.2]
  split
  · rfl
  · split <;> rfl

/-- Straight-line code runs through. -/
theorem runBy_code {ws : List Word} (straight : StraightCode ws) {s : Sim}
    (code : CodeAt rom s.pc ws) : s.runBy alu rom ws.length = s.execAllBy alu ws ∧
      (s.execAllBy alu ws).pc = s.pc + BitVec.ofNat 32 (2 * ws.length) := by
  induction ws generalizing s with
  | nil => exact ⟨rfl, (BitVec.add_zero s.pc).symm⟩
  | cons ir ws ih =>
    obtain ⟨here, rest⟩ := code
    have step : s.stepBy alu rom = s.execBy alu ir := congrArg (s.execBy alu) here
    rw [straightCode_cons] at straight
    have pc : (s.execBy alu ir).pc = s.pc + 2 := execBy_straight straight.1 s
    rw [← pc] at rest
    obtain ⟨run, last⟩ := ih straight.2 rest
    constructor
    · rw [List.length_cons, runBy_succ', step]
      exact run
    · rw [execAllBy_cons, last, pc, address_succ]
      rfl

end

end Sim

/-- The ALU reads the table of the start-up routine. -/
def Tabled (alu : Alu) : Prop :=
  ∀ latch a b (m : AluMode), (alu latch a b m.code).setWidth 8 = CpuInit.stored m a b

end Chiptune.Glowworm
