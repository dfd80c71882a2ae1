import Chiptune.Cpu39040.Rtl

/-!
# The accumulator machine

The ten instructions of `39040cpu/gen_roms.py`, the machine they describe, and how far
the CPU is that machine: `accumulator_iff` says that they agree exactly while no `ST`
needs a falling edge of `WE_n` that the instruction before it has used up.
-/

namespace Chiptune.Cpu39040

inductive Op where
  | nop | ldImm | addImm | subImm | ldAddr | st | addAddr | out | jmp | jz
  deriving DecidableEq

/-- The control bytes `(uctl_lo, uctl_hi)`. -/
def Op.uctl : Op → Byte × Byte
  | nop => (0x21, 0xFF)
  | ldImm => (0x20, 0xFF)
  | addImm => (0x22, 0xFF)
  | subImm => (0x24, 0xFF)
  | ldAddr => (0x30, 0xFF)
  | st => (0x01, 0xFF)
  | addAddr => (0x32, 0xFF)
  | out => (0xA7, 0xFB)
  | jmp => (0x21, 0xEE)
  | jz => (0x21, 0xFE)

structure Instr where
  op : Op
  operand : Byte
  deriving DecidableEq

def Instr.word (i : Instr) : Word := ⟨i.op.uctl.1, i.op.uctl.2, i.operand⟩

/-- What a program can tell of the CPU without its index register. -/
@[ext]
structure Acc where
  pc : BitVec 20
  ac : Byte
  y : Byte
  out : Byte
  mem : BitVec 15 → Byte

namespace Acc
variable (i : Instr) (s : Acc)

/-- `{Y, operand}`. -/
def target : BitVec 20 := (s.y ++ i.operand).setWidth 20

def cell : BitVec 15 := i.operand.setWidth 15

def exec : Acc :=
  match i.op with
  | .nop => { s with pc := s.pc + 1 }
  | .ldImm => { s with pc := s.pc + 1, ac := i.operand }
  | .addImm => { s with pc := s.pc + 1, ac := s.ac + i.operand }
  | .subImm => { s with pc := s.pc + 1, ac := s.ac - i.operand }
  | .ldAddr => { s with pc := s.pc + 1, ac := s.mem (cell i) }
  | .st => { s with pc := s.pc + 1, mem := Function.update s.mem (cell i) s.ac }
  | .addAddr => { s with pc := s.pc + 1, ac := s.ac + s.mem (cell i) }
  | .out => { s with pc := s.pc + 1, out := s.ac }
  | .jmp => { s with pc := s.target i }
  | .jz => { s with pc := if s.ac = 0 then s.target i else s.pc + 1 }

variable (prog : BitVec 19 → Instr)

def fetch : Instr := prog (s.pc.setWidth 19)

def step : Acc := s.exec (s.fetch prog)

/-- The state after `n` instructions. -/
def run (n : Nat) : Acc := Clocked.run (fun (_ : Unit) s => Acc.step s prog) (fun _ => ()) s n

end Acc

/-- A program as the contents of the microcode ROMs. -/
def image (prog : BitVec 19 → Instr) (addr : BitVec 19) : Word := (prog addr).word

def Cpu.view (c : Cpu) : Acc where
  pc := c.pc
  ac := c.ac
  y := c.y
  out := c.out
  mem := c.mem

/-! ## The control bits of an instruction -/

namespace Instr
variable (i : Instr)

@[simp] theorem udata_word : i.word.udata = i.operand := rfl

/-- The lines of the control ROM, instruction by instruction. -/
theorem control_word : i.word.memSel = false ∧ i.word.toYN = true ∧
    i.word.toXN = decide (i.op = .out) ∧ (i.word.toOutN = !decide (i.op = .out)) ∧
    (i.word.ramWeN = !decide (i.op = .st)) ∧
    i.word.busSel = decide (i.op = .ldAddr ∨ i.op = .addAddr) ∧
    i.word.aluOp = if i.op = .addImm ∨ i.op = .addAddr then 1
      else if i.op = .subImm then 2 else if i.op = .out then 3 else 0 := by
  cases i with
  | mk op d =>
    cases op <;> simp [word, Op.uctl, Word.memSel, Word.toYN, Word.toXN, Word.toOutN,
      Word.ramWeN, Word.busSel, Word.aluOp]

@[simp] theorem memSel_word : i.word.memSel = false := i.control_word.1

@[simp] theorem toYN_word : i.word.toYN = true := i.control_word.2.1

@[simp] theorem toXN_word : i.word.toXN = decide (i.op = .out) := i.control_word.2.2.1

@[simp] theorem toOutN_word : i.word.toOutN = !decide (i.op = .out) :=
  i.control_word.2.2.2.1

@[simp] theorem ramWeN_word : i.word.ramWeN = !decide (i.op = .st) :=
  i.control_word.2.2.2.2.1

@[simp] theorem busSel_word : i.word.busSel = decide (i.op = .ldAddr ∨ i.op = .addAddr) :=
  i.control_word.2.2.2.2.2.1

theorem aluOp_word : i.word.aluOp = if i.op = .addImm ∨ i.op = .addAddr then 1
    else if i.op = .subImm then 2 else if i.op = .out then 3 else 0 :=
  i.control_word.2.2.2.2.2.2

end Instr

/-! ## One instruction -/

/-- The byte that the ALU ROM shows during an instruction. -/
def Cpu.result (i : Instr) (c : Cpu) : Byte :=
  match i.op with
  | .nop | .ldImm | .st | .jmp | .jz => i.operand
  | .addImm => c.ac + i.operand
  | .subImm => c.ac - i.operand
  | .ldAddr => c.mem (Acc.cell i)
  | .addAddr => c.ac + c.mem (Acc.cell i)
  | .out => c.ac

namespace Cpu
variable (i : Instr) (unknown : Byte) (c : Cpu)

/-- No instruction addresses the RAM by X. -/
theorem memAddr_word : c.memAddr i.word = Acc.cell i := by
  rw [memAddr_eq, Instr.memSel_word]
  rfl

theorem aluResult_word : c.aluResult i.word unknown = c.result i := by
  have drives : (i.word.busSel && !i.word.ramWeN) = false := by
    cases i with
    | mk op d => cases op <;> simp
  rw [aluResult, aluD, drives, memAddr_word, byteMux_eq]
  simp only [Bool.false_eq_true, ↓reduceIte, aluRom_append, Instr.aluOp_word,
    Instr.busSel_word, Instr.udata_word, result]
  cases op : i.op <;> simp

theorem condTaken_word : c.condTaken i.word =
    (decide (i.op = .jmp) || decide (i.op = .jz) && (c.ac == 0)) := by
  cases i with
  | mk op d =>
    cases op <;> simp [condTaken, zeroFlag_eq, Instr.word, Op.uctl, Word.condEn, Word.condSel,
      Word.jmpDisN]

theorem pc_word : (c.exec i.word unknown).pc =
    if i.op = .jmp ∨ i.op = .jz ∧ c.ac = 0 then c.view.target i else c.pc + 1 := by
  change c.pcNext i.word = _
  rw [pcNext_eq, condTaken_word]
  by_cases taken : i.op = .jmp ∨ i.op = .jz ∧ c.ac = 0
  · rw [if_pos taken, if_pos (by simpa using taken)]
    rfl
  · rw [if_neg taken, if_neg (by simpa using taken)]

theorem ac_word : (c.exec i.word unknown).ac = (c.view.exec i).ac := by
  change hc377 i.word.acDisN (c.aluResult i.word unknown) c.ac = _
  rw [aluResult_word]
  cases i with
  | mk op d => cases op <;> simp [hc377, Instr.word, Op.uctl, Word.acDisN, Acc.exec, view, result]

theorem out_word : (c.exec i.word unknown).out = (c.view.exec i).out := by
  change hc377 i.word.toOutN (c.aluResult i.word unknown) c.out = _
  rw [aluResult_word, Instr.toOutN_word]
  cases i with
  | mk op d => cases op <;> simp [hc377, Acc.exec, view, result]

/-- Y is never loaded. -/
theorem y_word : (c.exec i.word unknown).y = c.y := by
  change hc377 i.word.toYN _ c.y = _
  rw [Instr.toYN_word]
  rfl

/-- X is, by every instruction but `OUT`. -/
theorem x_word : (c.exec i.word unknown).x = if i.op = .out then c.x else c.result i := by
  change hc377 i.word.toXN (c.aluResult i.word unknown) c.x = _
  rw [aluResult_word, Instr.toXN_word, hc377]
  by_cases out : i.op = .out <;> simp [out]

theorem weN_word : (c.exec i.word unknown).weN = !decide (i.op = .st) := i.ramWeN_word

theorem mem_word : (c.exec i.word unknown).mem =
    if i.op = .st ∧ c.weN = true then Function.update c.mem (Acc.cell i) c.ac else c.mem := by
  change c.memNext i.word = _
  rw [memNext, memAddr_word, Instr.ramWeN_word]
  simp [and_comm]

/-- The RAM takes what an `ST` stores: `WE_n` can fall, or the cell holds it already. -/
def Stores : Prop :=
  i.op = .st → c.weN = true ∨ c.mem (Acc.cell i) = c.ac

instance : Decidable (c.Stores i) := inferInstanceAs (Decidable (_ → _))

theorem stores_iff : c.Stores i ↔ (c.exec i.word unknown).mem = (c.view.exec i).mem := by
  have others : i.op ≠ .st → (c.view.exec i).mem = c.mem := by
    intro other
    unfold Acc.exec
    split <;> first | rfl | exact absurd ‹_› other
  rw [mem_word]
  by_cases st : i.op = .st
  · have stored : (c.view.exec i).mem = Function.update c.mem (Acc.cell i) c.ac := by
      simp only [Acc.exec, st, view]
    rw [stored]
    by_cases high : c.weN = true
    · simp [Stores, st, high]
    · rw [if_neg (fun both => high both.2)]
      constructor
      · intro stores
        have same := (stores st).resolve_left high
        rw [← same, Function.update_eq_self]
      · intro same _
        right
        rw [same, Function.update_self]
  · rw [others st, if_neg (fun both => st both.1)]
    simp [Stores, st]

/-- All but the RAM follows the instruction whatever came before. -/
theorem exec_view (stores : c.Stores i) : (c.exec i.word unknown).view = c.view.exec i := by
  apply Acc.ext
  case pc =>
    rw [show (c.exec i.word unknown).view.pc = _ from c.pc_word i unknown]
    cases i with
    | mk op d =>
      cases op
      case jz =>
        by_cases zero : c.ac = 0
        · rw [if_pos (.inr ⟨rfl, zero⟩)]
          exact (if_pos zero).symm
        · rw [if_neg (fun taken => zero (taken.resolve_left Op.noConfusion).2)]
          exact (if_neg zero).symm
      all_goals rfl
  case ac => exact c.ac_word i unknown
  case y =>
    refine (c.y_word i unknown).trans ?_
    unfold Acc.exec
    split <;> rfl
  case out => exact c.out_word i unknown
  case mem => exact (c.stores_iff i unknown).mp stores

end Cpu

/-! ## Runs -/

section
variable (prog : BitVec 19 → Instr)

/-- The instruction that the CPU executes next. -/
def Cpu.instr (c : Cpu) : Instr := prog (c.pc.setWidth 19)

theorem step_view {c : Cpu} (unknown : Byte) (stores : c.Stores (c.instr prog)) :
    (c.step (image prog) unknown).view = c.view.step prog :=
  c.exec_view _ unknown stores

/-- `WE_n` is low before an instruction exactly when the one before it was an `ST`. -/
theorem weN_run (unknown : Nat → Byte) (c : Cpu) (n : Nat) :
    (c.run (image prog) unknown (n + 1)).weN =
      !decide (((c.run (image prog) unknown n).instr prog).op = .st) :=
  Cpu.weN_word _ (unknown n) _

/-- **The accumulator machine.** From any state the CPU and the machine show the same
`AC`, `OUT`, program counter and RAM up to `N` exactly when every `ST` before `N` comes
with `WE_n` high or finds its value already in the cell. -/
theorem accumulator_iff (unknown : Nat → Byte) (c : Cpu) (N : Nat) :
    (∀ n, n ≤ N → (c.run (image prog) unknown n).view = c.view.run prog n) ↔
      ∀ n, n < N → (c.run (image prog) unknown n).Stores
        ((c.run (image prog) unknown n).instr prog) := by
  apply Clocked.agree_iff (f := fun (_ : Unit) (s : Acc) => s.step prog)
    (g := Cpu.step (image prog)) (fun s t => t.view = s) (fun s t => t.view = s)
    (fun _ t => t.Stores (t.instr prog)) rfl (fun _ _ rel => rel)
  · intro n _ s rel stores
    subst rel
    exact step_view prog (unknown n) stores
  · intro n _ s rel lost same
    subst rel
    exact lost ((Cpu.stores_iff _ (unknown n) _).mpr (congrArg Acc.mem same))

/-- `LD #5; ST 0; ST 1`. -/
def twoStores (addr : BitVec 19) : Instr :=
  if addr = 0 then ⟨.ldImm, 5⟩ else if addr = 1 then ⟨.st, 0⟩ else if addr = 2 then ⟨.st, 1⟩
  else ⟨.nop, 0⟩

/-- Registers and memory zero, `WE_n` high. -/
def Cpu.init : Cpu where
  pc := 0
  ac := 0
  x := 0
  y := 0
  out := 0
  mem := fun _ => 0
  weN := true

/-- The second of the two stores is lost. -/
theorem second_store_lost :
    ((Cpu.init.run (image twoStores) (fun _ => 0) 3).mem 0 = 5 ∧
      (Cpu.init.run (image twoStores) (fun _ => 0) 3).mem 1 = 0) ∧
    (Cpu.init.view.run twoStores 3).mem 1 = 5 ∧
    (Cpu.init.run (image twoStores) (fun _ => 0) 3).view ≠ Cpu.init.view.run twoStores 3 := by
  have cpu : (Cpu.init.run (image twoStores) (fun _ => 0) 3).mem 0 = 5 ∧
      (Cpu.init.run (image twoStores) (fun _ => 0) 3).mem 1 = 0 := by decide +kernel
  have acc : (Cpu.init.view.run twoStores 3).mem 1 = 5 := by decide +kernel
  refine ⟨cpu, acc, ?_⟩
  intro same
  have cell : (Cpu.init.run (image twoStores) (fun _ => 0) 3).mem 1 = 5 :=
    (congrFun (congrArg Acc.mem same) 1).trans acc
  rw [cpu.2] at cell
  exact absurd cell (by decide)

end

end Chiptune.Cpu39040
