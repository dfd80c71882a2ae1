import Chiptune.Glowworm.AluTable

/-!
# Code for the simulator

The instructions the compiler's primitives emit, what each does, and code without
jumps: it runs through, and its effect is that of its instructions in order.
-/

namespace Chiptune.Glowworm

/-! ## Primitives of the compiler -/

def a0AsgnImmnum (x : Byte) : Word := word 0x02 x
def a1AsgnImmnum (x : Byte) : Word := word 0x03 x
def a2AsgnImmnum (x : Byte) : Word := word 0x04 x
def raAsgnImmnum (x : Byte) : Word := word 0x05 x
def rfAsgnAlu (m : AluMode) : Word := word 0x10 m.code
def aAsgnAlu (m : AluMode) : Word := word 0x11 m.code
def bAsgnAlu (m : AluMode) : Word := word 0x16 m.code
def ramAsgnAlu (m : AluMode) : Word := word 0x18 m.code
def aAsgnRf : Word := word 0x21 0xFF
def aAsgnRam : Word := word 0x31 0xFF
def bAsgnRam : Word := word 0x36 0xFF
def nop : Word := word 0xFF 0xFF

/-- `if(!(ALU[m] & 1)) PC = A2A1A0`. -/
def ifaluPcAsgn (m : AluMode) : Word := word 0x17 m.code

namespace Sim

section
variable (s : Sim) (x : Byte) (m : AluMode)

/-- A data instruction with a source that exists. -/
theorem exec_data {o : Byte} (valid : o.extractLsb' 4 4 ≤ 5) (h07 : o ≠ 0x07) (h17 : o ≠ 0x17)
    (hff : o ≠ 0xFF) : s.exec (word o x) =
      { (s.latch (word o x)).write (word o x) (s.src (word o x)) with pc := s.pc + 2 } := by
  have ok : srcValid (word o x) = true := by
    rw [srcValid, srcHi_word]
    exact decide_eq_true valid
  rw [exec, op_word, if_neg h07, if_neg h17, if_neg hff, if_pos ok]

@[simp] theorem exec_a0AsgnImmnum : s.exec (a0AsgnImmnum x) =
    { s with a0 := x, pc := s.pc + 2 } := by
  rw [a0AsgnImmnum, exec_data s _ (by decide) (by decide) (by decide) (by decide)]
  rw [latch, write, src, srcHi_word, dstLo_word, xx_word]
  rfl

@[simp] theorem exec_a1AsgnImmnum : s.exec (a1AsgnImmnum x) =
    { s with a1 := x, pc := s.pc + 2 } := by
  rw [a1AsgnImmnum, exec_data s _ (by decide) (by decide) (by decide) (by decide)]
  rw [latch, write, src, srcHi_word, dstLo_word, xx_word]
  rfl

@[simp] theorem exec_a2AsgnImmnum : s.exec (a2AsgnImmnum x) =
    { s with a2 := x, pc := s.pc + 2 } := by
  rw [a2AsgnImmnum, exec_data s _ (by decide) (by decide) (by decide) (by decide)]
  rw [latch, write, src, srcHi_word, dstLo_word, xx_word]
  rfl

@[simp] theorem exec_raAsgnImmnum : s.exec (raAsgnImmnum x) =
    { s with ra := x, pc := s.pc + 2 } := by
  rw [raAsgnImmnum, exec_data s _ (by decide) (by decide) (by decide) (by decide)]
  rw [latch, write, src, srcHi_word, dstLo_word, xx_word]
  rfl

@[simp] theorem exec_rfAsgnAlu : s.exec (rfAsgnAlu m) =
    { s with
      rf := Function.update s.rf s.ra ((s.alu m.code).setWidth 8)
      aluOut := s.alu m.code
      pc := s.pc + 2 } := by
  rw [rfAsgnAlu, exec_data s _ (by decide) (by decide) (by decide) (by decide)]
  rw [latch, write, src, srcHi_word, dstLo_word, xx_word]
  rfl

@[simp] theorem exec_aAsgnAlu : s.exec (aAsgnAlu m) =
    { s with a := (s.alu m.code).setWidth 8, aluOut := s.alu m.code, pc := s.pc + 2 } := by
  rw [aAsgnAlu, exec_data s _ (by decide) (by decide) (by decide) (by decide)]
  rw [latch, write, src, srcHi_word, dstLo_word, xx_word]
  rfl

@[simp] theorem exec_bAsgnAlu : s.exec (bAsgnAlu m) =
    { s with b := (s.alu m.code).setWidth 8, aluOut := s.alu m.code, pc := s.pc + 2 } := by
  rw [bAsgnAlu, exec_data s _ (by decide) (by decide) (by decide) (by decide)]
  rw [latch, write, src, srcHi_word, dstLo_word, xx_word]
  rfl

@[simp] theorem exec_ramAsgnAlu : s.exec (ramAsgnAlu m) =
    { s with
      dataRam := Function.update s.dataRam s.dataIndex ((s.alu m.code).setWidth 8)
      aluOut := s.alu m.code
      pc := s.pc + 2 } := by
  rw [ramAsgnAlu, exec_data s _ (by decide) (by decide) (by decide) (by decide)]
  rw [latch, write, src, srcHi_word, dstLo_word, xx_word]
  rfl

@[simp] theorem exec_aAsgnRf : s.exec aAsgnRf =
    { s with a := s.rf s.ra, pc := s.pc + 2 } := by
  rw [aAsgnRf, exec_data s _ (by decide) (by decide) (by decide) (by decide)]
  rw [latch, write, src, srcHi_word, dstLo_word, xx_word]
  rfl

@[simp] theorem exec_aAsgnRam : s.exec aAsgnRam =
    { s with a := s.dataRam s.dataIndex, pc := s.pc + 2 } := by
  rw [aAsgnRam, exec_data s _ (by decide) (by decide) (by decide) (by decide)]
  rw [latch, write, src, srcHi_word, dstLo_word, xx_word]
  rfl

@[simp] theorem exec_bAsgnRam : s.exec bAsgnRam =
    { s with b := s.dataRam s.dataIndex, pc := s.pc + 2 } := by
  rw [bAsgnRam, exec_data s _ (by decide) (by decide) (by decide) (by decide)]
  rw [latch, write, src, srcHi_word, dstLo_word, xx_word]
  rfl

@[simp] theorem exec_nop : s.exec nop = { s with pc := s.pc + 2 } := by
  simp [nop, exec, latch]

/-- The ALU is computed twice: the second time with the carry latch of the first. -/
theorem exec_ifaluPcAsgn : s.exec (ifaluPcAsgn m) =
    let s' : Sim := { s with aluOut := s.alu m.code }
    { s with
      aluOut := s'.alu m.code
      pc := if (s'.alu m.code).getLsbD 0 then s.pc + 2 else s.jumpTarget } := by
  simp [ifaluPcAsgn, exec, latch]

/-! ## Straight-line code -/

/-- The effect of instructions in order. -/
def execAll (ws : List Word) : Sim := ws.foldl (fun s ir => s.exec ir) s

@[simp] theorem execAll_nil : s.execAll [] = s := rfl

@[simp] theorem execAll_cons (ir : Word) (ws : List Word) :
    s.execAll (ir :: ws) = (s.exec ir).execAll ws := rfl

theorem execAll_append (ws vs : List Word) :
    s.execAll (ws ++ vs) = (s.execAll ws).execAll vs := List.foldl_append

end

/-- The words lie in the ROM from `pc` on. -/
def CodeAt (rom : BitVec 20 → Byte) (pc : BitVec 32) : List Word → Prop
  | [] => True
  | ir :: ws => fetch rom pc = ir ∧ CodeAt rom (pc + 2) ws

instance decidableCodeAt (rom : BitVec 20 → Byte) :
    (pc : BitVec 32) → (ws : List Word) → Decidable (CodeAt rom pc ws)
  | _, [] => inferInstanceAs (Decidable True)
  | pc, ir :: ws =>
    have := decidableCodeAt rom (pc + 2) ws
    inferInstanceAs (Decidable (fetch rom pc = ir ∧ CodeAt rom (pc + 2) ws))

/-- Not a jump. -/
def Straight (ir : Word) : Prop := op ir ≠ 0x07 ∧ op ir ≠ 0x17

@[simp] theorem straight_word {o x : Byte} : Straight (word o x) ↔ o ≠ 0x07 ∧ o ≠ 0x17 := by
  rw [Straight, op_word]

def StraightCode (ws : List Word) : Prop := ∀ ir ∈ ws, Straight ir

@[simp] theorem straightCode_nil : StraightCode [] := by
  intro ir h
  cases h

@[simp] theorem straightCode_cons {ir : Word} {ws : List Word} :
    StraightCode (ir :: ws) ↔ Straight ir ∧ StraightCode ws := List.forall_mem_cons

@[simp] theorem straightCode_append {ws vs : List Word} :
    StraightCode (ws ++ vs) ↔ StraightCode ws ∧ StraightCode vs := List.forall_mem_append

theorem exec_straight {ir : Word} (straight : Straight ir) (s : Sim) :
    (s.exec ir).pc = s.pc + 2 := by
  rw [exec, if_neg straight.1, if_neg straight.2]
  split
  · rfl
  · split <;> rfl

theorem address_succ (pc : BitVec 32) (n : Nat) :
    pc + 2 + BitVec.ofNat 32 (2 * n) = pc + BitVec.ofNat 32 (2 * (n + 1)) := by
  rw [Nat.mul_succ, BitVec.ofNat_add, BitVec.add_assoc,
    BitVec.add_comm (BitVec.ofNat 32 (2 * n))]
  rfl

theorem codeAt_append {rom : BitVec 20 → Byte} {pc : BitVec 32} {ws vs : List Word} :
    CodeAt rom pc (ws ++ vs) ↔
      CodeAt rom pc ws ∧ CodeAt rom (pc + BitVec.ofNat 32 (2 * ws.length)) vs := by
  induction ws generalizing pc with
  | nil => simp [CodeAt]
  | cons ir ws ih =>
    rw [List.cons_append, CodeAt, CodeAt, ih, address_succ, and_assoc]
    rfl

/-- **Straight-line code** runs through. -/
theorem run_code {rom : BitVec 20 → Byte} {ws : List Word} (straight : StraightCode ws)
    {s : Sim} (code : CodeAt rom s.pc ws) : s.run rom ws.length = s.execAll ws ∧
      (s.execAll ws).pc = s.pc + BitVec.ofNat 32 (2 * ws.length) := by
  induction ws generalizing s with
  | nil => exact ⟨rfl, (BitVec.add_zero s.pc).symm⟩
  | cons ir ws ih =>
    obtain ⟨here, rest⟩ := code
    have step : s.step rom = s.exec ir := congrArg s.exec here
    rw [straightCode_cons] at straight
    have pc := exec_straight straight.1 s
    rw [← pc] at rest
    obtain ⟨run, last⟩ := ih straight.2 rest
    constructor
    · rw [List.length_cons, run_succ', step]
      exact run
    · rw [execAll_cons, last, pc, address_succ]
      rfl

end Sim

end Chiptune.Glowworm
