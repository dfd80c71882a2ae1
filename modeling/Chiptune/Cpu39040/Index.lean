import Chiptune.Cpu39040.Accumulator

/-!
# The index registers

Of the ten instructions only `OUT` holds `to_x_n` high; the other nine load X with the
byte that the ALU ROM shows. Y is loaded by none. A run may execute any microcode word
between the instructions.
-/

namespace Chiptune.Cpu39040

/-- X holds the byte already that the instruction would load. -/
def Cpu.KeepsX (i : Instr) (c : Cpu) : Prop :=
  match i.op with
  | .out => True
  | .nop | .ldImm | .st | .jmp | .jz => i.operand = c.x
  | .addImm => c.ac + i.operand = c.x
  | .subImm => c.ac - i.operand = c.x
  | .ldAddr => c.mem (Acc.cell i) = c.x
  | .addAddr => c.ac + c.mem (Acc.cell i) = c.x

theorem Cpu.keepsX_iff (i : Instr) (unknown : Byte) (c : Cpu) :
    (c.exec i.word unknown).x = c.x ↔ c.KeepsX i := by
  rw [x_word, KeepsX, result]
  cases op : i.op <;> simp

section
variable (rom : BitVec 19 → Word) (unknown : Nat → Byte) (c : Cpu)

/-- Clock `n` of the run executes `i`. -/
def Executes (n : Nat) (i : Instr) : Prop := (c.run rom unknown n).word rom = i.word

/-- From clock `m` to clock `n` the run executes instructions only. -/
def Documented (m n : Nat) : Prop :=
  ∀ k, m ≤ k → k < n → ∃ i, Executes rom unknown c k i

variable {rom unknown c}

theorem executes_step {n : Nat} {i : Instr} (executes : Executes rom unknown c n i) :
    c.run rom unknown (n + 1) = (c.run rom unknown n).exec i.word (unknown n) := by
  rw [← show _ = i.word from executes]
  rfl

theorem index_step {n : Nat} {i : Instr} (executes : Executes rom unknown c n i)
    (keeps : (c.run rom unknown n).KeepsX i) :
    (c.run rom unknown (n + 1)).x = (c.run rom unknown n).x ∧
      (c.run rom unknown (n + 1)).y = (c.run rom unknown n).y := by
  rw [executes_step executes]
  exact ⟨(Cpu.keepsX_iff i _ _).mpr keeps, Cpu.y_word i _ _⟩

theorem index_segment {m : Nat} (d : Nat) (documented : Documented rom unknown c m (m + d))
    (keeps : ∀ k, k < m + d → ∀ i, Executes rom unknown c k i → (c.run rom unknown k).KeepsX i) :
    (c.run rom unknown (m + d)).x = (c.run rom unknown m).x ∧
      (c.run rom unknown (m + d)).y = (c.run rom unknown m).y := by
  induction d with
  | zero => exact ⟨rfl, rfl⟩
  | succ d ih =>
    obtain ⟨i, executes⟩ := documented (m + d) (by omega) (by omega)
    obtain ⟨x, y⟩ := index_step executes (keeps (m + d) (by omega) i executes)
    obtain ⟨x', y'⟩ := ih (fun k le lt => documented k le (by omega))
      (fun k lt => keeps k (by omega))
    exact ⟨x.trans x', y.trans y'⟩

variable (rom unknown c)

/-- **The index registers.** X and Y survive every sequence of instructions before `N`
exactly when every instruction before `N` finds in X what it would load. -/
theorem index_kept_iff (N : Nat) :
    (∀ m n, m ≤ n → n ≤ N → Documented rom unknown c m n →
      (c.run rom unknown n).x = (c.run rom unknown m).x ∧
        (c.run rom unknown n).y = (c.run rom unknown m).y) ↔
      ∀ n, n < N → ∀ i, Executes rom unknown c n i → (c.run rom unknown n).KeepsX i := by
  constructor
  · intro kept n hn i executes
    have alone : Documented rom unknown c n (n + 1) := by
      intro k le lt
      obtain rfl : k = n := by omega
      exact ⟨i, executes⟩
    have x := (kept n (n + 1) (by omega) hn alone).1
    rw [executes_step executes] at x
    exact (Cpu.keepsX_iff i _ _).mp x
  · intro keeps m n le hn documented
    obtain ⟨d, rfl⟩ := Nat.exists_eq_add_of_le le
    exact index_segment d documented (fun k lt => keeps k (by omega))

end

/-- The word `(0x2F, 0xFF)` loads its operand into X and nothing else; a `NOP` follows. -/
def nopImage (addr : BitVec 19) : Word :=
  if addr = 0 then ⟨0x2F, 0xFF, 7⟩ else Instr.word ⟨.nop, 0⟩

/-- The `NOP` takes the 7 out of X. -/
theorem nop_clobbers :
    (∀ i : Instr, Executes nopImage (fun _ => 0) Cpu.init 0 i → False) ∧
    Executes nopImage (fun _ => 0) Cpu.init 1 ⟨.nop, 0⟩ ∧
    (Cpu.init.run nopImage (fun _ => 0) 1).x = 7 ∧
    (Cpu.init.run nopImage (fun _ => 0) 2).x = 0 := by
  refine ⟨?_, ?_, ?_, ?_⟩
  · intro i executes
    have lo : (0x2F : Byte) = i.op.uctl.1 := congrArg Word.uctlLo executes
    cases op : i.op <;> rw [op] at lo <;> exact absurd lo (by decide)
  · exact show _ = _ by decide +kernel
  · decide +kernel
  · decide +kernel

end Chiptune.Cpu39040
