import Chiptune.Glowworm.Rtl

/-!
# glowworm1 and glowworm_sim

The RTL executes the word in `ir` and fetches the next one in the same clock, so
the word behind a jump is already in `ir` when the jump sets the program counter.
The simulator fetches after the jump. The two stay together as long as no jump
is taken.
-/

namespace Chiptune.Glowworm

/-- What a program sees of either machine. The RTL keeps an IO byte and its
direction twice, for itself and for the port. -/
structure View where
  a : Byte
  b : Byte
  ra : Byte
  a0 : Byte
  a1 : Byte
  a2 : Byte
  rf : Byte → Byte
  dataRam : BitVec 16 → Byte
  io0R : Byte
  io0O : Byte
  io1R : Byte
  io1O : Byte
  io0IsOe : Bool
  io0Oe : Bool
  io1IsOe : Bool
  io1Oe : Bool

def Sim.view (s : Sim) : View where
  a := s.a
  b := s.b
  ra := s.ra
  a0 := s.a0
  a1 := s.a1
  a2 := s.a2
  rf := s.rf
  dataRam := s.dataRam
  io0R := s.io0
  io0O := s.io0
  io1R := s.io1
  io1O := s.io1
  io0IsOe := s.io0Oe
  io0Oe := s.io0Oe
  io1IsOe := s.io1Oe
  io1Oe := s.io1Oe

def Rtl.view (r : Rtl) : View where
  a := r.a
  b := r.b
  ra := r.ra
  a0 := r.a0
  a1 := r.a1
  a2 := r.a2
  rf := r.rfRam
  dataRam := r.dataRam
  io0R := r.io0R
  io0O := r.io0O
  io1R := r.io1R
  io1O := r.io1O
  io0IsOe := r.io0IsOe
  io0Oe := r.io0Oe
  io1IsOe := r.io1IsOe
  io1Oe := r.io1Oe

/-- The data instructions both implement alike: an immediate, ALU (`ADD` or `SUB`),
RF or RAM source, and a destination other than the program counter and the ALU. -/
def SharedData (ir : Word) : Prop :=
  (srcHi ir = 0 ∨ srcHi ir = 1 ∧ (xx ir = 0 ∨ xx ir = 1) ∨ srcHi ir = 2 ∨ srcHi ir = 3) ∧
    (dstLo ir ≤ 6 ∨ dstLo ir = 8 ∨ dstLo ir = 10 ∨ dstLo ir = 11)

def Shared (ir : Word) : Prop :=
  op ir = 0x07 ∨ op ir = 0x17 ∧ xx ir = 1 ∨ ir = 0xFFFF ∨ SharedData ir

instance (ir : Word) : Decidable (SharedData ir) := inferInstanceAs (Decidable (_ ∧ _))

instance (ir : Word) : Decidable (Shared ir) := inferInstanceAs (Decidable (_ ∨ _))

/-! ## One instruction -/

theorem aluFunc_add (a b : Byte) : (aluFunc a b 0).setWidth 8 = a + b := by
  apply BitVec.eq_of_toNat_eq
  simp [aluFunc, BitVec.toNat_add]

theorem aluFunc_sub (a b : Byte) : (aluFunc a b 1).setWidth 8 = a - b := by
  change (BitVec.setWidth 16 (BitVec.ofBool _ ++ _)).setWidth 8 = _
  rw [BitVec.setWidth_setWidth_of_le _ (by decide), append_low]
  apply BitVec.eq_of_toNat_eq
  simp only [BitVec.toNat_setWidth, BitVec.toNat_sub]
  omega

theorem aluCompute_add (l : BitVec 16) (a b : Byte) :
    (aluCompute l a b 0).setWidth 8 = a + b := by
  change (sum16 _).setWidth 8 = _
  rw [sum16_byte]
  exact BitVec.eq_of_toNat_eq rfl

theorem aluCompute_sub (l : BitVec 16) (a b : Byte) :
    (aluCompute l a b 1).setWidth 8 = a - b := by
  change (diff16 _).setWidth 8 = _
  rw [diff16_byte]
  apply BitVec.eq_of_toNat_eq
  simp only [BitVec.toNat_ofInt, BitVec.toNat_sub]
  omega

theorem data_op {ir : Word} (data : SharedData ir) :
    op ir ≠ 0x07 ∧ op ir ≠ 0x17 ∧ op ir ≠ 0xFF := by
  obtain ⟨src, dst⟩ := data
  refine ⟨?_, ?_, ?_⟩ <;> intro h <;> simp [srcHi, dstLo, h] at src dst

theorem data_valid {ir : Word} (data : SharedData ir) : Sim.srcValid ir = true := by
  obtain ⟨src, -⟩ := data
  rw [Sim.srcValid, decide_eq_true_iff]
  obtain h | h | h | h := src <;> simp [h]

/-- The latch plays no part in what a shared instruction reads. -/
theorem alu_byte {ir : Word} (mode : xx ir = 0 ∨ xx ir = 1) (l : BitVec 16) (a b : Byte) :
    (aluCompute l a b (xx ir)).setWidth 8 = (aluFunc a b (xx ir)).setWidth 8 := by
  obtain h | h := mode
  · rw [h, aluCompute_add, aluFunc_add]
  · rw [h, aluCompute_sub, aluFunc_sub]

theorem low_bit (v : BitVec 16) : v.getLsbD 0 = (v.setWidth 8).getLsbD 0 := by simp

section
variable {r : Rtl} {s : Sim}

/-- Either machine sees the same source byte. -/
theorem srcData_src (p : Pins) (view : r.view = s.view) (data : SharedData r.ir) :
    r.srcData p = s.src r.ir := by
  simp only [Rtl.view, Sim.view, View.mk.injEq] at view
  obtain ⟨a, b, ra, a0, a1, a2, rf, ram, -⟩ := view
  obtain ⟨src, -⟩ := data
  obtain h | ⟨h, mode⟩ | h | h := src
  · simp [Rtl.srcData, Sim.src, h]
  · simp [Rtl.srcData, Sim.src, h, Rtl.aluRd, Sim.alu, alu_byte mode, a, b]
  · simp [Rtl.srcData, Sim.src, h, Rtl.rfRd, rf, ra]
  · simp [Rtl.srcData, Sim.src, h, Rtl.ramRd, Rtl.dataIndex, Rtl.a2a1a0, Sim.dataIndex, Sim.a2a1a0,
      ram, a0, a1, a2]

theorem write_view (view : r.view = s.view) (data : SharedData r.ir) (src : Byte) :
    (r.write src).view = (s.write r.ir src).view := by
  have dst : dstLo r.ir = 0 ∨ dstLo r.ir = 1 ∨ dstLo r.ir = 2 ∨ dstLo r.ir = 3 ∨ dstLo r.ir = 4 ∨
      dstLo r.ir = 5 ∨ dstLo r.ir = 6 ∨ dstLo r.ir = 8 ∨ dstLo r.ir = 10 ∨ dstLo r.ir = 11 := by
    have all : ∀ d : BitVec 4, d ≤ 6 ∨ d = 8 ∨ d = 10 ∨ d = 11 → d = 0 ∨ d = 1 ∨ d = 2 ∨ d = 3 ∨
        d = 4 ∨ d = 5 ∨ d = 6 ∨ d = 8 ∨ d = 10 ∨ d = 11 := by decide
    exact all _ data.2
  simp only [Rtl.view, Sim.view, View.mk.injEq] at view
  obtain h | h | h | h | h | h | h | h | h | h := dst <;>
    simp [Rtl.write, Sim.write, h, Rtl.view, Sim.view, view, Rtl.dataIndex, Rtl.a2a1a0,
      Sim.dataIndex, Sim.a2a1a0]

/-- The latch is not seen. -/
theorem latch_view (ir : Word) : (s.latch ir).view = s.view := by
  rw [Sim.latch]
  split <;> rfl

/-- **One instruction.** Both machines make the same of a shared instruction. -/
theorem clock_view {progAw : Nat} (progRom : BitVec progAw → Word) {p : Pins} (live : p.rstN = true)
    (view : r.view = s.view) (shared : Shared r.ir) :
    (r.clock progRom p).view = (s.exec r.ir).view := by
  have clocked : (r.clock progRom p).view =
      (if r.isData then r.write (r.srcData p) else r).view := by
    rw [Rtl.clock, if_pos live]
    rfl
  have latched := (latch_view (s := s) r.ir).symm
  rw [clocked]
  obtain jmp | ⟨jcc, -⟩ | nop | data := shared
  · simp only [Rtl.isData, jmp, Sim.exec]
    exact view.trans latched
  · simp only [Rtl.isData, jcc, Sim.exec]
    exact view.trans latched
  · have ff : op r.ir = 0xFF := by
      rw [nop]
      rfl
    simp only [Rtl.isData, ff, Sim.exec]
    exact view.trans latched
  · obtain ⟨h07, h17, hff⟩ := data_op data
    have isData : r.isData = true := by
      simp only [Rtl.isData, Bool.and_eq_true, bne_iff_ne]
      exact ⟨⟨h07, h17⟩, hff⟩
    rw [if_pos isData, Sim.exec, if_neg h07, if_neg h17, if_neg hff, if_pos (data_valid data),
      srcData_src p view data]
    exact write_view (view.trans latched) data _

/-- The instruction takes a jump: `JMP`, or `JCC` with an even difference. -/
def Sim.Jumps (s : Sim) (ir : Word) : Prop :=
  op ir = 0x07 ∨ op ir = 0x17 ∧ (s.a - s.b).getLsbD 0 = false

instance (s : Sim) (ir : Word) : Decidable (s.Jumps ir) := inferInstanceAs (Decidable (_ ∨ _))

theorem latch_regs (ir : Word) : (s.latch ir).a = s.a ∧ (s.latch ir).b = s.b := by
  rw [Sim.latch]
  split <;> exact ⟨rfl, rfl⟩

theorem exec_pc {ir : Word} (shared : Shared ir) (straight : ¬ s.Jumps ir) :
    (s.exec ir).pc = s.pc + 2 := by
  rw [Sim.Jumps, not_or, not_and] at straight
  obtain ⟨h07, h17⟩ := straight
  rw [Sim.exec, if_neg h07]
  split
  · rename_i jcc
    obtain jmp | ⟨-, mode⟩ | nop | data := shared
    · exact absurd jmp h07
    · have bit : ((s.latch ir).alu (xx ir)).getLsbD 0 = (s.a - s.b).getLsbD 0 := by
        rw [low_bit, Sim.alu, mode, aluCompute_sub, (latch_regs ir).1, (latch_regs ir).2]
      have odd : (s.a - s.b).getLsbD 0 = true := by simpa using h17 jcc
      simp only [bit, odd, ↓reduceIte]
    · rw [nop] at jcc
      exact absurd jcc (by decide)
    · exact absurd jcc (data_op data).2.1
  · split
    · rfl
    · split <;> rfl

theorem pcNext_pc (view : r.view = s.view) (shared : Shared r.ir) (straight : ¬ s.Jumps r.ir) :
    r.pcNext = r.pc + 1 := by
  simp only [Rtl.view, Sim.view, View.mk.injEq] at view
  rw [Sim.Jumps, not_or, not_and] at straight
  obtain ⟨h07, h17⟩ := straight
  rw [Rtl.pcNext, if_neg h07]
  split
  · rename_i jcc
    obtain jmp | ⟨-, mode⟩ | nop | data := shared
    · exact absurd jmp h07
    · have bit : r.aluRd.getLsbD 0 = (s.a - s.b).getLsbD 0 := by
        rw [low_bit, Rtl.aluRd, mode, aluFunc_sub, view.1, view.2.1]
      rw [bit, if_neg (h17 jcc)]
    · rw [nop] at jcc
      exact absurd jcc (by decide)
    · exact absurd jcc (data_op data).2.1
  · rfl

end

/-! ## Runs -/

/-- The program in both memories. -/
structure Loaded {progAw : Nat} (prog : List Word) (progRom : BitVec progAw → Word)
    (rom : BitVec 20 → Byte) : Prop where
  fitsRtl : prog.length ≤ 2 ^ progAw
  fitsSim : prog.length ≤ 2 ^ 19
  progRom : ∀ w (h : w < prog.length), progRom (BitVec.ofNat progAw w) = prog[w]
  rom : ∀ w (h : w < prog.length),
    rom (BitVec.ofNat 20 (2 * w)) ++ rom (BitVec.ofNat 20 (2 * w + 1)) = prog[w]

section
variable {progAw : Nat} {prog : List Word} {progRom : BitVec progAw → Word}
  {rom : BitVec 20 → Byte} {r : Rtl} {s : Sim}

theorem fetch_loaded (loaded : Loaded prog progRom rom) {w : Nat} (inside : w < prog.length)
    {addr : BitVec 32} (at_ : addr.toNat = 2 * w) : Sim.fetch rom addr = prog[w] := by
  have fits := loaded.fitsSim
  have one : (1 : BitVec 32).toNat = 1 := rfl
  have next : (addr + 1).toNat = 2 * w + 1 := by
    rw [BitVec.toNat_add, at_, one]
    exact Nat.mod_eq_of_lt (by omega)
  rw [Sim.fetch, if_neg (by omega), ← loaded.rom w inside, ← next, ← at_, BitVec.ofNat_toNat,
    BitVec.ofNat_toNat]

theorem progRom_loaded (loaded : Loaded prog progRom rom) {w : Nat} (inside : w < prog.length)
    {pc : BitVec 24} (at_ : pc.toNat = w) : progRom (pc.setWidth progAw) = prog[w] := by
  rw [← loaded.progRom w inside, ← at_, BitVec.ofNat_toNat]

/-- The RTL has the word the simulator is about to fetch in `ir` and its program
counter one word further. -/
structure Fetched (rom : BitVec 20 → Byte) (r : Rtl) (s : Sim) : Prop where
  view : r.view = s.view
  ir : r.ir = s.fetched rom
  pc : 2 * r.pc.toNat = s.pc.toNat + 2

/-- A clock that steps on fetches the word behind the one the simulator is at. -/
theorem clock_fetches (loaded : Loaded prog progRom rom) {p : Pins} (live : p.rstN = true)
    (inside : s.pc.toNat < 2 * prog.length) (entry : 2 * r.pc.toNat = s.pc.toNat)
    (next : r.pcNext = r.pc + 1) :
    (r.clock progRom p).ir = s.fetched rom ∧
      2 * (r.clock progRom p).pc.toNat = s.pc.toNat + 2 := by
  have fits := loaded.fitsSim
  have one : (1 : BitVec 24).toNat = 1 := rfl
  have word : r.pc.toNat < prog.length := by omega
  rw [Rtl.clock, if_pos live]
  constructor
  · rw [Sim.fetched, fetch_loaded loaded word entry.symm]
    exact progRom_loaded loaded word rfl
  · rw [next, BitVec.toNat_add, one, Nat.mod_eq_of_lt (by omega)]
    omega

theorem fetched_shared (loaded : Loaded prog progRom rom) (shared : ∀ ir ∈ prog, Shared ir)
    (fetched : Fetched rom r s) (inside : s.pc.toNat < 2 * prog.length) : Shared r.ir := by
  have pc := fetched.pc
  have word : s.pc.toNat / 2 < prog.length := by omega
  rw [fetched.ir, Sim.fetched, fetch_loaded loaded word (by omega)]
  exact shared _ (List.getElem_mem word)

theorem fetched_view (loaded : Loaded prog progRom rom) (shared : ∀ ir ∈ prog, Shared ir)
    (fetched : Fetched rom r s) {p : Pins} (live : p.rstN = true)
    (inside : s.pc.toNat < 2 * prog.length) :
    (r.clock progRom p).view = (s.step rom).view := by
  have view := clock_view progRom live fetched.view (fetched_shared loaded shared fetched inside)
  rw [fetched.ir] at view
  exact view

/-- An instruction that takes no jump leads the simulator to where the RTL fetches. -/
theorem step_entry (loaded : Loaded prog progRom rom) (shared : ∀ ir ∈ prog, Shared ir)
    (fetched : Fetched rom r s) (inside : s.pc.toNat < 2 * prog.length)
    (straight : ¬ s.Jumps (s.fetched rom)) : 2 * r.pc.toNat = (s.step rom).pc.toNat := by
  have ir := fetched_shared loaded shared fetched inside
  have two : (2 : BitVec 32).toNat = 2 := rfl
  have fits := loaded.fitsSim
  rw [fetched.ir] at ir
  rw [fetched.pc, Sim.step, exec_pc ir straight, BitVec.toNat_add, two]
  exact (Nat.mod_eq_of_lt (by omega)).symm

/-- **One step.** An instruction that takes no jump leaves the two machines in step. -/
theorem fetched_step (loaded : Loaded prog progRom rom) (shared : ∀ ir ∈ prog, Shared ir)
    (fetched : Fetched rom r s) {p : Pins} (live : p.rstN = true)
    (inside : s.pc.toNat < 2 * prog.length) (straight : ¬ s.Jumps (s.fetched rom))
    (next : (s.step rom).pc.toNat < 2 * prog.length) :
    Fetched rom (r.clock progRom p) (s.step rom) := by
  have entry := step_entry loaded shared fetched inside straight
  have ir := fetched_shared loaded shared fetched inside
  rw [← fetched.ir] at straight
  obtain ⟨irNext, pcNext⟩ := clock_fetches loaded live next entry
    (pcNext_pc fetched.view ir straight)
  exact ⟨fetched_view loaded shared fetched live inside, irNext, pcNext⟩

/-- The first clock behind a reset executes the NOP that the reset leaves in `ir`. -/
theorem clock_reset (reset : r.ir = 0xFFFF) {p : Pins} (live : p.rstN = true) :
    (r.clock progRom p).view = r.view ∧ r.pcNext = r.pc + 1 := by
  have nop : op r.ir = 0xFF := by
    rw [reset]
    rfl
  rw [Rtl.clock, if_pos live, Rtl.pcNext]
  simp only [Rtl.isData, nop]
  exact ⟨rfl, rfl⟩

theorem fetched_start (loaded : Loaded prog progRom rom) (reset : r.ir = 0xFFFF)
    (view : r.view = s.view) {p : Pins} (live : p.rstN = true)
    (inside : s.pc.toNat < 2 * prog.length) (entry : 2 * r.pc.toNat = s.pc.toNat) :
    Fetched rom (r.clock progRom p) s := by
  obtain ⟨same, next⟩ := @clock_reset _ progRom r reset p live
  obtain ⟨ir, pc⟩ := clock_fetches loaded live inside entry next
  exact ⟨same.trans view, ir, pc⟩

end

/-- For `N` instructions the machines execute the same words of the same addresses
and show the same view between them. The RTL is one clock behind. -/
def InStep {progAw : Nat} (progRom : BitVec progAw → Word) (pins : Nat → Pins) (r : Rtl)
    (rom : BitVec 20 → Byte) (s : Sim) (N : Nat) : Prop :=
  (∀ n, n < N → 2 * (r.run progRom pins n).pc.toNat = (s.run rom n).pc.toNat ∧
    (r.run progRom pins (n + 1)).ir = (s.run rom n).fetched rom) ∧
  ∀ n, n ≤ N → (r.run progRom pins (n + 1)).view = (s.run rom n).view

section
variable {progAw : Nat} {prog : List Word} {progRom : BitVec progAw → Word}
  {rom : BitVec 20 → Byte} {pins : Nat → Pins} {r : Rtl} {s : Sim} {N : Nat}

/-- **Lock-step.** From a reset with any registers and memories, the RTL and the
simulator are in step for every run in which no instruction but the last takes a
jump. -/
theorem lockstep (loaded : Loaded prog progRom rom) (shared : ∀ ir ∈ prog, Shared ir)
    (live : ∀ n, (pins n).rstN = true) (reset : r.ir = 0xFFFF) (view : r.view = s.view)
    (entry : 2 * r.pc.toNat = s.pc.toNat)
    (inside : ∀ n, n < N → (s.run rom n).pc.toNat < 2 * prog.length)
    (straight : ∀ n, n + 1 < N → ¬ (s.run rom n).Jumps ((s.run rom n).fetched rom)) :
    InStep progRom pins r rom s N := by
  have fetched (n : Nat) (hn : n < N) : Fetched rom (r.run progRom pins (n + 1)) (s.run rom n) := by
    induction n with
    | zero => exact fetched_start loaded reset view (live 0) (inside 0 hn) entry
    | succ n ih =>
      exact fetched_step loaded shared (ih (by omega)) (live (n + 1)) (inside n (by omega))
        (straight n hn) (inside (n + 1) hn)
  constructor
  · intro n hn
    refine ⟨?_, (fetched n hn).ir⟩
    cases n with
    | zero => exact entry
    | succ n =>
      exact step_entry loaded shared (fetched n (by omega)) (inside n (by omega)) (straight n hn)
  · intro n hn
    cases n with
    | zero => exact (clock_reset reset (live 0)).1.trans view
    | succ n => exact fetched_view loaded shared (fetched n hn) (live (n + 1)) (inside n hn)

end

/-! ## A program on each side of the condition -/

/-- A program as the contents of the RTL's memory. -/
def progImage (progAw : Nat) (prog : List Word) (w : BitVec progAw) : Word := prog.getD w.toNat 0

theorem images_loaded {progAw : Nat} {prog : List Word} (fitsRtl : prog.length ≤ 2 ^ progAw)
    (fitsSim : prog.length ≤ 2 ^ 19) :
    Loaded prog (progImage progAw prog) (romImage prog) := by
  refine ⟨fitsRtl, fitsSim, ?_, ?_⟩
  · intro w h
    rw [progImage, BitVec.toNat_ofNat, Nat.mod_eq_of_lt (by omega)]
    simp [List.getD, h]
  · intro w h
    have even : (BitVec.ofNat 20 (2 * w)).toNat = 2 * w :=
      Nat.mod_eq_of_lt (by omega)
    have odd : (BitVec.ofNat 20 (2 * w + 1)).toNat = 2 * w + 1 :=
      Nat.mod_eq_of_lt (by omega)
    have here : prog.getD w 0 = prog[w] := by simp [List.getD, h]
    simp only [romImage, even, odd, show 2 * w / 2 = w by omega,
      show (2 * w + 1) / 2 = w by omega, show 2 * w % 2 = 0 by omega,
      show (2 * w + 1) % 2 ≠ 0 by omega, ↓reduceIte, here]
    exact append_bytes _

def Pins.idle : Pins where
  rstN := true
  io0I := 0xFF
  io1I := 0xFF
  unknown := 0

/-- Registers and memories zero, behind a reset. -/
def Rtl.zero : Rtl where
  pc := 0
  a := 0
  b := 0
  ra := 0
  a0 := 0
  a1 := 0
  a2 := 0
  io0R := 0xFF
  io1R := 0xFF
  io0IsOe := false
  io1IsOe := false
  io0O := 0xFF
  io1O := 0xFF
  io0Oe := false
  io1Oe := false
  ir := 0xFFFF
  rfRam := fun _ => 0
  dataRam := fun _ => 0

/-- `A = 2; B = 3; RF = ALU[ADD]; PC = A2A1A0`. -/
def addProg : List Word := [0x0102, 0x0603, 0x1000, 0x07FE]

theorem addProg_shared : ∀ ir ∈ addProg, Shared ir := by
  simp [addProg, Shared, SharedData, op, srcHi, xx, dstLo]

/-- The jump is the last of four instructions. -/
theorem lockstep_add : InStep (progImage 16 addProg) (fun _ => Pins.idle) Rtl.zero
    (romImage addProg) Sim.init 4 := by
  have loaded : Loaded addProg (progImage 16 addProg) (romImage addProg) :=
    images_loaded (by decide) (by decide)
  have inside : ∀ n < 4, (Sim.init.run (romImage addProg) n).pc.toNat < 2 * addProg.length := by
    decide +kernel
  have straight : ∀ n < 3, ¬ (Sim.init.run (romImage addProg) n).Jumps
      ((Sim.init.run (romImage addProg) n).fetched (romImage addProg)) := by
    decide +kernel
  apply lockstep loaded addProg_shared
  · intro n
    rfl
  · rfl
  · rfl
  · rfl
  · exact inside
  · intro n hn
    exact straight n (by omega)

/-- `A0 = 3; PC = A2A1A0; A = 0x55; NOP`: the jump leads over the store. -/
def skipProg : List Word := [0x0203, 0x07FE, 0x0155, 0xFFFF]

theorem skipProg_shared : ∀ ir ∈ skipProg, Shared ir := by
  simp [skipProg, Shared, SharedData, op, srcHi, xx, dstLo]

/-- The RTL executes the store that the program jumps over. -/
theorem jump_stores : (∀ ir ∈ skipProg, Shared ir) ∧
    Loaded skipProg (progImage 16 skipProg) (romImage skipProg) ∧
    Rtl.zero.view = Sim.init.view ∧
    (Rtl.zero.run (progImage 16 skipProg) (fun _ => Pins.idle) 4).a = 0x55 ∧
    (Sim.init.run (romImage skipProg) 3).a = 0 ∧
    ¬ InStep (progImage 16 skipProg) (fun _ => Pins.idle) Rtl.zero (romImage skipProg) Sim.init 3 := by
  have loaded : Loaded skipProg (progImage 16 skipProg) (romImage skipProg) :=
    images_loaded (by decide) (by decide)
  have rtl : (Rtl.zero.run (progImage 16 skipProg) (fun _ => Pins.idle) 4).a = 0x55 := by
    decide +kernel
  have sim : (Sim.init.run (romImage skipProg) 3).a = 0 := by decide +kernel
  refine ⟨skipProg_shared, loaded, rfl, rtl, sim, ?_⟩
  intro inStep
  have same : (Rtl.zero.run (progImage 16 skipProg) (fun _ => Pins.idle) 4).a =
      (Sim.init.run (romImage skipProg) 3).a :=
    congrArg View.a (inStep.2 3 (Nat.le_refl 3))
  rw [rtl, sim] at same
  exact absurd same (by decide)

end Chiptune.Glowworm
