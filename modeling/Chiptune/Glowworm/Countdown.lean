import Chiptune.Glowworm.Addition

/-!
# Compiled loops

The compiler's loop that counts a register down with `A_SUB_1` and branches on
`A_SUB_1_C`, run by the simulator.
-/

namespace Chiptune.Glowworm

/-- The test: the register `t` is decremented, and the body is run again unless that
borrows. -/
def countdown (t : Byte) (body : BitVec 24) : List Word :=
  [raAsgnImmnum t, aAsgnRf, nop, rfAsgnAlu .aSub1, a2AsgnImmnum (body.extractLsb' 16 8),
    a1AsgnImmnum (body.extractLsb' 8 8), a0AsgnImmnum (body.setWidth 8)]

/-- A loop: its body at the word address `body` and its test at the byte address
`test`. The body, started in `s`, comes back to the test after `back s` instructions
and leaves the counter alone. -/
structure Loop (rom : BitVec 20 → Byte) (t : Byte) (body : BitVec 24) (test : BitVec 32)
    (back : Sim → Nat) : Prop where
  code : Sim.CodeAt rom test (countdown t body ++ [ifaluPcAsgn .aSub1C])
  returns : ∀ s : Sim, s.pc = body.setWidth 32 * 2 →
    (s.run rom (back s)).pc = test ∧ (s.run rom (back s)).rf t = s.rf t
  apart : body.setWidth 32 * 2 ≠ test + 16

/-- From the test in `s` the loop runs its body `n` times and then leaves. -/
def LoopRuns (rom : BitVec 20 → Byte) (body : BitVec 24) (test : BitVec 32) (back : Sim → Nat) :
    Nat → Sim → Prop
  | 0, s => (s.run rom 8).pc = test + 16
  | n + 1, s => (s.run rom 8).pc = body.setWidth 32 * 2 ∧
      LoopRuns rom body test back n ((s.run rom 8).run rom (back (s.run rom 8)))

/-! ## One test -/

/-- The counters at which the simulator branches back. -/
def Branches (v : Byte) : Prop := v = 0 ∨ v.getLsbD 0 = true

section
variable {rom : BitVec 20 → Byte} {t : Byte} {body : BitVec 24} {test : BitVec 32}
  {back : Sim → Nat} {s : Sim}

theorem countdown_straight : Sim.StraightCode (countdown t body) := by
  simp [countdown, raAsgnImmnum, aAsgnRf, nop, rfAsgnAlu, a2AsgnImmnum, a1AsgnImmnum, a0AsgnImmnum]

theorem target_bytes : body.extractLsb' 16 8 ++ body.extractLsb' 8 8 ++ body.setWidth 8 = body := by
  apply BitVec.eq_of_toNat_eq
  have := body.isLt
  simp only [toNat_append, BitVec.extractLsb'_toNat, BitVec.toNat_setWidth,
    Nat.shiftRight_eq_div_pow]
  omega

theorem countdown_exec : let s' := s.execAll (countdown t body)
    s'.rf t = s.rf t - 1 ∧ s'.a = s.rf t ∧ s'.aluOut = diff16 ((s.rf t).toNat - 1) ∧
      s'.jumpTarget = body.setWidth 32 * 2 := by
  have byte (l : BitVec 16) (a b : Byte) :
      (aluCompute l a b AluMode.aSub1.code).setWidth 8 = a - 1 := by
    have sub := (read_arith l a b).2.2.2
    rwa [CpuInit.aSub1, CpuInit.sub_eq] at sub
  have latch (l : BitVec 16) (a b : Byte) :
      aluCompute l a b AluMode.aSub1.code = diff16 (a.toNat - 1) := rfl
  simp only [countdown, Sim.execAll_cons, Sim.execAll_nil, Sim.exec_raAsgnImmnum, Sim.exec_aAsgnRf,
    Sim.exec_nop, Sim.exec_rfAsgnAlu, Sim.exec_a2AsgnImmnum, Sim.exec_a1AsgnImmnum,
    Sim.exec_a0AsgnImmnum, Sim.alu, byte, Function.update_self, Sim.jumpTarget, Sim.a2a1a0,
    target_bytes, true_and, and_true]
  exact latch _ _ _

/-- The branch computes its ALU byte twice, behind the decrement: it is the counter less
1 and less the borrow of the time before. -/
theorem branch_bit (v b : Byte) :
    (aluCompute (aluCompute (diff16 (v.toNat - 1)) v b AluMode.aSub1C.code) v b
      AluMode.aSub1C.code).getLsbD 0 = false ↔ Branches v := by
  have all : ∀ v : Byte,
      (diff16 (v.toNat - 1 - ((diff16 (v.toNat - 1 -
        ((diff16 (v.toNat - 1)).getLsbD 8).toNat)).getLsbD 8).toNat)).getLsbD 0 = false ↔
      v = 0 ∨ v.getLsbD 0 = true := by
    decide +kernel
  exact all v

theorem test_run (loop : Loop rom t body test back) (entry : s.pc = test) :
    (s.run rom 8).rf t = s.rf t - 1 ∧
      (Branches (s.rf t) → (s.run rom 8).pc = body.setWidth 32 * 2) ∧
      (¬ Branches (s.rf t) → (s.run rom 8).pc = test + 16) := by
  obtain ⟨code, branch⟩ := Sim.codeAt_append.mp loop.code
  rw [← entry] at code
  obtain ⟨run, pc⟩ := Sim.run_code countdown_straight code
  obtain ⟨counter, a, latch, target⟩ := @countdown_exec t body s
  have length : (countdown t body).length = 7 := rfl
  rw [length] at run pc branch
  rw [entry] at pc
  have last : s.run rom 8 = (s.execAll (countdown t body)).exec (ifaluPcAsgn .aSub1C) := by
    rw [Sim.run_succ, run, Sim.step, Sim.fetched, pc]
    exact congrArg (fun ir => Sim.exec ir _) branch.1
  have bit := branch_bit (s.rf t) (s.execAll (countdown t body)).b
  rw [last, Sim.exec_ifaluPcAsgn]
  refine ⟨counter, ?_, ?_⟩
  · intro branches
    simp only [Sim.alu, a, latch, bit.mpr branches, Bool.false_eq_true, ↓reduceIte]
    exact target
  · intro leaves
    have odd := Bool.eq_true_of_not_eq_false (mt bit.mp leaves)
    simp only [Sim.alu, a, latch, odd, ↓reduceIte]
    rw [pc, BitVec.add_assoc]
    rfl

/-! ## The number of runs -/

theorem loopRuns_zero (loop : Loop rom t body test back) (entry : s.pc = test) :
    LoopRuns rom body test back 0 s ↔ ¬ Branches (s.rf t) := by
  obtain ⟨-, again, leave⟩ := test_run loop entry
  constructor
  · intro out branches
    exact loop.apart ((again branches).symm.trans out)
  · exact leave

theorem loopRuns_succ (loop : Loop rom t body test back) (entry : s.pc = test) (n : Nat) :
    LoopRuns rom body test back (n + 1) s ↔ Branches (s.rf t) ∧
      LoopRuns rom body test back n ((s.run rom 8).run rom (back (s.run rom 8))) := by
  obtain ⟨-, again, leave⟩ := test_run loop entry
  rw [LoopRuns]
  constructor
  · rintro ⟨pc, rest⟩
    refine ⟨?_, rest⟩
    by_contra leaves
    exact loop.apart (pc.symm.trans (leave leaves))
  · rintro ⟨branches, rest⟩
    exact ⟨again branches, rest⟩

/-- A run of the body brings the decremented counter back to the test. -/
theorem body_run (loop : Loop rom t body test back) (entry : s.pc = test)
    (branches : Branches (s.rf t)) :
    ((s.run rom 8).run rom (back (s.run rom 8))).pc = test ∧
      ((s.run rom 8).run rom (back (s.run rom 8))).rf t = s.rf t - 1 := by
  obtain ⟨counter, again, -⟩ := test_run loop entry
  obtain ⟨pc, kept⟩ := loop.returns (s.run rom 8) (again branches)
  exact ⟨pc, kept.trans counter⟩

/-- How often the simulator runs the body for a counter. -/
def runs (v : Byte) : Nat :=
  if v = 0 then 2 else if v = 1 then 3 else if v.getLsbD 0 then 1 else 0

theorem runs_counters : ∀ v : Byte, runs v ≠ v.toNat ∧
    (v = 0 ∨ v.getLsbD 0 = true → runs v = runs (v - 1) + 1) ∧
    (runs v = 0 ↔ ¬ (v = 0 ∨ v.getLsbD 0 = true)) := by
  decide +kernel

/-- No loop runs its body as often as its counter says. -/
theorem runs_ne (v : Byte) : runs v ≠ v.toNat := (runs_counters v).1

theorem runs_branches {v : Byte} (branches : Branches v) : runs v = runs (v - 1) + 1 :=
  (runs_counters v).2.1 branches

theorem runs_zero_iff (v : Byte) : runs v = 0 ↔ ¬ Branches v := (runs_counters v).2.2

/-- **The loop.** The simulator runs the body `runs` times. -/
theorem loopRuns_iff (loop : Loop rom t body test back) (n : Nat) {s : Sim} (entry : s.pc = test) :
    LoopRuns rom body test back n s ↔ n = runs (s.rf t) := by
  induction n generalizing s with
  | zero => rw [loopRuns_zero loop entry, eq_comm, runs_zero_iff]
  | succ n ih =>
    rw [loopRuns_succ loop entry]
    constructor
    · rintro ⟨branches, rest⟩
      obtain ⟨pc, counter⟩ := body_run loop entry branches
      rw [ih pc, counter] at rest
      rw [runs_branches branches, rest]
    · intro count
      have branches : Branches (s.rf t) := by
        by_contra leaves
        have := (runs_zero_iff _).mpr leaves
        omega
      obtain ⟨pc, counter⟩ := body_run loop entry branches
      refine ⟨branches, ?_⟩
      rw [ih pc, counter]
      have := runs_branches branches
      omega

theorem loop_never (loop : Loop rom t body test back) (entry : s.pc = test) :
    ¬ LoopRuns rom body test back (s.rf t).toNat s := by
  rw [loopRuns_iff loop _ entry]
  exact fun same => runs_ne _ same.symm

/-- A body of straight-line code in front of the test, as the compiler places it. -/
theorem straight_loop {words : List Word} (straight : Sim.StraightCode words)
    (keeps : ∀ s : Sim, (s.execAll words).rf t = s.rf t)
    (code : Sim.CodeAt rom (body.setWidth 32 * 2)
      (words ++ (countdown t body ++ [ifaluPcAsgn .aSub1C])))
    (short : words.length < 2 ^ 30) :
    Loop rom t body (body.setWidth 32 * 2 + BitVec.ofNat 32 (2 * words.length))
      (fun _ => words.length) := by
  obtain ⟨bodyCode, testCode⟩ := Sim.codeAt_append.mp code
  refine ⟨testCode, ?_, ?_⟩
  · intro s entry
    rw [← entry] at bodyCode
    obtain ⟨run, pc⟩ := Sim.run_code straight bodyCode
    rw [run]
    exact ⟨pc.trans (by rw [entry]), keeps s⟩
  · intro same
    have address := congrArg BitVec.toNat same
    have sixteen : (16 : BitVec 32).toNat = 16 := rfl
    have start := (body.setWidth 32 * 2).isLt
    rw [BitVec.toNat_add, BitVec.toNat_add, BitVec.toNat_ofNat, sixteen] at address
    omega

end

/-! ## The ALU contract -/

/-- **ALU bytes, sums and loops.** In every state of every run, the byte of a mode is the
stored one exactly where `Faithful` says; the compiled addition leaves the sum
exactly for the operands of `AddsRight`; and a compiled loop never runs its body as
often as its counter says. -/
theorem alu_contract (rom : BitVec 20 → Byte) (s : Sim) :
    (∀ (n : Nat) (m : AluMode), let s' := s.run rom n
      (s'.alu m.code).setWidth 8 = CpuInit.stored m s'.a s'.b ↔
        Faithful m s'.a s'.b (s'.aluOut.getLsbD 8)) ∧
    (∀ (far : Bool) (t : Byte) (ds : List Digit), ds ≠ [] →
      Sim.CodeAt rom s.pc (addCode far t ds) → Reaches far s ds → Apart ds →
      (number (results (s.run rom (addCode far t ds).length) ds) =
        (number ((operands s ds).map Prod.fst) + number ((operands s ds).map Prod.snd)) %
          256 ^ ds.length ↔ AddsRight (operands s ds))) ∧
    (∀ (t : Byte) (body : BitVec 24) (test : BitVec 32) (back : Sim → Nat),
      Loop rom t body test back → s.pc = test →
      ¬ LoopRuns rom body test back (s.rf t).toNat s) := by
  refine ⟨?_, ?_, ?_⟩
  · intro n m
    exact read_stored_iff _ _ _ m
  · intro far t ds some code reach apart
    exact addCode_sum_iff some code reach apart
  · intro t body test back loop entry
    exact loop_never loop entry

/-- Two two-byte numbers in place. -/
def twoBytes : List Digit := [⟨0, 2⟩, ⟨1, 3⟩]

def addRom : BitVec 20 → Byte := romImage (addCode true 0x38 twoBytes)

theorem addRom_code : Sim.CodeAt addRom 0 (addCode true 0x38 twoBytes) := by
  decide

/-- A state whose operands both have the low byte `v`. -/
def lowBytes (v : Byte) : Sim :=
  { Sim.init with dataRam := fun addr => if addr = 0 ∨ addr = 2 then v else 0 }

theorem twoBytes_apart : Apart twoBytes := by
  simp [Apart, twoBytes]

/-- A loop around a `NOP`. -/
def nopRom : BitVec 20 → Byte := romImage (nop :: (countdown 0x3C 0 ++ [ifaluPcAsgn .aSub1C]))

theorem nopRom_loop : Loop nopRom 0x3C 0 2 fun _ => 1 := by
  have straight : Sim.StraightCode [nop] := by simp [nop]
  have code : Sim.CodeAt nopRom 0 (nop :: (countdown 0x3C 0 ++ [ifaluPcAsgn .aSub1C])) := by
    decide
  exact straight_loop straight (fun s => by simp) code (by decide)

/-- At the test, to run 28 times. -/
def counts28 : Sim := { Sim.init with pc := 2, rf := fun _ => 28 }

theorem lowBytes_operands (v : Byte) :
    operands (lowBytes v) twoBytes = [(v.toNat, v.toNat), (0, 0)] := rfl

theorem lowBytes_reach (v : Byte) : Reaches true (lowBytes v) twoBytes :=
  fun _ _ => ⟨.inl rfl, .inl rfl⟩

/-- The sum 0x80 + 0x80 is right, 28 runs are not. -/
theorem alu_contract_bytes :
    number (results ((lowBytes 0x80).run addRom (addCode true 0x38 twoBytes).length) twoBytes) =
      0x100 ∧ ¬ LoopRuns nopRom 0 2 (fun _ => 1) 28 counts28 := by
  have right : AddsRight (operands (lowBytes 0x80) twoBytes) := by
    rw [lowBytes_operands]
    exact ⟨rfl, trivial⟩
  have sum := ((alu_contract addRom (lowBytes 0x80)).2.1 true 0x38 twoBytes (List.cons_ne_nil _ _)
    addRom_code (lowBytes_reach 0x80) twoBytes_apart).mpr right
  constructor
  · rw [sum, lowBytes_operands]
    rfl
  · exact (alu_contract nopRom counts28).2.2 0x3C 0 2 (fun _ => 1) nopRom_loop rfl

/-- `EQUAL_C` of equal bytes reads 0 and 1 is stored, the sum of 1 and 1 becomes 0x202, and
a loop to run 28 times is left at once. -/
theorem alu_contract_fails :
    ((Sim.init.alu AluMode.equalC.code).setWidth 8 = 0 ∧ CpuInit.stored .equalC 0 0 = 1) ∧
    number (results ((lowBytes 1).run addRom (addCode true 0x38 twoBytes).length) twoBytes) =
      0x202 ∧ LoopRuns nopRom 0 2 (fun _ => 1) 0 counts28 := by
  have run := (Sim.run_code (s := lowBytes 1) (addCode_straight twoBytes) addRom_code).1
  refine ⟨⟨rfl, CpuInit.equalC_eq 0 0⟩, ?_, ?_⟩
  · rw [run, addCode_exec (lowBytes_reach 1) twoBytes_apart, lowBytes_operands]
    rfl
  · exact (loopRuns_iff nopRom_loop 0 rfl).mpr rfl

end Chiptune.Glowworm
