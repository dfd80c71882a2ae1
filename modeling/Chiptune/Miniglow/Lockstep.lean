import Chiptune.Miniglow.Sim

/-!
# RTL and simulator in lock-step

`Top.view` reads a board state as a simulator state. A running clock of the
board then is a simulator step, except on a store of the RAM source to plain
SRAM: the SRAM lets go of its data output while it is written, so the board
stores the level of a floating bus where the simulator stores the cell to
itself.
-/

namespace Chiptune.Miniglow

/-! ## Words and addresses -/

theorem opcode_shift (ir : Word) : ((ir >>> 8).setWidth 8 : Byte) = opcode ir := by
  ext i hi
  simp [opcode]

theorem xx_mask (ir : Word) : ((ir &&& 0xFF).setWidth 8 : Byte) = xx ir := by
  have mask : ((0xFF : Word).setWidth 8 : Byte) = BitVec.allOnes 8 := rfl
  rw [BitVec.setWidth_and, mask, BitVec.and_allOnes]
  ext i hi
  simp [xx]

theorem nibble_eq (x k : BitVec 4) : x.setWidth 8 = (k.setWidth 8 : Byte) ↔ x = k := by
  revert x k; decide

theorem srcHi_shift (ir : Word) : opcode ir >>> 4 = (srcHi ir).setWidth 8 := by
  unfold srcHi
  generalize opcode ir = op
  revert op; decide

theorem dstLo_mask (ir : Word) : opcode ir &&& 0xF = (dstLo ir).setWidth 8 := by
  unfold dstLo
  generalize opcode ir = op
  revert op; decide

theorem segment_eq (x k : BitVec 3) : x.setWidth 8 = (k.setWidth 8 : Byte) ↔ x = k := by
  revert x k; decide

theorem low_mask (x : Byte) : x &&& 0xF8 = 0 ↔ x.extractLsb' 3 5 = 0 := by
  revert x; decide

theorem low_index (x : Byte) (k : BitVec 3) :
    x &&& 7 = k.setWidth 8 ↔ x.extractLsb' 0 3 = k := by
  revert x k; decide

theorem low_three (x : Byte) : (x.extractLsb' 0 3).setWidth 8 = x &&& 7 := by
  revert x; decide

theorem pointer_append (hi lo : Byte) :
    hi.setWidth 16 <<< 8 ||| lo.setWidth 16 = (hi ++ lo : Word) := by
  apply BitVec.eq_of_getLsbD_eq
  intro i hi
  rw [BitVec.getLsbD_append]
  grind

theorem address_append (seg : BitVec 3) (hi lo : Byte) :
    (((seg.setWidth 8 : Byte).setWidth 32 <<< 16 ||| hi.setWidth 32 <<< 8 ||| lo.setWidth 32) &&&
      0x7FFFF).setWidth 19 = (seg ++ hi ++ lo : BitVec 19) := by
  have mask : ((0x7FFFF : BitVec 32).setWidth 19 : BitVec 19) = BitVec.allOnes 19 := rfl
  rw [BitVec.setWidth_and, mask, BitVec.and_allOnes]
  apply BitVec.eq_of_getLsbD_eq
  intro i hi
  rw [BitVec.getLsbD_append, BitVec.getLsbD_append]
  simp [hi]
  grind

/-! ## A board state as a simulator state -/

section
variable {κ : Type} (cp : Coprocessor κ) (rom : Rom) (p : Pins) (ir : Word) (t : Top κ)

def Top.view : Sim κ where
  pc := t.pc
  a := t.a
  b := t.b
  raL := t.raL
  raH := t.raH
  seg := t.seg.setWidth 8
  ioOut := t.ioOut
  ioIn := t.ioIn
  audioOut := t.audioOut
  sram := t.mem
  cp := t.cp

theorem view_seg4Cp : t.view.seg4Cp = t.seg4CpAccess := by
  have seg := segment_eq t.seg 4
  have low := low_mask t.raL
  rw [Bool.eq_iff_iff]
  simp only [Sim.seg4Cp, Top.view, Top.seg4CpAccess, decide_eq_true_eq, Bool.and_eq_true,
    beq_iff_eq, low, and_assoc]
  exact and_congr_left fun _ => seg

theorem view_seg3Comm : t.view.seg3Comm = t.seg3CommAccess := by
  have seg := segment_eq t.seg 3
  have low := low_mask t.raL
  rw [Bool.eq_iff_iff]
  simp only [Sim.seg3Comm, Top.view, Top.seg3CommAccess, decide_eq_true_eq, Bool.and_eq_true,
    beq_iff_eq, low, and_assoc]
  exact and_congr_left fun _ => seg

theorem view_cpIdx : t.view.cpIdx = t.raL.extractLsb' 0 3 := by
  simp only [Sim.cpIdx, Top.view]
  generalize t.raL = x
  revert x; decide

theorem view_ra : t.view.ra = t.pcLoadData := pointer_append _ _

theorem view_sramIndex : t.view.sramIndex = t.sramAddrCpu := address_append _ _ _

theorem view_commRead : t.view.commRead (t.raL &&& 7) = t.commReadData := by
  have i0 : t.raL &&& 7 = 0 ↔ _ := low_index t.raL 0
  have i1 : t.raL &&& 7 = 1 ↔ _ := low_index t.raL 1
  simp only [Sim.commRead, Top.commReadData, Top.view, beq_iff_eq, i0, i1]
  by_cases h : t.raL.extractLsb' 0 3 = 0
  · simp [h]
  · simp only [if_neg h]

theorem view_aluCompute : t.view.aluCompute (xx ir) = t.aluS ir := by
  simp only [Sim.aluCompute, Top.view, Top.aluS_eq, subMode, beq_iff_eq]

theorem seg_apart : ¬ (t.seg4CpAccess = true ∧ t.seg3CommAccess = true) := by
  simp only [Top.seg4CpAccess, Top.seg3CommAccess, Bool.and_eq_true, beq_iff_eq]
  rintro ⟨⟨⟨h4, -⟩, -⟩, ⟨h3, -⟩, -⟩
  exact absurd (h4.symm.trans h3) (by decide)

/-! ## One clock -/

/-- The words of the shared instructions: source nibble 0, 1, 3 or 4 with any
destination nibble, and the NOP. -/
def Shared : Prop := srcIsImm ir ∨ srcIsAlu ir ∨ srcIsRam ir ∨ srcIsIo0 ir ∨ isNop ir

/-- A store of the RAM source to an address that no board register answers. -/
def Sim.Floats (s : Sim κ) : Prop :=
  isData ir ∧ srcIsRam ir ∧ dstLo ir = 8 ∧ s.seg4Cp = false ∧ s.seg3Comm = false

theorem not_data_cases (h : isData ir = false) : isJmp ir ∨ isJcc ir ∨ isNop ir ∨ isSeg ir := by
  simp only [isData, Bool.and_eq_false_iff, Bool.not_eq_false'] at h
  tauto

theorem clear_running (run : p.cpuRun = true) : t.clear p = t := by
  rw [Pins.cpuRun, Bool.and_eq_true] at run
  rw [Top.clear, if_pos run.2]

theorem sramDo_running (run : p.cpuRun = true) (h4 : t.seg4CpAccess = false)
    (h3 : t.seg3CommAccess = false) : t.sramDo p ir =
      if dstIsRamWrite ir then none else some (t.mem t.sramAddrCpu) := by
  rw [Pins.cpuRun, Bool.and_eq_true] at run
  simp only [Top.sramDo, Top.sramCeN, Top.sramWeN, Top.sramWriteCpu, Top.sramAddr, Pins.sramOeN,
    run.1, h4, h3]
  cases dstIsRamWrite ir <;> rfl

/-- The bus carries the simulator's source byte, unless the SRAM is asked to
drive it while it is written. -/
theorem dbOe_view (run : p.cpuRun = true) (shared : Shared ir) (data : isData ir = true)
    (settled : ¬ t.view.Floats ir) :
    t.dbOe cp p ir = some (t.view.db cp ((srcHi ir).setWidth 8) (xx ir) (t.aluS ir)) := by
  have s0 : (srcHi ir).setWidth 8 = (0 : Byte) ↔ _ := nibble_eq (srcHi ir) 0
  have s1 : (srcHi ir).setWidth 8 = (1 : Byte) ↔ _ := nibble_eq (srcHi ir) 1
  have s3 : (srcHi ir).setWidth 8 = (3 : Byte) ↔ _ := nibble_eq (srcHi ir) 3
  have s4 : (srcHi ir).setWidth 8 = (4 : Byte) ↔ _ := nibble_eq (srcHi ir) 4
  have nop : isNop ir = false := by
    simp only [isData, Bool.and_eq_true, Bool.not_eq_true'] at data
    exact data.1.2
  simp only [Shared, srcIsImm, srcIsAlu, srcIsRam, srcIsIo0, nop, beq_iff_eq, Bool.false_eq_true,
    or_false] at shared
  simp only [Top.dbOe, Sim.db, srcIsImm, srcIsAlu, srcIsRam, srcIsIo0, s0, s1, s3, s4, beq_iff_eq]
  obtain h | h | h | h := shared
  · simp [h]
  · simp [h]
  · have ram : t.ramReadData cp p ir = some (if t.view.seg4Cp = true then cp.read t.view.cp
        t.view.cpIdx else if t.view.seg3Comm = true then t.view.commRead (t.view.raL &&& 7)
        else t.view.sram t.view.sramIndex) := by
      rw [view_seg4Cp, view_seg3Comm, view_cpIdx, view_sramIndex, Top.ramReadData]
      have comm := view_commRead t
      cases h4 : t.seg4CpAccess with
      | true => simp [Top.cpRegData, Top.cpRead, srcIsRam, h, h4, Top.view]
      | false =>
        cases h3 : t.seg3CommAccess with
        | true => exact congrArg some comm.symm
        | false =>
          have store : dstIsRamWrite ir = false := by
            simp only [Sim.Floats, data, srcIsRam, h, view_seg4Cp, view_seg3Comm, h4, h3] at settled
            simpa [dstIsRamWrite, data] using settled
          simp [sramDo_running, run, h4, h3, store, Top.view]
    simp [h, ram]
  · simp [h, Top.view]

theorem edge_not_data (run : p.cpuRun = true) (data : isData ir = false) :
    t.edge cp p ir = some { t with pc := t.pcNext p ir, seg := t.segNext p ir } := by
  rw [Pins.cpuRun, Bool.and_eq_true] at run
  simp [Top.edge, Top.latch, Top.memNext, Top.cpNext, Top.cpWrite, Top.sramWeN, Top.sramWriteCpu,
    Top.dstIout, dstA, dstB, dstRal, dstRah, dstAud, dstReg, dstIsRamWrite, data, run.1]

theorem pcNext_data (run : p.cpuRun = true) (data : isData ir = true) :
    t.pcNext p ir = t.pc + 1 := by
  have hrst := run
  rw [Pins.cpuRun, Bool.and_eq_true] at hrst
  simp only [isData, Bool.and_eq_true, Bool.not_eq_true'] at data
  simp [Top.pcNext_eq, Top.pcLoad, Top.jccTake, hrst.2, run, data.1.1]

theorem segNext_data (data : isData ir = true) : t.segNext p ir = t.seg := by
  simp only [isData, Bool.and_eq_true, Bool.not_eq_true'] at data
  simp [Top.segNext, data.2]

theorem edge_register (run : p.cpuRun = true) (data : isData ir = true) (d : Byte)
    (bus : t.dbOe cp p ir = some d) (h8 : dstLo ir ≠ 8#4) : t.edge cp p ir = some { t with
      pc := t.pc + 1
      a := if dstLo ir = 1 then d else t.a
      b := if dstLo ir = 6 then d else t.b
      raL := if dstLo ir = 2 then d else t.raL
      raH := if dstLo ir = 3 then d else t.raH
      audioOut := if dstLo ir = 10 then d else t.audioOut } := by
  have latch (k : BitVec 4) (q : Byte) :
      t.latch cp p ir (dstReg p ir k) q = some (if dstLo ir = k then d else q) := by
    by_cases h : dstLo ir = k <;> simp [Top.latch, dstReg, data, run, bus, h]
  have store : dstIsRamWrite ir = false := by simp [dstIsRamWrite, h8]
  have mem : t.memNext cp p ir = some t.mem := by
    rw [Pins.cpuRun, Bool.and_eq_true] at run
    simp [Top.memNext, Top.sramWeN, Top.sramWriteCpu, store, run.1]
  have iout : t.latch cp p ir (t.dstIout p ir) t.ioOut = some t.ioOut := by
    simp [Top.latch, Top.dstIout, store]
  simp [Top.edge, dstA, dstB, dstRal, dstRah, dstAud, latch, mem, iout, Top.cpNext, Top.cpWrite,
    store, pcNext_data, segNext_data, run, data]

theorem edge_store (run : p.cpuRun = true) (data : isData ir = true) (d : Byte)
    (bus : t.dbOe cp p ir = some d) (h8 : dstLo ir = 8#4) : t.edge cp p ir = some { t with
      pc := t.pc + 1
      ioOut := if t.seg3CommAccess ∧ t.raL.extractLsb' 0 3 = 0 then d else t.ioOut
      mem := if t.seg4CpAccess ∨ t.seg3CommAccess then t.mem
        else Function.update t.mem t.sramAddrCpu d
      cp := if t.seg4CpAccess then cp.write t.cp (t.raL.extractLsb' 0 3) d else t.cp } := by
  have mode := run
  rw [Pins.cpuRun, Bool.and_eq_true] at mode
  have latch (k : BitVec 4) (hk : 8#4 ≠ k) (q : Byte) :
      t.latch cp p ir (dstReg p ir k) q = some q := by
    simp [Top.latch, dstReg, h8, hk]
  have store : dstIsRamWrite ir = true := by simp [dstIsRamWrite, data, h8]
  have mem : t.memNext cp p ir = some (if t.seg4CpAccess ∨ t.seg3CommAccess then t.mem
      else Function.update t.mem t.sramAddrCpu d) := by
    cases h4 : t.seg4CpAccess <;> cases h3 : t.seg3CommAccess <;>
      simp [Top.memNext, Top.sramCeN, Top.sramWeN, Top.sramWriteCpu, Top.sramDi, Top.sramAddr,
        store, mode.1, bus, h4, h3]
  have iout : t.latch cp p ir (t.dstIout p ir) t.ioOut =
      some (if t.seg3CommAccess ∧ t.raL.extractLsb' 0 3 = 0 then d else t.ioOut) := by
    cases h3 : t.seg3CommAccess <;> by_cases h0 : t.raL.extractLsb' 0 3 = 0#3 <;>
      simp [Top.latch, Top.dstIout, store, run, bus, h3, h0]
  have board : t.cpNext cp p ir =
      some (if t.seg4CpAccess then cp.write t.cp (t.raL.extractLsb' 0 3) d else t.cp) := by
    cases h4 : t.seg4CpAccess <;> simp [Top.cpNext, Top.cpWrite, store, bus, h4]
  simp [Top.edge, dstA, dstB, dstRal, dstRah, dstAud, latch, mem, iout, board,
    pcNext_data, segNext_data, run, data]

/-- A data instruction with a driven bus is the simulator's destination write. -/
theorem edge_data (run : p.cpuRun = true) (data : isData ir = true) (d : Byte)
    (bus : t.dbOe cp p ir = some d) : (t.edge cp p ir).map Top.view =
      let s := t.view.write cp ((dstLo ir).setWidth 8) d
      some { s with pc := s.pc + 1 } := by
  have d1 : (dstLo ir).setWidth 8 = (1 : Byte) ↔ _ := nibble_eq (dstLo ir) 1#4
  have d2 : (dstLo ir).setWidth 8 = (2 : Byte) ↔ _ := nibble_eq (dstLo ir) 2#4
  have d3 : (dstLo ir).setWidth 8 = (3 : Byte) ↔ _ := nibble_eq (dstLo ir) 3#4
  have d6 : (dstLo ir).setWidth 8 = (6 : Byte) ↔ _ := nibble_eq (dstLo ir) 6#4
  have d8 : (dstLo ir).setWidth 8 = (8 : Byte) ↔ _ := nibble_eq (dstLo ir) 8#4
  have dA : (dstLo ir).setWidth 8 = (10 : Byte) ↔ _ := nibble_eq (dstLo ir) 10#4
  by_cases h8 : dstLo ir = 8#4
  · have idx : t.raL &&& 7#8 = 0#8 ↔ _ := low_index t.raL 0#3
    rw [edge_store cp p ir t run data d bus h8, Sim.write, if_pos (d8.mpr h8), view_seg4Cp,
      view_seg3Comm, view_cpIdx, view_sramIndex]
    have apart := seg_apart t
    cases h4 : t.seg4CpAccess <;> cases h3 : t.seg3CommAccess <;>
      by_cases h0 : t.raL.extractLsb' 0 3 = 0#3 <;> simp_all [Top.view]
  · rw [edge_register cp p ir t run data d bus h8, Sim.write, if_neg (mt d8.mp h8)]
    by_cases h1 : dstLo ir = 1#4
    · simp [Top.view, h1]
    by_cases h2 : dstLo ir = 2#4
    · simp [Top.view, h2]
    by_cases h3 : dstLo ir = 3#4
    · simp [Top.view, h3]
    by_cases h6 : dstLo ir = 6#4
    · simp [Top.view, h6]
    by_cases hA : dstLo ir = 10#4
    · simp [Top.view, hA]
    · rw [if_neg (mt d1.mp h1), if_neg (mt d2.mp h2), if_neg (mt d3.mp h3), if_neg (mt d6.mp h6),
        if_neg (mt dA.mp hA)]
      simp [Top.view, h1, h2, h3, h6, hA]

/-- **One clock is one step.** On a shared word a running clock of the board is a
step of the simulator. -/
theorem clock_view (run : p.cpuRun = true) (shared : Shared (rom t.pc))
    (settled : ¬ t.view.Floats (rom t.pc)) :
    (t.clock cp rom p).map Top.view = some (t.view.step cp rom) := by
  have pc : t.view.pc = t.pc := rfl
  rw [Top.clock, clear_running p t run]
  generalize hir : rom t.pc = ir at *
  have op {k : Byte} : (opcode ir == k) = true ↔ opcode ir = k := beq_iff_eq
  simp only [Sim.step, pc, hir, opcode_shift, xx_mask, srcHi_shift, dstLo_mask, view_aluCompute,
    view_ra]
  cases data : isData ir with
  | true =>
    have bus := dbOe_view cp p ir t run shared data settled
    rw [edge_data cp p ir t run data _ bus]
    simp only [isData, isJmp, isJcc, isNop, isSeg, Bool.and_eq_true, Bool.not_eq_true',
      beq_eq_false_iff_ne] at data
    obtain ⟨⟨⟨hj, hc⟩, hn⟩, hs⟩ := data
    rw [if_neg hs, if_neg hn, if_neg hj, if_neg hc]
  | false =>
    rw [edge_not_data cp p ir t run data]
    have hrst := run
    rw [Pins.cpuRun, Bool.and_eq_true] at hrst
    obtain h | h | h | h := not_data_cases ir data
    · have h : opcode ir = 7#8 := by simpa [isJmp] using h
      simp [h, Top.pcNext_eq, Top.pcLoad, isJmp, Top.segNext, isSeg, hrst.2, Top.view]
    · have h : opcode ir = 23#8 := by simpa [isJcc] using h
      by_cases zero : t.aluS ir = 0#8 <;>
        simp [h, zero, Top.pcNext_eq, Top.pcLoad, Top.jccTake, Top.aluZero, isJmp, isJcc,
          Top.segNext, isSeg, hrst.2, run, Top.view]
    · have h : opcode ir = 255#8 := by simpa [isNop] using h
      simp [h, Top.pcNext_eq, Top.pcLoad, Top.jccTake, isJmp, isJcc, Top.segNext, isSeg, hrst.2,
        run, Top.view]
    · have h : opcode ir = 12#8 := by simpa [isSeg] using h
      simp [h, Top.pcNext_eq, Top.pcLoad, Top.jccTake, isJmp, isJcc, Top.segNext, isSeg, hrst.2,
        run, Top.view, low_three]

/-- A word that stores a floating bus stops the board. -/
theorem clock_floats (run : p.cpuRun = true) (floats : t.view.Floats (rom t.pc)) :
    t.clock cp rom p = none := by
  rw [Top.clock, clear_running p t run]
  generalize rom t.pc = ir at *
  obtain ⟨data, src, h8, h4, h3⟩ := floats
  rw [view_seg4Cp] at h4
  rw [view_seg3Comm] at h3
  have store : dstIsRamWrite ir = true := by simp [dstIsRamWrite, data, h8]
  have srcs : srcIsImm ir = false ∧ srcIsAlu ir = false := by
    simp only [srcIsRam, beq_iff_eq] at src
    simp [srcIsImm, srcIsAlu, src]
  have bus : t.dbOe cp p ir = none := by
    simp [Top.dbOe, srcs.1, srcs.2, src, Top.ramReadData, h4, h3, sramDo_running, run, store]
  have mem : t.memNext cp p ir = none := by
    rw [Pins.cpuRun, Bool.and_eq_true] at run
    simp [Top.memNext, Top.sramCeN, Top.sramWeN, Top.sramWriteCpu, Top.sramDi, run.1, h4, h3,
      store, bus]
  simp [Top.edge, mem]

end

/-! ## Runs -/

section
variable {κ : Type} (cp : Coprocessor κ) (rom : Rom) (pins : Nat → Pins)

/-- **Lock-step.** On a program of shared words the running board and the simulator
go through the same states for exactly as long as the simulator does not meet
a store of the RAM source to plain SRAM. -/
theorem lockstep_iff (t : Top κ) (N : Nat) (running : ∀ n, (pins n).cpuRun = true)
    (shared : ∀ w, Shared (rom w)) :
    (∀ n, n ≤ N → (t.run cp rom pins n).map Top.view = some (t.view.run cp rom n)) ↔
      ∀ n, n < N → ¬ (t.view.run cp rom n).Floats (rom (t.view.run cp rom n).pc) := by
  refine Clocked.agree_iff (fun o s => Option.map Top.view o = some s) _
    (fun _ s => ¬ s.Floats (rom s.pc)) rfl (fun _ _ h => h) ?_ ?_
  · intro n _ o rel ok
    obtain ⟨t, rfl, view⟩ := Option.map_eq_some_iff.mp rel
    rw [← view] at ok ⊢
    exact clock_view cp rom (pins n) t (running n) (shared t.pc) ok
  · intro n _ o rel broken
    obtain ⟨t, rfl, view⟩ := Option.map_eq_some_iff.mp rel
    rw [← view, not_not] at broken
    rw [Option.bind_some, clock_floats cp rom (pins n) t (running n) broken]
    exact nofun

end

/-! ## A program on each side of the condition -/

/-- Immediate stores do not float: the board is with the simulator after three clocks. -/
theorem lockstep_stores :
    ((Top.zero Dummy.reset).run dummy (fun _ => 0x0855) (fun _ => Pins.idle true true) 3).map Top.view =
      some ((Top.zero Dummy.reset).view.run dummy (fun _ => 0x0855) 3) := by
  refine (lockstep_iff dummy (fun _ => 0x0855) (fun _ => Pins.idle true true)
    (Top.zero Dummy.reset) 3 (fun _ => rfl) fun _ => .inl rfl).mpr ?_ 3 (Nat.le_refl 3)
  intro n _ floats
  exact absurd floats.2.1 (by decide)

/-- `RAM = RAM` at address 0 already leaves the simulator's path. -/
theorem self_store_diverges :
    Shared 0x3855 ∧
      ((Top.zero Dummy.reset).clock dummy (fun _ => 0x3855) (Pins.idle true true)).map Top.view ≠
        some ((Top.zero Dummy.reset).view.step dummy fun _ => 0x3855) := by
  have floats : (Top.zero Dummy.reset).view.Floats 0x3855 := by
    refine ⟨?_, ?_, ?_, ?_, ?_⟩ <;> decide
  rw [clock_floats dummy (fun _ => 0x3855) (Pins.idle true true) (Top.zero Dummy.reset) rfl floats]
  exact ⟨.inr (.inr (.inl rfl)), nofun⟩

end Chiptune.Miniglow
