import Chiptune.Miniglow.Sim

/-!
# The stopped CPU

While `cpu_run = MODE & RST_n` is low the CPU should keep still and leave the
SRAM to the host. Three terms of the netlist do not carry `cpu_run`: the PC
load, `CP_WE`, and the SRAM write strobe in MODE=1. A stopped clock is inert
exactly when the word that the ROM shows at PC reaches none of them.
-/

namespace Chiptune.Miniglow

section
variable {κ : Type} (cp : Coprocessor κ) (rom : Rom) (p : Pins) (ir : Word) (t : Top κ)

/-- What the host port stores in MODE=0. -/
def Top.hostWrite : BitVec 19 → Byte :=
  if !p.mode && !p.ftCeN && !p.ftWeN then Function.update t.mem p.ftA p.ftD else t.mem

/-- A clock that leaves the CPU alone: the reset clear and the host's store. -/
def Top.rest : Top κ := { t.clear p with mem := t.hostWrite p }

/-- The CPU's write strobe to the SRAM. -/
def Top.sramStrobe : Bool := p.mode && !t.sramCeN p && !t.sramWeN p ir

/-- The clock leaves the CPU alone, with `CP_WE` and the CPU's SRAM strobe inactive. -/
structure Top.Inert : Prop where
  next : t.clock cp rom p = some (t.rest p)
  cpWe : (t.clear p).cpWrite (rom (t.clear p).pc) = false
  sramWe : (t.clear p).sramStrobe p (rom (t.clear p).pc) = false

/-- The words at PC that reach an ungated term: a jump taken to another address,
a store in the coprocessor window, and any store under reset in MODE=1. -/
def Top.Disturbed : Prop :=
  let s := t.clear p
  let ir := rom s.pc
  (p.rstN ∧ (isJmp ir ∨ isJcc ir ∧ s.aluZero ir) ∧ s.pcLoadData ≠ s.pc) ∨
    (dstIsRamWrite ir ∧ s.seg4CpAccess) ∨ (p.mode ∧ dstIsRamWrite ir)

/-! ## One clock -/

/-- Under reset the segment is 0, so no window is open. -/
theorem clear_windows (reset : p.rstN = false) :
    (t.clear p).seg4CpAccess = false ∧ (t.clear p).seg3CommAccess = false := by
  have seg : (t.clear p).seg = 0 := by simp [Top.clear, reset]
  simp [Top.seg4CpAccess, Top.seg3CommAccess, seg]

/-- With `cpu_run` low no register of the CPU takes the bus. -/
theorem edge_stopped (stop : p.cpuRun = false) : t.edge cp p ir = do
    let mem ← t.memNext cp p ir
    let board ← t.cpNext cp p ir
    return { t with pc := t.pcNext p ir, mem := mem, cp := board } := by
  simp [Top.edge, Top.latch, dstA, dstB, dstRal, dstRah, dstAud, dstReg, Top.dstIout,
    Top.segNext, stop]

theorem pcNext_stopped (stop : p.cpuRun = false) (cleared : p.rstN = false → t.pc = 0) :
    t.pcNext p ir = t.pc ↔ ¬ (p.rstN ∧ (isJmp ir ∨ isJcc ir ∧ t.aluZero ir) ∧
      t.pcLoadData ≠ t.pc) := by
  have load : t.pcLoad ir = true ↔ isJmp ir = true ∨ isJcc ir = true ∧ t.aluZero ir = true := by
    simp [Top.pcLoad, Top.jccTake]
  rw [Top.pcNext_eq, ← load]
  cases reset : p.rstN with
  | false => simp [cleared reset]
  | true => cases t.pcLoad ir <;> simp [stop]

theorem memNext_stopped (quiet : t.sramStrobe p ir = false) :
    t.memNext cp p ir = some (t.hostWrite p) := by
  cases mode : p.mode with
  | false =>
    cases ce : p.ftCeN <;> cases we : p.ftWeN <;>
      simp [Top.memNext, Top.hostWrite, Top.sramCeN, Top.sramWeN, Top.sramDi, Top.sramAddr, mode,
        ce, we]
  | true =>
    simp only [Top.sramStrobe, mode, Bool.true_and] at quiet
    simp [Top.memNext, Top.hostWrite, mode, quiet]

theorem sramStrobe_stopped (stop : p.cpuRun = false) :
    (t.clear p).sramStrobe p ir = (p.mode && dstIsRamWrite ir) := by
  cases mode : p.mode with
  | false => simp [Top.sramStrobe, mode]
  | true =>
    have reset : p.rstN = false := by simpa [Pins.cpuRun, mode] using stop
    have closed := clear_windows p t reset
    simp [Top.sramStrobe, Top.sramCeN, Top.sramWeN, Top.sramWriteCpu, mode, closed.1, closed.2]

theorem clock_quiet (stop : p.cpuRun = false)
    (cpWe : (t.clear p).cpWrite (rom (t.clear p).pc) = false)
    (sramWe : (t.clear p).sramStrobe p (rom (t.clear p).pc) = false) :
    t.clock cp rom p =
      some { t.rest p with pc := (t.clear p).pcNext p (rom (t.clear p).pc) } := by
  have host : (t.clear p).hostWrite p = t.hostWrite p := by
    cases reset : p.rstN <;> simp [Top.hostWrite, Top.clear, reset]
  rw [Top.clock, edge_stopped cp p _ _ stop, memNext_stopped cp p _ _ sramWe, host]
  simp [Top.cpNext, cpWe, Top.rest]

/-- **A stopped clock is inert unless it is disturbed.** -/
theorem inert_iff (stop : p.cpuRun = false) : t.Inert cp rom p ↔ ¬ t.Disturbed rom p := by
  have strobe := sramStrobe_stopped p (rom (t.clear p).pc) t stop
  have jump := pcNext_stopped p (rom (t.clear p).pc) (t.clear p) stop fun reset => by
    simp [Top.clear, reset]
  constructor
  · rintro ⟨next, cpWe, sramWe⟩ (taken | store | store)
    · rw [clock_quiet cp rom p t stop cpWe sramWe, Option.some_inj] at next
      exact jump.mp (congrArg Top.pc next) taken
    · simp [Top.cpWrite, store.1, store.2] at cpWe
    · simp [strobe, store.1, store.2] at sramWe
  · intro calm
    simp only [Top.Disturbed, not_or] at calm
    have cpWe : (t.clear p).cpWrite (rom (t.clear p).pc) = false := by
      simpa [Top.cpWrite] using calm.2.1
    have sramWe : (t.clear p).sramStrobe p (rom (t.clear p).pc) = false := by
      simpa [strobe] using calm.2.2
    refine ⟨?_, cpWe, sramWe⟩
    rw [clock_quiet cp rom p t stop cpWe sramWe, jump.mpr calm.1]
    rfl

end

/-! ## Any number of clocks -/

section
variable {κ : Type} (cp : Coprocessor κ) (rom : Rom) (pins : Nat → Pins) (t : Top κ)

/-- The states a stopped machine should have: the start, cleared by every reset,
with the host's stores. -/
def Top.resting : Nat → Top κ := Clocked.run Top.rest pins t

/-- What resting leaves of `t` in `s`: every register that takes the bus and the coprocessor
board, with PC and SEG as they were or cleared. -/
structure Top.Kept (s : Top κ) : Prop where
  a : s.a = t.a
  b : s.b = t.b
  raL : s.raL = t.raL
  raH : s.raH = t.raH
  audioOut : s.audioOut = t.audioOut
  ioOut : s.ioOut = t.ioOut
  cp : s.cp = t.cp
  place : s.pc = t.pc ∧ s.seg = t.seg ∨ s.pc = 0 ∧ s.seg = 0

theorem Top.Kept.rest {s : Top κ} (kept : t.Kept s) (p : Pins) : t.Kept (s.rest p) := by
  obtain ⟨a, b, raL, raH, audioOut, ioOut, board, place⟩ := kept
  cases reset : p.rstN with
  | false =>
    have cleared : s.rest p = { s with pc := 0, seg := 0, ioIn := 0, mem := s.hostWrite p } := by
      simp [Top.rest, Top.clear, reset]
    rw [cleared]
    exact ⟨a, b, raL, raH, audioOut, ioOut, board, .inr ⟨rfl, rfl⟩⟩
  | true =>
    have stored : s.rest p = { s with mem := s.hostWrite p } := by
      simp [Top.rest, Top.clear, reset]
    rw [stored]
    exact ⟨a, b, raL, raH, audioOut, ioOut, board, place⟩

theorem resting_frame (n : Nat) : t.Kept (t.resting pins n) := by
  have start : t.Kept t := ⟨rfl, rfl, rfl, rfl, rfl, rfl, rfl, .inl ⟨rfl, rfl⟩⟩
  exact Clocked.run_invariant start (fun p _ (_ : True) kept => kept.rest t p)
    (fun _ _ => trivial) n (Nat.le_refl n)

/-- **The stopped machine over any number of clocks.** It is inert for exactly as
long as no clock is disturbed. -/
theorem inert_run_iff (N : Nat) (stop : ∀ n, (pins n).cpuRun = false) :
    (∀ n, n < N → ∃ s, t.run cp rom pins n = some s ∧ s.Inert cp rom (pins n)) ↔
      ∀ n, n < N → ¬ (t.resting pins n).Disturbed rom (pins n) := by
  refine Clocked.agree_steps_iff (fun (o : Option (Top κ)) s => o = some s)
    (fun p s => ¬ Top.Disturbed rom p s)
    (fun p o _ _ => ∃ s, o = some s ∧ Top.Inert cp rom p s) rfl ?_ ?_
  · rintro n - _ rfl ⟨s, same, inert⟩
    cases same
    exact inert.next
  · rintro n - _ rfl
    simp only [Option.some_inj, exists_eq_left']
    exact inert_iff cp rom (pins n) _ (stop n)

end

/-- A program that starts with a jump and never stores is inert in the third clock of
a reset. -/
theorem inert_reset : ∃ s,
    (Top.zero Dummy.reset).run dummy (fun _ => 0x07FF) (fun _ => Pins.idle true false) 2 = some s ∧
      s.Inert dummy (fun _ => 0x07FF) (Pins.idle true false) := by
  refine (inert_run_iff dummy (fun _ => 0x07FF) (fun _ => Pins.idle true false)
    (Top.zero Dummy.reset) 3 fun _ => rfl).mpr ?_ 2 (by decide)
  have noStore : ¬ dstIsRamWrite 0x07FF = true := by decide
  rintro n - (taken | store | store)
  · exact absurd taken.1 (by decide)
  · exact noStore store.1
  · exact noStore store.2

/-- The stopped CPU jumps in MODE=0, writes to the coprocessor in MODE=0 and
stores to the SRAM under reset in MODE=1. -/
theorem stopped_disturbed :
    (({ Top.zero Dummy.reset with raL := 5 }).clock dummy (fun _ => 0x07FF)
        (Pins.idle false true)).map Top.pc = some 5 ∧
      (({ Top.zero Dummy.reset with seg := 4, raL := 2 }).clock dummy (fun _ => 0x0855)
        (Pins.idle false true)).map (fun t => t.cp.regData : Top Dummy → Byte) = some 0x55 ∧
      ((Top.zero Dummy.reset).clock dummy (fun _ => 0x0855)
        (Pins.idle true false)).map (fun t => t.mem 0 : Top Dummy → Byte) = some 0x55 := by
  refine ⟨?_, ?_, ?_⟩ <;> decide

end Chiptune.Miniglow
