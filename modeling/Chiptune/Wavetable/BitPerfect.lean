import Chiptune.Wavetable.Rtl
import Chiptune.Wavetable.Pass

/-!
# wt_rtl against wt_ram

The step registers of `wt_rtl` hold the phase byte when the adder reads them, so
`wt_rtl` adds the phase to itself. The two chips agree for exactly as long as
every addition of `wt_ram` finds a step byte equal to the phase byte.
-/

namespace Chiptune.Wavetable

/-! ## The adder's second input -/

/-- Only micro-steps 2 and 5 read it. -/
theorem micro_congr (e : Engine) (ch : BitVec 2) (io rom lo hi lo' hi' : Byte) (k : Nat)
    (h2 : k = 2 → lo = lo') (h5 : k = 5 → hi = hi') :
    e.micro ch io rom lo hi k = e.micro ch io rom lo' hi' k := by
  unfold Engine.micro
  split <;> simp_all

theorem Timer.runs_iff (t : Timer) (k : BitVec 5) : t.runs k = true ↔
    t.sampleStart = false ∧ t.ustep.toNat < 128 ∧ t.ums = k := by
  simp [runs, BitVec.lt_def, totalSteps, and_assoc]

theorem Timer.idle_iff (t : Timer) : t.idle = true ↔
    t.sampleStart = false ∧ 128 ≤ t.ustep.toNat := by
  simp [idle, BitVec.le_def, totalSteps]

theorem Timer.ums_toNat (t : Timer) : t.ums.toNat = t.ustep.toNat % 32 := by
  simp [ums, BitVec.extractLsb'_toNat]

theorem engNext_congr (board : Board) (c : Chip) (lo hi lo' hi' : Byte)
    (h2 : c.time.runs 2 = true → lo = lo') (h5 : c.time.runs 5 = true → hi = hi') :
    c.engNext board lo hi = c.engNext board lo' hi' := by
  unfold Chip.engNext Engine.pass
  cases idle : c.time.idle with
  | true => rfl
  | false =>
    cases start : c.time.sampleStart with
    | true => rfl
    | false =>
      have pass : c.time.ustep.toNat < 128 := by
        by_contra h
        rw [c.time.idle_iff.mpr ⟨start, by omega⟩] at idle
        cases idle
      simp only [Bool.false_eq_true, ↓reduceIte]
      rw [micro_congr _ _ _ _ lo hi lo' hi']
      · exact fun k => h2 (c.time.runs_iff 2 |>.mpr ⟨start, pass, BitVec.eq_of_toNat_eq k⟩)
      · exact fun k => h5 (c.time.runs_iff 5 |>.mpr ⟨start, pass, BitVec.eq_of_toNat_eq k⟩)

/-- In micro-step `k` the engine runs that step of the microprogram. -/
theorem engNext_runs (board : Board) (c : Chip) (lo hi : Byte) (k : BitVec 5)
    (runs : c.time.runs k = true) : c.engNext board lo hi =
      let m := c.eng.rest.micro c.time.uch (c.eng.ramIo board.float c.sram)
        (board.rom c.eng.romAddr) lo hi k.toNat
      if c.time.ustep = 127 then m.output c.eng.mixSum else m := by
  obtain ⟨start, pass, ums⟩ := c.time.runs_iff k |>.mp runs
  have idle : c.time.idle = false := by
    rw [Bool.eq_false_iff, Ne, Timer.idle_iff]
    omega
  simp only [Chip.engNext, Engine.pass, idle, start, ums, Bool.false_eq_true, ↓reduceIte]

/-- A micro-step after the first follows the one before it. -/
theorem Timer.runs_pred (t : Timer) (k : BitVec 5) (hk : k ≠ 0) (h : t.next.runs k = true) :
    t.runs (k - 1) = true := by
  obtain ⟨-, lt, ums⟩ := t.next.runs_iff k |>.mp h
  have ums := congrArg BitVec.toNat ums
  rw [ums_toNat] at ums
  have pos : k.toNat ≠ 0 := fun e => hk (BitVec.eq_of_toNat_eq e)
  rw [runs_iff]
  cases start : t.sampleStart with
  | true =>
    simp [next, start] at ums
    omega
  | false =>
    have kmax := k.isLt
    by_cases pass : t.ustep < totalSteps
    · have low : t.ustep.toNat < 128 := pass
      have step : t.next.ustep.toNat = t.ustep.toNat + 1 := by
        simp only [next, start, Bool.false_eq_true, ↓reduceIte, if_pos pass, BitVec.toNat_add]
        simp
        omega
      refine ⟨rfl, low, BitVec.eq_of_toNat_eq ?_⟩
      rw [ums_toNat, BitVec.toNat_sub]
      simp
      omega
    · have same : t.next.ustep = t.ustep := by
        simp only [next, start, Bool.false_eq_true, ↓reduceIte, if_neg pass]
      rw [same] at lt
      exact absurd lt pass

/-! ## The step registers -/

/-- The chips agree, and a step register that the adder is about to read holds the
phase byte. -/
structure Rtl.Follows (r : Rtl) (c : Chip) : Prop where
  chip : r.chip = c
  lo : c.time.runs 2 = true → r.stepLoR = c.eng.accLo
  hi : c.time.runs 5 = true → r.stepHiR = c.eng.accHi

section
variable {board : Board} {r : Rtl} {c : Chip}

theorem initial_runs (dLatch : Byte) (sram : Ram) (k : BitVec 5) :
    (Chip.initial dLatch sram).time.runs k = false := by
  rw [Bool.eq_false_iff, Ne, Timer.runs_iff]
  rintro ⟨-, h, -⟩
  exact Nat.lt_irrefl _ h

theorem reset_runs (board : Board) (p : Pins) (reset : p.rstN = false) (k : BitVec 5) :
    (c.settle board p).time.runs k = false := by
  have time : (c.settle board p).time = c.reset.time := by
    simp only [Chip.settle, reset, Bool.false_eq_true, ↓reduceIte]
    split <;> rfl
  rw [time]
  exact initial_runs _ _ k

theorem follows_settle (board : Board) (h : r.Follows c) (p : Pins) :
    (r.settle board p).Follows (c.settle board p) := by
  obtain ⟨rfl, lo, hi⟩ := h
  cases live : p.rstN with
  | true =>
    obtain ⟨x, hx⟩ := r.chip.settle_live board p live
    have step : r.settle board p = { r with chip := r.chip.relatch x } := by
      rw [Rtl.settle, hx, if_pos live]
    rw [step, hx]
    exact ⟨rfl, lo, hi⟩
  | false =>
    refine ⟨rfl, ?_, ?_⟩ <;> rw [reset_runs board p live] <;> exact nofun

theorem follows_settleAll (board : Board) (h : r.Follows c) (ps : List Pins) :
    (r.settleAll board ps).Follows (c.settleAll board ps) := by
  induction ps generalizing r c with
  | nil => exact h
  | cons p ps ih => exact ih (follows_settle board h p)

/-- Every addition of this clock finds the phase byte on the RAM bus. -/
def Chip.Doubles (board : Board) (c : Chip) : Prop :=
  (c.time.runs 2 = true → c.eng.ramIo board.float c.sram = c.eng.accLo) ∧
    (c.time.runs 5 = true → c.eng.ramIo board.float c.sram = c.eng.accHi)

theorem latch_lo (lo hi : Byte) (runs : c.time.runs 1 = true) :
    (c.engNext board lo hi).accLo = c.eng.ramIo board.float c.sram := by
  rw [engNext_runs board c lo hi 1 runs]
  split <;> rfl

theorem latch_hi (lo hi : Byte) (runs : c.time.runs 4 = true) :
    (c.engNext board lo hi).accHi = c.eng.ramIo board.float c.sram := by
  rw [engNext_runs board c lo hi 4 runs]
  split <;> rfl

theorem follows_posedge (h : r.Follows c) (p : Pins)
    (doubles : p.rstN = true → c.Doubles board) :
    (r.posedge board p).Follows (c.posedge board p) := by
  obtain ⟨rfl, lo, hi⟩ := h
  cases live : p.rstN with
  | false =>
    simp only [Rtl.posedge, Chip.posedge, Chip.posedgeWith, live, Bool.false_eq_true, ↓reduceIte]
    exact ⟨rfl, lo, hi⟩
  | true =>
    have eng := engNext_congr board r.chip r.stepLoR r.stepHiR
      (r.chip.eng.ramIo board.float r.chip.sram) (r.chip.eng.ramIo board.float r.chip.sram)
      (fun runs => (lo runs).trans ((doubles live).1 runs).symm)
      (fun runs => (hi runs).trans ((doubles live).2 runs).symm)
    simp only [Rtl.posedge, Chip.posedge, Chip.posedgeWith, live, ↓reduceIte, eng]
    refine ⟨rfl, fun runs => ?_, fun runs => ?_⟩
    · have pred := r.chip.time.runs_pred 2 (by decide) runs
      exact (if_pos pred).trans (latch_lo _ _ pred).symm
    · have pred := r.chip.time.runs_pred 5 (by decide) runs
      exact (if_pos pred).trans (latch_hi _ _ pred).symm

theorem follows_negedge (h : r.Follows c) : r.negedge.Follows c.negedge := by
  obtain ⟨rfl, lo, hi⟩ := h
  exact ⟨rfl, lo, hi⟩

/-- The chip at the rising edge of a cycle. -/
def Chip.atEdge (board : Board) (i : Cycle) (c : Chip) : Chip :=
  (c.settleAll board i.low).settle board i.edge

/-- A cycle agrees if its addition doubles the phase, or if a reset falls into it. -/
def Chip.Agrees (board : Board) (i : Cycle) (c : Chip) : Prop :=
  i.edge.rstN = true → (∀ p ∈ i.high, p.rstN = true) → (c.atEdge board i).Doubles board

/-- The chips agree up to the engine. -/
def Rtl.Nearly (r : Rtl) (c : Chip) : Prop := r.chip = { c with eng := r.chip.eng }

theorem nearly_posedge (board : Board) (h : r.Follows c) (p : Pins) :
    (r.posedge board p).Nearly (c.posedge board p) := by
  obtain ⟨rfl, -, -⟩ := h
  cases live : p.rstN <;>
    simp [Rtl.Nearly, Rtl.posedge, Chip.posedge, Chip.posedgeWith, live]

theorem nearly_settle (board : Board) (h : r.Nearly c) (p : Pins) :
    (r.settle board p).Nearly (c.settle board p) := by
  simp only [Rtl.Nearly, Rtl.settle] at h ⊢
  rw [h]
  cases live : p.rstN <;> simp only [Chip.settle, live, Bool.false_eq_true, ↓reduceIte] <;>
    split <;> rfl

/-- A reset brings the chips together again. -/
theorem nearly_reset (board : Board) (h : r.Nearly c) (p : Pins) (reset : p.rstN = false) :
    (r.settle board p).Follows (c.settle board p) := by
  have chip : (r.settle board p).chip = c.settle board p := by
    simp only [Rtl.Nearly] at h
    simp only [Rtl.settle, Chip.settle, reset, Bool.false_eq_true, ↓reduceIte]
    rw [h]
    rfl
  refine ⟨chip, ?_, ?_⟩
  · intro runs
    rw [reset_runs board p reset] at runs
    cases runs
  · intro runs
    rw [reset_runs board p reset] at runs
    cases runs

theorem nearly_settleAll (board : Board) (h : r.Nearly c) (ps : List Pins)
    (reset : ¬ ∀ p ∈ ps, p.rstN = true) :
    (r.settleAll board ps).Follows (c.settleAll board ps) := by
  induction ps generalizing r c with
  | nil => exact absurd nofun reset
  | cons p ps ih =>
    cases live : p.rstN with
    | false => exact follows_settleAll board (nearly_reset board h p live) ps
    | true =>
      refine ih (nearly_settle board h p) fun rest => reset ?_
      simpa [live] using rest

theorem follows_cycle (h : r.Follows c) (i : Cycle) (agrees : c.Agrees board i) :
    (r.cycle board i).Follows (c.cycle board i) := by
  have edge := follows_settle board (follows_settleAll board h i.low) i.edge
  by_cases high : ∀ p ∈ i.high, p.rstN = true
  · have clocked := follows_posedge edge i.edge fun live => agrees live high
    exact follows_negedge (follows_settleAll board (follows_settle board clocked i.edge) i.high)
  · have clocked := nearly_settle board (nearly_posedge board edge i.edge) i.edge
    exact follows_negedge (nearly_settleAll board clocked i.high high)

/-! ## A sum that does not double the phase -/

theorem settleAll_chip (board : Board) (r : Rtl) (ps : List Pins) :
    (r.settleAll board ps).chip = r.chip.settleAll board ps := by
  induction ps generalizing r with
  | nil => rfl
  | cons p ps ih => exact ih (r.settle board p)

/-- From the rising edge on, a cycle out of reset stores what the engine writes. -/
theorem high_sram (board : Board) (i : Cycle) (s : Chip) (edge : i.edge.rstN = true)
    (high : ∀ p ∈ i.high, p.rstN = true) :
    (((s.settle board i.edge).settleAll board i.high).negedge).sram = s.eng.stored s.sram := by
  obtain ⟨x, hx⟩ := s.settle_live board i.edge edge
  obtain ⟨y, hy⟩ := (s.relatch x).settleAll_live board i.high high
  rw [hx, hy]
  rfl

theorem stored_lo (lo hi : Byte) (sram : Ram) (runs : c.time.runs 2 = true) :
    (c.engNext board lo hi).stored sram (chAddr c.time.uch oPhaseLo) = c.eng.accLo + lo := by
  rw [engNext_runs board c lo hi 2 runs]
  split <;> exact Function.update_self _ _ _

theorem stored_hi (lo hi : Byte) (sram : Ram) (runs : c.time.runs 5 = true) :
    (c.engNext board lo hi).stored sram (chAddr c.time.uch oPhaseHi) =
      c.eng.accHi + hi + (BitVec.ofBool c.eng.carry).setWidth 8 := by
  rw [engNext_runs board c lo hi 5 runs]
  split <;> exact Function.update_self _ _ _

/-- An addition that does not double the phase leaves different bytes in the RAM. -/
theorem cycle_differs (h : r.Follows c) (i : Cycle) (differs : ¬ c.Agrees board i) :
    (r.cycle board i).chip.sram ≠ (c.cycle board i).sram := by
  simp only [Chip.Agrees, not_forall] at differs
  obtain ⟨live, high, odd⟩ := differs
  have edge := follows_settle board (follows_settleAll board h i.low) i.edge
  have left : (r.cycle board i).chip.sram = _ :=
    (congrArg (fun c : Chip => c.negedge.sram) (settleAll_chip board _ i.high)).trans
      (high_sram board i ((((r.settleAll board i.low).settle board i.edge).posedge board
        i.edge).chip) live high)
  have right : (c.cycle board i).sram = _ :=
    high_sram board i ((c.atEdge board i).posedge board i.edge) live high
  rw [left, right]
  change (((r.settleAll board i.low).settle board i.edge).Follows (c.atEdge board i)) at edge
  generalize (r.settleAll board i.low).settle board i.edge = q at *
  generalize c.atEdge board i = s at *
  obtain ⟨rfl, lo, hi⟩ := edge
  simp only [Rtl.posedge, Chip.posedge, Chip.posedgeWith, live, ↓reduceIte]
  intro same
  refine odd ⟨fun runs => ?_, fun runs => ?_⟩
  · have low := congrFun same (chAddr q.chip.time.uch oPhaseLo)
    rw [stored_lo _ _ _ runs, stored_lo _ _ _ runs, lo runs] at low
    exact (BitVec.add_right_inj _).mp low.symm
  · have top := congrFun same (chAddr q.chip.time.uch oPhaseHi)
    rw [stored_hi _ _ _ runs, stored_hi _ _ _ runs, hi runs] at top
    exact (BitVec.add_right_inj _).mp ((BitVec.add_left_inj _).mp top.symm)

/-- What the outside sees: the DAC, the RAM and the readback register. -/
def Rtl.Matches (r : Rtl) (c : Chip) : Prop :=
  r.chip.eng.dacOut = c.eng.dacOut ∧ r.chip.sram = c.sram ∧ r.chip.host.dataOut = c.host.dataOut

end

/-! ## Runs -/

/-- The state after a reset. -/
def Rtl.initial (dLatch : Byte) (sram : Ram) : Rtl where
  chip := Chip.initial dLatch sram
  stepLoR := 0
  stepHiR := 0

theorem follows_initial (dLatch : Byte) (sram : Ram) :
    (Rtl.initial dLatch sram).Follows (Chip.initial dLatch sram) := by
  refine ⟨rfl, ?_, ?_⟩ <;> rw [initial_runs] <;> exact nofun

/-- **wt_rtl is bit-perfect exactly where it doubles.** From a reset on, with every ROM,
RAM content and bus traffic, the two chips show the same DAC values, RAM contents
and bus reads as long as every addition of `wt_ram` finds a step byte equal to
the phase byte. -/
theorem bit_perfect_iff (board : Board) (inputs : Nat → Cycle) (dLatch : Byte) (sram : Ram)
    (N : Nat) :
    (∀ n, n ≤ N → ((Rtl.initial dLatch sram).run board inputs n).Matches
        ((Chip.initial dLatch sram).run board inputs n)) ↔
      ∀ n, n < N → ((Chip.initial dLatch sram).run board inputs n).Agrees board (inputs n) := by
  refine Clocked.agree_iff Rtl.Follows Rtl.Matches (fun i c => c.Agrees board i)
    (follows_initial dLatch sram) ?_ ?_ ?_
  · rintro r c ⟨rfl, -, -⟩
    exact ⟨rfl, rfl, rfl⟩
  · exact fun n _ r follows agrees => follows_cycle follows (inputs n) agrees
  · exact fun n _ r follows differs same => cycle_differs follows (inputs n) differs same.2.1

/-- A channel with phase 0 and step 1. -/
def stepOne : Ram := Function.update (fun _ => 0) (chAddr 0 oStepLo) 1

set_option maxRecDepth 20000 in
/-- Its first addition, 314 clocks after the reset, tells the chips apart. -/
theorem stepOne_diverges :
    let board : Board := { rom := fun _ => 0, float := 0, clash := fun a _ => a }
    ¬ ∀ n, ((Rtl.initial 0 stepOne).run board (fun _ => Cycle.idle) n).Matches
      ((Chip.initial 0 stepOne).run board (fun _ => Cycle.idle) n) := by
  intro board same
  have phase := congrFun (same 315).2.1 (chAddr 0 oPhaseLo)
  revert phase
  decide +kernel

end Chiptune.Wavetable
