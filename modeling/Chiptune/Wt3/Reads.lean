import Chiptune.Wt3.Traffic

/-!
# What a slot reads

`STEP_CLK` ends a sub-step with the decoder on its own output, if `CS_n` has let it through, and
on no other. The 377 that it enables takes what the RAM shows 15 ns later, which is a byte
that the RAM was asked for 55 ns before. So a slot that may latch the four bytes of its operands
has them from the sub-step 10 on, as they are in the RAM.
-/

namespace Chiptune.Wt3

open Delay

/-- The bytes that a slot latches: the two operands and the volume. -/
def Engine.operand (e : Engine) : Nat → Byte
  | 0 => e.aLo
  | 1 => e.aHi
  | 2 => e.bLo
  | 3 => e.bHi
  | _ => e.c

def Waits.operand (w : Waits) : Nat → Nat
  | 0 => w.aLo
  | 1 => w.aHi
  | 2 => w.bLo
  | 3 => w.bHi
  | _ => w.c

theorem Engine.sumByte_congr {e e' : Engine} (same : ∀ o, o < 4 → e.operand o = e'.operand o)
    (o : BitVec 3) : e.sumByte o = e'.sumByte o := by
  have aLo : e.aLo = e'.aLo := same 0 (by decide)
  have aHi : e.aHi = e'.aHi := same 1 (by decide)
  have bLo : e.bLo = e'.bLo := same 2 (by decide)
  have bHi : e.bHi = e'.bHi := same 3 (by decide)
  simp only [Engine.sumByte, Engine.adderLo, Engine.adderHi, Engine.adder0, Engine.adder1,
    Engine.adder2, Engine.adder3, Engine.c40, Engine.c41, Engine.c42, aLo, aHi, bLo, bHi]

section
variable {ns : Nat} {rom : Rom} {float : Byte} {is : Nat → Instant} {edge : Nat → Nat}
  {s : Nat → DelayedCore} {n : Nat}
  (moves : ∀ t, s (t + 1) = (s t).tick ns rom float (is (t + 1))) (first : (s 0).Settled rom)
  (traffic : Traffic ns is (ports s)) (clocked : StepClk ns is edge)

include moves

/-! ## The decoder -/

theorem decodeY_next (t : Nat) : (s (t + 1)).decodeY =
    (s t).decodeY.step (15 * ns) (s t).levels.decodeY (s (t + 1)).levels.decodeY := by
  rw [moves]
  rfl

include traffic

theorem decodeY_levels (t : Nat) : (s t).levels.decodeY =
    hc154 (s t).eng.stepLo (!csN (ports s) t) := by
  have live := live_run moves traffic t
  rw [Core.decodeY, Core.decodeDisable]
  change hc154 (s t).eng.stepLo (!(s t).port.bus.pins.rstN || _) = _
  rw [live]
  rfl

include first clocked

/-- At the end of a period the decoder has forgotten the one before. -/
theorem decode_other {k : Nat} {m : BitVec 4} (other : (s (edge k)).eng.stepLo ≠ m) {t : Nat}
    (last : t + 1 = edge (k + 1)) : (s t).decodeY.out.getLsbD m.toNat = true := by
  have spaced := clocked.spaced k
  have unit := clocked.unit
  have feeds (u : Nat) (low : edge k ≤ u) (high : u < edge (k + 1)) :
      (s u).levels.decodeY.getLsbD m.toNat = true := by
    rw [decodeY_levels moves traffic, hc154_getLsbD,
      (counters_hold moves traffic clocked low high).1, bne_iff_ne.mpr other, Bool.or_true]
  obtain ⟨b, low, high, steady⟩ := csN_near traffic (edge k)
  have shows : (s (b + 15 * ns)).decodeY.out = (s b).levels.decodeY := by
    refine Net.window (fun t => (s t).decodeY) (fun t => (s t).levels.decodeY)
      (decodeY_next moves) (Net.follows_rest first.decodeY) (by omega) (a := b) (b := b + 15 * ns)
      (fun u from_b to_end => ?_) (Nat.le_refl _) (Nat.le_refl _) (Nat.le_add_right _ _)
    rw [decodeY_levels moves traffic, decodeY_levels moves traffic, steady u from_b to_end,
      (counters_hold moves traffic clocked (k := k) (t := u) (by omega) (by omega)).1,
      (counters_hold moves traffic clocked (k := k) (t := b) (by omega) (by omega)).1]
  refine Net.among (fun t => (s t).decodeY) (fun t => (s t).levels.decodeY) (decodeY_next moves)
    (fun y => y.getLsbD m.toNat = true) (a := b + 15 * ns) (b := t) ?_
    (fun u from_b to_t => feeds u (by omega) (by omega)) (by omega) (Nat.le_refl t)
  rw [shows]
  exact feeds b low (by omega)

/-- At the end of a period with `CS_n` high before it, its own output is low. -/
theorem decode_own {k : Nat} (latches : Latches ns (ports s) edge k) {t : Nat}
    (last : t + 1 = edge (k + 1)) :
    (s t).decodeY.out.getLsbD (s (edge k)).eng.stepLo.toNat = false := by
  have spaced := clocked.spaced k
  have unit := clocked.unit
  obtain ⟨early, late⟩ := latches
  have shows : (s t).decodeY.out = hc154 (s (edge k)).eng.stepLo false := by
    refine Net.window (fun t => (s t).decodeY) (fun t => (s t).levels.decodeY)
      (decodeY_next moves) (Net.follows_rest first.decodeY) (by omega)
      (a := edge (k + 1) - (40 * ns + 1)) (b := edge (k + 1) - 15 * ns) (fun u from_a to_b => ?_) (by omega) (by omega) (by omega)
    have high : csN (ports s) u = true :=
      (csN_between traffic (by omega) (late.trans early.symm) from_a to_b).trans early
    rw [decodeY_levels moves traffic, high,
      (counters_hold moves traffic clocked (k := k) (t := u) (by omega) (by omega)).1]
    rfl
  rw [shows, hc154_getLsbD]
  simp

/-! ## The latches -/

omit first traffic clocked in
theorem operand_next (t : Nat) {o : Nat} (ho : o < 5) : (s (t + 1)).eng.operand o =
    (s t).take float ((s t).waits.operand o) ((s t).eng.operand o) ∧
    (s (t + 1)).waits.operand o = timer (15 * ns) ((s t).waits.operand o)
      ((s (t + 1 - 1)).enables (is (t + 1)) (2 * o + 1)) := by
  rw [Nat.add_sub_cancel, moves]
  obtain rfl | rfl | rfl | rfl | rfl : o = 0 ∨ o = 1 ∨ o = 2 ∨ o = 3 ∨ o = 4 := by omega
  all_goals exact ⟨rfl, rfl⟩

variable (start : (s (edge n)).eng.stepLo = 0)

include start

/-- In a slot a byte is latched at the end of its own sub-step alone. -/
theorem wait_edge {o : Nat} (ho : o < 5) {t : Nat} (low : edge n ≤ t) (high : t < edge (n + 16))
    (waits : 0 < (s t).waits.operand o) :
    edge (n + (2 * o + 2)) ≤ t ∧
      (s t).waits.operand o + t = edge (n + (2 * o + 2)) + 15 * ns := by
  have idle : (s 0).waits.operand o = 0 := by
    rw [first.waits]
    obtain rfl | rfl | rfl | rfl | rfl : o = 0 ∨ o = 1 ∨ o = 2 ∨ o = 3 ∨ o = 4 := by omega
    all_goals rfl
  obtain ⟨b, less, calls, -, sum⟩ := timer_origin (fun t => (s t).waits.operand o)
    (fun t => (s (t - 1)).enables (is t) (2 * o + 1)) (fun t => (operand_next moves t ho).2) idle
    waits
  have unit := clocked.unit
  change ((is (b + 1)).step && !(s b).decodeY.out.getLsbD (2 * o + 1)) = true at calls
  rw [Bool.and_eq_true, Bool.not_eq_true', clocked.rises] at calls
  obtain ⟨⟨k, last⟩, output⟩ := calls
  have small : (BitVec.ofNat 4 (2 * o + 1)).toNat = 2 * o + 1 := by
    rw [BitVec.toNat_ofNat]
    exact Nat.mod_eq_of_lt (by omega)
  have own : (s (edge k)).eng.stepLo = BitVec.ofNat 4 (2 * o + 1) := by
    by_contra other
    have shows := decode_other moves first traffic clocked other last.symm
    rw [small, output] at shows
    cases shows
  have from_n : n ≤ k := by
    by_contra early
    have next : n = k + 1 := by
      by_contra far
      have := edge_lt clocked (show k + 1 < n by omega)
      omega
    have count := (counters_edge moves traffic clocked k).1
    rw [← next, start, own] at count
    have count := congrArg BitVec.toNat count
    rw [BitVec.toNat_add, small] at count
    change 0 = (2 * o + 1 + 1) % 16 at count
    omega
  have to_n : k < n + 15 := by
    by_contra late
    have := edge_le clocked (show n + 16 ≤ k + 1 by omega)
    omega
  obtain ⟨j, rfl⟩ : ∃ j, k = n + j := ⟨k - n, by omega⟩
  rw [slot_stepLo moves traffic clocked start (show j < 16 by omega)] at own
  have own := congrArg BitVec.toNat own
  rw [small, BitVec.toNat_ofNat, Nat.mod_eq_of_lt (by omega)] at own
  subst own
  have last : edge (n + (2 * o + 2)) = b + 1 := last
  rw [last]
  exact ⟨less, sum⟩

/-- Once it is latched it stays to the end of the slot. -/
theorem operand_hold {o : Nat} (ho : o < 5) {t : Nat} (low : edge (n + (2 * o + 2)) + 15 * ns ≤ t)
    (high : t ≤ edge (n + 16)) : (s t).eng.operand o =
      (s (edge (n + (2 * o + 2)) + 15 * ns)).eng.operand o := by
  have before := edge_lt clocked (show n < n + (2 * o + 2) by omega)
  induction t, low using Nat.le_induction with
  | base => rfl
  | succ t low ih =>
    rw [← ih (by omega), (operand_next moves t ho).1, DelayedCore.take, if_neg]
    intro now
    have own := wait_edge moves first traffic clocked start ho (t := t) (by omega) (by omega)
      (by omega)
    omega

/-- It is what `ram_do` shows 15 ns behind the `STEP_CLK`. -/
theorem operand_latch {o : Nat} (ho : o < 5)
    (latches : Latches ns (ports s) edge (n + (2 * o + 1))) {t : Nat}
    (late : t + 1 = edge (n + (2 * o + 2)) + 15 * ns) :
    (s (t + 1)).eng.operand o = (s t).ramDo.out.getD float := by
  have unit := clocked.unit
  have before := edge_lt clocked (show n < n + (2 * o + 2) by omega)
  have after := edge_lt clocked (show n + (2 * o + 2) < n + 16 by omega)
  obtain ⟨b, last⟩ : ∃ b, b + 1 = edge (n + (2 * o + 2)) :=
    ⟨edge (n + (2 * o + 2)) - 1, by omega⟩
  have output := decode_own moves first traffic clocked latches last
  rw [slot_stepLo moves traffic clocked start (show 2 * o + 1 < 16 by omega), BitVec.toNat_ofNat,
    Nat.mod_eq_of_lt (by omega)] at output
  have rises : (is (b + 1)).step = true := (clocked.rises _).mpr ⟨_, last.symm⟩
  have calls : (s (b + 1 - 1)).enables (is (b + 1)) (2 * o + 1) = true := by
    rw [Nat.add_sub_cancel, DelayedCore.enables, rises, output]
    rfl
  have free : (s b).waits.operand o ≤ 1 := by
    by_contra busy
    have own := wait_edge moves first traffic clocked start ho (t := b) (by omega) (by omega)
      (by omega)
    omega
  have due := timer_started (fun t => (s t).waits.operand o)
    (fun t => (s (t - 1)).enables (is t) (2 * o + 1)) (fun t => (operand_next moves t ho).2) free
    calls (15 * ns - 1) (by omega)
  rw [show b + 1 + (15 * ns - 1) = t by omega] at due
  rw [(operand_next moves t ho).1, DelayedCore.take, if_pos (by omega)]

end

/-! ## The RAM -/

section
variable {ns : Nat} {rom : Rom} {float : Byte} {is : Nat → Instant} {edge : Nat → Nat}
  {s : Nat → DelayedCore} {n : Nat}
  (moves : ∀ t, s (t + 1) = (s t).tick ns rom float (is (t + 1))) (first : (s 0).Settled rom)
  (traffic : Traffic ns is (ports s)) (clocked : StepClk ns is edge)
  (start : (s (edge n)).eng.stepLo = 0)

theorem slot_period {m t : Nat} (low : edge n ≤ t) (high : t < edge (n + m)) :
    ∃ j, j < m ∧ edge (n + j) ≤ t ∧ t < edge (n + j + 1) := by
  induction m with
  | zero =>
    have high : t < edge n := high
    omega
  | succ m ih =>
    by_cases before : t < edge (n + m)
    · obtain ⟨j, inside, from_j, to_j⟩ := ih before
      exact ⟨j, by omega, from_j, to_j⟩
    · exact ⟨m, by omega, by omega, high⟩

include moves

theorem ramDo_next (t : Nat) : (s (t + 1)).ramDo =
    (s t).ramDo.step (55 * ns) (s t).levels.ramDo (s (t + 1)).levels.ramDo := by
  rw [moves]
  rfl

/-- While nothing is stored the RAM is the same. -/
theorem mem_still {a b : Nat} (quiet : ∀ t, a ≤ t → t < b → (s t).ramWait ≠ 1) {t : Nat}
    (low : a ≤ t) (high : t ≤ b) : (s t).eng.mem = (s a).eng.mem := by
  induction t, low using Nat.le_induction with
  | base => rfl
  | succ t low ih =>
    rw [mem_next moves, if_neg (quiet t low (by omega))]
    exact ih (by omega)

include traffic clocked start

theorem slot_channel {t : Nat} (low : edge n ≤ t) (high : t < edge (n + 16)) :
    (s t).eng.curChannel = (s (edge n)).eng.curChannel := by
  obtain ⟨j, inside, from_j, to_j⟩ := slot_period low high
  exact (slot_counters moves traffic clocked start inside from_j to_j).2

include first

/-- The control word in a period of the slot. -/
theorem slot_control {j : Nat} (hj : j < 16) {t : Nat} (low : edge (n + j) + 55 * ns ≤ t)
    (high : t < edge (n + (j + 1)) + 55 * ns) :
    (s t).levels.mcWeN = !(BitVec.ofNat 4 j == 10 || BitVec.ofNat 4 j == 12) ∧
      (s t).levels.ramOeNMc = !decide (j < 10) ∧
      (s t).levels.mcRamSubAddr = subAddr (BitVec.ofNat 4 j) := by
  obtain ⟨we, oe, sub⟩ := control_window moves first traffic clocked (.inr low) high
  rw [slot_stepLo moves traffic clocked start hj] at we oe sub
  rw [BitVec.toNat_ofNat, Nat.mod_eq_of_lt (by omega)] at oe
  exact ⟨we, oe, sub⟩

/-- While the engine reads byte `o`, its control word is this. -/
theorem control_read {o : Nat} (ho : o < 5) {t : Nat} (low : edge (n + 2 * o) + 55 * ns ≤ t)
    (high : t < edge (n + (2 * o + 2)) + 55 * ns) :
    (s t).levels.mcWeN = true ∧ (s t).levels.ramOeNMc = false ∧
      (s t).levels.mcRamSubAddr = BitVec.ofNat 3 o := by
  by_cases even : t < edge (n + (2 * o + 1)) + 55 * ns
  · obtain ⟨we, oe, sub⟩ := slot_control moves first traffic clocked start (j := 2 * o) (by omega)
      low even
    rw [we, oe, sub]
    obtain rfl | rfl | rfl | rfl | rfl : o = 0 ∨ o = 1 ∨ o = 2 ∨ o = 3 ∨ o = 4 := by omega
    all_goals exact ⟨rfl, rfl, rfl⟩
  · obtain ⟨we, oe, sub⟩ := slot_control moves first traffic clocked start (j := 2 * o + 1)
      (by omega) (by omega) high
    rw [we, oe, sub]
    obtain rfl | rfl | rfl | rfl | rfl : o = 0 ∨ o = 1 ∨ o = 2 ∨ o = 3 ∨ o = 4 := by omega
    all_goals exact ⟨rfl, rfl, rfl⟩

/-- A byte that a slot latches is what the RAM holds at that `STEP_CLK`. -/
theorem read_latch {o : Nat} (ho : o < 5)
    (latches : Latches ns (ports s) edge (n + (2 * o + 1))) {t : Nat}
    (late : t + 1 = edge (n + (2 * o + 2)) + 15 * ns) : (s t).ramDo.out =
      some ((s (edge (n + (2 * o + 2)))).eng.mem
        (paramAddr (s (edge n)).eng.curChannel (BitVec.ofNat 3 o))) := by
  have unit := clocked.unit
  have even := edge_lt clocked (show n + 2 * o < n + (2 * o + 1) by omega)
  have odd := edge_lt clocked (show n + (2 * o + 1) < n + (2 * o + 2) by omega)
  have ten := edge_le clocked (show n + (2 * o + 2) ≤ n + 10 by omega)
  have sixteen := edge_lt clocked (show n + 10 < n + 16 by omega)
  have from_n := edge_le clocked (show n ≤ n + 2 * o by omega)
  obtain ⟨early, soon⟩ := latches
  change csN _ (edge (n + (2 * o + 2)) - _) = true at early
  change csN _ (edge (n + (2 * o + 2)) - _) = true at soon
  generalize last : edge (n + (2 * o + 2)) = e at *
  obtain ⟨a, eq⟩ : ∃ a, a + (70 * ns + 1) = e := ⟨e - (70 * ns + 1), by omega⟩
  rw [show e - (40 * ns + 1) = a + 30 * ns by omega] at early
  rw [show e - 15 * ns = a + 55 * ns + 1 by omega] at soon
  obtain ⟨b, low, high, selected⟩ := csN_long traffic unit early soon
  have quiet (u : Nat) (from_b : b ≤ u) (to_e : u < max e (b + 55 * ns)) : (s u).ramWait ≠ 1 := by
    intro due
    obtain ⟨off, -⟩ | ⟨v, at_u, falls⟩ := store_cases moves first traffic clocked start (t := u)
      (by omega) (by omega) due
    · by_cases inside : u ≤ b + 55 * ns
      · cases (selected u from_b inside).symm.trans (off u (Nat.le_refl u) (by omega))
      · cases (selected (b + 55 * ns) (by omega) (Nat.le_refl _)).symm.trans
          (off (b + 55 * ns) (by omega) (by omega))
    · have bounds := falls_late clocked falls
      omega
  refine Net.window (fun t => (s t).ramDo) (fun t => (s t).levels.ramDo) (ramDo_next moves)
    (Net.follows_rest first.ramDo) (by omega) (a := b) (b := b + 55 * ns)
    (fun u from_b to_end => ?_) (Nat.le_refl _) (by omega) (by omega)
  have select : (s u).levels.bus.pins.csN = true := selected u from_b to_end
  obtain ⟨we, oe, sub⟩ := control_read moves first traffic clocked start ho (t := u) (by omega)
    (by rw [last]; omega)
  have here := mem_still moves quiet from_b (t := u) (by omega)
  have there := mem_still moves quiet (t := e) (by omega) (by omega)
  rw [Levels.ramDo, Levels.ramWeN_engine select, we, Levels.ramOeN, if_pos select, oe,
    Levels.ramAddr_engine select, sub, there, ← here]
  have channel := slot_channel moves traffic clocked start (t := u) (by omega) (by omega)
  rw [← channel]
  rfl

/-- The sum stands from the sub-step 10 on. -/
theorem sum_hold {t : Nat} (low : edge (n + 10) ≤ t) (high : t ≤ edge (n + 16)) (o : BitVec 3) :
    (s t).eng.sumByte o = (s (edge (n + 10))).eng.sumByte o := by
  refine Engine.sumByte_congr (fun o ho => ?_) o
  have unit := clocked.unit
  have eight := edge_le clocked (show n + (2 * o + 2) ≤ n + 8 by omega)
  have ten := edge_lt clocked (show n + 8 < n + 10 by omega)
  have hold := @operand_hold ns rom float is edge s n moves first traffic clocked start o (by omega)
  exact (hold (t := t) (by omega) high).trans
    (hold (t := edge (n + 10)) (by omega) (by omega)).symm

/-- What a slot holds of a byte when it has latched it. -/
theorem slot_operand {o : Nat} (ho : o < 5)
    (latches : Latches ns (ports s) edge (n + (2 * o + 1))) {t : Nat}
    (low : edge (n + (2 * o + 2)) + 15 * ns ≤ t) (high : t ≤ edge (n + 16)) :
    (s t).eng.operand o = (s (edge (n + (2 * o + 2)))).eng.mem
      (paramAddr (s (edge n)).eng.curChannel (BitVec.ofNat 3 o)) := by
  have unit := clocked.unit
  obtain ⟨u, late⟩ : ∃ u, u + 1 = edge (n + (2 * o + 2)) + 15 * ns :=
    ⟨edge (n + (2 * o + 2)) + 15 * ns - 1, by omega⟩
  rw [operand_hold moves first traffic clocked start ho low high, ← late,
    operand_latch moves first traffic clocked start ho latches late,
    read_latch moves first traffic clocked start ho latches late]
  rfl

end

end Chiptune.Wt3
