import Chiptune.Wt3.Moments
import Chiptune.Wt3.Reads
import Chiptune.Wt3.Round

/-!
# Host writes during a slot

While the host holds `CS_n` low the engine goes on counting, but latches nothing, and its
write-back steps do not reach the RAM. A slot that a host write meets keeps its law as long
as no store of it is cut off and it loses both of them, or none and no latch of the two
operands.
-/

namespace Chiptune.Wt3

open Delay

/-- A step or volume byte is no byte of an accumulator. -/
theorem paramByte_apart {a : Byte} (param : ParamByte a) (ch : BitVec 2) {o : BitVec 3}
    (ho : o = 0 ∨ o = 1) : paramAddr ch o ≠ 0#7 ++ a := by
  intro same
  have same := congrArg BitVec.toNat same
  have ha := a.isLt
  obtain ⟨-, low, -⟩ := param
  rw [paramAddr_toNat, toNat_append, BitVec.toNat_ofNat] at same
  obtain rfl | rfl := ho
  · change 8 * ch.toNat + 0 = _ at same
    omega
  · change 8 * ch.toNat + 1 = _ at same
    omega

/-- The step that the slot from the period `n` on reads for its channel. -/
def stepRead (s : Nat → DelayedCore) (edge : Nat → Nat) (n : Nat) : BitVec 16 :=
  let ch := (s (edge n)).eng.curChannel
  (s (edge (n + 8))).eng.mem (paramAddr ch 3) ++ (s (edge (n + 6))).eng.mem (paramAddr ch 2)

section
variable {ns : Nat} {rom : Rom} {float : Byte} {is : Nat → Instant} {edge : Nat → Nat}
  {s : Nat → DelayedCore} {n : Nat}
  (moves : ∀ t, s (t + 1) = (s t).tick ns rom float (is (t + 1))) (first : (s 0).Settled rom)
  (traffic : Traffic ns is (ports s)) (clocked : StepClk ns is edge)
  (start : (s (edge n)).eng.stepLo = 0)

include moves first traffic clocked start

/-- The engine stores the byte of the accumulator that `StoresAt` says. -/
theorem store_target {o : BitVec 3} (ho : o = 0 ∨ o = 1) {u t : Nat}
    (stores : StoresAt ns (ports s) edge n o u) (late : t + 1 = u + 55 * ns) :
    (s t).levels.mcRamSubAddr = o := by
  have unit := clocked.unit
  have next10 := edge_lt clocked (show n + 10 < n + 11 by omega)
  have next11 := edge_lt clocked (show n + 11 < n + 12 by omega)
  have next12 := edge_lt clocked (show n + 12 < n + 13 by omega)
  have next13 := edge_lt clocked (show n + 13 < n + 14 by omega)
  have control := @slot_control ns rom float is edge s n moves first traffic clocked start
  have zero : ¬(1 : BitVec 3) = 0 := by decide
  obtain rfl | rfl := ho
  · rw [StoresAt, if_pos rfl] at stores
    obtain ⟨from10, to11, -⟩ | ⟨⟨from12, to13, -⟩, after⟩ := stores
    · have to11 : u < edge (n + 11) + 55 * ns := to11
      by_cases early : t < edge (n + 11) + 55 * ns
      · exact (control (j := 10) (by decide) (by omega) early).2.2
      · exact (control (j := 11) (by decide) (by omega)
          (show t < edge (n + 12) + 55 * ns by omega)).2.2
    · have to13 : u < edge (n + 13) + 55 * ns := to13
      exact (control (j := 13) (by decide) (by omega)
        (show t < edge (n + 14) + 55 * ns by omega)).2.2
  · rw [StoresAt, if_neg zero] at stores
    obtain ⟨⟨from12, -, -⟩, before⟩ := stores
    exact (control (j := 12) (by decide) (by omega)
      (show t < edge (n + 13) + 55 * ns by omega)).2.2

omit moves first traffic clocked start in
theorem stores_falls {port : Nat → Port} {o : BitVec 3} {u : Nat}
    (stores : StoresAt ns port edge n o u) :
    Falls ns port edge (n + 10) u ∨ Falls ns port edge (n + 12) u := by
  rw [StoresAt] at stores
  split at stores
  · obtain falls | falls := stores
    · exact .inl falls
    · exact .inr falls.1
  · exact .inr stores.1

omit moves first traffic clocked start in
theorem falls_stores {port : Nat → Port} {u : Nat}
    (falls : Falls ns port edge (n + 10) u ∨ Falls ns port edge (n + 12) u)
    (apart : u ≠ edge (n + 13)) :
    ∃ o : BitVec 3, (o = 0 ∨ o = 1) ∧ StoresAt ns port edge n o u := by
  have zero : ¬(1 : BitVec 3) = 0 := by decide
  obtain falls | falls := falls
  · exact ⟨0, .inl rfl, (if_pos rfl).mpr (.inl falls)⟩
  · by_cases before : u < edge (n + 13)
    · exact ⟨1, .inr rfl, (if_neg zero).mpr ⟨falls, before⟩⟩
    · exact ⟨0, .inl rfl, (if_pos rfl).mpr (.inr ⟨falls, by omega⟩)⟩

variable (uncut : ∀ t, Falls ns (ports s) edge (n + 10) t ∨
  Falls ns (ports s) edge (n + 12) t →
    Uncut ns (ports s) t ∧ t ≠ edge (n + 13))

include uncut

/-- The address and the byte of a store of the engine. -/
theorem engine_store {o : BitVec 3} (ho : o = 0 ∨ o = 1) {u t : Nat}
    (stores : StoresAt ns (ports s) edge n o u) (late : t + 1 = u + 55 * ns)
    (low : edge n ≤ t) (high : t < edge (n + 16)) :
    (s (t + 1)).eng.mem = Function.update (s t).eng.mem
      (paramAddr (s (edge n)).eng.curChannel o) ((s t).eng.sumByte o) := by
  have unit := clocked.unit
  have due := falls_store moves first traffic clocked start uncut (stores_falls stores) late
  have select : (s t).levels.bus.pins.csN = true :=
    (uncut u (stores_falls stores)).1 t (by omega) (by omega)
  have target := store_target moves first traffic clocked start ho stores late
  have channel := slot_channel moves traffic clocked start low high
  rw [mem_next moves, if_pos due, Levels.ramAddr_engine select, Levels.ramDi_engine select, target,
    ← channel]
  rfl

/-- Nothing else reaches an accumulator. -/
theorem acc_still {t : Nat} (low : edge n ≤ t) (high : t < edge (n + 16)) (ch : BitVec 2)
    {o : BitVec 3} (ho : o = 0 ∨ o = 1) (none : ¬(ch = (s (edge n)).eng.curChannel ∧
      ∃ u, StoresAt ns (ports s) edge n o u ∧ t + 1 = u + 55 * ns)) :
    (s (t + 1)).eng.mem (paramAddr ch o) = (s t).eng.mem (paramAddr ch o) := by
  by_cases due : (s t).ramWait = 1
  · have unit := clocked.unit
    obtain ⟨off, param⟩ | ⟨u, late, falls⟩ :=
      store_cases moves first traffic clocked start low high due
    · have off : (s t).levels.bus.pins.csN = false := off t (Nat.le_refl t) (by omega)
      rw [mem_next moves, if_pos due, Levels.ramAddr_host off]
      exact Function.update_of_ne (paramByte_apart param ch ho) _ _
    · obtain ⟨o', ho', stores⟩ := falls_stores falls (uncut u falls).2
      rw [engine_store moves first traffic clocked start uncut ho' stores late low high]
      refine Function.update_of_ne (fun same => none ?_) _ _
      obtain ⟨rfl, rfl⟩ := paramAddr_inj.mp same
      exact ⟨rfl, u, stores, late⟩
  · rw [mem_next moves, if_neg due]

/-- The accumulator bytes over a slot, whatever the latches hold. -/
theorem slot_acc (ch : BitVec 2) {o : BitVec 3} (ho : o = 0 ∨ o = 1) {t : Nat}
    (low : edge n ≤ t) (high : t ≤ edge (n + 16)) :
    let stored := ch = (s (edge n)).eng.curChannel ∧
      ∃ u, StoresAt ns (ports s) edge n o u ∧ u + 55 * ns ≤ t
    (stored → (s t).eng.mem (paramAddr ch o) = (s (edge (n + 10))).eng.sumByte o) ∧
      (¬stored → (s t).eng.mem (paramAddr ch o) = (s (edge n)).eng.mem (paramAddr ch o)) := by
  have from_n := edge_lt clocked (show n < n + 10 by omega)
  have unit := clocked.unit
  induction t, low using Nat.le_induction with
  | base =>
    refine ⟨?_, fun _ => rfl⟩
    rintro ⟨-, u, stores, early⟩
    have late := falls_late clocked (stores_falls stores)
    omega
  | succ t low ih =>
    obtain ⟨written, kept⟩ := ih (by omega)
    by_cases now : ch = (s (edge n)).eng.curChannel ∧
        ∃ u, StoresAt ns (ports s) edge n o u ∧ t + 1 = u + 55 * ns
    · obtain ⟨own, u, stores, late⟩ := now
      refine ⟨fun _ => ?_, fun not => absurd ⟨own, u, stores, by omega⟩ not⟩
      have from_ten := falls_late clocked (stores_falls stores)
      have ten : edge (n + 10) ≤ t := by omega
      rw [engine_store moves first traffic clocked start uncut ho stores late low (by omega), own,
        Function.update_self]
      exact sum_hold moves first traffic clocked start ten (by omega) o
    · rw [acc_still moves first traffic clocked start uncut low (by omega) ch ho now]
      constructor
      · rintro ⟨own, u, stores, early⟩
        refine written ⟨own, u, stores, ?_⟩
        by_contra last
        exact now ⟨own, u, stores, by omega⟩
      · intro not
        exact kept fun ⟨own, u, stores, early⟩ => not ⟨own, u, stores, by omega⟩

/-- Until the slot writes back its accumulator stands, and those of the others stand to its
end. -/
theorem slot_byte (ch : BitVec 2) {o : BitVec 3} (ho : o = 0 ∨ o = 1) {t : Nat}
    (low : edge n ≤ t) (high : t ≤ edge (n + 16))
    (apart : t ≤ edge (n + 10) ∨ ch ≠ (s (edge n)).eng.curChannel) :
    (s t).eng.mem (paramAddr ch o) = (s (edge n)).eng.mem (paramAddr ch o) := by
  refine (slot_acc moves first traffic clocked start uncut ch ho low high).2 ?_
  rintro ⟨own, u, stores, early⟩
  have unit := clocked.unit
  have late := falls_late clocked (stores_falls stores)
  obtain before | other := apart
  · omega
  · exact other own

/-- The sum of a slot that has latched all four bytes. -/
theorem slot_sum
    (latches : ∀ o, o < 4 → Latches ns (ports s) edge (n + (2 * o + 1))) :
    let e := (s (edge (n + 10))).eng
    e.adderHi ++ e.adderLo =
      acc (s (edge n)).eng.mem (s (edge n)).eng.curChannel + stepRead s edge n := by
  intro e
  have operand (o : Nat) (ho : o < 4) : e.operand o = (s (edge (n + (2 * o + 2)))).eng.mem
      (paramAddr (s (edge n)).eng.curChannel (BitVec.ofNat 3 o)) := by
    have unit := clocked.unit
    have eight := edge_le clocked (show n + (2 * o + 2) ≤ n + 8 by omega)
    have ten := edge_lt clocked (show n + 8 < n + 10 by omega)
    exact slot_operand moves first traffic clocked start (by omega) (latches o ho) (by omega)
      (edge_le clocked (by omega))
  have still {o : BitVec 3} (ho : o = 0 ∨ o = 1) {j : Nat} (early : j ≤ 10) :=
    slot_byte moves first traffic clocked start uncut (s (edge n)).eng.curChannel ho
      (edge_le clocked (show n ≤ n + j by omega)) (edge_le clocked (by omega))
      (.inl (edge_le clocked (show n + j ≤ n + 10 by omega)))
  have aLo : e.aLo = (s (edge n)).eng.mem (paramAddr (s (edge n)).eng.curChannel 0) :=
    (operand 0 (by decide)).trans (still (.inl rfl) (show 2 ≤ 10 by decide))
  have aHi : e.aHi = (s (edge n)).eng.mem (paramAddr (s (edge n)).eng.curChannel 1) :=
    (operand 1 (by decide)).trans (still (.inr rfl) (show 4 ≤ 10 by decide))
  have regA : e.regA = acc (s (edge n)).eng.mem (s (edge n)).eng.curChannel :=
    congrArg₂ (· ++ ·) aHi aLo
  have regB : e.regB = stepRead s edge n :=
    congrArg₂ (· ++ ·) (operand 3 (by decide)) (operand 2 (by decide))
  rw [Engine.adder_eq, regA, regB]

/-- A slot that stores both bytes ends with their sum. -/
theorem slot_stored (both : ∀ o : BitVec 3, o = 0 ∨ o = 1 → Stores ns (ports s) edge n o) :
    let e := (s (edge (n + 10))).eng
    acc (s (edge (n + 16))).eng.mem (s (edge n)).eng.curChannel = e.adderHi ++ e.adderLo := by
  intro e
  have unit := clocked.unit
  have later := edge_lt clocked (show n + 13 < n + 14 by omega)
  have last := edge_lt clocked (show n + 14 < n + 16 by omega)
  have byte {o : BitVec 3} (ho : o = 0 ∨ o = 1) :
      (s (edge (n + 16))).eng.mem (paramAddr (s (edge n)).eng.curChannel o) = e.sumByte o := by
    obtain ⟨u, stores⟩ := both o ho
    refine (slot_acc moves first traffic clocked start uncut _ ho
      (edge_le clocked (by omega)) (Nat.le_refl _)).1 ⟨rfl, u, stores, ?_⟩
    have soon : u < edge (n + 13) + 55 * ns := by
      obtain ⟨late, soon, -⟩ | ⟨late, soon, -⟩ := stores_falls stores
      · exact (falls_bounds clocked (.inl rfl) late soon).2
      · exact (falls_bounds clocked (.inr rfl) late soon).2
    omega
  rw [acc, byte (.inl rfl), byte (.inr rfl)]
  rfl

end

/-- A strobe on the SPFM bus. -/
def strobe (a0 : Bool) (d : Byte) : Pins := ⟨d, a0, false, false, true⟩

/-- A run of the testbench by its events. -/
def events (mem : Ram) (drives : List (Nat × Pins)) (k : Nat) : Nat × DelayedCore :=
  (moment 2 (fun _ => 0) 0 (testbench drives) (nextEvent drives))^[k]
    (0, (Core.powerUp mem).settle fun _ => 0)

end Chiptune.Wt3
