import Chiptune.Wt3.Access
import Chiptune.Wt3.Pitch

/-!
# The delayed core left alone

While the host leaves the chip deselected the delays do not matter. At the end of every slot the
delayed core has the RAM of the settled one, and 15 ns after every `STEP_CLK` it has its byte
at the DAC.
-/

namespace Chiptune.Wt3

open Delay

section
variable {ns : Nat} {rom : Rom} {float : Byte} {is : Nat → Instant} {edge : Nat → Nat}
  {s : Nat → DelayedCore} {n : Nat}
  (moves : ∀ t, s (t + 1) = (s t).tick ns rom float (is (t + 1))) (first : (s 0).Settled rom)
  (off : (s 0).port.bus.pins.Deselected) (quiet : ∀ t, ∀ h ∈ (is t).host, h.Deselected)
  (clocked : StepClk ns is edge)

include moves off quiet

theorem quiet_pins (t : Nat) : (s t).port.bus.pins.Deselected :=
  pins_run moves Pins.Deselected off (fun t p event => quiet t (.drive p) event) t

theorem quiet_csN (t : Nat) : csN (ports s) t = true := (quiet_pins moves off quiet t).1

theorem quiet_traffic : Traffic ns is (ports s) := by
  have high := quiet_csN moves off quiet
  refine ⟨off.2, fun t h mem => ?_, fun s t _ change => ?_, fun s down => ?_⟩
  · have stays := quiet t h mem
    cases h with
    | clock => trivial
    | drive p => exact stays.2
  · exact absurd ((high s).trans (high (s + 1)).symm) change
  · cases (high (s + 1)).symm.trans down

theorem quiet_latches (k : Nat) : Latches ns (ports s) edge k :=
  ⟨quiet_csN moves off quiet _, quiet_csN moves off quiet _⟩

include clocked

/-! ## A slot -/

theorem quiet_falls {k u : Nat} :
    Falls ns (ports s) edge k u ↔ u = edge k + 55 * ns := by
  have high := quiet_csN moves off quiet
  have spaced := clocked.spaced k
  have unit := clocked.unit
  constructor
  · rintro ⟨-, -, -, now⟩
    exact (if_pos (high _)).mp now
  · rintro rfl
    exact ⟨Nat.le_refl _, by omega, high _, (if_pos (high _)).mpr rfl⟩

theorem quiet_uncut (u : Nat) (falls : Falls ns (ports s) edge (n + 10) u ∨
    Falls ns (ports s) edge (n + 12) u) : Uncut ns (ports s) u ∧ u ≠ edge (n + 13) := by
  refine ⟨fun t _ _ => quiet_csN moves off quiet t, ?_⟩
  have unit := clocked.unit
  have ten := edge_lt clocked (show n + 10 < n + 13 by omega)
  have twelve := edge_lt clocked (show n + 12 < n + 13 by omega)
  rw [quiet_falls moves off quiet clocked, quiet_falls moves off quiet clocked] at falls
  omega

/-- Both stores of a slot take place. -/
theorem quiet_stores (o : BitVec 3) (ho : o = 0 ∨ o = 1) : Stores ns (ports s) edge n o := by
  have falls (k : Nat) : Falls ns (ports s) edge k (edge k + 55 * ns) :=
    (quiet_falls moves off quiet clocked).mpr rfl
  have unit := clocked.unit
  have twelve := edge_lt clocked (show n + 12 < n + 13 by omega)
  have zero : ¬(1 : BitVec 3) = 0 := by decide
  obtain rfl | rfl := ho
  · exact ⟨_, (if_pos rfl).mpr (.inl (falls (n + 10)))⟩
  · exact ⟨_, (if_neg zero).mpr ⟨falls (n + 12), by omega⟩⟩

variable (start : (s (edge n)).eng.stepLo = 0)

include first start

/-- A slot stores nothing but its accumulator. -/
theorem quiet_mem {a : BitVec 15}
    (apart : ∀ o : BitVec 3, o = 0 ∨ o = 1 → a ≠ paramAddr (s (edge n)).eng.curChannel o) {t : Nat}
    (low : edge n ≤ t) (high : t ≤ edge (n + 16)) :
    (s t).eng.mem a = (s (edge n)).eng.mem a := by
  have traffic := quiet_traffic moves off quiet
  have uncut := quiet_uncut (n := n) moves off quiet clocked
  have unit := clocked.unit
  induction t, low using Nat.le_induction with
  | base => rfl
  | succ t low ih =>
    rw [← ih (by omega)]
    by_cases due : (s t).ramWait = 1
    · obtain ⟨select, -⟩ | ⟨u, late, falls⟩ :=
        store_cases moves first traffic clocked start low (by omega) due
      · cases (quiet_csN moves off quiet t).symm.trans (select t (Nat.le_refl t) (by omega))
      · obtain ⟨o, ho, stores⟩ := falls_stores falls (uncut u falls).2
        rw [engine_store moves first traffic clocked start uncut ho stores late low (by omega)]
        exact Function.update_of_ne (apart o ho) _ _
    · rw [mem_next moves, if_neg due]

/-- What a slot reads of a byte that it does not store. -/
theorem quiet_param (o : BitVec 3) (param : 2 ≤ o.toNat) {t : Nat} (low : edge n ≤ t)
    (high : t ≤ edge (n + 16)) : (s t).eng.mem (paramAddr (s (edge n)).eng.curChannel o) =
      (s (edge n)).eng.mem (paramAddr (s (edge n)).eng.curChannel o) := by
  refine quiet_mem moves first off quiet clocked start (fun o' ho' same => ?_) low high
  obtain ⟨-, rfl⟩ := paramAddr_inj.mp same
  obtain rfl | rfl := ho'
  · exact absurd param (by decide)
  · exact absurd param (by decide)

/-- A slot is a slot of the settled core. -/
theorem quiet_slot : (s (edge (n + 16))).eng.mem =
    slotMem (s (edge n)).eng.mem (s (edge n)).eng.curChannel := by
  have traffic := quiet_traffic moves off quiet
  have uncut := quiet_uncut (n := n) moves off quiet clocked
  have read : stepRead s edge n =
      phaseStep (s (edge n)).eng.mem (s (edge n)).eng.curChannel := by
    have six := quiet_param moves first off quiet clocked start 2 (by decide)
      (edge_le clocked (show n ≤ n + 6 by omega)) (edge_le clocked (show n + 6 ≤ n + 16 by omega))
    have eight := quiet_param moves first off quiet clocked start 3 (by decide)
      (edge_le clocked (show n ≤ n + 8 by omega)) (edge_le clocked (show n + 8 ≤ n + 16 by omega))
    rw [stepRead, phaseStep, six, eight]
  have stored := slot_stored moves first traffic clocked start uncut
    (quiet_stores moves off quiet clocked)
  have sum := slot_sum moves first traffic clocked start uncut
    fun o _ => quiet_latches moves off quiet _
  have total := (stored.trans sum).trans (congrArg _ read)
  rw [acc] at total
  have lo := congrArg (fun v : BitVec 16 => v.setWidth 8) total
  have hi := congrArg (fun v : BitVec 16 => v.extractLsb' 8 8) total
  simp only [append_low, append_high] at lo hi
  funext a
  rw [slotMem, setAcc, Function.update_apply, Function.update_apply]
  by_cases one : a = paramAddr (s (edge n)).eng.curChannel 1
  · rw [if_pos one, one]
    exact hi
  · by_cases zero : a = paramAddr (s (edge n)).eng.curChannel 0
    · rw [if_neg one, if_pos zero, zero]
      exact lo
    · rw [if_neg one, if_neg zero]
      refine quiet_mem moves first off quiet clocked start ?_
        (edge_le clocked (by omega)) (Nat.le_refl _)
      rintro o (rfl | rfl)
      · exact zero
      · exact one

/-! ## The DAC register -/

/-- The wave ROM shows the byte of the slot from 70 ns behind the sub-step 10 on. -/
theorem quiet_wave {t : Nat} (low : edge (n + 10) + 70 * ns ≤ t) (high : t ≤ edge (n + 16)) :
    (s t).waveDo.out = sound (s (edge n)).eng.mem (s (edge n)).eng.curChannel rom := by
  have traffic := quiet_traffic moves off quiet
  have uncut := quiet_uncut (n := n) moves off quiet clocked
  have unit := clocked.unit
  have ten := edge_lt clocked (show n < n + 10 by omega)
  have four := edge_lt clocked (show n + 4 < n + 10 by omega)
  have net (t : Nat) : (s (t + 1)).waveDo =
      (s t).waveDo.step (55 * ns) ((s t).eng.waveDo rom) ((s (t + 1)).eng.waveDo rom) := by
    rw [moves]
    rfl
  refine Net.window (fun t => (s t).waveDo) (fun t => (s t).eng.waveDo rom) net
    (Net.follows_rest first.waveDo) (by omega) (a := edge (n + 10) + 15 * ns) (b := edge (n + 16))
    (fun u from_a to_b => ?_) (by omega) (by omega) (by omega)
  have aHi : (s u).eng.aHi = (s (edge n)).eng.mem (paramAddr (s (edge n)).eng.curChannel 1) :=
    (slot_operand moves first traffic clocked start (show 1 < 5 by decide)
      (quiet_latches moves off quiet _) (show edge (n + 4) + 15 * ns ≤ u by omega) to_b).trans
      (slot_byte moves first traffic clocked start uncut _ (.inr rfl)
        (edge_le clocked (show n ≤ n + 4 by omega)) (edge_le clocked (by omega))
        (.inl (edge_le clocked (show n + 4 ≤ n + 10 by omega))))
  have c : (s u).eng.c = (s (edge n)).eng.mem (paramAddr (s (edge n)).eng.curChannel 4) :=
    (slot_operand moves first traffic clocked start (show 4 < 5 by decide)
      (quiet_latches moves off quiet _) from_a to_b).trans
      (quiet_param moves first off quiet clocked start 4 (by decide)
        (edge_le clocked (show n ≤ n + 10 by omega)) (edge_le clocked (by omega)))
  rw [sound, acc, append_upper, Engine.waveDo, aHi, c]

omit start in
/-- The decoder is 15 ns late. -/
theorem quiet_decode {k t : Nat} (low : k = 0 ∨ edge k + 15 * ns ≤ t)
    (high : t < edge (k + 1) + 15 * ns) :
    (s t).decodeY.out.getLsbD 13 = ((s (edge k)).eng.stepLo != 13) := by
  have traffic := quiet_traffic moves off quiet
  have unit := clocked.unit
  have shows := period_net clocked (d := 15 * ns) (by omega) (by omega) (fun t => (s t).decodeY)
    (fun t => (s t).levels.decodeY) (fun k => hc154 (s (edge k)).eng.stepLo false)
    (decodeY_next moves) (Net.follows_rest first.decodeY) (by rw [first.decodeY])
    (fun k u from_k to_end => by
      rw [decodeY_levels moves traffic, quiet_csN moves off quiet,
        (counters_hold moves traffic clocked from_k to_end).1]
      rfl) low high
  rw [shows]
  exact (hc154_getLsbD _ 13 _).trans (Bool.false_or _)

omit first clocked start in
/-- The register takes the wave byte when its decoder output falls. -/
theorem quiet_taken (t : Nat) : (s (t + 1)).eng.dac =
    if (s t).decodeY.out.getLsbD 13 && !(s (t + 1)).decodeY.out.getLsbD 13 then (s t).waveDo.out
    else (s t).eng.dac := by
  have run : (s t).port.bus.pins.rstN = true := (quiet_pins moves off quiet t).2
  have on : ((s t).port.tick ns (is (t + 1)).host).bus.pins.rstN = true := by
    have live := (quiet_pins moves off quiet (t + 1)).2
    rw [moves] at live
    exact live
  have decode : (s (t + 1)).decodeY.out = (s t).decodeY.shown (s t).levels.decodeY := by
    rw [moves]
    rfl
  rw [decode, moves]
  change ((s t).nextEng ns float (is (t + 1))).dac = _
  simp only [DelayedCore.nextEng, run, on, Bool.not_true, Bool.and_false, Bool.false_eq_true,
    if_false, if_true]
  rfl

omit start in
/-- It moves 15 ns behind a `STEP_CLK`, into the sub-step 13 alone. -/
theorem quiet_dac {k t : Nat} (low : edge (k + 1) + 15 * ns ≤ t + 1)
    (high : t + 1 < edge (k + 2) + 15 * ns) : (s (t + 1)).eng.dac =
      if (s (edge (k + 1))).eng.stepLo = 13 ∧ t + 1 = edge (k + 1) + 15 * ns
      then (s t).waveDo.out else (s t).eng.dac := by
  have traffic := quiet_traffic moves off quiet
  have unit := clocked.unit
  have spaced := clocked.spaced k
  have decode := @quiet_decode ns rom float is edge s moves first off quiet clocked
  have after := decode (k := k + 1) (.inr low) high
  rw [quiet_taken moves off quiet, after]
  by_cases now : t + 1 = edge (k + 1) + 15 * ns
  · have before := decode (k := k) (t := t) (.inr (by omega)) (by omega)
    have count := (counters_edge moves traffic clocked k).1
    rw [before, count]
    generalize (s (edge k)).eng.stepLo = lo
    have high : (lo != 13 && !(lo + 1 != 13)) = decide (lo + 1 = 13) := by
      revert lo
      decide
    simp only [high, now, and_true, decide_eq_true_eq]
  · have before := decode (k := k + 1) (t := t) (.inr (by omega))
      (show t < edge (k + 2) + 15 * ns by omega)
    rw [before, Bool.and_not_self, if_neg Bool.false_ne_true, if_neg fun both => now both.2]

/-- The byte of a slot is at the DAC from 15 ns behind its sub-step 13 on, to that of the next. -/
theorem quiet_heard {t : Nat} (low : edge (n + 13) + 15 * ns ≤ t)
    (high : t < edge (n + 29) + 15 * ns) :
    (s t).eng.dac = sound (s (edge n)).eng.mem (s (edge n)).eng.curChannel rom := by
  have traffic := quiet_traffic moves off quiet
  have unit := clocked.unit
  have step (i : Nat) : (s (edge (n + 13 + i))).eng.stepLo = BitVec.ofNat 4 (13 + i) := by
    rw [Nat.add_assoc, stepLo_add moves traffic clocked, start]
    exact BitVec.zero_add _
  have moved := @quiet_dac ns rom float is edge s moves first off quiet clocked
  induction t, low using Nat.le_induction with
  | base =>
    have wave := @quiet_wave ns rom float is edge s n moves first off quiet clocked start
    have ten := edge_lt clocked (show n + 10 < n + 12 by omega)
    have twelve := edge_lt clocked (show n + 12 < n + 13 by omega)
    have thirteen := edge_lt clocked (show n + 13 < n + 14 by omega)
    have last := edge_lt clocked (show n + 14 < n + 16 by omega)
    obtain ⟨t, now⟩ : ∃ t, edge (n + 13) + 15 * ns = t + 1 :=
      ⟨edge (n + 13) + 15 * ns - 1, by omega⟩
    rw [now, moved (k := n + 12) (t := t) (show edge (n + 13) + 15 * ns ≤ t + 1 by omega)
      (show t + 1 < edge (n + 14) + 15 * ns by omega), if_pos ⟨step 0, now.symm⟩]
    exact wave (by omega) (by omega)
  | succ t low ih =>
    rw [← ih (by omega)]
    obtain ⟨k, from_k, to_k⟩ := period_of clocked (15 * ns) (t + 1)
    obtain ⟨i, eq⟩ : ∃ i, k = n + 13 + i := by
      by_contra before
      have early : k + 1 ≤ n + 13 := by
        by_contra late
        exact before ⟨k - (n + 13), by omega⟩
      have := edge_le clocked early
      omega
    subst eq
    have inside : i < 16 := by
      by_contra late
      have := edge_le clocked (show n + 29 ≤ n + 13 + i by omega)
      omega
    have from_k : edge (n + 12 + i + 1) + 15 * ns ≤ t + 1 := by
      rw [show n + 12 + i + 1 = n + 13 + i by omega]
      omega
    have to_k : t + 1 < edge (n + 12 + i + 2) + 15 * ns := by
      rwa [show n + 12 + i + 2 = n + 13 + i + 1 by omega]
    rw [moved from_k to_k]
    refine if_neg ?_
    rintro ⟨thirteen, now⟩
    rw [show n + 12 + i + 1 = n + 13 + i by omega] at thirteen now
    rw [step] at thirteen
    have thirteen := congrArg BitVec.toNat thirteen
    rw [BitVec.toNat_ofNat] at thirteen
    change (13 + i) % 16 = 13 at thirteen
    obtain rfl : i = 0 := by omega
    have now : t + 1 = edge (n + 13) + 15 * ns := now
    omega

omit start

/-! ## The runs -/

omit first in
theorem quiet_counters (k : Nat) :
    (s (edge k)).eng.stepLo = ((Engine.next rom)^[k] (s 0).eng).stepLo ∧
      (s (edge k)).eng.curChannel = ((Engine.next rom)^[k] (s 0).eng).curChannel := by
  have traffic := quiet_traffic moves off quiet
  suffices (s (edge k)).eng.stepLo = ((Engine.next rom)^[k] (s 0).eng).stepLo ∧
      (s (edge k)).eng.stepHi = ((Engine.next rom)^[k] (s 0).eng).stepHi by
    rw [Engine.curChannel, Engine.curChannel, this.2]
    exact ⟨this.1, rfl⟩
  induction k with
  | zero =>
    rw [clocked.first]
    exact ⟨rfl, rfl⟩
  | succ k ih =>
    obtain ⟨lo, hi⟩ := ih
    obtain ⟨nextLo, nextHi⟩ := counters_edge moves traffic clocked k
    rw [Function.iterate_succ_apply', nextLo, nextHi, lo, hi]
    exact ⟨rfl, rfl⟩

theorem quiet_slots (start : (s 0).eng.stepLo = 0) (m : Nat) :
    ((Engine.next rom)^[16 * m] (s 0).eng).stepLo = 0 ∧
      (s (edge (16 * m))).eng.mem = ((Engine.next rom)^[16 * m] (s 0).eng).mem := by
  induction m with
  | zero =>
    refine ⟨start, ?_⟩
    rw [Nat.mul_zero, clocked.first]
    rfl
  | succ m ih =>
    obtain ⟨step, mem⟩ := ih
    obtain ⟨lo, channel⟩ := quiet_counters moves off quiet clocked (16 * m)
    have slot := quiet_slot moves first off quiet clocked (n := 16 * m) (lo.trans step)
    have turn := Function.iterate_add_apply (Engine.next rom) 16 (16 * m) (s 0).eng
    obtain ⟨step', -, mem'⟩ := next_slot rom _ step
    rw [Nat.add_comm] at turn
    rw [Nat.mul_succ, turn]
    exact ⟨step', by rw [slot, mem', channel, mem]⟩

end

/-- **The delays do not matter to a core left alone**: it runs like the settled core, whose DAC
register it follows 15 ns behind every `STEP_CLK` from the first wave byte on. -/
theorem delayed_refines (ns : Nat) (rom : Rom) (float : Byte) (is : Nat → Instant)
    (edge : Nat → Nat) (clocked : StepClk ns is edge)
    (quiet : ∀ t, ∀ h ∈ (is t).host, h.Deselected) (core : Core)
    (off : core.bus.pins.Deselected) (start : core.eng.stepLo = 0) (hs : Nat → List HostEvent)
    (quiet' : ∀ k, ∀ h ∈ hs k, h.Deselected) :
    let s := (core.settle rom).run ns rom float is
    let r := core.run rom float hs
    (∀ m, (s (edge (16 * m))).eng.mem = (r (16 * m)).eng.mem) ∧
      ∀ k t, 13 ≤ k → edge k + 15 * ns ≤ t → t < edge (k + 1) + 15 * ns →
        (s t).eng.dac = (r k).eng.dac := by
  intro s r
  have moves (t : Nat) : s (t + 1) = (s t).tick ns rom float (is (t + 1)) := rfl
  have first := settle_settled rom core
  have settled (k : Nat) : (r k).eng = (Engine.next rom)^[k] core.eng :=
    (run_deselected hs off quiet' k).1
  have slots (m : Nat) := quiet_slots moves first off quiet clocked start m
  refine ⟨fun m => ?_, fun k t late low high => ?_⟩
  · rw [settled]
    exact (slots m).2
  · obtain ⟨m, j, hj, rfl⟩ : ∃ m j, j < 16 ∧ k = 16 * m + (13 + j) :=
      ⟨(k - 13) / 16, (k - 13) % 16, by omega, by omega⟩
    obtain ⟨step, mem⟩ := slots m
    obtain ⟨lo, channel⟩ := quiet_counters moves off quiet clocked (16 * m)
    have before := edge_le clocked (show 16 * m + 13 ≤ 16 * m + (13 + j) by omega)
    have after := edge_le clocked (show 16 * m + (13 + j) + 1 ≤ 16 * m + 29 by omega)
    have heard := quiet_heard moves first off quiet clocked (n := 16 * m) (lo.trans step) (t := t)
      (by omega) (by omega)
    have turn := Function.iterate_add_apply (Engine.next rom) (13 + j) (16 * m) core.eng
    rw [Nat.add_comm] at turn
    have settledDac := slot_dac rom _ step j hj
    rw [settled, turn, heard, channel, mem]
    exact settledDac.symm

end Chiptune.Wt3
