import Mathlib.Data.FinEnum
import Mathlib.NumberTheory.Divisors
import Chiptune.Period
import Chiptune.Psg3.Bus

/-!
# The noise register of PSG3

The eight flip-flops and the start-up counter of channel CH1 in `rtl/psg3_top.v`, which
v0.4 and v0.5 have in common with `psg_noise_374_v03`, clock by clock of `noise_clk`.
After the start-up the register goes through all 255 states but zero (`next_cycle`).
-/

namespace Chiptune.Psg3

open Period Function

structure Lfsr where
  /-- `lfsr_q` -/
  q : Byte
  /-- `startup_cnt` -/
  startup : BitVec 5
  deriving DecidableEq

namespace Lfsr

def powerUp : Lfsr := ⟨0, 0⟩

/-- `xor_a ^ xor_b` -/
def feedback (q : Byte) : Bool :=
  (q.getLsbD 7 ^^ q.getLsbD 5) ^^ (q.getLsbD 4 ^^ q.getLsbD 3)

section
variable (s : Lfsr)

/-- `startup_active` -/
def starting : Bool := s.startup < 16

/-- `lfsr_d[0]` -/
def d0 : Bool := if s.starting then true else feedback s.q

/-- A rising `noise_clk`. -/
def clock : Lfsr where
  q := shiftIn (w := 7) s.d0 s.q
  startup := if s.starting then s.startup + 1 else s.startup

end

/-! ## After the start-up -/

/-- The register with the feedback released. -/
def next (q : Byte) : Byte := shiftIn (w := 7) (feedback q) q

theorem next_ne_zero {q : Byte} (some : q ≠ 0) : next q ≠ 0 := by
  revert q
  decide +kernel

theorem iterate_ne_zero (n : Nat) : next^[n] 0xFF ≠ 0 := by
  induction n with
  | zero => decide
  | succ n ih =>
    rw [iterate_succ_apply']
    exact next_ne_zero ih

/-- All eight bits return together after 255 clocks, and not earlier. -/
theorem next_cycle : minimalPeriod next 0xFF = 255 := by
  have whole : IsPeriodicPt next 255 0xFF := by
    change next^[255] 0xFF = 0xFF
    decide +kernel
  have parts : ∀ m ∈ [85, 51, 15], next^[m] 0xFF ≠ (0xFF : Byte) := by decide +kernel
  have apart {m : Nat} (mem : m ∈ [85, 51, 15]) : ¬ minimalPeriod next 0xFF ∣ m := by
    rw [← isPeriodicPt_iff_minimalPeriod_dvd]
    exact parts m mem
  have divides : minimalPeriod next 0xFF ∈ Nat.divisors 255 :=
    Nat.mem_divisors.mpr ⟨whole.minimalPeriod_dvd, by decide⟩
  have list : Nat.divisors 255 = {1, 3, 5, 15, 17, 51, 85, 255} := by decide +kernel
  rw [list] at divides
  have not85 := apart (m := 85) (by decide)
  have not51 := apart (m := 51) (by decide)
  have not15 := apart (m := 15) (by decide)
  simp only [Finset.mem_insert, Finset.mem_singleton] at divides
  rcases divides with same | same | same | same | same | same | same | same <;>
    rw [same] at not85 not51 not15 <;> first | exact same | omega

theorem next_periodic : (0xFF : Byte) ∈ periodicPts next :=
  minimalPeriod_pos_iff_mem_periodicPts.mp (by rw [next_cycle]; decide)

theorem next_full : minimalPeriod next 0xFF + 1 = Fintype.card Byte := by
  rw [next_cycle]
  decide +kernel

/-! ## From power-up -/

/-- The register after `k` rising edges of `noise_clk`. -/
def after (k : Nat) : Lfsr := clock^[k] powerUp

theorem clock_started (q : Byte) : clock ⟨q, 16⟩ = ⟨next q, 16⟩ := rfl

theorem after_started (j : Nat) : after (16 + j) = ⟨next^[j] 0xFF, 16⟩ := by
  induction j with
  | zero => decide +kernel
  | succ j ih =>
    rw [after, ← Nat.add_assoc, iterate_succ_apply', ← after, ih, clock_started,
      iterate_succ_apply']

theorem after_starting : ∀ k, k < 16 → ((after k).q = 0 ↔ k = 0) := by decide +kernel

theorem after_zero_iff (k : Nat) : (after k).q = 0 ↔ k = 0 := by
  by_cases early : k < 16
  · exact after_starting k early
  · obtain ⟨j, rfl⟩ := Nat.exists_eq_add_of_le (Nat.le_of_not_lt early)
    rw [after_started]
    exact iff_of_false (iterate_ne_zero j) (by omega)

theorem after_eq_iff {i j : Nat} (hi : 16 ≤ i) (hj : 16 ≤ j) :
    (after i).q = (after j).q ↔ i ≡ j [MOD 255] := by
  obtain ⟨i, rfl⟩ := Nat.exists_eq_add_of_le hi
  obtain ⟨j, rfl⟩ := Nat.exists_eq_add_of_le hj
  rw [after_started, after_started]
  have cycle := iterate_eq_iff next_periodic i j
  rw [next_cycle] at cycle
  rw [cycle]
  exact ⟨Nat.ModEq.add_left 16, Nat.ModEq.add_left_cancel' 16⟩

/-- How many of 255 states in a row have a property. -/
theorem after_count (P : Byte → Prop) [DecidablePred P] {k : Nat} (started : 16 ≤ k) :
    ((Finset.range 255).filter fun i => P (after (k + i)).q).card =
      ((Finset.univ.erase (0 : Byte)).filter P).card := by
  obtain ⟨j, rfl⟩ := Nat.exists_eq_add_of_le started
  have count := window_card next_periodic next_full iterate_ne_zero P j
  rw [next_cycle] at count
  rw [← count]
  congr 1
  apply Finset.filter_congr
  intro i _
  rw [Nat.add_assoc, after_started]

/-! ## What is heard -/

/-- The reference of the converter. -/
def level (k : Nat) : Bool := (after k).q.getLsbD 7

theorem level_repeats_iff (m : Nat) : Repeats m level ↔ 255 ∣ m := by
  have late : Repeats m level ↔ Repeats m fun j => (next^[j] 0xFF).getLsbD 7 := by
    apply repeats_later 16
    intro j
    rw [level, after_started]
  have tells (i j : Nat) (same : ∀ k, k < 8 → (next^[i + k] 0xFF).getLsbD 7 =
      (next^[j + k] 0xFF).getLsbD 7) : next^[i] 0xFF = next^[j] 0xFF := by
    apply shift_tells (w := 7) feedback
    intro k hk
    have here := same k hk
    rwa [Nat.add_comm i, Nat.add_comm j, iterate_add_apply, iterate_add_apply] at here
  rw [late, ← next_cycle, ← repeats_orbit next_periodic]
  exact @repeats_window _ m (fun j => next^[j] 0xFF) _ (fun q => q.getLsbD 7) 8 tells

theorem level_count {k : Nat} (started : 16 ≤ k) :
    ((Finset.range 255).filter fun i => level (k + i) = true).card = 128 := by
  have high : ((Finset.univ.erase (0 : Byte)).filter fun q => q.getLsbD 7 = true).card = 128 := by
    decide +kernel
  rw [← high]
  exact after_count (fun q => q.getLsbD 7 = true) started

end Lfsr

end Chiptune.Psg3
