import Mathlib.Algebra.Ring.Nat
import Mathlib.Tactic.Common

/-!
# Reloading counters

A counter that steps something when it runs out and reloads, seen as the number of
clocks left before the step.

* `left_zero_iff`: the steps come at a first time and every `T` clocks from there.
* `full_stepsEvery`: a loadable counter that reloads when it is full steps so.
* `period_unique`: two such sequences of times that are shifts of one another have
  the same period.
* `togglesEvery_iff`: a flip-flop that toggles on the rising edge of the reload toggles
  once a reload unless every clock reloads.
-/

namespace Chiptune.Divider

/-- `f` is true at one time and every `T` clocks after it. -/
def StepsEvery (T : Nat) (f : Nat → Bool) : Prop :=
  ∃ first, ∀ n, f n = true ↔ first ≤ n ∧ T ∣ n - first

/-- The clocks left after one more clock. -/
def next (T left : Nat) : Nat := if left = 0 then T - 1 else left - 1

/-- How often `f` was true before time `n`. -/
def stepCount (f : Nat → Bool) : Nat → Nat
  | 0 => 0
  | n + 1 => stepCount f n + (f n).toNat

/-- Sequences that agree from the times `d` and `e` on count alike from there. -/
theorem stepCount_add {f g : Nat → Bool} {d e : Nat} (start : stepCount f d = stepCount g e)
    (same : ∀ n, f (d + n) = g (e + n)) (n : Nat) :
    stepCount f (d + n) = stepCount g (e + n) := by
  induction n with
  | zero => exact start
  | succ n ih =>
    rw [← Nat.add_assoc, ← Nat.add_assoc]
    simp only [stepCount, ih, same]

section
variable {T : Nat} {left : Nat → Nat}

theorem left_first (step : ∀ n, left (n + 1) = next T (left n)) {n : Nat} (hn : n ≤ left 0) :
    left n = left 0 - n := by
  induction n with
  | zero => rfl
  | succ n ih =>
    have before := ih (by omega)
    rw [step, next, if_neg (by omega), before]
    omega

/-- From the first step on, the clocks passed and the clocks left make whole periods. -/
theorem left_after (step : ∀ n, left (n + 1) = next T (left n)) (pos : 0 < T) (m : Nat) :
    T ∣ m + left (left 0 + m) ∧ left (left 0 + m) < T := by
  induction m with
  | zero =>
    have first := left_first step (Nat.le_refl (left 0))
    rw [Nat.sub_self] at first
    simp only [Nat.add_zero, first]
    exact ⟨Nat.dvd_zero T, pos⟩
  | succ m ih =>
    obtain ⟨whole, lt⟩ := ih
    rw [← Nat.add_assoc, step, next]
    split
    · rename_i zero
      rw [zero, Nat.add_zero] at whole
      constructor
      · have : m + 1 + (T - 1) = m + T := by omega
        rw [this]
        exact Nat.dvd_add whole (Nat.dvd_refl T)
      · omega
    · constructor
      · have : m + 1 + (left (left 0 + m) - 1) = m + left (left 0 + m) := by omega
        rw [this]
        exact whole
      · omega

theorem left_zero_iff (step : ∀ n, left (n + 1) = next T (left n)) (pos : 0 < T) (n : Nat) :
    left n = 0 ↔ left 0 ≤ n ∧ T ∣ n - left 0 := by
  by_cases early : n < left 0
  · have := left_first step (Nat.le_of_lt early)
    omega
  · obtain ⟨m, rfl⟩ := Nat.exists_eq_add_of_le (Nat.le_of_not_lt early)
    obtain ⟨whole, lt⟩ := left_after step pos m
    rw [Nat.add_sub_cancel_left]
    constructor
    · intro zero
      rw [zero] at whole
      exact ⟨Nat.le_add_right _ _, whole⟩
    · rintro ⟨-, divides⟩
      exact Nat.eq_zero_of_dvd_of_lt ((Nat.dvd_add_right divides).mp whole) lt

end

section
variable {T U first start d e : Nat}

theorem period_dvd (pos : 0 < T) (same : ∀ n, (first ≤ d + n ∧ T ∣ d + n - first) →
    start ≤ e + n ∧ U ∣ e + n - start) : U ∣ T := by
  have far : d + start ≤ T * (d + start) := Nat.le_mul_of_pos_left _ pos
  -- the clock of a late step of the first sequence, and the clock of the step after it
  obtain ⟨n, hn⟩ : ∃ n, d + n = first + T * (d + start) := ⟨first + T * (d + start) - d, by omega⟩
  have here := same n ⟨by omega, by
    rw [hn, Nat.add_sub_cancel_left]
    exact Nat.dvd_mul_right _ _⟩
  have later := same (n + T) ⟨by omega, by
    have : d + (n + T) - first = T * (d + start) + T := by omega
    rw [this]
    exact Nat.dvd_add (Nat.dvd_mul_right _ _) (Nat.dvd_refl T)⟩
  have : e + (n + T) - start = e + n - start + T := by omega
  rw [this] at later
  exact (Nat.dvd_add_right here.2).mp later.2

theorem period_unique (posT : 0 < T) (posU : 0 < U)
    (same : ∀ n, first ≤ d + n ∧ T ∣ d + n - first ↔ start ≤ e + n ∧ U ∣ e + n - start) :
    T = U :=
  Nat.dvd_antisymm (period_dvd posU fun n => (same n).mpr) (period_dvd posT fun n => (same n).mp)

end

theorem stepsEvery_unique {T U : Nat} {f : Nat → Bool} (posT : 0 < T) (posU : 0 < U)
    (every : StepsEvery T f) (other : StepsEvery U f) : T = U := by
  obtain ⟨first, hf⟩ := every
  obtain ⟨start, hs⟩ := other
  apply period_unique (d := 0) (e := 0) posT posU
  intro n
  rw [Nat.zero_add, ← hf, ← hs]

/-- From a time at which `f` is true it is true every `T` clocks. -/
theorem StepsEvery.from_step {T : Nat} {f : Nat → Bool} (every : StepsEvery T f) {r n : Nat}
    (here : f r = true) (le : r ≤ n) : f n = true ↔ T ∣ n - r := by
  obtain ⟨first, hf⟩ := every
  obtain ⟨start, whole⟩ := (hf r).mp here
  have split : n - first = n - r + (r - first) := by omega
  rw [hf, split, Nat.dvd_add_left whole]
  exact and_iff_right (Nat.le_trans start le)

theorem stepCount_every {T : Nat} {f : Nat → Bool} (every : ∀ n, f n = true ↔ T ∣ n + 1) (n : Nat) :
    stepCount f n = n / T := by
  induction n with
  | zero => exact (Nat.zero_div T).symm
  | succ n ih =>
    rw [stepCount, ih, Nat.succ_div]
    by_cases now : T ∣ n + 1
    · rw [if_pos now, (every n).mpr now, Bool.toNat_true]
    · rw [if_neg now, Bool.eq_false_iff.mpr (fun h => now ((every n).mp h)), Bool.toNat_false]

/-! ## Loadable counters -/

theorem full_stepsEvery {w : Nat} {preset : BitVec w} {cnt : Nat → BitVec w}
    (step : ∀ n, cnt (n + 1) = if cnt n = BitVec.allOnes w then preset else cnt n + 1) :
    StepsEvery (2 ^ w - preset.toNat) fun n => cnt n == BitVec.allOnes w := by
  have fits := preset.isLt
  have full (n : Nat) : cnt n = BitVec.allOnes w ↔ 2 ^ w - 1 - (cnt n).toNat = 0 := by
    have counts := (cnt n).isLt
    rw [← BitVec.toNat_inj, BitVec.toNat_allOnes]
    omega
  refine ⟨2 ^ w - 1 - (cnt 0).toNat, fun n => ?_⟩
  rw [beq_iff_eq, full]
  apply @left_zero_iff _ (fun n => 2 ^ w - 1 - (cnt n).toNat) _ (by omega)
  intro n
  have counts := (cnt n).isLt
  rw [step, next]
  by_cases now : cnt n = BitVec.allOnes w
  · rw [if_pos now, if_pos ((full n).mp now)]
    omega
  · have below := now
    rw [full] at below
    have one : (cnt n + 1).toNat = (cnt n).toNat + 1 := by
      rw [BitVec.toNat_add, BitVec.ofNat_eq_ofNat, BitVec.toNat_ofNat, Nat.add_mod_mod]
      exact Nat.mod_eq_of_lt (Nat.add_lt_of_lt_sub (Nat.lt_of_sub_ne_zero below))
    rw [if_neg now, if_neg below, one]
    omega

/-! ## Toggling on the reload -/

/-- Once a reload has happened, `toggles` comes exactly with the reloads, `lead` clocks
ahead of them, and every `T` clocks. -/
def TogglesEvery (T lead : Nat) (reloads toggles : Nat → Bool) : Prop :=
  (∃ r, reloads r = true) ∧ ∀ r, reloads r = true → ∀ n, r < n + lead →
    (toggles n = true ↔ reloads (n + lead) = true) ∧ (toggles n = true ↔ T ∣ n + lead - r)

/-- A reload at every clock gives no rising edge. -/
theorem togglesEvery_iff {T lead : Nat} {reloads toggles : Nat → Bool}
    (every : StepsEvery T reloads)
    (rises : ∀ m n, n + lead = m + 1 → toggles n = (!reloads m && reloads (m + 1))) :
    TogglesEvery T lead reloads toggles ↔ T ≠ 1 := by
  obtain ⟨first, at_first⟩ : ∃ r, reloads r = true := by
    obtain ⟨first, hf⟩ := every
    exact ⟨first, (hf first).mpr ⟨Nat.le_refl _, by simp⟩⟩
  constructor
  · rintro ⟨-, toggles_at⟩ rfl
    -- two clocks after a reload both the clock and the one before it reload
    have before := (every.from_step at_first (by omega : first ≤ first + lead)).mpr (Nat.one_dvd _)
    have edge := rises (first + lead) (first + 1) (by omega)
    have toggle := (toggles_at first at_first (first + 1) (by omega)).2.mpr (Nat.one_dvd _)
    rw [edge, before] at toggle
    exact absurd toggle Bool.false_ne_true
  · intro ne
    refine ⟨⟨first, at_first⟩, fun r here n after => ?_⟩
    obtain ⟨m, hm⟩ : ∃ m, n + lead = m + 1 := ⟨n + lead - 1, by omega⟩
    have now := every.from_step here (by omega : r ≤ m + 1)
    have before := every.from_step here (by omega : r ≤ m)
    have edge : toggles n = true ↔ reloads (m + 1) = true := by
      rw [rises m n hm, Bool.and_eq_true, Bool.not_eq_true', ← Bool.not_eq_true, before]
      refine ⟨And.right, fun reload => ⟨fun whole => ne ?_, reload⟩⟩
      -- whole periods to two clocks in a row
      have next := now.mp reload
      rw [show m + 1 - r = m - r + 1 by omega] at next
      exact Nat.dvd_one.mp ((Nat.dvd_add_right whole).mp next)
    rw [hm]
    exact ⟨edge, edge.trans now⟩

end Chiptune.Divider
