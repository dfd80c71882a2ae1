import Mathlib.Data.Fintype.Card
import Mathlib.Data.Nat.ModEq
import Mathlib.Dynamics.PeriodicPts.Defs
import Chiptune.Divider

/-!
# Sequences on a divided clock

A sequence that moves on every `T` clocks: `stepCount` of the ticks says how often it has
moved.

* `repeats_held`: its periods are `T` times those of the sequence.
* `Pulses.held`: its pulses are `T` times as long.
* `repeats_orbit`, `window_card`: the states of a machine that goes through all states but
  one, and how many of them in a row have a property.
* `shift_tells`: what a shift register puts out tells its state.
-/

namespace Chiptune.Period

open Divider Function

/-- From some time on `f` is the same `m` later. -/
def Repeats {α : Type} (m : Nat) (f : Nat → α) : Prop :=
  ∃ start, ∀ n, start ≤ n → f (n + m) = f n

/-- From some time on `f` is true for the first `high` of every `len` clocks. -/
def Pulses (len high : Nat) (f : Nat → Bool) : Prop :=
  ∃ first, ∀ n, first ≤ n → (f n = true ↔ (n - first) % len < high)

section
variable {α : Type} {m : Nat} {f g : Nat → α}

theorem repeats_const {a : α} (const : ∀ n, f n = a) (m : Nat) : Repeats m f :=
  ⟨0, fun n _ => (const _).trans (const n).symm⟩

theorem repeats_later (d : Nat) (later : ∀ n, f (d + n) = g n) : Repeats m f ↔ Repeats m g := by
  constructor
  · rintro ⟨start, same⟩
    refine ⟨start, fun n hn => ?_⟩
    rw [← later, ← later, ← Nat.add_assoc]
    exact same (d + n) (by omega)
  · rintro ⟨start, same⟩
    refine ⟨d + start, fun n hn => ?_⟩
    obtain ⟨k, rfl⟩ := Nat.exists_eq_add_of_le (show d ≤ n by omega)
    rw [Nat.add_assoc, later, later]
    exact same k (by omega)

/-- An output has the periods of the state if some outputs in a row tell the state. -/
theorem repeats_window {β : Type} {g : α → β} (w : Nat)
    (tells : ∀ i j, (∀ k, k < w → g (f (i + k)) = g (f (j + k))) → f i = f j) :
    Repeats m (fun n => g (f n)) ↔ Repeats m f := by
  constructor
  · rintro ⟨start, same⟩
    refine ⟨start, fun n hn => tells _ _ fun k _ => ?_⟩
    have later := same (n + k) (by omega)
    rwa [Nat.add_right_comm] at later
  · rintro ⟨start, same⟩
    exact ⟨start, fun n hn => congrArg g (same n hn)⟩

end

/-- Two values that are told apart. -/
theorem repeats_if {α : Type} {m : Nat} {a b : α} (apart : a ≠ b) {high : Nat → Bool} :
    Repeats m (fun n => if high n then a else b) ↔ Repeats m high := by
  apply repeats_window (f := high) (g := fun level => if level then a else b) 1
  intro i j same
  have here : (if high i then a else b) = if high j then a else b := same 0 Nat.one_pos
  cases hi : high i <;> cases hj : high j <;> rw [hi, hj] at here
  · exact absurd here.symm apart
  · exact absurd here apart

theorem Pulses.later {len high : Nat} {f : Nat → Bool} (d : Nat)
    (pulses : Pulses len high fun n => f (d + n)) : Pulses len high f := by
  obtain ⟨first, at_first⟩ := pulses
  refine ⟨d + first, fun n hn => ?_⟩
  obtain ⟨k, rfl⟩ := Nat.exists_eq_add_of_le (show d ≤ n by omega)
  rw [Nat.add_sub_add_left]
  exact at_first k (by omega)

/-! ## Ticks -/

section
variable {T : Nat} {ticks : Nat → Bool}

theorem stepCount_split (f : Nat → Bool) (d n : Nat) :
    stepCount f (d + n) = stepCount f d + stepCount (fun k => f (d + k)) n := by
  induction n with
  | zero => rfl
  | succ n ih =>
    rw [← Nat.add_assoc, stepCount, ih, stepCount, Nat.add_assoc]

theorem stepCount_never {f : Nat → Bool} {n : Nat} (never : ∀ k, k < n → f k = false) :
    stepCount f n = 0 := by
  induction n with
  | zero => rfl
  | succ n ih =>
    have before := ih fun k hk => never k (by omega)
    rw [stepCount, before, never n (by omega)]
    rfl

/-- How often there was a tick, from the first on. -/
theorem stepCount_late (every : StepsEvery T ticks) :
    ∃ d, ∀ n, stepCount ticks (d + n) = n / T + 1 := by
  obtain ⟨first, at_first⟩ := every
  refine ⟨first + 1, fun n => ?_⟩
  have before : stepCount ticks first = 0 := by
    apply stepCount_never
    intro k hk
    rw [← Bool.not_eq_true, at_first]
    omega
  have here : ticks first = true := (at_first first).mpr ⟨Nat.le_refl _, by simp⟩
  have later (k : Nat) : ticks (first + 1 + k) = true ↔ T ∣ k + 1 := by
    rw [at_first, show first + 1 + k - first = k + 1 by omega]
    exact and_iff_right (by omega)
  rw [stepCount_split, stepCount_every later, stepCount, before, here]
  exact Nat.add_comm _ _

/-- A sequence that moves on every `T` clocks has periods of whole moves only. -/
theorem repeats_div {α : Type} {g : Nat → α} (pos : 0 < T) (moves : ¬ Repeats 1 g) (m : Nat) :
    Repeats m (fun n => g (n / T)) ↔ ∃ k, m = T * k ∧ Repeats k g := by
  constructor
  · rintro ⟨start, same⟩
    have repeated (n : Nat) (hn : start ≤ n) : g ((n + m) / T) = g (n / T) := same n hn
    -- a late change of `g`, and the clock before it
    obtain ⟨j, late, change⟩ : ∃ j, start ≤ j ∧ g (j + 1) ≠ g j := by
      by_contra none
      refine moves ⟨start, fun n hn => ?_⟩
      by_contra change
      exact none ⟨n, hn, change⟩
    have far : j + 1 ≤ T * (j + 1) := Nat.le_mul_of_pos_left _ pos
    obtain ⟨a, ha⟩ : ∃ a, a + 1 = T * (j + 1) := ⟨T * (j + 1) - 1, by omega⟩
    have next : T * (j + 1) / T = j + 1 := Nat.mul_div_cancel_left _ pos
    have now : a / T = j := by
      have step := @Nat.succ_div a T
      rw [ha, next, if_pos (Nat.dvd_mul_right _ _)] at step
      omega
    have whole : T ∣ m := by
      have first := repeated a (by omega)
      have second := repeated (a + 1) (by omega)
      by_contra part
      -- `m` clocks later the quotient must move on too
      have step := @Nat.succ_div (a + m) T
      have apart : ¬ T ∣ a + m + 1 := by
        rw [Nat.add_right_comm, ha]
        exact fun divides => part ((Nat.dvd_add_right (Nat.dvd_mul_right _ _)).mp divides)
      rw [if_neg apart] at step
      rw [Nat.add_right_comm, step, Nat.add_zero, first, now, ha, next] at second
      exact change second.symm
    obtain ⟨k, rfl⟩ := whole
    refine ⟨k, rfl, start, fun n hn => ?_⟩
    have here := repeated (T * n) (Nat.le_trans hn (Nat.le_mul_of_pos_left n pos))
    rwa [← Nat.mul_add, Nat.mul_div_cancel_left _ pos, Nat.mul_div_cancel_left _ pos] at here
  · rintro ⟨k, rfl, start, same⟩
    refine ⟨T * start, fun n hn => ?_⟩
    have past : start ≤ n / T := (Nat.le_div_iff_mul_le pos).mpr (by rwa [Nat.mul_comm])
    simp only [Nat.add_mul_div_left n k pos]
    exact same (n / T) past

/-- A counter that never stops, at one of its values. -/
theorem stepsEvery_mod {c r : Nat} (fits : r < T) (at_value : ∀ n, ticks n = true ↔ (c + n) % T = r) :
    StepsEvery T ticks := by
  let left (n : Nat) : Nat :=
    if (c + n) % T ≤ r then r - (c + n) % T else r + T - (c + n) % T
  have inside (n : Nat) : (c + n) % T < T := Nat.mod_lt _ (by omega)
  have counts (n : Nat) : (c + (n + 1)) % T = if (c + n) % T + 1 = T then 0 else (c + n) % T + 1 := by
    have next : (c + (n + 1)) % T = ((c + n) % T + 1) % T := by
      rw [Nat.mod_add_mod, Nat.add_assoc]
    rw [next]
    split
    · rename_i full
      rw [full, Nat.mod_self]
    · have := inside n
      exact Nat.mod_eq_of_lt (by omega)
  have step (n : Nat) : left (n + 1) = next T (left n) := by
    simp only [left, next, counts n]
    have := inside n
    generalize (c + n) % T = x at this
    split_ifs <;> omega
  refine ⟨left 0, fun n => ?_⟩
  rw [at_value, ← left_zero_iff step (by omega)]
  simp only [left]
  have := inside n
  generalize (c + n) % T = x at this
  split <;> omega

/-- Ticks that do not come at every clock are apart. -/
theorem tick_apart (every : StepsEvery T ticks) (ne : T ≠ 1) {n : Nat} (now : ticks n = true) :
    ticks (n + 1) = false := by
  rw [← Bool.not_eq_true, every.from_step now (Nat.le_succ n), Nat.succ_sub (Nat.le_refl n),
    Nat.sub_self, Nat.dvd_one]
  exact ne

theorem stepsEvery_fall (every : StepsEvery T ticks) (ne : T ≠ 1) :
    StepsEvery T fun n => ticks n && !ticks (n + 1) := by
  obtain ⟨first, at_first⟩ := every
  refine ⟨first, fun n => ?_⟩
  rw [← at_first, Bool.and_eq_true, Bool.not_eq_true', and_iff_left_iff_imp]
  exact tick_apart ⟨first, at_first⟩ ne

theorem stepsEvery_rise (every : StepsEvery T ticks) (ne : T ≠ 1) (pos : 0 < T) :
    StepsEvery T fun n => !ticks n && ticks (n + 1) := by
  have rise (n : Nat) : (!ticks n && ticks (n + 1)) = true ↔ ticks (n + 1) = true := by
    rw [Bool.and_eq_true, Bool.not_eq_true', and_iff_right_iff_imp]
    intro next
    rw [← Bool.not_eq_true]
    exact fun now => Bool.false_ne_true ((tick_apart every ne now).symm.trans next)
  obtain ⟨first, at_first⟩ := every
  cases first with
  | zero =>
    refine ⟨T - 1, fun n => ?_⟩
    rw [rise, at_first, and_iff_right (Nat.zero_le _), Nat.sub_zero]
    constructor
    · intro whole
      have le := Nat.le_of_dvd (Nat.succ_pos n) whole
      refine ⟨by omega, ?_⟩
      rw [show n - (T - 1) = n + 1 - T by omega]
      exact Nat.dvd_sub whole (Nat.dvd_refl T)
    · rintro ⟨le, whole⟩
      rw [show n + 1 = n - (T - 1) + T by omega]
      exact Nat.dvd_add whole (Nat.dvd_refl T)
  | succ first =>
    refine ⟨first, fun n => ?_⟩
    rw [rise, at_first, Nat.add_sub_add_right, Nat.add_le_add_iff_right]

theorem stepCount_stops {f : Nat → Bool} {first : Nat} (never : ∀ n, first ≤ n → f n = false)
    (n : Nat) : stepCount f (first + n) = stepCount f first := by
  have later := stepCount_never (f := fun k => f (first + k)) (n := n)
    fun k _ => never _ (Nat.le_add_right _ _)
  rw [stepCount_split, later, Nat.add_zero]

/-- A tick at every clock. -/
theorem always_tick (every : StepsEvery 1 ticks) :
    ∃ first, ∀ n, first ≤ n → ticks n = true := by
  obtain ⟨first, at_first⟩ := every
  exact ⟨first, fun n hn => (at_first n).mpr ⟨hn, Nat.one_dvd _⟩⟩

variable (every : StepsEvery T ticks) (pos : 0 < T)
include every pos

/-- **Periods on a divided clock.** -/
theorem repeats_held {α : Type} {g : Nat → α} (moves : ¬ Repeats 1 g) (m : Nat) :
    Repeats m (fun n => g (stepCount ticks n)) ↔ ∃ k, m = T * k ∧ Repeats k g := by
  obtain ⟨d, count⟩ := stepCount_late every
  have later (k : Nat) : Repeats k g ↔ Repeats k fun n => g (n + 1) :=
    repeats_later 1 fun n => congrArg g (Nat.add_comm 1 n)
  have late : Repeats m (fun n => g (stepCount ticks n)) ↔ Repeats m fun n => g (n / T + 1) :=
    repeats_later d fun n => congrArg g (count n)
  rw [late, repeats_div (g := fun n => g (n + 1)) pos (by rwa [← later])]
  simp only [← later]

/-- What stands still stands still on a divided clock. -/
theorem repeats_still {α : Type} {g : Nat → α} (still : Repeats 1 g) (m : Nat) :
    Repeats m fun n => g (stepCount ticks n) := by
  obtain ⟨d, count⟩ := stepCount_late every
  obtain ⟨start, same⟩ := still
  have const (k : Nat) : g (start + k) = g start := by
    induction k with
    | zero => rfl
    | succ k ih => rw [← Nat.add_assoc, same _ (Nat.le_add_right start k), ih]
  have late (n : Nat) (hn : d + T * start ≤ n) : g (stepCount ticks n) = g start := by
    obtain ⟨r, rfl⟩ := Nat.exists_eq_add_of_le hn
    rw [Nat.add_assoc, count, Nat.add_comm (T * start) r, Nat.add_mul_div_left _ _ pos,
      Nat.add_right_comm, Nat.add_comm _ start]
    exact const _
  refine ⟨d + T * start, fun n hn => ?_⟩
  change g (stepCount ticks (n + m)) = g (stepCount ticks n)
  rw [late n hn, late (n + m) (by omega)]

theorem Pulses.held {len high : Nat} (some : 0 < len) {g : Nat → Bool} (pulses : Pulses len high g) :
    Pulses (T * len) (T * high) fun n => g (stepCount ticks n) := by
  obtain ⟨d, count⟩ := stepCount_late every
  obtain ⟨first, at_first⟩ := pulses
  -- the second pulse, which comes after the first tick
  obtain ⟨k, hk⟩ : ∃ k, first + len = k + 1 := ⟨first + len - 1, by omega⟩
  refine ⟨d + T * k, fun n hn => ?_⟩
  obtain ⟨r, rfl⟩ := Nat.exists_eq_add_of_le hn
  have index : stepCount ticks (d + T * k + r) = first + len + r / T := by
    rw [Nat.add_assoc, count, Nat.add_comm (T * k) r, Nat.add_mul_div_left _ _ pos, hk]
    omega
  have inside : (first + len + r / T - first) % len = r / T % len := by
    rw [Nat.add_assoc, Nat.add_sub_cancel_left, Nat.add_mod_left]
  change g (stepCount ticks (d + T * k + r)) = true ↔ _
  rw [index, at_first _ (Nat.le_add_right_of_le (Nat.le_add_right first len)), inside,
    Nat.add_sub_cancel_left, ← Nat.mod_mul_right_div_self, Nat.div_lt_iff_lt_mul pos,
    Nat.mul_comm high]

end

/-! ## Cycles -/

section
variable {α : Type} {f : α → α} {x : α}

theorem repeats_orbit (cycle : x ∈ periodicPts f) (m : Nat) :
    Repeats m (fun n => f^[n] x) ↔ minimalPeriod f x ∣ m := by
  have period (n : Nat) : f^[n + m] x = f^[n] x ↔ minimalPeriod f x ∣ m := by
    rw [← minimalPeriod_apply_iterate cycle n, ← isPeriodicPt_iff_minimalPeriod_dvd,
      Nat.add_comm, iterate_add_apply]
    exact Iff.rfl
  constructor
  · rintro ⟨start, same⟩
    exact (period start).mp (same start (Nat.le_refl _))
  · exact fun divides => ⟨0, fun n _ => (period n).mpr divides⟩

/-- Two times of a cycle have the same state if they are whole cycles apart. -/
theorem iterate_eq_iff (cycle : x ∈ periodicPts f) (i j : Nat) :
    f^[i] x = f^[j] x ↔ i ≡ j [MOD minimalPeriod f x] := by
  have pos := minimalPeriod_pos_of_mem_periodicPts cycle
  rw [← iterate_mod_minimalPeriod_eq, ← @iterate_mod_minimalPeriod_eq _ f x j,
    iterate_eq_iterate_iff_of_lt_minimalPeriod (Nat.mod_lt _ pos) (Nat.mod_lt _ pos)]
  exact Iff.rfl

variable [Fintype α] [DecidableEq α] {z : α}

omit [Fintype α] [DecidableEq α] in
theorem window_inj (cycle : x ∈ periodicPts f) (a : Nat) {i j : Nat}
    (hi : i < minimalPeriod f x) (hj : j < minimalPeriod f x)
    (same : f^[a + i] x = f^[a + j] x) : i = j := by
  have congruent := Nat.ModEq.add_left_cancel' a ((iterate_eq_iff cycle _ _).mp same)
  rwa [Nat.ModEq, Nat.mod_eq_of_lt hi, Nat.mod_eq_of_lt hj] at congruent

/-- A cycle as long as there are other states than `z` goes through all of them. -/
theorem window_eq (cycle : x ∈ periodicPts f) (full : minimalPeriod f x + 1 = Fintype.card α)
    (never : ∀ n, f^[n] x ≠ z) (a : Nat) :
    (Finset.range (minimalPeriod f x)).image (fun i => f^[a + i] x) = Finset.univ.erase z := by
  apply Finset.eq_of_subset_of_card_le
  · intro y hy
    obtain ⟨i, -, rfl⟩ := Finset.mem_image.mp hy
    exact Finset.mem_erase.mpr ⟨never _, Finset.mem_univ _⟩
  · rw [Finset.card_image_of_injOn, Finset.card_range, Finset.card_erase_of_mem (Finset.mem_univ z),
      Finset.card_univ, ← full, Nat.add_sub_cancel]
    intro i hi j hj same
    exact window_inj cycle a (Finset.mem_range.mp hi) (Finset.mem_range.mp hj) same

/-- How many of the states in a cycle, begun anywhere, have a property. -/
theorem window_card (cycle : x ∈ periodicPts f) (full : minimalPeriod f x + 1 = Fintype.card α)
    (never : ∀ n, f^[n] x ≠ z) (P : α → Prop) [DecidablePred P] (a : Nat) :
    ((Finset.range (minimalPeriod f x)).filter fun i => P (f^[a + i] x)).card =
      ((Finset.univ.erase z).filter P).card := by
  rw [← window_eq cycle full never a, Finset.filter_image, Finset.card_image_of_injOn]
  intro i hi j hj same
  have lti := Finset.mem_range.mp (Finset.mem_filter.mp hi).1
  have ltj := Finset.mem_range.mp (Finset.mem_filter.mp hj).1
  exact window_inj cycle a lti ltj same

end

/-! ## Shift registers -/

/-- `{q[w-1:0], b}`. -/
def shiftIn {w : Nat} (b : Bool) (q : BitVec (w + 1)) : BitVec (w + 1) :=
  q.extractLsb' 0 w ++ BitVec.ofBool b

section
variable {w : Nat} (serial : BitVec (w + 1) → Bool) (q : BitVec (w + 1))

theorem getLsbD_shiftIn (b : Bool) {i : Nat} (hi : i < w) :
    (shiftIn b q).getLsbD (i + 1) = q.getLsbD i := by
  rw [shiftIn, BitVec.getLsbD_append, if_neg (by omega), Nat.add_sub_cancel,
    BitVec.getLsbD_extractLsb', decide_eq_true hi, Nat.zero_add, Bool.true_and]

/-- A bit goes one place up at each step. -/
theorem getLsbD_iterate (n : Nat) {i : Nat} (hi : n + i ≤ w) :
    ((fun q => shiftIn (serial q) q)^[n] q).getLsbD (n + i) = q.getLsbD i := by
  induction n generalizing q with
  | zero => rw [iterate_zero, id_eq, Nat.zero_add]
  | succ n ih =>
    rw [iterate_succ_apply', Nat.add_right_comm, getLsbD_shiftIn _ _ (by omega)]
    exact ih q (by omega)

/-- The last bit of the next `w + 1` states tells the state. -/
theorem shift_tells {p : BitVec (w + 1)}
    (same : ∀ k, k < w + 1 → ((fun q => shiftIn (serial q) q)^[k] p).getLsbD w =
      ((fun q => shiftIn (serial q) q)^[k] q).getLsbD w) : p = q := by
  apply BitVec.eq_of_getLsbD_eq
  intro i hi
  have last := same (w - i) (by omega)
  have place : w - i + i = w := by omega
  have left := getLsbD_iterate serial p (w - i) (i := i) (by omega)
  have right := getLsbD_iterate serial q (w - i) (i := i) (by omega)
  rw [place] at left right
  rw [← left, ← right, last]

end

end Chiptune.Period
