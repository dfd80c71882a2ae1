import Chiptune.Psg3.UniSteps

/-!
# The waveform from any state

The waveform channel with the registers held, started in whatever state earlier register
contents left it. `waveform_periodic` says what it plays from the first reload on. For the
triangle the value and the direction together are a place in a cycle of 30
(`Wave.place`), and each step moves one place on, whatever the place.
-/

namespace Chiptune.Psg3

open Divider

/-- The triangle of 30 steps, from 0 up. -/
def triangle (i : Nat) : BitVec 4 := BitVec.ofNat 4 (if i % 30 ≤ 15 then i % 30 else 30 - i % 30)

/-- The values of a waveform, step by step. The triangle comes to its first extreme within
15 steps and repeats from there. -/
def Shape (w : BitVec 2) (value : Nat → BitVec 4) : Prop :=
  if w = 1 then
    ∃ j ≤ 15, (∀ i < j, value i ≠ 0 ∧ value i ≠ 15) ∧
      ∃ extreme, (extreme = 0 ∨ extreme = 15) ∧ ∀ i, value (j + i) = triangle (extreme + i)
  else if w = 3 then ∀ k, value k = value 0 - BitVec.ofNat 4 k
  else ∀ k, value k = value 0 + BitVec.ofNat 4 k

/-! ## The triangle's cycle -/

theorem triangle_mod (i : Nat) : triangle (i % 30) = triangle i := by
  rw [triangle, Nat.mod_mod, triangle]

theorem triangle_extreme (i : Nat) : triangle i = 0 ∨ triangle i = 15 ↔ 15 ∣ i := by
  have every : ∀ p < 30, (triangle p = 0 ∨ triangle p = 15 ↔ p % 15 = 0) := by decide
  have one := every (i % 30) (Nat.mod_lt _ (by decide))
  rw [triangle_mod] at one
  rw [one]
  omega

namespace Wave
variable (w : BitVec 2) (s : Wave)

/-- The place in the cycle from which the next step goes on. -/
def place : Nat := if s.down then (30 - s.q.toNat) % 30 else s.q.toNat

theorem triangle_place : triangle s.place = s.q := by
  have every (down : Bool) : ∀ q : BitVec 4, triangle (place ⟨q, down⟩) = q := by
    cases down <;> decide
  exact every s.down s.q

theorem place_next : (s.next 1).place = (s.place + 1) % 30 := by
  have every (down : Bool) : ∀ q : BitVec 4,
      (next 1 ⟨q, down⟩).place = (place ⟨q, down⟩ + 1) % 30 := by
    cases down <;> decide
  exact every s.down s.q

/-- `s` and the steps from it. -/
def steps (k : Nat) : Wave := (next w)^[k] s

theorem steps_succ (k : Nat) : s.steps w (k + 1) = (s.steps w k).next w :=
  Function.iterate_succ_apply' _ _ _

theorem steps_triangle (k : Nat) : (s.steps 1 k).q = triangle (s.place + k) := by
  have place (k : Nat) : (s.steps 1 k).place % 30 = (s.place + k) % 30 := by
    induction k with
    | zero => rfl
    | succ k ih =>
      rw [steps_succ, place_next]
      omega
  rw [← triangle_place, ← triangle_mod, place, triangle_mod]

theorem shape_triangle : Shape 1 fun k => (s.steps 1 k).q := by
  rw [Shape, if_pos rfl]
  refine ⟨(15 - s.place % 15) % 15, by omega, ?_, (s.place + (15 - s.place % 15) % 15) % 30,
    by omega, ?_⟩
  · intro i before
    have inside : ¬15 ∣ s.place + i := by omega
    rw [steps_triangle]
    rw [← triangle_extreme] at inside
    exact not_or.mp inside
  · intro i
    rw [steps_triangle, ← triangle_mod, ← triangle_mod (_ % 30 + i), Nat.mod_add_mod, Nat.add_assoc]

/-! ## One direction -/

theorem shape_single (ne : w ≠ 1) : Shape w fun k => (s.steps w k).q := by
  have step (t : Wave) : (t.next w).q = if w = 3 then t.q - 1 else t.q + 1 := by
    rw [next, if_neg ne]
  rw [Shape, if_neg ne]
  split
  · rename_i reverse
    intro k
    induction k with
    | zero => exact (BitVec.sub_zero _).symm
    | succ k ih =>
      rw [steps_succ, step, if_pos reverse, ih, BitVec.ofNat_add]
      bv_omega
  · rename_i forward
    intro k
    induction k with
    | zero => exact (BitVec.add_zero _).symm
    | succ k ih =>
      rw [steps_succ, step, if_neg forward, ih, BitVec.ofNat_add]
      exact BitVec.add_assoc ..

theorem shape_steps : Shape w fun k => (s.steps w k).q := by
  by_cases tri : w = 1
  · subst tri
    exact s.shape_triangle
  · exact s.shape_single w tri

end Wave

/-! ## Runs -/

namespace Uni
variable (v : Voice) (u : Uni)

def runFrom (n : Nat) : Uni := Clocked.run (fun (_ : Unit) u => Uni.clock v u) (fun _ => ()) u n

/-- The clock loads the period counter. -/
def reloads (n : Nat) : Bool := (u.runFrom v n).freqTc

theorem runFrom_add (m n : Nat) : u.runFrom v (m + n) = (u.runFrom v m).runFrom v n :=
  Clocked.run_add _ _ _ _ _

theorem reloads_every : StepsEvery (4096 - v.period12.toNat) (u.reloads v) := by
  have full (u : Uni) : u.freqTc = (u.cnt == BitVec.allOnes 12) := by
    have tc := u.freqTc_iff
    rw [Bool.eq_iff_iff, tc, beq_iff_eq, ← BitVec.toNat_inj]
    rfl
  have every := @full_stepsEvery 12 v.period12 (fun n => (u.runFrom v n).cnt) <| by
    intro n
    have step := (u.runFrom v n).cntNext_eq v
    simp only [full, beq_iff_eq] at step
    exact step
  have same : u.reloads v = fun n => (u.runFrom v n).cnt == BitVec.allOnes 12 := by
    funext n
    exact full (u.runFrom v n)
  rw [same]
  exact every

/-- From any state, the hardware shows some place in the waveform after a clock. -/
theorem clock_settles : Shows v (u.clock v) ⟨(u.posedge v).q, (u.posedge v).dirQ⟩ :=
  negedge_shows rfl fun _ => rfl

variable {v u} {s : Wave}

theorem runFrom_shows (shows : Shows v u s) (n : Nat) :
    Shows v (u.runFrom v n) (s.steps v.waveSel (stepCount (u.reloads v) n)) := by
  induction n with
  | zero => exact shows
  | succ n ih =>
    have next := clock_shows ih
    have tc : u.reloads v n = (u.runFrom v n).freqTc := rfl
    rw [stepCount, tc]
    cases now : (u.runFrom v n).freqTc with
    | false =>
      rw [now] at next
      exact next
    | true =>
      rw [now] at next
      rw [Bool.toNat_true, Wave.steps_succ]
      exact next

end Uni

/-- **The waveform is periodic.** From any state of the channel, with the registers held:
the counter reloads, and from a reload on the waveform and its filtered copy make a step of
the selected shape every `4096 - period12` clocks. -/
theorem waveform_periodic (v : Voice) (u : Uni) :
    (∃ r, u.reloads v r = true) ∧ ∀ r, u.reloads v r = true → ∃ value, Shape v.waveSel value ∧
      ∀ n, (u.runFrom v (r + 1 + n)).q = value (n / (4096 - v.period12.toNat)) ∧
        (u.runFrom v (r + 1 + n)).waveClean = value (n / (4096 - v.period12.toNat)) := by
  have every := u.reloads_every v
  constructor
  · obtain ⟨first, hf⟩ := every
    exact ⟨first, (hf first).mpr ⟨Nat.le_refl _, by simp⟩⟩
  · intro r here
    obtain ⟨s, settled⟩ : ∃ s, Uni.Shows v (u.runFrom v (r + 1)) s :=
      ⟨_, Uni.clock_settles v (u.runFrom v r)⟩
    refine ⟨_, s.shape_steps v.waveSel, fun n => ?_⟩
    have since : ∀ n, (u.runFrom v (r + 1)).reloads v n = true ↔
        4096 - v.period12.toNat ∣ n + 1 := by
      intro n
      have now := every.from_step here (by omega : r ≤ r + 1 + n)
      rw [Uni.reloads, Uni.runFrom_add, show r + 1 + n - r = n + 1 by omega] at now
      exact now
    have shows := Uni.runFrom_shows settled n
    rw [← stepCount_every since, Uni.runFrom_add]
    exact ⟨shows.q, shows.clean⟩

/-- A triangle at the shortest period, with the direction left over by a sawtooth. -/
theorem waveform_leftover :
    ∃ value, Shape 1 value ∧ ∀ n,
      (Uni.runFrom ⟨4095, 1, 15, false, 15⟩ ⟨4095, 15, false, 15⟩ (0 + 1 + n)).q =
          value (n / 1) ∧
        (Uni.runFrom ⟨4095, 1, 15, false, 15⟩ ⟨4095, 15, false, 15⟩ (0 + 1 + n)).waveClean =
          value (n / 1) :=
  (waveform_periodic ⟨4095, 1, 15, false, 15⟩ ⟨4095, 15, false, 15⟩).2 0 rfl

end Chiptune.Psg3
