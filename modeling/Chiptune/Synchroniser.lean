import Mathlib.Data.List.Basic
import Mathlib.Tactic.Common

/-!
# A synchroniser with an edge detector

Two stages sample a level at each clock, and a pulse of one clock follows each rising
edge behind them. `once` says that a level that is high long enough gives one pulse.
-/

namespace Chiptune.Synchroniser

structure Detector where
  first : Bool
  sync : Bool
  prev : Bool
  pulse : Bool
  deriving DecidableEq

namespace Detector

/-- A clock that samples `level`. -/
def next (d : Detector) (level : Bool) : Detector where
  first := level
  sync := d.first
  prev := d.sync
  pulse := d.sync && !d.prev

def after (d : Detector) (levels : List Bool) : Detector := levels.foldl next d

/-- How many of the clocks meet a pulse. -/
def pulses (d : Detector) : List Bool → Nat
  | [] => 0
  | level :: rest => d.pulse.toNat + (d.next level).pulses rest

/-- Nothing is under way. -/
structure Quiet (d : Detector) : Prop where
  first : d.first = false
  sync : d.sync = false
  pulse : d.pulse = false

section
variable {d : Detector}

theorem after_append (front back : List Bool) :
    d.after (front ++ back) = (d.after front).after back := List.foldl_append

theorem pulses_append (front back : List Bool) :
    d.pulses (front ++ back) = d.pulses front + (d.after front).pulses back := by
  induction front generalizing d with
  | nil => exact (Nat.zero_add _).symm
  | cons level rest ih =>
    rw [List.cons_append, pulses, pulses, ih, Nat.add_assoc]
    rfl

/-- A low level keeps it quiet. -/
theorem low (quiet : d.Quiet) (n : Nat) :
    (d.after (List.replicate n false)).Quiet ∧ d.pulses (List.replicate n false) = 0 := by
  induction n generalizing d with
  | zero => exact ⟨quiet, rfl⟩
  | succ n ih =>
    have stays : (d.next false).Quiet := ⟨rfl, quiet.first, by simp [next, quiet.sync]⟩
    obtain ⟨later, none⟩ := ih stays
    rw [List.replicate_succ, pulses, none, quiet.pulse]
    exact ⟨later, rfl⟩

/-- Three clocks into a high level the pulse is there and has met no clock. -/
theorem high (quiet : d.Quiet) : d.after (List.replicate 3 true) = ⟨true, true, true, true⟩ ∧
    d.pulses (List.replicate 3 true) = 0 := by
  obtain ⟨first, sync, prev, pulse⟩ := d
  obtain ⟨rfl, rfl, rfl⟩ := quiet
  cases prev <;> decide

/-- From then on nothing happens until the level falls. -/
theorem held (n : Nat) : after ⟨true, true, true, false⟩ (List.replicate n true) =
      ⟨true, true, true, false⟩ ∧ pulses ⟨true, true, true, false⟩ (List.replicate n true) = 0 := by
  induction n with
  | zero => exact ⟨rfl, rfl⟩
  | succ n ih =>
    rw [List.replicate_succ, pulses]
    exact ⟨ih.1, (Nat.zero_add _).trans ih.2⟩

/-- **One pulse**, and quiet again, after three clocks or more of a high level and two or
more of a low one. -/
theorem once (quiet : d.Quiet) {n k : Nat} (three : 3 ≤ n) (two : 2 ≤ k) :
    (d.after (List.replicate n true ++ List.replicate k false)).Quiet ∧
      d.pulses (List.replicate n true ++ List.replicate k false) = 1 := by
  obtain ⟨m, rfl⟩ := Nat.exists_eq_add_of_le three
  obtain ⟨j, rfl⟩ := Nat.exists_eq_add_of_le two
  obtain ⟨up, none⟩ := high quiet
  rw [List.replicate_add, List.replicate_add, List.append_assoc, after_append, pulses_append, up,
    none]
  cases m with
  | zero =>
    have down : (after ⟨true, true, true, true⟩ (List.replicate 2 false)).Quiet := ⟨rfl, rfl, rfl⟩
    have pulse : pulses ⟨true, true, true, true⟩ (List.replicate 2 false) = 1 := rfl
    obtain ⟨later, rest⟩ := low down j
    rw [List.replicate_zero, List.nil_append, after_append, pulses_append, pulse, rest]
    exact ⟨later, rfl⟩
  | succ m =>
    obtain ⟨same, silent⟩ := held m
    have down : (after ⟨true, true, true, false⟩ (List.replicate 2 false)).Quiet := ⟨rfl, rfl, rfl⟩
    have none' : pulses ⟨true, true, true, false⟩ (List.replicate 2 false) = 0 := rfl
    have first : ∀ levels, after ⟨true, true, true, true⟩ (true :: levels) =
        after ⟨true, true, true, false⟩ levels := fun _ => rfl
    have pulse : ∀ levels, pulses ⟨true, true, true, true⟩ (true :: levels) =
        1 + pulses ⟨true, true, true, false⟩ levels := fun _ => rfl
    obtain ⟨later, rest⟩ := low down j
    rw [List.replicate_succ, List.cons_append, first, pulse, after_append, pulses_append, same,
      silent, after_append, pulses_append, none', rest]
    exact ⟨later, rfl⟩

end

end Detector

end Chiptune.Synchroniser
