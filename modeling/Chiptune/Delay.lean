import Mathlib.Data.Nat.Init
import Mathlib.Tactic.Common

/-!
# Delays

Two kinds of delay, in time that goes by ticks. A net behind an inertial delay takes its input
when that has been steady for the delay: it shows a steady input from the delay on until
the delay after its end (`Net.window`). A part that waits in front of what it does misses the
calls that come while it waits (`timer_started`, `timer_origin`).
-/

namespace Chiptune.Delay

/-- What a net shows, and in how many ticks it takes its input, or zero. -/
structure Net (α : Type) where
  out : α
  left : Nat

section
variable {α : Type}

/-- What it shows after a tick, with the input `x` before it. -/
def Net.shown (n : Net α) (x : α) : α := if n.left = 1 then x else n.out

/-- A tick that takes the input from `old` to `new`. -/
def Net.step [DecidableEq α] (d : Nat) (n : Net α) (old new : α) : Net α where
  out := n.shown old
  left := if new = old then n.left - 1 else if new = n.shown old then 0 else d

/-- It shows its input, or it will. -/
structure Net.Follows (n : Net α) (d : Nat) (x : α) : Prop where
  soon : n.left ≤ d
  there : n.left = 0 → n.out = x

theorem Net.follows_rest {d : Nat} {n : Net α} {x : α} (rests : n = ⟨x, 0⟩) :
    n.Follows d x := by
  rw [rests]
  exact ⟨Nat.zero_le _, fun _ => rfl⟩

section
variable [DecidableEq α] {d : Nat} {n : Net α} {old new : α}

theorem Net.follows_step (wait : 0 < d) (follows : n.Follows d old) :
    (n.step d old new).Follows d new := by
  obtain ⟨soon, there⟩ := follows
  constructor
  · simp only [Net.step]
    split_ifs <;> omega
  · intro none
    by_cases same : new = old
    · subst same
      rw [Net.step, if_pos rfl] at none
      change n.shown new = new
      rw [Net.shown]
      split_ifs with last
      · rfl
      · exact there (by change n.left - 1 = 0 at none; omega)
    · by_cases shows : new = n.shown old
      · exact shows.symm
      · rw [Net.step, if_neg same, if_neg shows] at none
        change d = 0 at none
        omega

end

/-! ## A net in a run -/

section
variable [DecidableEq α] {d : Nat} (net : Nat → Net α) (x : Nat → α)
  (moves : ∀ t, net (t + 1) = (net t).step d (x t) (x (t + 1)))
  (first : (net 0).Follows d (x 0)) (wait : 0 < d)

include moves first wait

theorem Net.follows_run (t : Nat) : (net t).Follows d (x t) := by
  induction t with
  | zero => exact first
  | succ t ih =>
    rw [moves]
    exact follows_step wait ih

/-- A steady input counts the delay down. -/
theorem Net.settles {v : α} {a : Nat} (m : Nat) (steady : ∀ t, a ≤ t → t ≤ a + m → x t = v) :
    (net (a + m)).left ≤ d - m := by
  induction m with
  | zero => exact (Net.follows_run net x moves first wait a).soon
  | succ m ih =>
    have before := ih fun t low high => steady t low (by omega)
    have same : x (a + m + 1) = x (a + m) :=
      (steady (a + m + 1) (by omega) (by omega)).trans (steady (a + m) (by omega) (by omega)).symm
    rw [← Nat.add_assoc, moves, Net.step, if_pos same]
    change (net (a + m)).left - 1 ≤ _
    omega

/-- What a settled net shows stays for the delay, whatever its input does. -/
theorem Net.lags {b : Nat} (settled : (net b).left = 0) (m : Nat) (late : m ≤ d) :
    (net (b + m)).out = x b ∧
      ((net (b + m)).left = 0 ∧ x (b + m) = x b ∨ d < (net (b + m)).left + m) := by
  induction m with
  | zero => exact ⟨(Net.follows_run net x moves first wait b).there settled, .inl ⟨settled, rfl⟩⟩
  | succ m ih =>
    obtain ⟨shows, left⟩ := ih (by omega)
    have early : (net (b + m)).left ≠ 1 := by omega
    have still : (net (b + m)).shown (x (b + m)) = x b := by
      rw [Net.shown, if_neg early, shows]
    rw [← Nat.add_assoc, moves, Net.step, still]
    refine ⟨rfl, ?_⟩
    dsimp only
    by_cases same : x (b + m + 1) = x (b + m)
    · rw [if_pos same]
      obtain ⟨none, back⟩ | far := left
      · exact .inl ⟨by omega, same.trans back⟩
      · exact .inr (by omega)
    · rw [if_neg same]
      by_cases back : x (b + m + 1) = x b
      · rw [if_pos back]
        exact .inl ⟨rfl, back⟩
      · rw [if_neg back]
        exact .inr (by omega)

/-- **A steady input shows** from the delay on until the delay after its end. -/
theorem Net.window {v : α} {a b : Nat} (steady : ∀ t, a ≤ t → t ≤ b → x t = v) {t : Nat}
    (long : a + d ≤ b) (low : a + d ≤ t) (high : t ≤ b + d) : (net t).out = v := by
  have settled (u : Nat) (from_a : a + d ≤ u) (to_b : u ≤ b) : (net u).left = 0 := by
    have left := Net.settles net x moves first wait (u - a) (v := v) (a := a) fun t l h =>
      steady t l (by omega)
    rw [show a + (u - a) = u by omega] at left
    omega
  by_cases inside : t ≤ b
  · have shows := (Net.follows_run net x moves first wait t).there (settled t low inside)
    exact shows.trans (steady t (by omega) inside)
  · have shows := (Net.lags net x moves first wait (settled b long (Nat.le_refl b)) (t - b)
      (by omega)).1
    rw [show b + (t - b) = t by omega] at shows
    exact shows.trans (steady b (by omega) (Nat.le_refl b))

omit first wait in
/-- A net shows nothing but what was there or came in. -/
theorem Net.among (P : α → Prop) {a b : Nat} (here : P (net a).out)
    (feeds : ∀ t, a ≤ t → t < b → P (x t)) {t : Nat} (low : a ≤ t) (high : t ≤ b) :
    P (net t).out := by
  induction t, low using Nat.le_induction with
  | base => exact here
  | succ t low ih =>
    rw [moves, Net.step, Net.shown]
    dsimp only
    split
    · exact feeds t low (by omega)
    · exact ih (by omega)

end

end

/-! ## A part that waits -/

/-- The wait after a tick, with a call or without one: the wait is over with its last tick,
and it can begin again at once. -/
def timer (d wait : Nat) (call : Bool) : Nat := if call && decide (wait ≤ 1) then d else wait - 1

section
variable {d : Nat} (wait : Nat → Nat) (call : Nat → Bool)
  (moves : ∀ t, wait (t + 1) = timer d (wait t) (call (t + 1)))

include moves

/-- A call that finds it free starts a wait of the whole delay. -/
theorem timer_started {t : Nat} (free : wait t ≤ 1) (calls : call (t + 1) = true) (m : Nat)
    (inside : m < d) : wait (t + 1 + m) = d - m := by
  induction m with
  | zero =>
    rw [Nat.add_zero, moves, timer, calls]
    simp [free]
  | succ m ih =>
    have before := ih (by omega)
    rw [← Nat.add_assoc, moves, timer, before]
    have busy : ¬d - m ≤ 1 := by omega
    simp only [busy, decide_false, Bool.and_false, Bool.false_eq_true, ↓reduceIte]
    omega

/-- It waits because of a call. -/
theorem timer_origin (idle : wait 0 = 0) {t : Nat} (waits : 0 < wait t) :
    ∃ s, s < t ∧ call (s + 1) = true ∧ wait s ≤ 1 ∧ wait t + t = s + 1 + d := by
  induction t with
  | zero => omega
  | succ t ih =>
    rw [moves, timer] at waits ⊢
    by_cases starts : (call (t + 1) && decide (wait t ≤ 1)) = true
    · rw [if_pos starts]
      rw [Bool.and_eq_true, decide_eq_true_eq] at starts
      exact ⟨t, by omega, starts.1, starts.2, by omega⟩
    · rw [if_neg starts] at waits ⊢
      obtain ⟨s, before, calls, free, sum⟩ := ih (by omega)
      exact ⟨s, by omega, calls, free, by omega⟩

end

end Chiptune.Delay
