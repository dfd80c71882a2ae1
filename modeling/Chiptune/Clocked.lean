import Mathlib.Logic.Function.Iterate

/-!
# Clocked machines

A machine is a step function on states, driven by a stream of inputs. The rules
here are the inductions that every run of a circuit in this project uses:

* `run_invariant`: what one step preserves holds along the run;
* `jumps`: what is carried from one rest point to the next holds at all of them;
* `agree_run`: two machines fed the same inputs stay related while a condition
  on the second one's steps holds;
* `agree_iff`: when the condition is also needed at every step, it is exactly
  the condition under which the runs stay in agreement.
-/

namespace Chiptune.Clocked

variable {ι σ τ : Type}

/-- The state after `n` steps. -/
def run (step : ι → σ → σ) (inputs : Nat → ι) (s : σ) : Nat → σ
  | 0 => s
  | n + 1 => step (inputs n) (run step inputs s n)

@[simp] theorem run_zero (step : ι → σ → σ) (inputs : Nat → ι) (s : σ) :
    run step inputs s 0 = s := rfl

theorem run_succ (step : ι → σ → σ) (inputs : Nat → ι) (s : σ) (n : Nat) :
    run step inputs s (n + 1) = step (inputs n) (run step inputs s n) := rfl

/-- A run continues from any of its states. -/
theorem run_add (step : ι → σ → σ) (inputs : Nat → ι) (s : σ) (m n : Nat) :
    run step inputs s (m + n) = run step (fun k => inputs (m + k)) (run step inputs s m) n := by
  induction n with
  | zero => rfl
  | succ n ih => rw [← Nat.add_assoc, run_succ, run_succ, ih]

/-- What holds at the start and is kept by every step within the rule on the
inputs holds in every state reached. -/
theorem run_invariant {step : ι → σ → σ} {inputs : Nat → ι} {Rule : ι → σ → Prop}
    {Inv : σ → Prop} {s : σ} {N : Nat} (start : Inv s)
    (keep : ∀ i s, Rule i s → Inv s → Inv (step i s))
    (rule : ∀ n, n < N → Rule (inputs n) (run step inputs s n)) :
    ∀ n, n ≤ N → Inv (run step inputs s n) := by
  intro n
  induction n with
  | zero => exact fun _ => start
  | succ n ih =>
    intro hn
    exact keep _ _ (rule n (by omega)) (ih (by omega))

/-- A property of the times at which something rests, carried from each of them over
times of unrest. -/
theorem jumps {Rest Good : Nat → Prop} (start : Good 0) (rests : ∀ n, Good n → Rest n)
    (jump : ∀ n, Good n → ∃ m, n < m ∧ Good m ∧ ∀ k, n < k → k < m → ¬ Rest k) (n : Nat)
    (rest : Rest n) : Good n := by
  -- the last good time so far, with unrest since
  have last : ∃ g ≤ n, Good g ∧ ∀ k, g < k → k ≤ n → ¬ Rest k := by
    clear rest
    induction n with
    | zero => exact ⟨0, Nat.le_refl 0, start, by omega⟩
    | succ n ih =>
      obtain ⟨g, le, good, unrest⟩ := ih
      obtain ⟨m, after, good', between⟩ := jump g good
      by_cases now : m = n + 1
      · subst now
        exact ⟨n + 1, Nat.le_refl _, good', by omega⟩
      · have late : n + 1 < m := by
          by_contra early
          exact unrest m after (by omega) (rests m good')
        exact ⟨g, by omega, good, fun k above hk => between k above (by omega)⟩
  obtain ⟨g, le, good, unrest⟩ := last
  obtain rfl | early : g = n ∨ g < n := by omega
  · exact good
  · exact absurd rest (unrest n early (Nat.le_refl n))

section Agreement
variable {κ : Type} {f : ι → σ → σ} {g : κ → τ → τ}
variable (Rel Obs : σ → τ → Prop) (Ok : κ → τ → Prop)
variable {inputs : Nat → ι} {feed : Nat → κ} {s : σ} {t : τ} {N : Nat}

/-- Two machines stay related as long as every step meets the condition. -/
theorem agree_run (start : Rel s t)
    (step : ∀ n, n < N → ∀ s, Rel s (run g feed t n) → Ok (feed n) (run g feed t n) →
      Rel (f (inputs n) s) (g (feed n) (run g feed t n)))
    (ok : ∀ n, n < N → Ok (feed n) (run g feed t n)) :
    ∀ n, n ≤ N → Rel (run f inputs s n) (run g feed t n) := by
  intro n
  induction n with
  | zero => exact fun _ => start
  | succ n ih =>
    intro hn
    exact step n (by omega) _ (ih (by omega)) (ok n (by omega))

/-- Two machines stay related as long as every pair of steps is fine; when that
is a condition on the second machine alone, the runs are fine up to `N`
exactly when every step of the second one meets it. -/
theorem agree_steps_iff (Fine : ι → σ → κ → τ → Prop) (start : Rel s t)
    (next : ∀ n, n < N → ∀ s, Rel s (run g feed t n) →
      Fine (inputs n) s (feed n) (run g feed t n) →
      Rel (f (inputs n) s) (g (feed n) (run g feed t n)))
    (meets : ∀ n, n < N → ∀ s, Rel s (run g feed t n) →
      (Fine (inputs n) s (feed n) (run g feed t n) ↔ Ok (feed n) (run g feed t n))) :
    (∀ n, n < N → Fine (inputs n) (run f inputs s n) (feed n) (run g feed t n)) ↔
      ∀ n, n < N → Ok (feed n) (run g feed t n) := by
  constructor
  · intro fine n hn
    have related : ∀ n, n ≤ N → Rel (run f inputs s n) (run g feed t n) := by
      intro n
      induction n with
      | zero => exact fun _ => start
      | succ n ih => exact fun hn => next n (by omega) _ (ih (by omega)) (fine n (by omega))
    exact (meets n hn _ (related n (by omega))).mp (fine n hn)
  · intro ok n hn
    have related := agree_run Rel Ok start
      (fun n hn s rel ok => next n hn s rel ((meets n hn s rel).mpr ok)) ok
    exact (meets n hn _ (related n (by omega))).mpr (ok n hn)

/-- **Exact agreement.** The relation `Rel` shows as the observation `Obs`, is
kept by a step that meets the condition, and a step that does not meet it can
be observed. So the runs agree up to `N` exactly when every step before `N`
meets the condition. -/
theorem agree_iff (start : Rel s t) (shows : ∀ s t, Rel s t → Obs s t)
    (step : ∀ n, n < N → ∀ s, Rel s (run g feed t n) → Ok (feed n) (run g feed t n) →
      Rel (f (inputs n) s) (g (feed n) (run g feed t n)))
    (broken : ∀ n, n < N → ∀ s, Rel s (run g feed t n) → ¬ Ok (feed n) (run g feed t n) →
      ¬ Obs (f (inputs n) s) (g (feed n) (run g feed t n))) :
    (∀ n, n ≤ N → Obs (run f inputs s n) (run g feed t n)) ↔
      ∀ n, n < N → Ok (feed n) (run g feed t n) := by
  have meets (n : Nat) (hn : n < N) (s : σ) (rel : Rel s (run g feed t n)) :
      Obs (f (inputs n) s) (g (feed n) (run g feed t n)) ↔ Ok (feed n) (run g feed t n) := by
    constructor
    · intro obs
      by_contra ok
      exact broken n hn s rel ok obs
    · exact fun ok => shows _ _ (step n hn s rel ok)
  rw [← agree_steps_iff Rel Ok (fun i s k t => Obs (f i s) (g k t)) start
    (fun n hn s rel obs => step n hn s rel ((meets n hn s rel).mp obs)) meets]
  constructor
  · exact fun obs n hn => obs (n + 1) hn
  · intro obs n hn
    cases n with
    | zero => exact shows _ _ start
    | succ n => exact obs n hn

end Agreement

end Chiptune.Clocked
