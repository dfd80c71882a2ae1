import Mathlib.Algebra.Ring.Int.Defs
import Mathlib.Data.List.Basic
import Mathlib.Tactic.Common

/-!
# Places on an axis

The entries of a list one behind the other, each as long as a mode that the entries
before it leave says. `together_iff` compares two measures of the same list: they put
every counted entry at one place exactly if they agree on the entries that a counted one
follows, so no two differences can cancel.
-/

namespace Chiptune.Axis

section
variable {σ α : Type} (next : σ → α → σ) (len other : σ → α → Int)

/-- The length of a list from a mode on. -/
def total (s : σ) : List α → Int
  | [] => 0
  | a :: rest => len s a + total (next s a) rest

@[simp] theorem total_nil (s : σ) : total next len s [] = 0 := rfl

@[simp] theorem total_cons (s : σ) (a : α) (rest : List α) :
    total next len s (a :: rest) = len s a + total next len (next s a) rest := rfl

theorem total_append (s : σ) (front back : List α) :
    total next len s (front ++ back) =
      total next len s front + total next len (front.foldl next s) back := by
  induction front generalizing s with
  | nil => simp
  | cons a rest ih => simp only [List.cons_append, total_cons, ih, List.foldl_cons, Int.add_assoc]

variable {next len other}

theorem total_congr {s : σ} {entries : List α}
    (same : ∀ before a after, entries = before ++ a :: after →
      len (before.foldl next s) a = other (before.foldl next s) a) :
    total next len s entries = total next other s entries := by
  induction entries generalizing s with
  | nil => rfl
  | cons a rest ih =>
    have first : len s a = other s a := same [] a rest rfl
    have later : total next len (next s a) rest = total next other (next s a) rest := by
      apply ih
      intro before b after split
      exact same (a :: before) b after (by rw [split, List.cons_append])
    rw [total_cons, total_cons, first, later]

variable {counts : α → Prop}

theorem first_counted {entries : List α} (some : ∃ b ∈ entries, counts b) :
    ∃ before b after, entries = before ++ b :: after ∧ counts b ∧ ∀ a ∈ before, ¬ counts a := by
  induction entries with
  | nil => obtain ⟨b, mem, -⟩ := some; cases mem
  | cons a rest ih =>
    by_cases here : counts a
    · exact ⟨[], a, rest, rfl, here, fun _ mem => absurd mem List.not_mem_nil⟩
    · have later : ∃ b ∈ rest, counts b := by
        obtain ⟨b, mem, counted⟩ := some
        rcases List.mem_cons.mp mem with rfl | mem
        · exact absurd counted here
        · exact ⟨b, mem, counted⟩
      obtain ⟨before, b, after, split, counted, none⟩ := ih later
      refine ⟨a :: before, b, after, by rw [split, List.cons_append], counted, ?_⟩
      intro x mem
      rcases List.mem_cons.mp mem with rfl | mem
      · exact here
      · exact none x mem

/-- **The places agree exactly if the lengths do.** -/
theorem together_iff {s : σ} {entries : List α}
    (skips : ∀ s a, ¬ counts a → len s a = other s a) :
    (∀ before a after, entries = before ++ a :: after → counts a →
        total next len s before = total next other s before) ↔
      ∀ before a after, entries = before ++ a :: after → (∃ b ∈ after, counts b) →
        len (before.foldl next s) a = other (before.foldl next s) a := by
  constructor
  · intro together before a after split later
    by_cases counted : counts a
    · obtain ⟨mid, b, rest, rfl, last, between⟩ := first_counted later
      have here := together before a _ split counted
      have there := together (before ++ a :: mid) b rest (by rw [split]; simp) last
      have silent : total next len (next (before.foldl next s) a) mid =
          total next other (next (before.foldl next s) a) mid := by
        apply total_congr
        intro front x back part
        exact skips _ x (between x (by rw [part]; simp))
      rw [total_append, total_append, total_cons, total_cons, silent, here] at there
      omega
    · exact skips _ a counted
  · intro same before a after split counted
    apply total_congr
    intro front x back part
    apply same front x (back ++ a :: after)
    · rw [split, part, List.append_assoc, List.cons_append]
    · exact ⟨a, by simp, counted⟩

theorem total_eq_sum (g : α → Int) (entries : List α) :
    total (fun (_ : Unit) _ => ()) (fun _ => g) () entries = (entries.map g).sum := by
  induction entries with
  | nil => rfl
  | cons a rest ih => rw [total_cons, ih, List.map_cons, List.sum_cons]

/-- An excess that is never there at a counted entry never arises before one. -/
theorem excess_iff {g : α → Int} {entries : List α} (skips : ∀ a, ¬ counts a → g a = 0) :
    (∀ before a after, entries = before ++ a :: after → counts a → (before.map g).sum = 0) ↔
      ∀ before a after, entries = before ++ a :: after → (∃ b ∈ after, counts b) → g a = 0 := by
  have nothing : ∀ l : List α, (l.map fun _ => (0 : Int)).sum = 0 := by
    intro l
    induction l with
    | nil => rfl
    | cons a rest ih => rw [List.map_cons, List.sum_cons, ih, Int.add_zero]
  have both := @together_iff Unit α (fun _ _ => ()) (fun _ => g) (fun _ _ => 0) counts () entries
    (fun _ a none => skips a none)
  simpa only [total_eq_sum, nothing] using both

end

end Chiptune.Axis
