import Mathlib.Data.List.Basic
import Mathlib.Tactic.Common

/-!
# What a run puts out

A machine that moves by events and puts out something with each of them. Where a part of
its state is moved by what it puts out and by nothing else, that part is the fold of the
outputs, at the end of a run (`view_run`) and at any time in it (`view_prefix`).
-/

namespace Chiptune.Trace

section
variable {σ ε ο : Type} (step : σ → ε → σ) (emits : σ → ε → List ο)

def outputs (s : σ) : List ε → List ο
  | [] => []
  | e :: rest => emits s e ++ outputs (step s e) rest

variable {step emits}

theorem outputs_append (s : σ) (front back : List ε) :
    outputs step emits s (front ++ back) =
      outputs step emits s front ++ outputs step emits (front.foldl step s) back := by
  induction front generalizing s with
  | nil => rfl
  | cons e rest ih =>
    rw [List.cons_append, outputs, outputs, ih, List.append_assoc]
    rfl

section
variable {α : Type} (view : σ → α) {act : α → ο → α} {Good : σ → Prop} {Fine : ε → Prop}
  (stays : ∀ s e, Good s → Fine e → Good (step s e))
  (moved : ∀ s e, Good s → Fine e → view (step s e) = (emits s e).foldl act (view s))

include stays moved

theorem view_run {s : σ} (good : Good s) (es : List ε) (fine : ∀ e ∈ es, Fine e) :
    view (es.foldl step s) = (outputs step emits s es).foldl act (view s) := by
  induction es generalizing s with
  | nil => rfl
  | cons e rest ih =>
    have here := fine e List.mem_cons_self
    have later := ih (stays s e good here) fun k mem => fine k (List.mem_cons_of_mem e mem)
    rw [List.foldl_cons, later, outputs, List.foldl_append, moved s e good here]

theorem view_prefix {s : σ} (good : Good s) {es : List ε} (fine : ∀ e ∈ es, Fine e) {outs : List ο}
    (all : outputs step emits s es = outs) (n : Nat) :
    ∃ m, view ((es.take n).foldl step s) = (outs.take m).foldl act (view s) := by
  have parts := @outputs_append _ _ _ step emits s (es.take n) (es.drop n)
  rw [List.take_append_drop, all] at parts
  refine ⟨(outputs step emits s (es.take n)).length, ?_⟩
  rw [view_run view stays moved good _ fun e mem => fine e (List.mem_of_mem_take mem), parts,
    List.take_left]

end

end

end Chiptune.Trace
