import Mathlib.Data.List.Basic
import Mathlib.Logic.Function.Basic
import Mathlib.Order.Lattice
import Mathlib.Tactic.Common

/-!
# Replaying timed writes

Writes to keys, each at a time.

* `leftAt` is what the writes up to a time leave under a key. `leftAt_suppress`: writes
  that repeat the value of their key leave nothing else. `leftAt_byTime`: a stable sort by
  time keeps what the writes of a key leave, if these are in order.
* `look` is a player that looks at a clock and writes one at a time what is due. Where
  nothing is due any more it has written what there was (`play_leftAt`), and that is
  where it comes to (`settles`).
-/

namespace Chiptune.Replay

variable {ε κ ν τ : Type} [LinearOrder τ] [DecidableEq κ]
variable (time : ε → τ) (key : ε → κ) (value : ε → ν)

def leftAt (t : τ) (k : κ) (es : List ε) : Option ν :=
  ((es.filter fun e => key e = k ∧ time e ≤ t).getLast?).map value

def store (regs : κ → ν) (es : List ε) : κ → ν :=
  es.foldl (fun regs e => Function.update regs (key e) (value e)) regs

section
variable {time key value}

@[simp] theorem leftAt_nil (t : τ) (k : κ) : leftAt time key value t k [] = none := rfl

theorem leftAt_cons (t : τ) (k : κ) (e : ε) (es : List ε) :
    leftAt time key value t k (e :: es) =
      if key e = k ∧ time e ≤ t then (leftAt time key value t k es).or (some (value e))
      else leftAt time key value t k es := by
  by_cases due : key e = k ∧ time e ≤ t
  · simp only [leftAt, due, and_self, decide_true, List.filter_cons_of_pos, if_true,
      List.getLast?_cons]
    cases (es.filter fun e => key e = k ∧ time e ≤ t).getLast? <;> rfl
  · rw [if_neg due, leftAt, List.filter_cons_of_neg (by simpa using due)]
    rfl

theorem leftAt_append_of_forall {t : τ} {k : κ} (es : List ε) {fs : List ε}
    (other : ∀ e ∈ fs, key e ≠ k) :
    leftAt time key value t k (es ++ fs) = leftAt time key value t k es := by
  have none : (fs.filter fun e => key e = k ∧ time e ≤ t) = [] := by
    rw [List.filter_eq_nil_iff]
    intro e he
    simp [other e he]
  rw [leftAt, List.filter_append, none, List.append_nil, leftAt]

theorem leftAt_map {μ : Type} {value' : ε → μ} {g : ν → μ} {k : κ}
    (maps : ∀ e, key e = k → value' e = g (value e)) (t : τ) (es : List ε) :
    leftAt time key value' t k es = (leftAt time key value t k es).map g := by
  induction es with
  | nil => rfl
  | cons e es ih =>
    rw [leftAt_cons, leftAt_cons, ih]
    split
    · rename_i due
      rw [maps e due.1]
      cases leftAt time key value t k es <;> rfl
    · rfl

theorem leftAt_of_forall_lt {t : τ} {es : List ε} (later : ∀ e ∈ es, t < time e) (k : κ) :
    leftAt time key value t k es = none := by
  induction es with
  | nil => rfl
  | cons e es ih =>
    rw [List.forall_mem_cons] at later
    rw [leftAt_cons, if_neg fun due => absurd due.2 (not_le.mpr later.1), ih later.2]

theorem store_apply (regs : κ → ν) (es : List ε) (k : κ) :
    store key value regs es k =
      (((es.filter fun e => key e = k).getLast?).map value).getD (regs k) := by
  induction es generalizing regs with
  | nil => rfl
  | cons e es ih =>
    rw [store, List.foldl_cons, ← store, ih]
    by_cases mine : key e = k
    · rw [List.filter_cons_of_pos (by simpa using mine), List.getLast?_cons, ← mine,
        Function.update_self]
      cases (es.filter fun e' => key e' = key e).getLast? <;> rfl
    · rw [List.filter_cons_of_neg (by simpa using mine),
        Function.update_of_ne (Ne.symm mine)]

/-! ## Repeated writes -/

section
variable [DecidableEq ν]

variable (key value) in
/-- Drops the writes of the value that their key has. -/
def suppress (last : κ → Option ν) : List ε → List ε
  | [] => []
  | e :: es =>
    if last (key e) = some (value e) then suppress last es
    else e :: suppress (Function.update last (key e) (some (value e))) es

theorem suppress_sublist (last : κ → Option ν) (es : List ε) :
    (suppress key value last es).Sublist es := by
  induction es generalizing last with
  | nil => exact .slnil
  | cons e es ih =>
    rw [suppress]
    split
    · exact (ih last).cons e
    · exact (ih _).cons_cons e

/-- For writes in order of time. -/
theorem leftAt_suppress (last : κ → Option ν) {es : List ε}
    (ordered : es.Pairwise fun a b => time a ≤ time b) (t : τ) (k : κ) :
    (leftAt time key value t k (suppress key value last es)).or (last k) =
      (leftAt time key value t k es).or (last k) := by
  induction es generalizing last with
  | nil => rfl
  | cons e es ih =>
    rw [List.pairwise_cons] at ordered
    obtain ⟨first, ordered⟩ := ordered
    rw [suppress]
    split
    · rename_i same
      rw [ih last ordered, leftAt_cons]
      split
      · rename_i due
        rw [← due.1, same]
        cases leftAt time key value t (key e) es <;> rfl
      · rfl
    · have rest := ih (Function.update last (key e) (some (value e))) ordered
      rw [leftAt_cons, leftAt_cons]
      by_cases mine : key e = k
      · by_cases due : time e ≤ t
        · rw [if_pos ⟨mine, due⟩, if_pos ⟨mine, due⟩]
          rw [← mine, Function.update_self] at rest
          rw [← mine, rest]
        · -- nothing behind `e` is due either
          have later : ∀ e' ∈ es, t < time e' := fun e' he' =>
            lt_of_lt_of_le (not_le.mp due) (first e' he')
          rw [if_neg fun h => due h.2, if_neg fun h => due h.2, leftAt_of_forall_lt later,
            leftAt_of_forall_lt fun e' he' => later e' ((suppress_sublist _ es).mem he')]
      · rw [if_neg fun h => mine h.1, if_neg fun h => mine h.1]
        rwa [Function.update_of_ne (Ne.symm mine)] at rest

end

/-! ## Sorting -/

variable (time) in
/-- Stable. -/
def byTime (es : List ε) : List ε := es.mergeSort fun a b => time a ≤ time b

theorem filter_byTime {p : ε → Bool} {es : List ε}
    (ordered : (es.filter p).Pairwise fun a b => time a ≤ time b) :
    (byTime time es).filter p = es.filter p := by
  have kept : (es.filter p).Sublist (byTime time es) := by
    refine List.sublist_mergeSort (fun a b c hab hbc => ?_) (fun a b => ?_)
      (ordered.imp fun h => by simpa using h) List.filter_sublist
    · simp only [decide_eq_true_eq] at hab hbc ⊢
      exact le_trans hab hbc
    · simpa using le_total (time a) (time b)
  have sub := kept.filter p
  simp only [List.filter_filter, Bool.and_self] at sub
  exact (sub.eq_of_length ((List.mergeSort_perm es _).filter p).length_eq.symm).symm

theorem byTime_ordered (es : List ε) : (byTime time es).Pairwise fun a b => time a ≤ time b := by
  have sorted : (byTime time es).Pairwise fun a b => decide (time a ≤ time b) = true := by
    refine List.pairwise_mergeSort (fun a b c hab hbc => ?_) (fun a b => ?_) es
    · simp only [decide_eq_true_eq] at hab hbc ⊢
      exact le_trans hab hbc
    · simpa using le_total (time a) (time b)
  exact sorted.imp fun h => by simpa using h

theorem leftAt_byTime {k : κ} {es : List ε}
    (ordered : (es.filter fun e => key e = k).Pairwise fun a b => time a ≤ time b) (t : τ) :
    leftAt time key value t k (byTime time es) = leftAt time key value t k es := by
  rw [leftAt, filter_byTime, leftAt]
  have both : (es.filter fun e => key e = k ∧ time e ≤ t) =
      (es.filter fun e => key e = k).filter fun e => time e ≤ t := by
    rw [List.filter_filter]
    congr 1
    funext e
    simp [Bool.and_comm]
  rw [both]
  exact ordered.filter _

end

/-! ## The player -/

/-- The writes that are left, and what the others left. -/
structure Player (ε κ ν : Type) where
  rest : List ε
  regs : κ → ν

/-- One look at a clock that shows `now`. -/
def look (s : Player ε κ ν) (now : τ) : Player ε κ ν :=
  match s.rest with
  | [] => s
  | e :: rest =>
    if now < time e then s else ⟨rest, Function.update s.regs (key e) (value e)⟩

def play (s : Player ε κ ν) (clock : List τ) : Player ε κ ν := clock.foldl (look time key value) s

/-- Nothing more is due at `t`. -/
def Settled (t : τ) (s : Player ε κ ν) : Prop := ∀ e ∈ s.rest.head?, t < time e

section
variable {time key value}

/-- Looks up to a time write a front of what is due by then. -/
theorem play_front {t : τ} {clock : List τ} (upTo : ∀ now ∈ clock, now ≤ t)
    (s : Player ε κ ν) :
    ∃ front, s.rest = front ++ (play time key value s clock).rest ∧ (∀ e ∈ front, time e ≤ t) ∧
      (play time key value s clock).regs = store key value s.regs front := by
  induction clock generalizing s with
  | nil => exact ⟨[], rfl, by simp, rfl⟩
  | cons now clock ih =>
    rw [List.forall_mem_cons] at upTo
    obtain ⟨front, rest, due, regs⟩ := ih upTo.2 (look time key value s now)
    rw [play, List.foldl_cons, ← play]
    cases all : s.rest with
    | nil =>
      have same : look time key value s now = s := by simp only [look, all]
      rw [same] at rest regs ⊢
      exact ⟨front, all ▸ rest, due, regs⟩
    | cons e es =>
      by_cases early : now < time e
      · have same : look time key value s now = s := by simp only [look, all, early, if_true]
        rw [same] at rest regs ⊢
        exact ⟨front, all ▸ rest, due, regs⟩
      · have wrote : look time key value s now =
            ⟨es, Function.update s.regs (key e) (value e)⟩ := by
          simp only [look, all, early, if_false]
        rw [wrote] at rest regs ⊢
        refine ⟨e :: front, congrArg (e :: ·) rest, ?_, regs⟩
        rw [List.forall_mem_cons]
        exact ⟨le_trans (not_lt.mp early) upTo.1, due⟩

theorem takeWhile_front {t : τ} {front rest : List ε} (due : ∀ e ∈ front, time e ≤ t)
    (later : ∀ e ∈ rest.head?, t < time e) :
    (front ++ rest).takeWhile (fun e => time e ≤ t) = front := by
  rw [List.takeWhile_append_of_pos fun e he => by simpa using due e he]
  cases rest with
  | nil => simp
  | cons e rest =>
    have := later e (by simp)
    rw [List.takeWhile_cons_of_neg (by simpa using this), List.append_nil]

theorem takeWhile_ordered (t : τ) {es : List ε}
    (ordered : es.Pairwise fun a b => time a ≤ time b) :
    es.takeWhile (fun e => time e ≤ t) = es.filter fun e => time e ≤ t := by
  induction es with
  | nil => rfl
  | cons e es ih =>
    rw [List.pairwise_cons] at ordered
    by_cases due : time e ≤ t
    · rw [List.takeWhile_cons_of_pos (by simpa using due),
        List.filter_cons_of_pos (by simpa using due), ih ordered.2]
    · have none : (es.filter fun e => time e ≤ t) = [] := by
        rw [List.filter_eq_nil_iff]
        intro e' he'
        have := lt_of_lt_of_le (not_le.mp due) (ordered.1 e' he')
        simpa using this
      rw [List.takeWhile_cons_of_neg (by simpa using due),
        List.filter_cons_of_neg (by simpa using due), none]

/-- A player of writes in order, with later ones behind them, that has nothing left to write
at `t`. -/
theorem play_leftAt {t : τ} {clock : List τ} (upTo : ∀ now ∈ clock, now ≤ t) {es tail : List ε}
    (ordered : es.Pairwise fun a b => time a ≤ time b) (later : ∀ e ∈ tail, t < time e)
    {regs : κ → ν} (settled : Settled time t (play time key value ⟨es ++ tail, regs⟩ clock))
    (k : κ) :
    (play time key value ⟨es ++ tail, regs⟩ clock).regs k =
      (leftAt time key value t k es).getD (regs k) := by
  obtain ⟨front, all, due, wrote⟩ := play_front upTo (⟨es ++ tail, regs⟩ : Player ε κ ν)
  have cut := takeWhile_front due settled
  rw [← all] at cut
  have none : tail.takeWhile (fun e => time e ≤ t) = [] := by
    cases tail with
    | nil => rfl
    | cons e tail =>
      have := later e (by simp)
      rw [List.takeWhile_cons_of_neg (by simpa using this)]
  have frontEq : front = es.filter fun e => time e ≤ t := by
    rw [← cut, ← takeWhile_ordered t ordered, List.takeWhile_append]
    split
    · rename_i full
      rw [none, List.append_nil, (List.takeWhile_prefix _).eq_of_length full]
    · rfl
  have both : (es.filter fun e => time e ≤ t).filter (fun e => key e = k) =
      es.filter fun e => key e = k ∧ time e ≤ t := by
    rw [List.filter_filter]
    congr 1
    funext e
    simp
  rw [wrote, store_apply, frontEq, both, leftAt]

/-- Enough looks at one time settle it. -/
theorem settles (t : τ) (s : Player ε κ ν) {n : Nat} (enough : s.rest.length ≤ n) :
    Settled time t (play time key value s (List.replicate n t)) := by
  induction n generalizing s with
  | zero =>
    have empty : s.rest = [] := List.length_eq_zero_iff.mp (by omega)
    intro e he
    simp [play, empty] at he
  | succ n ih =>
    rw [List.replicate_succ, play, List.foldl_cons, ← play]
    cases all : s.rest with
    | nil =>
      refine ih _ ?_
      simp [look, all]
    | cons e es =>
      by_cases early : t < time e
      · have same : look time key value s t = s := by simp only [look, all, early, if_true]
        have stays : ∀ m, play time key value s (List.replicate m t) = s := by
          intro m
          induction m with
          | zero => rfl
          | succ m ihm => rw [List.replicate_succ, play, List.foldl_cons, same, ← play, ihm]
        rw [same, stays]
        intro e' he'
        rw [all] at he'
        cases he'
        exact early
      · refine ih _ ?_
        rw [all] at enough
        simp only [look, all, early, if_false]
        simpa using enough

end

end Chiptune.Replay
