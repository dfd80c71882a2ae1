import Chiptune.Precision
import Mathlib.Data.Rat.Floor

/-!
# Lists and floats of Python

* An index counts from the end where it is negative, and is an `IndexError` out of range.
* A float is a rational, and every operation on floats rounds to 53 binary digits. There are
  no infinities: the exponents are those of `Precision`, without bounds.
* `mapM_ok` and `foldlM_range_ok` are loops of which no step fails.
-/

namespace Chiptune.PyData

/-- What a program stops with: `struct.error`, `ZeroDivisionError` or `IndexError`. -/
inductive Raised
  | struct
  | zeroDivision
  | index
  deriving DecidableEq

/-! ## Lists -/

section
variable {α : Type}

/-- The place that an index of a list of `n` stands for. -/
def place (n : Nat) (i : Int) : Option Nat :=
  if 0 ≤ i then if i < n then some i.toNat else none
  else if 0 ≤ n + i then some (n + i).toNat else none

/-- `xs[i]` -/
def getItem (xs : List α) (i : Int) : Except Raised α :=
  match (place xs.length i).bind (xs[·]?) with
  | some x => .ok x
  | none => .error .index

/-- `xs[i] = x` -/
def setItem (xs : List α) (i : Int) (x : α) : Except Raised (List α) :=
  match place xs.length i with
  | some k => .ok (xs.set k x)
  | none => .error .index

/-- `xs[:j]` -/
def upto (xs : List α) (j : Int) : List α :=
  xs.take (if j < 0 then xs.length + j else j).toNat

/-- `xs[k::n]` -/
def everyFrom (n : Nat) : Nat → List α → List α
  | _, [] => []
  | 0, x :: xs => x :: everyFrom n (n - 1) xs
  | k + 1, _ :: xs => everyFrom n k xs

/-- `xs[::n]` -/
def every (n : Nat) (xs : List α) : List α := everyFrom n 0 xs

theorem getItem_nat {xs : List α} {k : Nat} {x : α} (here : xs[k]? = some x) :
    getItem xs k = .ok x := by
  have inside := (List.getElem?_eq_some_iff.mp here).1
  have same : place xs.length k = some k := by
    rw [place, if_pos (by omega), if_pos (by omega), Int.toNat_natCast]
  rw [getItem, same, Option.bind_some, here]

theorem getItem_neg {xs : List α} {i : Int} {k : Nat} {x : α} (negative : i < 0)
    (counts : (k : Int) = xs.length + i) (here : xs[k]? = some x) : getItem xs i = .ok x := by
  have same : place xs.length i = some k := by
    rw [place, if_neg (by omega), if_pos (by omega), ← counts, Int.toNat_natCast]
  rw [getItem, same, Option.bind_some, here]

theorem setItem_nat {xs : List α} {k : Nat} (inside : k < xs.length) (x : α) :
    setItem xs k x = .ok (xs.set k x) := by
  have here : place xs.length k = some k := by
    rw [place, if_pos (by omega), if_pos (by omega), Int.toNat_natCast]
  rw [setItem, here]

theorem upto_nat (xs : List α) (k : Nat) : upto xs k = xs.take k := by
  rw [upto, if_neg (by omega), Int.toNat_natCast]

theorem upto_neg (xs : List α) {k : Nat} (pos : 0 < k) (inside : k ≤ xs.length) :
    upto xs (-k) = xs.take (xs.length - k) := by
  rw [upto, if_pos (by omega)]
  congr 1
  omega

/-! ## Loops -/

variable {ε β σ : Type}

theorem mapM_ok {f : α → Except ε β} {g : α → β} {xs : List α}
    (ok : ∀ x ∈ xs, f x = .ok (g x)) : xs.mapM f = .ok (xs.map g) := by
  induction xs with
  | nil => rfl
  | cons x xs ih =>
    rw [List.forall_mem_cons] at ok
    rw [List.mapM_cons, ok.1, ih ok.2]
    rfl

theorem foldlM_range_ok {step : σ → Nat → Except ε σ} (state : Nat → σ) {n : Nat}
    (ok : ∀ i, i < n → step (state i) i = .ok (state (i + 1))) :
    (List.range n).foldlM step (state 0) = .ok (state n) := by
  induction n with
  | zero => rfl
  | succ n ih =>
    have front := ih fun i hi => ok i (by omega)
    rw [List.range_succ, List.foldlM_append, front]
    change List.foldlM step (state n) [n] = _
    rw [List.foldlM_cons, ok n (by omega)]
    rfl

end

/-! ## Floats -/

def double (x : ℚ) : ℚ := Precision.nearest 53 x

def div (x y : ℚ) : Except Raised ℚ :=
  if y = 0 then .error .zeroDivision else .ok (double (x / y))

/-- `int` of a float. -/
def trunc (x : ℚ) : Int := if 0 ≤ x then ⌊x⌋ else ⌈x⌉

theorem div_ok (x : ℚ) {y : ℚ} (nonzero : y ≠ 0) : div x y = .ok (double (x / y)) :=
  if_neg nonzero

theorem div_zero (x : ℚ) : div x 0 = .error .zeroDivision := if_pos rfl

theorem double_nonneg {x : ℚ} (nonneg : 0 ≤ x) : 0 ≤ double x :=
  Precision.nearest_nonneg 53 nonneg

theorem double_error {x : ℚ} (nonneg : 0 ≤ x) :
    x * (1 - 1 / 2 ^ 53) ≤ double x ∧ double x ≤ x * (1 + 1 / 2 ^ 53) := by
  have error := abs_le.mp (Precision.nearest_error 53 x)
  rw [abs_of_nonneg nonneg] at error
  unfold double
  constructor <;> linarith

theorem trunc_nonneg {x : ℚ} (nonneg : 0 ≤ x) : trunc x = ⌊x⌋ := if_pos nonneg

theorem double_int {z : Int} (fits : |z| < 2 ^ 53) : double z = z := Precision.nearest_int 53 fits

end Chiptune.PyData
