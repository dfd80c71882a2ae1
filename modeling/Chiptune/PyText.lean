import Mathlib.Data.List.DropRight
import Mathlib.Tactic.Common

/-!
# Text of Python

A `str` is a list of characters.

* `words` are the nonempty pieces between separators, as `str.split` returns them.
  `words_replace` turns a character into a separator, `words_splitOn` takes the words of
  a text piece by piece.
* `int` and `float` are what the constructors read, `none` is a `ValueError`. A number
  that `float` reads stays in decimal, unrounded. `float_eq_plainDecimal` and
  `int_single` say what they read where the characters are plain.
-/

namespace Chiptune.PyText

/-- `str.isspace` of one character. -/
def isSpace (c : Char) : Bool :=
  9 ≤ c.toNat ∧ c.toNat ≤ 13 ∨ 28 ≤ c.toNat ∧ c.toNat ≤ 32 ∨
    0x2000 ≤ c.toNat ∧ c.toNat ≤ 0x200A ∨
    c.toNat ∈ [0x85, 0xA0, 0x1680, 0x2028, 0x2029, 0x202F, 0x205F, 0x3000]

/-- The zeros of the decimal digits of Unicode 14. -/
def zeros : List Nat :=
  [0x30, 0x660, 0x6F0, 0x7C0, 0x966, 0x9E6, 0xA66, 0xAE6, 0xB66, 0xBE6, 0xC66, 0xCE6, 0xD66,
    0xDE6, 0xE50, 0xED0, 0xF20, 0x1040, 0x1090, 0x17E0, 0x1810, 0x1946, 0x19D0, 0x1A80, 0x1A90,
    0x1B50, 0x1BB0, 0x1C40, 0x1C50, 0xA620, 0xA8D0, 0xA900, 0xA9D0, 0xA9F0, 0xAA50, 0xABF0,
    0xFF10, 0x104A0, 0x10D30, 0x11066, 0x110F0, 0x11136, 0x111D0, 0x112F0, 0x11450, 0x114D0,
    0x11650, 0x116C0, 0x11730, 0x118E0, 0x11950, 0x11C50, 0x11D50, 0x11DA0, 0x16A60, 0x16AC0,
    0x16B50, 0x1D7CE, 0x1D7D8, 0x1D7E2, 0x1D7EC, 0x1D7F6, 0x1E140, 0x1E2F0, 0x1E950, 0x1FBF0]

/-- `unicodedata.decimal`. -/
def decimalDigit (c : Char) : Option Nat :=
  (zeros.find? fun z => z ≤ c.toNat ∧ c.toNat < z + 10).map (c.toNat - ·)

/-! ## Words -/

/-- The nonempty pieces between separators. -/
def words (sep : Char → Bool) (s : List Char) : List (List Char) :=
  (s.splitOnP sep).filter (· ≠ [])

/-- `str.split` without an argument. -/
def split (s : List Char) : List (List Char) := words isSpace s

/-- `str.replace` of one character by another. -/
def replace (old new : Char) (s : List Char) : List Char :=
  s.map fun c => if c = old then new else c

def strip (sep : Char → Bool) (s : List Char) : List Char :=
  (s.dropWhile sep).rdropWhile sep

@[simp] theorem words_nil (sep : Char → Bool) : words sep [] = [] := rfl

theorem words_append_cons (sep : Char → Bool) (s t : List Char) {c : Char} (hc : sep c = true) :
    words sep (s ++ c :: t) = words sep s ++ words sep t := by
  simp only [words, List.splitOnP_append_cons s t hc, List.filter_append]

theorem splitOnP_map {p q : Char → Bool} {f : Char → Char} (s : List Char)
    (keeps : ∀ c, p (f c) = q c) (fixes : ∀ c, q c = false → f c = c) :
    (s.map f).splitOnP p = s.splitOnP q := by
  induction s with
  | nil => rfl
  | cons c s ih =>
    rw [List.map_cons, List.splitOnP_cons_eq_if_modifyHead, List.splitOnP_cons_eq_if_modifyHead,
      keeps, ih]
    split
    · rfl
    · rename_i other
      rw [fixes c (by simpa using other)]

theorem words_replace {sep : Char → Bool} (old : Char) {new : Char} (hn : sep new = true)
    (s : List Char) : words sep (replace old new s) = words (fun c => c = old || sep c) s := by
  unfold words replace
  congr 1
  refine splitOnP_map s (fun c => ?_) (fun c hc => ?_)
  · by_cases eq : c = old <;> simp [eq, hn]
  · rw [if_neg (by simp at hc; exact hc.1)]

theorem words_intercalate {sep : Char → Bool} {c : Char} (hc : sep c = true)
    (pieces : List (List Char)) :
    words sep ([c].intercalate pieces) = pieces.flatMap (words sep) := by
  induction pieces with
  | nil => rfl
  | cons piece rest ih =>
    cases rest with
    | nil => simp
    | cons next rest =>
      rw [List.intercalate_cons_cons, List.append_assoc, List.singleton_append,
        words_append_cons sep _ _ hc, ih, ← List.flatMap_cons]

theorem words_splitOn {sep : Char → Bool} {c : Char} (hc : sep c = true) (s : List Char) :
    words sep s = (s.splitOn c).flatMap (words sep) := by
  rw [← words_intercalate hc, List.intercalate_splitOn]

/-! ## Numbers -/

/-- The digits and the white space beyond ASCII become their ASCII fellows, everything else
there a character that no number has. -/
def ascii (c : Char) : Char :=
  if c.toNat < 127 then c
  else if isSpace c then ' '
  else ((decimalDigit c).map fun d => Char.ofNat (48 + d)).getD '?'

/-- The C library's `isspace`. -/
def isSpaceC (c : Char) : Bool := c = ' ' ∨ 9 ≤ c.toNat ∧ c.toNat ≤ 13

/-- Takes out the underscores, which stand between digits only. `prev` is the character
in front. -/
def ungroup : Char → List Char → Option (List Char)
  | prev, [] => if prev = '_' then none else some []
  | prev, c :: s =>
    if c = '_' then if prev.isDigit then ungroup c s else none
    else if prev = '_' ∧ ¬ c.isDigit then none
    else (ungroup c s).map (c :: ·)

def prepare (s : List Char) : Option (List Char) := ungroup ' ' (strip isSpaceC (s.map ascii))

def sign : List Char → Bool × List Char
  | [] => (false, [])
  | c :: s => if c = '-' then (true, s) else if c = '+' then (false, s) else (false, c :: s)

def value (ds : List Char) : Nat := ds.foldl (fun n d => 10 * n + (d.toNat - 48)) 0

/-- `sys.get_int_max_str_digits()`. -/
def maxStrDigits : Nat := 4300

def signed (neg : Bool) (n : Nat) : Int := if neg then -n else n

def int (s : List Char) : Option Int :=
  (prepare s).bind fun u =>
    let t := sign u
    if t.2 ≠ [] ∧ t.2.all Char.isDigit ∧ t.2.length ≤ maxStrDigits then
      some (signed t.1 (value t.2))
    else none

/-- What a `float` is read from: `mantissa * 10 ** exponent`, or no number. -/
inductive Literal where
  | dec (neg : Bool) (mantissa : Nat) (exponent : Int)
  | inf (neg : Bool)
  | nan (neg : Bool)
  deriving DecidableEq

/-- What stands behind the point, and behind that. -/
def point : List Char → List Char × List Char
  | [] => ([], [])
  | c :: s => if c = '.' then (s.takeWhile Char.isDigit, s.dropWhile Char.isDigit) else ([], c :: s)

def exponent : List Char → Option Int
  | [] => some 0
  | c :: s =>
    let t := sign s
    if (c = 'e' ∨ c = 'E') ∧ t.2 ≠ [] ∧ t.2.all Char.isDigit then some (signed t.1 (value t.2))
    else none

def decimal (neg : Bool) (s : List Char) : Option Literal :=
  let whole := s.takeWhile Char.isDigit
  let p := point (s.dropWhile Char.isDigit)
  if whole ++ p.1 = [] then none
  else (exponent p.2).map fun e => .dec neg (value (whole ++ p.1)) (e - p.1.length)

def special (neg : Bool) (s : List Char) : Option Literal :=
  let s := s.map Char.toLower
  if s = ['i', 'n', 'f'] ∨ s = ['i', 'n', 'f', 'i', 'n', 'i', 't', 'y'] then some (.inf neg)
  else if s = ['n', 'a', 'n'] then some (.nan neg)
  else none

def float (s : List Char) : Option Literal :=
  (prepare s).bind fun u =>
    let t := sign u
    (special t.1 t.2).or (decimal t.1 t.2)

/-! ### Plain numbers -/

/-- The characters of `1.25`. -/
def isPlain (c : Char) : Bool := c.isDigit || c = '.'

/-- `whole.frac`. -/
def fixed (whole frac : List Char) : Option Literal :=
  if whole ++ frac ≠ [] ∧ (whole ++ frac).all Char.isDigit then
    some (.dec false (value (whole ++ frac)) (-frac.length))
  else none

/-- A number of digits with at most one point. -/
def plainDecimal (s : List Char) : Option Literal :=
  match s.splitOn '.' with
  | [whole] => fixed whole []
  | [whole, frac] => fixed whole frac
  | _ => none

theorem isDigit_iff {c : Char} : c.isDigit = true ↔ 48 ≤ c.toNat ∧ c.toNat ≤ 57 := by
  rw [Char.isDigit, Bool.and_eq_true, decide_eq_true_iff, decide_eq_true_iff, ge_iff_le,
    UInt32.le_iff_toNat_le, UInt32.le_iff_toNat_le]
  rfl

theorem plain_range {c : Char} (plain : isPlain c = true) : 46 ≤ c.toNat ∧ c.toNat ≤ 57 := by
  unfold isPlain at plain
  rcases Bool.or_eq_true_iff.mp plain with digit | dot
  · have := isDigit_iff.mp digit
    omega
  · rw [of_decide_eq_true dot]
    decide

theorem ne_of_range {c d : Char} (hc : 46 ≤ c.toNat ∧ c.toNat ≤ 57)
    (hd : d.toNat < 46 ∨ 57 < d.toNat) : c ≠ d := by
  rintro rfl
  omega

theorem ascii_of_range {c : Char} (hc : 46 ≤ c.toNat ∧ c.toNat ≤ 57) : ascii c = c := by
  rw [ascii, if_pos (by omega)]

theorem isSpaceC_of_range {c : Char} (hc : 46 ≤ c.toNat ∧ c.toNat ≤ 57) :
    isSpaceC c = false := by
  have space := ne_of_range (d := ' ') hc (by decide)
  have := hc.1
  simp only [isSpaceC, space, false_or, decide_eq_false_iff_not]
  omega

theorem ungroup_plain {prev : Char} {s : List Char} (hp : prev ≠ '_')
    (plain : ∀ c ∈ s, isPlain c = true) : ungroup prev s = some s := by
  induction s generalizing prev with
  | nil => simp [ungroup, hp]
  | cons c s ih =>
    have underscore := ne_of_range (d := '_') (plain_range (plain c (by simp))) (by decide)
    rw [ungroup, if_neg underscore, if_neg (by simp [hp]),
      ih underscore fun d hd => plain d (List.mem_cons_of_mem _ hd)]
    rfl

theorem strip_of_none {sep : Char → Bool} {s : List Char} (none : ∀ c ∈ s, sep c = false) :
    strip sep s = s := by
  have front : s.dropWhile sep = s := by
    cases s with
    | nil => rfl
    | cons c s => rw [List.dropWhile_cons_of_neg (by simp [none c (by simp)])]
  rw [strip, front, List.rdropWhile_eq_self_iff]
  intro hs
  simp [none _ (List.getLast_mem hs)]

theorem prepare_plain {s : List Char} (plain : ∀ c ∈ s, isPlain c = true) :
    prepare s = some s := by
  have same : s.map ascii = s :=
    (List.map_congr_left fun c hc => ascii_of_range (plain_range (plain c hc))).trans
      (List.map_id s)
  rw [prepare, same, strip_of_none fun c hc => isSpaceC_of_range (plain_range (plain c hc))]
  exact ungroup_plain (by decide) plain

theorem sign_plain {s : List Char} (plain : ∀ c ∈ s, isPlain c = true) :
    sign s = (false, s) := by
  cases s with
  | nil => rfl
  | cons c s =>
    have range := plain_range (plain c (by simp))
    rw [sign, if_neg (ne_of_range range (by decide)), if_neg (ne_of_range range (by decide))]

theorem special_plain {neg : Bool} {s : List Char} (plain : ∀ c ∈ s, isPlain c = true) :
    special neg s = none := by
  cases s with
  | nil => rfl
  | cons c s =>
    have range := plain_range (plain c (by simp))
    have lower : c.toLower = c := by
      have all : ∀ k < 58, 46 ≤ k → (Char.ofNat k).toLower = Char.ofNat k := by decide
      have same := all c.toNat (by omega) range.1
      rwa [Char.ofNat_toNat] at same
    have i := ne_of_range (d := 'i') range (by decide)
    have n := ne_of_range (d := 'n') range (by decide)
    simp [special, lower, i, n]

theorem float_plain {s : List Char} (plain : ∀ c ∈ s, isPlain c = true) :
    float s = decimal false s := by
  simp only [float, prepare_plain plain, Option.bind_some, sign_plain plain, special_plain plain,
    Option.none_or]

/-- Digits up to the first point, if there is one. -/
theorem plain_cases {s : List Char} (plain : ∀ c ∈ s, isPlain c = true) :
    (∀ c ∈ s, c.isDigit = true) ∨
      ∃ whole rest, s = whole ++ '.' :: rest ∧ (∀ c ∈ whole, c.isDigit = true) ∧
        ∀ c ∈ rest, isPlain c = true := by
  induction s with
  | nil => exact Or.inl (by simp)
  | cons c s ih =>
    rcases Bool.or_eq_true_iff.mp (plain c (by simp)) with digit | dot
    · rcases ih fun d hd => plain d (List.mem_cons_of_mem _ hd) with all | ⟨w, r, rfl, hw, hr⟩
      · exact Or.inl (by simpa [digit] using all)
      · exact Or.inr ⟨c :: w, r, rfl, by simpa [digit] using hw, hr⟩
    · obtain rfl := of_decide_eq_true dot
      exact Or.inr ⟨[], s, rfl, by simp, fun d hd => plain d (List.mem_cons_of_mem _ hd)⟩

theorem point_not_mem {s : List Char} (digits : ∀ c ∈ s, c.isDigit = true) : '.' ∉ s :=
  fun mem => absurd (digits _ mem) (by decide)

theorem takeWhile_digits {s t : List Char} (digits : ∀ c ∈ s, c.isDigit = true)
    (ht : ∀ c ∈ t.head?, c.isDigit = false) :
    (s ++ t).takeWhile Char.isDigit = s ∧ (s ++ t).dropWhile Char.isDigit = t := by
  rw [List.takeWhile_append_of_pos digits, List.dropWhile_append_of_pos digits]
  cases t with
  | nil => simp
  | cons c t =>
    have hc : ¬ c.isDigit = true := by simp [ht c (by simp)]
    rw [List.takeWhile_cons_of_neg hc, List.dropWhile_cons_of_neg hc, List.append_nil]
    exact ⟨rfl, rfl⟩

theorem decimal_eq_fixed {whole frac : List Char} (hw : ∀ c ∈ whole, c.isDigit = true)
    (hf : ∀ c ∈ frac, c.isDigit = true) :
    decimal false (whole ++ '.' :: frac) = fixed whole frac := by
  obtain ⟨front, back⟩ := takeWhile_digits (t := '.' :: frac) hw (by simp)
  obtain ⟨digits, rest⟩ := takeWhile_digits (t := []) hf (by simp)
  rw [List.append_nil] at digits rest
  have all : (whole ++ frac).all Char.isDigit = true := by
    rw [List.all_append, Bool.and_eq_true, List.all_eq_true, List.all_eq_true]
    exact ⟨hw, hf⟩
  simp only [decimal, front, back, point, if_true, digits, rest, exponent, Option.map_some,
    fixed, all, and_true, Int.zero_sub, ne_eq, ite_not]

theorem decimal_whole {whole : List Char} (hw : ∀ c ∈ whole, c.isDigit = true) :
    decimal false whole = fixed whole [] := by
  obtain ⟨front, back⟩ := takeWhile_digits (t := []) hw (by simp)
  rw [List.append_nil] at front back
  have all : whole.all Char.isDigit = true := List.all_eq_true.mpr hw
  simp [decimal, front, back, point, exponent, fixed, all]

/-- On plain characters `float` reads the plain numbers and nothing else. -/
theorem float_eq_plainDecimal {s : List Char} (plain : ∀ c ∈ s, isPlain c = true) :
    float s = plainDecimal s := by
  rw [float_plain plain, plainDecimal]
  rcases plain_cases plain with digits | ⟨whole, rest, rfl, hw, hr⟩
  · rw [List.splitOn_eq_singleton (point_not_mem digits), decimal_whole digits]
  · rw [List.splitOn_append_cons_self_of_not_mem (point_not_mem hw)]
    rcases plain_cases hr with digits | ⟨frac, more, rfl, hf, -⟩
    · rw [List.splitOn_eq_singleton (point_not_mem digits), decimal_eq_fixed hw digits]
    · rw [List.splitOn_append_cons_self_of_not_mem (point_not_mem hf)]
      obtain ⟨front, back⟩ := takeWhile_digits (t := '.' :: (frac ++ '.' :: more)) hw (by simp)
      obtain ⟨digits, after⟩ := takeWhile_digits (t := '.' :: more) hf (by simp)
      have junk : exponent ('.' :: more) = none := by simp [exponent]
      simp [decimal, front, back, point, digits, after, junk]

theorem plain_of_plainDecimal {s : List Char} (number : plainDecimal s ≠ none) :
    ∀ c ∈ s, isPlain c = true := by
  have pieces : s = ['.'].intercalate (s.splitOn '.') := (List.intercalate_splitOn '.').symm
  have of_fixed {whole frac : List Char} (h : fixed whole frac ≠ none) :
      (∀ c ∈ whole, isPlain c = true) ∧ ∀ c ∈ frac, isPlain c = true := by
    by_cases digits : (whole ++ frac).all Char.isDigit = true
    · rw [List.all_eq_true] at digits
      exact ⟨fun c hc => by simp [isPlain, digits c (List.mem_append_left _ hc)],
        fun c hc => by simp [isPlain, digits c (List.mem_append_right _ hc)]⟩
    · simp [fixed, digits] at h
  unfold plainDecimal at number
  split at number
  · rename_i whole eq
    rw [eq, List.intercalate_singleton] at pieces
    exact pieces ▸ (of_fixed number).1
  · rename_i whole frac eq
    rw [eq, List.intercalate_cons_cons, List.intercalate_singleton] at pieces
    obtain ⟨hw, hf⟩ := of_fixed number
    rw [pieces]
    simpa [or_imp, forall_and] using ⟨hw, by decide, hf⟩
  · exact absurd rfl number

theorem float_of_plainDecimal {s : List Char} {v : Literal} (number : plainDecimal s = some v) :
    float s = some v :=
  (float_eq_plainDecimal (plain_of_plainDecimal (by simp [number]))).trans number

/-- The one character that `int` reads in ASCII is a digit. -/
theorem int_single {c : Char} {n : Int} (small : c.toNat < 128) (number : int [c] = some n) :
    c.isDigit = true := by
  have all : ∀ k < 128, (int [Char.ofNat k]).isSome = true → (Char.ofNat k).isDigit = true := by
    decide
  have := all c.toNat small
  rw [Char.ofNat_toNat] at this
  exact this (by simp [number])

theorem int_digit {c : Char} (digit : c.isDigit = true) :
    int [c] = some ((c.toNat - 48 : Nat) : Int) := by
  have plain : ∀ d ∈ [c], isPlain d = true := by simp [isPlain, digit]
  simp [int, prepare_plain plain, sign_plain plain, digit, maxStrDigits, signed, value]

end Chiptune.PyText
