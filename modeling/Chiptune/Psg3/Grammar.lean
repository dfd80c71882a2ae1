import Mathlib.Data.Finset.Insert
import Chiptune.Psg3.Notes

/-!
# The tokens of the notes

Bars and white space separate tokens, colons their fields. A note is `degree:beats`,
`noise:beats` or `square:degree:beats`; `spelled` is what such a token says.
`parse_notes` takes each of them for what it says, but it takes others as well: those
with more than three fields, and numbers that only Python's `int` and `float` read.
`parse_iff` is the exact boundary.
-/

namespace Chiptune.Psg3.Notes

open PyText (Literal)

/-! ## The grammar -/

def isBar (c : Char) : Bool := c = '|' || PyText.isSpace c

def digit (c : Char) : Option Int :=
  if 48 ≤ c.toNat ∧ c.toNat ≤ 55 then some ((c.toNat - 48 : Nat) : Int) else none

/-- A digit and perhaps an accidental. -/
def pitched (octOv : Option Int) : List Char → Option Degree
  | [c] => (digit c).map (⟨·, octOv, 0⟩)
  | [c, mark] =>
    if mark = '+' then (digit c).map (⟨·, octOv, 1⟩)
    else if mark = '-' then (digit c).map (⟨·, octOv, -1⟩)
    else none
  | _ => none

def spelledDegree : List Char → Option Degree
  | [] => none
  | c :: d =>
    if c = '^' then pitched (some 5) d
    else if c = ',' then pitched (some 3) d
    else pitched none (c :: d)

section
variable {F : Type} (double : Literal → F) (noiseNames squareNames : Finset (List Char))

/-- The note that a token of the grammar spells. -/
def spelled (tok : List Char) : Option (Note F) :=
  match tok.splitOn ':' with
  | [d, b] =>
    (PyText.plainDecimal b).bind fun v =>
      if d ∈ noiseNames then some (noiseNote double tok v d)
      else (spelledDegree d).map (squareNote double tok v none)
  | [insName, d, b] =>
    if insName ∈ squareNames then
      (PyText.plainDecimal b).bind fun v =>
        (spelledDegree d).map (squareNote double tok v (some insName))
    else none
  | _ => none

end

/-! ## The boundary -/

/-- The fields of which the parser makes the degree and the beats. -/
def degreeField : List (List Char) → List Char
  | [_, d, _] => d
  | d :: _ => d
  | [] => []

def beatsField : List (List Char) → List Char
  | [_, _, b] => b
  | _ :: b :: _ => b
  | _ => []

def HasDegree (d : List Char) : Prop := ∃ n, PyText.int (bare d) = some n ∧ 0 ≤ n ∧ n ≤ 7

/-- The fields with which a token passes: `float` and `int` read the numbers, and the names
are known. -/
structure Reads (noiseNames squareNames : Finset (List Char)) (fields : List (List Char)) :
    Prop where
  two : 2 ≤ fields.length
  beats : PyText.float (beatsField fields) ≠ none
  square : fields.length = 3 → ∀ name ∈ fields.head?, name ∈ squareNames
  degree : fields.length ≠ 3 ∧ degreeField fields ∈ noiseNames ∨ HasDegree (degreeField fields)

def OneAscii (d : List Char) : Prop := ∃ c, bare d = [c] ∧ c.toNat < 128

/-- At most three fields, beats of digits and points, and between its marks a degree of one
character. -/
structure Plain (noiseNames : Finset (List Char)) (fields : List (List Char)) : Prop where
  three : fields.length ≤ 3
  beats : ∀ c ∈ beatsField fields, PyText.isPlain c = true
  degree : fields.length = 2 ∧ degreeField fields ∈ noiseNames ∨ OneAscii (degreeField fields)

/-! ## Degrees -/

theorem digit_eq_some {c : Char} {n : Int} (h : digit c = some n) :
    PyText.int [c] = some n ∧ 0 ≤ n ∧ n ≤ 7 ∧ c.toNat < 128 := by
  unfold digit at h
  split at h
  · rename_i range
    cases h
    exact ⟨PyText.int_digit (PyText.isDigit_iff.mpr (by omega)), by omega, by omega, by omega⟩
  · cases h

theorem digit_of_int {c : Char} {n : Int} (small : c.toNat < 128) (h : PyText.int [c] = some n)
    (le : n ≤ 7) : digit c = some n := by
  have isDigit := PyText.int_single small h
  have range := PyText.isDigit_iff.mp isDigit
  rw [PyText.int_digit isDigit] at h
  cases h
  rw [digit, if_pos (by omega)]

theorem eq_of_behind {r : List Char} {a : Int} {c : Char} (h : behind r = (a, [c])) :
    a = 1 ∧ r = [c, '+'] ∨ a = -1 ∧ r = [c, '-'] ∨ a = 0 ∧ r = [c] := by
  have ends {mark : Char} (last : r.getLast? = some mark) (front : r.dropLast = [c]) :
      r = [c, mark] := by
    rw [← List.dropLast_append_getLast? mark last, front]
    rfl
  unfold behind at h
  split at h
  · rename_i last
    exact Or.inl ⟨(Prod.mk.inj h).1.symm, ends last (Prod.mk.inj h).2⟩
  · split at h
    · rename_i last
      exact Or.inr (Or.inl ⟨(Prod.mk.inj h).1.symm, ends last (Prod.mk.inj h).2⟩)
    · exact Or.inr (Or.inr ⟨(Prod.mk.inj h).1.symm, (Prod.mk.inj h).2⟩)

theorem digit_not_mark {c : Char} {n : Int} (h : digit c = some n) : c ≠ '+' ∧ c ≠ '-' := by
  constructor
  · rintro rfl
    simp [digit] at h
  · rintro rfl
    simp [digit] at h

theorem pitched_iff {octOv : Option Int} {r : List Char} {g : Degree} :
    pitched octOv r = some g ↔
      g.octOv = octOv ∧ ∃ c, behind r = (g.accidental, [c]) ∧ digit c = some g.degree := by
  obtain ⟨n, o, a⟩ := g
  constructor
  · intro h
    match r, h with
    | [c], h =>
      obtain ⟨m, hm, eq⟩ := Option.map_eq_some_iff.mp h
      cases eq
      obtain ⟨plus, minus⟩ := digit_not_mark hm
      exact ⟨rfl, c, by simp [behind, plus, minus], hm⟩
    | [c, mark], h =>
      rw [pitched] at h
      split at h
      · rename_i plus
        obtain ⟨m, hm, eq⟩ := Option.map_eq_some_iff.mp h
        cases eq
        exact ⟨rfl, c, by simp [behind, plus], hm⟩
      · split at h
        · rename_i minus
          obtain ⟨m, hm, eq⟩ := Option.map_eq_some_iff.mp h
          cases eq
          exact ⟨rfl, c, by simp [behind, minus], hm⟩
        · cases h
  · rintro ⟨rfl, c, marks, hn⟩
    simp only at marks hn
    rcases eq_of_behind marks with ⟨rfl, rfl⟩ | ⟨rfl, rfl⟩ | ⟨rfl, rfl⟩
    · simp [pitched, hn]
    · simp [pitched, hn]
    · simp [pitched, hn]

theorem spelledDegree_eq (d : List Char) : spelledDegree d = pitched (before d).1 (before d).2 := by
  cases d with
  | nil => rfl
  | cons c d =>
    simp only [spelledDegree, before]
    split
    · rfl
    · split <;> rfl

theorem degreeOf_eq_some {d : List Char} {g : Degree} :
    degreeOf d = some g ↔ PyText.int (bare d) = some g.degree ∧ (0 ≤ g.degree ∧ g.degree ≤ 7) ∧
      (before d).1 = g.octOv ∧ (behind (before d).2).1 = g.accidental := by
  obtain ⟨n, o, a⟩ := g
  simp only [degreeOf, Option.bind_eq_some_iff]
  constructor
  · rintro ⟨m, hm, h⟩
    split at h
    · rename_i range
      cases h
      exact ⟨hm, range, rfl, rfl⟩
    · cases h
  · rintro ⟨hm, range, rfl, rfl⟩
    exact ⟨n, hm, by simp [range]⟩

theorem spelledDegree_iff {d : List Char} {g : Degree} :
    spelledDegree d = some g ↔ degreeOf d = some g ∧ OneAscii d := by
  rw [spelledDegree_eq, pitched_iff, degreeOf_eq_some]
  constructor
  · rintro ⟨oct, c, marks, hn⟩
    have core : bare d = [c] := by rw [bare, marks]
    obtain ⟨number, lo, hi, small⟩ := digit_eq_some hn
    exact ⟨⟨by rw [core, number], ⟨lo, hi⟩, oct.symm, by rw [marks]⟩, c, core, small⟩
  · rintro ⟨⟨number, ⟨-, hi⟩, oct, acc⟩, c, core, small⟩
    rw [core] at number
    exact ⟨oct.symm, c, Prod.ext acc core, digit_of_int small number hi⟩

theorem degreeOf_ne_none {d : List Char} : degreeOf d ≠ none ↔ HasDegree d := by
  rw [Option.ne_none_iff_exists']
  constructor
  · rintro ⟨g, h⟩
    obtain ⟨number, range, -⟩ := degreeOf_eq_some.mp h
    exact ⟨g.degree, number, range⟩
  · rintro ⟨n, number, range⟩
    exact ⟨⟨n, _, _⟩, degreeOf_eq_some.mpr ⟨number, range, rfl, rfl⟩⟩

/-! ## Tokens -/

/-- Of two partial functions the larger keeps more. -/
theorem length_filterMap_le {α β : Type} {f g : α → Option β}
    (extends_ : ∀ x y, f x = some y → g x = some y) (l : List α) :
    (l.filterMap f).length ≤ (l.filterMap g).length := by
  induction l with
  | nil => exact Nat.le_refl 0
  | cons x l ih =>
    cases hf : f x with
    | some y => simpa [hf, extends_ x y hf] using ih
    | none =>
      rw [List.filterMap_cons_none hf]
      exact ih.trans ((List.sublist_cons_self x l).filterMap g).length_le

theorem filterMap_eq_iff {α β : Type} {f g : α → Option β}
    (extends_ : ∀ x y, f x = some y → g x = some y) (l : List α) :
    l.filterMap g = l.filterMap f ↔ ∀ x ∈ l, g x ≠ none → f x ≠ none := by
  induction l with
  | nil => simp
  | cons x l ih =>
    rw [List.forall_mem_cons, ← ih]
    cases hf : f x with
    | some y => simp [hf, extends_ x y hf]
    | none =>
      cases hg : g x with
      | none => simp [hf, hg]
      | some y =>
        have shorter := length_filterMap_le extends_ l
        have differ : (x :: l).filterMap g ≠ (x :: l).filterMap f := by
          intro eq
          have := congrArg List.length eq
          simp only [List.filterMap_cons_some hg, List.filterMap_cons_none hf,
            List.length_cons] at this
          omega
        simp [differ]

theorem tokens_eq (text : List Char) : tokens text = PyText.words isBar text :=
  PyText.words_replace '|' (by decide) text

section
variable {F : Type} (double : Literal → F) (noiseNames squareNames : Finset (List Char))

/-- A square note passes if its beats and its degree do. -/
theorem played_ne_none {b d : List Char} (note : Literal → Degree → Note F) :
    ((PyText.float b).bind fun v => (degreeOf d).map (note v)) ≠ none ↔
      PyText.float b ≠ none ∧ HasDegree d := by
  rw [← degreeOf_ne_none]
  cases PyText.float b with
  | none => simp
  | some v => simp

theorem reading_ne_none (tok : List Char) :
    reading double noiseNames squareNames tok ≠ none ↔
      Reads noiseNames squareNames (tok.splitOn ':') := by
  unfold reading
  match tok.splitOn ':' with
  | [] => exact ⟨fun h => absurd rfl h, fun h => absurd h.two (by decide)⟩
  | [d] => exact ⟨fun h => absurd rfl h, fun h => absurd h.two (by simp)⟩
  | [insName, d, b] =>
    by_cases known : insName ∈ squareNames
    · simp only [known, if_true, played_ne_none]
      constructor
      · rintro ⟨beats, degree⟩
        exact ⟨by simp, beats, by simp [known], Or.inr degree⟩
      · intro h
        exact ⟨h.beats, h.degree.resolve_left (by simp)⟩
    · simp only [known, if_false]
      exact ⟨fun h => absurd rfl h, fun h => absurd (h.square rfl insName (by simp)) known⟩
  | [d, b] | d :: b :: _ :: _ :: _ =>
    by_cases noise : d ∈ noiseNames
    · simp only [noise, if_true, ne_eq, Option.bind_eq_none_iff, reduceCtorEq, imp_false]
      constructor
      · intro h
        refine ⟨by simp, fun none => h fun v hv => ?_, by simp, Or.inl ⟨by simp, noise⟩⟩
        exact absurd (none.symm.trans hv) (by simp)
      · intro h none
        obtain ⟨v, hv⟩ := Option.ne_none_iff_exists'.mp h.beats
        exact none v hv
    · simp only [noise, if_false, played_ne_none]
      constructor
      · rintro ⟨beats, degree⟩
        exact ⟨by simp, beats, by simp, Or.inr degree⟩
      · intro h
        exact ⟨h.beats, h.degree.resolve_left fun ⟨_, h⟩ => noise h⟩

theorem plainDecimal_iff {b : List Char} {v : Literal} :
    PyText.plainDecimal b = some v ↔
      PyText.float b = some v ∧ ∀ c ∈ b, PyText.isPlain c = true := by
  constructor
  · intro h
    exact ⟨PyText.float_of_plainDecimal h, PyText.plain_of_plainDecimal (by simp [h])⟩
  · rintro ⟨h, plain⟩
    rw [← PyText.float_eq_plainDecimal plain, h]

/-- A square note is spelled if it passes and both parts are plain. -/
theorem played_iff {b d : List Char} (note : Literal → Degree → Note F) {n : Note F} :
    ((PyText.plainDecimal b).bind fun v => (spelledDegree d).map (note v)) = some n ↔
      ((PyText.float b).bind fun v => (degreeOf d).map (note v)) = some n ∧
        (∀ c ∈ b, PyText.isPlain c = true) ∧ OneAscii d := by
  simp only [Option.bind_eq_some_iff, Option.map_eq_some_iff, plainDecimal_iff,
    spelledDegree_iff]
  constructor
  · rintro ⟨v, ⟨hv, plain⟩, g, ⟨hg, one⟩, eq⟩
    exact ⟨⟨v, hv, g, hg, eq⟩, plain, one⟩
  · rintro ⟨⟨v, hv, g, hg, eq⟩, plain, one⟩
    exact ⟨v, ⟨hv, plain⟩, g, ⟨hg, one⟩, eq⟩

/-- The tokens of the grammar are those plain ones that the parser takes, for what they
say. -/
theorem spelled_iff {tok : List Char} {note : Note F} :
    spelled double noiseNames squareNames tok = some note ↔
      reading double noiseNames squareNames tok = some note ∧
        Plain noiseNames (tok.splitOn ':') := by
  unfold spelled reading
  match tok.splitOn ':' with
  | [] => simp
  | [d] => simp
  | [d, b] =>
    by_cases noise : d ∈ noiseNames
    · simp only [noise, if_true, Option.bind_eq_some_iff, plainDecimal_iff]
      constructor
      · rintro ⟨v, ⟨hv, plain⟩, eq⟩
        exact ⟨⟨v, hv, eq⟩, by simp, plain, Or.inl ⟨rfl, noise⟩⟩
      · rintro ⟨⟨v, hv, eq⟩, plain⟩
        exact ⟨v, ⟨hv, plain.beats⟩, eq⟩
    · simp only [noise, if_false, played_iff]
      refine and_congr_right fun _ => ⟨fun ⟨plain, one⟩ => ⟨by simp, plain, Or.inr one⟩, ?_⟩
      intro h
      exact ⟨h.beats, h.degree.resolve_left fun ⟨_, h⟩ => noise h⟩
  | [insName, d, b] =>
    by_cases known : insName ∈ squareNames
    · simp only [known, if_true, played_iff]
      refine and_congr_right fun _ => ⟨fun ⟨plain, one⟩ => ⟨by simp, plain, Or.inr one⟩, ?_⟩
      intro h
      exact ⟨h.beats, h.degree.resolve_left fun ⟨two, _⟩ => absurd two (by simp)⟩
    · simp [known]
  | d :: b :: c :: e :: more =>
    have long : ¬ Plain noiseNames (d :: b :: c :: e :: more) := by
      intro plain
      have three := plain.three
      simp only [List.length_cons] at three
      omega
    simp [long]

/-- The parser never fails. Its notes are those of the tokens of the grammar exactly where
every token that passes is plain. -/
theorem parse_iff (text : List Char) :
    (∃ lines, parseNotes double noiseNames squareNames text =
      .ok ((PyText.words isBar text).filterMap (spelled double noiseNames squareNames), lines)) ↔
    ∀ tok ∈ PyText.words isBar text, Reads noiseNames squareNames (tok.splitOn ':') →
      Plain noiseNames (tok.splitOn ':') := by
  obtain ⟨lines, run, -⟩ := parseNotes_eq double noiseNames squareNames text
  rw [tokens_eq] at run
  have inGrammar (tok : List Char) :
      (reading double noiseNames squareNames tok ≠ none →
        spelled double noiseNames squareNames tok ≠ none) ↔
      (Reads noiseNames squareNames (tok.splitOn ':') → Plain noiseNames (tok.splitOn ':')) := by
    rw [← reading_ne_none double]
    refine imp_congr_right fun reads => ?_
    obtain ⟨note, hnote⟩ := Option.ne_none_iff_exists'.mp reads
    constructor
    · intro h
      obtain ⟨n, hn⟩ := Option.ne_none_iff_exists'.mp h
      exact ((spelled_iff double noiseNames squareNames).mp hn).2
    · intro plain
      rw [(spelled_iff double noiseNames squareNames).mpr ⟨hnote, plain⟩]
      simp
  have subset (tok : List Char) (note : Note F)
      (h : spelled double noiseNames squareNames tok = some note) :
      reading double noiseNames squareNames tok = some note :=
    ((spelled_iff double noiseNames squareNames).mp h).1
  have same := filterMap_eq_iff subset (PyText.words isBar text)
  rw [forall₂_congr fun tok _ => inGrammar tok] at same
  rw [← same]
  constructor
  · rintro ⟨lines', h⟩
    rw [run] at h
    exact (Prod.mk.inj (Except.ok.inj h)).1
  · intro eq
    exact ⟨lines, by rw [run, eq]⟩

end

/-- A fourth field is dropped, a minus sign is not. -/
theorem parse_misreads :
    ¬ ∃ lines, parseNotes id ∅ ∅ "1:1:2:1 2:-1".toList =
      .ok ((PyText.words isBar "1:1:2:1 2:-1".toList).filterMap (spelled id ∅ ∅), lines) := by
  have taken : (parseNotes id ∅ ∅ "1:1:2:1 2:-1".toList).toOption.map (·.1.length) = some 2 := by
    decide
  have spelt : (PyText.words isBar "1:1:2:1 2:-1".toList).filterMap (spelled id ∅ ∅) = [] := by
    decide
  rintro ⟨lines, h⟩
  rw [h, spelt] at taken
  cases taken

end Chiptune.Psg3.Notes
