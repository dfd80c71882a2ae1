import Mathlib.Algebra.GroupWithZero.Nat
import Mathlib.Data.List.SplitLengths
import Chiptune.Psg3.Grammar

/-!
# The notes line by line

`split_notes_lines` cuts the notes of a text into its lines again, by counting the tokens
of each line. A token that `parse_notes` skips is counted too, and takes a note from
the line behind. `split_iff` says for which texts no line loses a note that way.
-/

namespace Chiptune

/-! ## Cutting by length -/

section
variable {α β : Type}

theorem flatMap_filter {p : α → Bool} {f : α → List β} (l : List α)
    (empty : ∀ x ∈ l, p x = false → f x = []) : (l.filter p).flatMap f = l.flatMap f := by
  induction l with
  | nil => rfl
  | cons x l ih =>
    rw [List.forall_mem_cons] at empty
    rw [List.flatMap_cons, ← ih empty.2]
    cases hp : p x with
    | true => rw [List.filter_cons_of_pos hp, List.flatMap_cons]
    | false => rw [List.filter_cons_of_neg (by simp [hp]), empty.1 hp, List.nil_append]

theorem splitLengths_empty (counts : List Nat) :
    counts.splitLengths ([] : List α) = counts.map fun _ => [] := by
  induction counts with
  | nil => rfl
  | cons n counts ih => simp [ih]

theorem length_filterMap_lt (f : α → Option β) {l : List α} :
    (l.filterMap f).length < l.length ↔ ∃ x ∈ l, f x = none := by
  have le := List.length_filterMap_le f l
  rw [le.lt_iff_ne, ne_eq, List.filterMap_length_eq_length]
  simp

/-- The kept items, cut by the lengths before, fall to their own groups exactly where
nothing is kept behind a group that lost an item. -/
theorem splitLengths_iff (f : α → Option β) (groups : List (List α)) :
    (groups.map List.length).splitLengths (groups.flatten.filterMap f) =
        groups.map (List.filterMap f) ↔
      groups.Pairwise fun a b => (∃ x ∈ a, f x = none) → ∀ x ∈ b, f x = none := by
  induction groups with
  | nil => simp
  | cons a rest ih =>
    rw [List.map_cons, List.map_cons, List.splitLengths_cons, List.flatten_cons,
      List.filterMap_append, List.cons.injEq, List.pairwise_cons]
    by_cases lost : ∃ x ∈ a, f x = none
    · -- the slice of `a` reaches into the rest, of which nothing may be left
      have short := (length_filterMap_lt f).mpr lost
      constructor
      · rintro ⟨slice, -⟩
        have count := congrArg List.length slice
        rw [List.length_take, List.length_append] at count
        have none : rest.flatten.filterMap f = [] := List.length_eq_zero_iff.mp (by omega)
        rw [List.filterMap_eq_nil_iff] at none
        have gone : ∀ b ∈ rest, ∀ x ∈ b, f x = .none := fun b hb x hx =>
          none x (List.mem_flatten_of_mem hb hx)
        refine ⟨fun b hb _ => gone b hb, List.pairwise_of_forall_mem_list ?_⟩
        intro b _ c hc _
        exact gone c hc
      · rintro ⟨gone, -⟩
        have none : rest.flatten.filterMap f = [] := by
          rw [List.filterMap_eq_nil_iff]
          intro x hx
          obtain ⟨b, hb, hx⟩ := List.mem_flatten.mp hx
          exact gone b hb lost x hx
        rw [none, List.append_nil, List.take_of_length_le short.le,
          List.drop_of_length_le short.le, splitLengths_empty, List.map_map]
        refine ⟨rfl, List.map_congr_left fun b hb => ?_⟩
        exact (List.filterMap_eq_nil_iff.mpr (gone b hb lost)).symm
    · have full : (a.filterMap f).length = a.length := by
        have := mt (length_filterMap_lt f).mp lost
        have := List.length_filterMap_le f a
        omega
      rw [List.take_left' full, List.drop_left' full, ih]
      simp [lost]

end

namespace Psg3.Notes

open PyText (Literal)

section
variable {F : Type}

/-- The nonblank lines, the `|` is not blank. -/
def lines (text : List Char) : List (List Char) :=
  (text.splitOn '\n').filter fun ln => PyText.strip PyText.isSpace ln ≠ []

/-- `result` and `idx`. -/
def slices (notes : List (Note F)) (lns : List (List Char)) : List (List (Note F)) × Nat :=
  lns.foldl
    (fun acc ln =>
      let cnt := (tokens ln).length
      (acc.1 ++ [(notes.drop acc.2).take cnt], acc.2 + cnt))
    ([], 0)

def splitNotesLines (notesText : List Char) (notes : List (Note F)) : List (List (Note F)) :=
  let r := slices notes (lines notesText)
  if r.2 < notes.length then
    match r.1.getLast? with
    | some line => r.1.dropLast ++ [line ++ notes.drop r.2]
    | none => [notes.drop r.2]
  else r.1

theorem slices_eq (notes : List (Note F)) (lns : List (List Char)) :
    slices notes lns =
      ((lns.map fun ln => (tokens ln).length).splitLengths notes,
        (lns.map fun ln => (tokens ln).length).sum) := by
  have loop (acc : List (List (Note F)) × Nat) :
      lns.foldl
          (fun acc ln =>
            let cnt := (tokens ln).length
            (acc.1 ++ [(notes.drop acc.2).take cnt], acc.2 + cnt)) acc =
        (acc.1 ++ (lns.map fun ln => (tokens ln).length).splitLengths (notes.drop acc.2),
          acc.2 + (lns.map fun ln => (tokens ln).length).sum) := by
    induction lns generalizing acc with
    | nil => simp
    | cons ln lns ih =>
      rw [List.foldl_cons, ih]
      simp [List.drop_drop, Nat.add_assoc]
  simpa [slices] using loop ([], 0)

theorem strip_eq_nil {sep : Char → Bool} {s : List Char} (h : PyText.strip sep s = []) :
    ∀ c ∈ s, sep c = true := by
  have rest := List.rdropWhile_eq_nil_iff.mp h
  have split := List.takeWhile_append_dropWhile (p := sep) (l := s)
  intro c hc
  rw [← split] at hc
  rcases List.mem_append.mp hc with front | back
  · exact List.mem_takeWhile_imp front
  · exact rest c back

theorem words_eq_nil {sep : Char → Bool} {s : List Char} (h : ∀ c ∈ s, sep c = true) :
    PyText.words sep s = [] := by
  induction s with
  | nil => rfl
  | cons c s ih =>
    rw [← List.nil_append (c :: s), PyText.words_append_cons sep _ _ (h c (by simp)),
      ih fun d hd => h d (List.mem_cons_of_mem _ hd)]
    rfl

/-- Lines end at white space, and the blank ones have no tokens. -/
theorem tokens_lines (text : List Char) : tokens text = (lines text).flatMap tokens := by
  have whole : tokens text = (text.splitOn '\n').flatMap tokens := by
    rw [tokens_eq, PyText.words_splitOn (c := '\n') (by decide)]
    exact List.flatMap_congr fun ln _ => (tokens_eq ln).symm
  rw [whole, lines, flatMap_filter]
  intro ln _ blank
  rw [tokens_eq]
  refine words_eq_nil fun c hc => ?_
  simp [isBar, strip_eq_nil (by simpa using blank) c hc]

end

section
variable {F : Type} (double : Literal → F) (noiseNames squareNames : Finset (List Char))

/-- What `parse_notes` returns, which never fails. -/
def notesOf (text : List Char) : List (Note F) :=
  match parseNotes double noiseNames squareNames text with
  | .ok r => r.1
  | .error _ => []

theorem notesOf_eq (text : List Char) :
    notesOf double noiseNames squareNames text =
      (tokens text).filterMap (reading double noiseNames squareNames) := by
  obtain ⟨printed, run, -⟩ := parseNotes_eq double noiseNames squareNames text
  rw [notesOf, run]

theorem length_notesOf_le (text : List Char) :
    (notesOf double noiseNames squareNames text).length ≤
      ((lines text).map fun ln => (tokens ln).length).sum := by
  rw [notesOf_eq]
  refine (List.length_filterMap_le _ _).trans ?_
  rw [tokens_lines, List.length_flatMap]

/-- No note is left behind the last line. -/
theorem splitNotesLines_eq (text : List Char) :
    splitNotesLines text (notesOf double noiseNames squareNames text) =
      ((lines text).map fun ln => (tokens ln).length).splitLengths
        (notesOf double noiseNames squareNames text) := by
  have le := length_notesOf_le double noiseNames squareNames text
  rw [splitNotesLines, slices_eq]
  exact if_neg (by simpa using le)

/-- Every note stands in one group. -/
theorem splitNotesLines_flatten (text : List Char) :
    (splitNotesLines text (notesOf double noiseNames squareNames text)).flatten =
      notesOf double noiseNames squareNames text := by
  rw [splitNotesLines_eq, List.flatten_splitLengths]
  exact length_notesOf_le double noiseNames squareNames text

/-- The groups are the notes of the lines exactly where no token passes in a line behind
one that has a token skipped. -/
theorem split_iff (text : List Char) :
    (splitNotesLines text (notesOf double noiseNames squareNames text) =
          (lines text).map (notesOf double noiseNames squareNames) ∧
        (splitNotesLines text (notesOf double noiseNames squareNames text)).flatten =
          notesOf double noiseNames squareNames text) ↔
      (lines text).Pairwise fun a b =>
        (∃ tok ∈ tokens a, ¬ Reads noiseNames squareNames (tok.splitOn ':')) →
          ∀ tok ∈ tokens b, ¬ Reads noiseNames squareNames (tok.splitOn ':') := by
  have cut := splitLengths_iff (reading double noiseNames squareNames) ((lines text).map tokens)
  have skips (tok : List Char) : reading double noiseNames squareNames tok = none ↔
      ¬ Reads noiseNames squareNames (tok.splitOn ':') := by
    rw [← reading_ne_none double, not_ne_iff]
  have each : ((lines text).map tokens).map (List.filterMap (reading double noiseNames squareNames))
      = (lines text).map (notesOf double noiseNames squareNames) := by
    rw [List.map_map]
    exact List.map_congr_left fun ln _ => (notesOf_eq double noiseNames squareNames ln).symm
  rw [← List.flatMap_def, ← tokens_lines, ← notesOf_eq, each, List.map_map,
    List.pairwise_map] at cut
  simp only [skips] at cut
  rw [and_iff_left (splitNotesLines_flatten double noiseNames squareNames text),
    splitNotesLines_eq]
  exact cut

end

/-- The skipped `x` is counted, so that the first line takes the note of the second. -/
theorem split_shifts :
    ¬ (splitNotesLines "x 1:1\n2:1".toList (notesOf id ∅ ∅ "x 1:1\n2:1".toList) =
          (lines "x 1:1\n2:1".toList).map (notesOf id ∅ ∅) ∧
        (splitNotesLines "x 1:1\n2:1".toList (notesOf id ∅ ∅ "x 1:1\n2:1".toList)).flatten =
          notesOf id ∅ ∅ "x 1:1\n2:1".toList) := by
  decide

end Psg3.Notes

end Chiptune
