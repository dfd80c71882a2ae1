import Mathlib.Data.Finset.Basic
import Chiptune.PyText

/-!
# The notes of a song

`parse_notes` of `host/psg_adsr_songs_v04.py`, whose `ValueError`s it catches and whose
indices it guards. Each token gives a note, or the line that is printed where it is
skipped.
-/

namespace Chiptune.Psg3

open PyText (Literal)

/-- The exceptions that the parser can meet. -/
inductive PyError where
  | valueError | indexError
  deriving DecidableEq

/-- The warnings, in the source's words. -/
inductive Warning where
  | unparsable | unknownSquare | beatsFormat | degreeFormat | degreeRange
  deriving DecidableEq

def Warning.text : Warning → String
  | unparsable => "无法解析音符"
  | unknownSquare => "未知方波乐器"
  | beatsFormat => "拍数格式错"
  | degreeFormat => "音级格式错"
  | degreeRange => "音级超范围"

def Warning.line (w : Warning) (tok : List Char) : String :=
  "  (警告: " ++ w.text ++ " '" ++ String.ofList tok ++ "', 跳过)"

/-- The seven fields of a note: a noise note has neither degree nor octave nor accidental. -/
structure Note (F : Type) where
  degree : Option Int
  beats : F
  octOv : Option Int
  accidental : Option Int
  rawTok : List Char
  noiseIns : Option (List Char)
  sqIns : Option (List Char)
  deriving DecidableEq

namespace Notes

/-! ## The parser -/

def intOf (s : List Char) : Except PyError Int :=
  match PyText.int s with
  | some n => .ok n
  | none => .error .valueError

def floatOf (s : List Char) : Except PyError Literal :=
  match PyText.float s with
  | some v => .ok v
  | none => .error .valueError

/-- `s[0]` and `s[-1]`. -/
def head (s : List Char) : Except PyError Char :=
  match s.head? with
  | some c => .ok c
  | none => .error .indexError

def last (s : List Char) : Except PyError Char :=
  match s.getLast? with
  | some c => .ok c
  | none => .error .indexError

/-- `parts[n]`. -/
def nth (parts : List (List Char)) (n : Nat) : Except PyError (List Char) :=
  match parts[n]? with
  | some s => .ok s
  | none => .error .indexError

/-- `d and d[0] == c`. -/
def headIs (d : List Char) (c : Char) : Except PyError Bool :=
  if d = [] then .ok false else do return (← head d) = c

def lastIs (d : List Char) (c : Char) : Except PyError Bool :=
  if d = [] then .ok false else do return (← last d) = c

def octave (d : List Char) : Except PyError (Option Int × List Char) := do
  if ← headIs d '^' then return (some 5, d.tail)
  else if ← headIs d ',' then return (some 3, d.tail)
  else return (none, d)

def accidental (d : List Char) : Except PyError (Int × List Char) := do
  if ← lastIs d '+' then return (1, d.dropLast)
  else if ← lastIs d '-' then return (-1, d.dropLast)
  else return (0, d)

structure Degree where
  degree : Int
  octOv : Option Int
  accidental : Int
  deriving DecidableEq

/-- From the octave mark to the check of the range, the same text in both branches. -/
def degree (d : List Char) : Except PyError (Except Warning Degree) := do
  let (octOv, d) ← octave d
  let (acc, d) ← accidental d
  match intOf d with
  | .error .valueError => return .error .degreeFormat
  | .error e => throw e
  | .ok n => if 0 ≤ n ∧ n ≤ 7 then return .ok ⟨n, octOv, acc⟩ else return .error .degreeRange

section
variable {F : Type} (double : Literal → F) (noiseNames squareNames : Finset (List Char))

/-- `double` rounds what `float` reads. -/
def squareNote (tok : List Char) (beats : Literal) (sqIns : Option (List Char)) (d : Degree) :
    Note F :=
  ⟨some d.degree, double beats, d.octOv, some d.accidental, tok, none, sqIns⟩

def noiseNote (tok : List Char) (beats : Literal) (name : List Char) : Note F :=
  ⟨none, double beats, none, none, tok, some name, none⟩

/-- One turn of the loop: a note to append, or a warning and `continue`. -/
def token (tok : List Char) : Except PyError (Except Warning (Note F)) :=
  if ':' ∉ tok then .ok (.error .unparsable)
  else
    match tok.splitOn ':' with
    | [insName, dRaw, bStr] =>
      if insName ∉ squareNames then .ok (.error .unknownSquare)
      else
        match floatOf bStr with
        | .error .valueError => .ok (.error .beatsFormat)
        | .error e => throw e
        | .ok b => do return (← degree dRaw).map (squareNote double tok b (some insName))
    | parts => do
      let dStr ← nth parts 0
      let bStr ← nth parts 1
      match floatOf bStr with
      | .error .valueError => .ok (.error .beatsFormat)
      | .error e => throw e
      | .ok b =>
        if dStr ∈ noiseNames then .ok (.ok (noiseNote double tok b dStr))
        else do return (← degree dStr).map (squareNote double tok b none)

def tokens (text : List Char) : List (List Char) := PyText.split (PyText.replace '|' ' ' text)

/-- The notes and the printed lines. -/
def parseNotes (text : List Char) : Except PyError (List (Note F) × List String) :=
  (tokens text).foldlM
    (fun acc tok => do
      match ← token double noiseNames squareNames tok with
      | .ok note => return (acc.1 ++ [note], acc.2)
      | .error w => return (acc.1, acc.2 ++ [w.line tok]))
    ([], [])

end

/-! ## What it reads -/

/-- The octave mark and what stands behind it. -/
def before : List Char → Option Int × List Char
  | [] => (none, [])
  | c :: d => if c = '^' then (some 5, d) else if c = ',' then (some 3, d) else (none, c :: d)

/-- The accidental and what stands in front of it. -/
def behind (d : List Char) : Int × List Char :=
  if d.getLast? = some '+' then (1, d.dropLast)
  else if d.getLast? = some '-' then (-1, d.dropLast)
  else (0, d)

/-- The degree between its marks. -/
def bare (d : List Char) : List Char := (behind (before d).2).2

def degreeOf (d : List Char) : Option Degree :=
  (PyText.int (bare d)).bind fun n =>
    if 0 ≤ n ∧ n ≤ 7 then some ⟨n, (before d).1, (behind (before d).2).1⟩ else none

theorem headIs_eq (d : List Char) (c : Char) : headIs d c = .ok (d.head? = some c) := by
  cases d with
  | nil => simp [headIs]
  | cons a d => simp [headIs, head, bind, Except.bind, pure, Except.pure]

theorem lastIs_eq (d : List Char) (c : Char) : lastIs d c = .ok (d.getLast? = some c) := by
  cases h : d.getLast? with
  | none => simp [lastIs, List.getLast?_eq_none_iff.mp h]
  | some a =>
    have nonempty : d ≠ [] := by
      rintro rfl
      simp at h
    simp [lastIs, nonempty, last, h, bind, Except.bind, pure, Except.pure]

theorem octave_eq (d : List Char) : octave d = .ok (before d) := by
  simp only [octave, headIs_eq, bind, Except.bind, pure, Except.pure]
  cases d with
  | nil => simp [before]
  | cons c d =>
    simp only [before, List.head?_cons, Option.some.injEq, decide_eq_true_eq, List.tail_cons]
    split
    · rfl
    · split <;> rfl

theorem accidental_eq (d : List Char) : accidental d = .ok (behind d) := by
  simp only [accidental, lastIs_eq, bind, Except.bind, pure, Except.pure, behind,
    decide_eq_true_eq]
  split
  · rfl
  · split <;> rfl

/-- An error is a skipped token, never an exception. -/
def Gives {α : Type} (r : Except PyError (Except Warning α)) (a : Option α) : Prop :=
  ∃ x, r = .ok x ∧ x.toOption = a

theorem degree_gives (d : List Char) : Gives (degree d) (degreeOf d) := by
  simp only [degree, octave_eq, accidental_eq, bind, Except.bind, degreeOf, intOf]
  change Gives _ ((PyText.int (behind (before d).2).2).bind _)
  cases PyText.int (behind (before d).2).2 with
  | none => exact ⟨_, rfl, rfl⟩
  | some n =>
    simp only [Option.bind_some]
    split <;> exact ⟨_, rfl, rfl⟩

theorem Gives.map {α β : Type} {r : Except PyError (Except Warning α)} {a : Option α}
    (gives : Gives r a) (f : α → β) : Gives (do return (← r).map f) (a.map f) := by
  obtain ⟨x, rfl, rfl⟩ := gives
  refine ⟨x.map f, rfl, ?_⟩
  cases x <;> rfl

section
variable {F : Type} (double : Literal → F) (noiseNames squareNames : Finset (List Char))

/-- The note of a token, if `parse_notes` takes one from it. -/
def reading (tok : List Char) : Option (Note F) :=
  match tok.splitOn ':' with
  | [insName, d, b] =>
    if insName ∈ squareNames then
      (PyText.float b).bind fun v => (degreeOf d).map (squareNote double tok v (some insName))
    else none
  | d :: b :: _ =>
    (PyText.float b).bind fun v =>
      if d ∈ noiseNames then some (noiseNote double tok v d)
      else (degreeOf d).map (squareNote double tok v none)
  | _ => none

theorem fields_of_not_mem {tok : List Char} (h : ':' ∉ tok) : tok.splitOn ':' = [tok] :=
  List.splitOn_eq_singleton h

theorem fields_of_mem {tok : List Char} (h : ':' ∈ tok) :
    ∃ d b rest, tok.splitOn ':' = d :: b :: rest := by
  obtain ⟨front, back, rfl⟩ := List.append_of_mem h
  have split := List.splitOn_append_cons_self (a := ':') front back
  cases hf : front.splitOn ':' with
  | nil => exact absurd hf (List.splitOn_ne_nil _ _)
  | cons d more =>
    cases hb : back.splitOn ':' with
    | nil => exact absurd hb (List.splitOn_ne_nil _ _)
    | cons b rest =>
      cases more with
      | nil => exact ⟨d, b, rest, by simp [split, hf, hb]⟩
      | cons e more => exact ⟨d, e, more ++ b :: rest, by simp [split, hf, hb]⟩

theorem two_gives (tok d b : List Char) :
    Gives (match floatOf b with
      | .error .valueError => .ok (.error .beatsFormat)
      | .error e => throw e
      | .ok v =>
        if d ∈ noiseNames then .ok (.ok (noiseNote double tok v d))
        else do return (← degree d).map (squareNote double tok v none))
      ((PyText.float b).bind fun v =>
        if d ∈ noiseNames then some (noiseNote double tok v d)
        else (degreeOf d).map (squareNote double tok v none)) := by
  unfold floatOf
  cases PyText.float b with
  | none => exact ⟨_, rfl, rfl⟩
  | some v =>
    simp only [Option.bind_some]
    split
    · exact ⟨_, rfl, rfl⟩
    · exact (degree_gives d).map _

theorem three_gives (tok insName d b : List Char) :
    Gives (if insName ∉ squareNames then .ok (.error .unknownSquare)
      else
        match floatOf b with
        | .error .valueError => .ok (.error .beatsFormat)
        | .error e => throw e
        | .ok v => do return (← degree d).map (squareNote double tok v (some insName)))
      (if insName ∈ squareNames then
        (PyText.float b).bind fun v => (degreeOf d).map (squareNote double tok v (some insName))
      else none) := by
  by_cases known : insName ∈ squareNames
  · rw [if_neg (by simpa using known), if_pos known]
    unfold floatOf
    cases PyText.float b with
    | none => exact ⟨_, rfl, rfl⟩
    | some v => exact (degree_gives d).map _
  · rw [if_pos known, if_neg known]
    exact ⟨_, rfl, rfl⟩

theorem token_gives (tok : List Char) :
    Gives (token double noiseNames squareNames tok)
      (reading double noiseNames squareNames tok) := by
  unfold token reading
  by_cases colon : ':' ∈ tok
  · rw [if_neg (by simpa using colon)]
    obtain ⟨d, b, rest, fields⟩ := fields_of_mem colon
    rw [fields]
    rcases rest with _ | ⟨c, _ | ⟨e, more⟩⟩
    · exact two_gives double noiseNames tok d b
    · exact three_gives double squareNames tok d b c
    · exact two_gives double noiseNames tok d b
  · rw [if_pos colon, fields_of_not_mem colon]
    exact ⟨_, rfl, rfl⟩

/-- No exception leaves the parser, and each token gives a note or a line. -/
theorem parseNotes_eq (text : List Char) :
    ∃ lines, parseNotes double noiseNames squareNames text =
        .ok ((tokens text).filterMap (reading double noiseNames squareNames), lines) ∧
      ((tokens text).filterMap (reading double noiseNames squareNames)).length + lines.length =
        (tokens text).length := by
  have loop (acc : List (Note F) × List String) : ∃ lines,
      (tokens text).foldlM
          (fun acc tok => do
            match ← token double noiseNames squareNames tok with
            | .ok note => return (acc.1 ++ [note], acc.2)
            | .error w => return (acc.1, acc.2 ++ [w.line tok])) acc =
        .ok (acc.1 ++ (tokens text).filterMap (reading double noiseNames squareNames),
          acc.2 ++ lines) ∧
      ((tokens text).filterMap (reading double noiseNames squareNames)).length + lines.length =
        (tokens text).length := by
    induction tokens text generalizing acc with
    | nil => exact ⟨[], by simp [pure, Except.pure], rfl⟩
    | cons tok rest ih =>
      obtain ⟨r, ok, gives⟩ := token_gives double noiseNames squareNames tok
      cases r with
      | ok note =>
        obtain ⟨lines, run, count⟩ := ih (acc.1 ++ [note], acc.2)
        have taken : reading double noiseNames squareNames tok = some note := gives.symm
        refine ⟨lines, ?_, ?_⟩
        · simpa [ok, taken, bind, Except.bind, pure, Except.pure] using run
        · simp [taken]
          omega
      | error w =>
        obtain ⟨lines, run, count⟩ := ih (acc.1, acc.2 ++ [w.line tok])
        have skipped : reading double noiseNames squareNames tok = none := gives.symm
        refine ⟨w.line tok :: lines, ?_, ?_⟩
        · simpa [ok, skipped, bind, Except.bind, pure, Except.pure] using run
        · simp [skipped]
          omega
  obtain ⟨lines, run, count⟩ := loop ([], [])
  exact ⟨lines, by simpa [parseNotes] using run, count⟩

end

end Notes

end Chiptune.Psg3
