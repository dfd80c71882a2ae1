import Chiptune.Miniglow.LoadProg

/-!
# Programs in text

The line formats that `load_prog` documents, with comment lines and blank lines anywhere
and lines indented or not. `text_iff` says which of these texts it loads: those in which
the guess stops at the first program line, no `@` is indented, and no comment is so long
that a later piece of it reads as a program line. `load_iff` joins it with `image_iff`.
-/

namespace Chiptune.Miniglow

open Scan

/-! ## Lines -/

/-- White space within a line. -/
structure Blanks where
  chars : List Byte
  blank : ∀ c ∈ chars, c = chr ' ' ∨ c = chr '\t' ∨ c = chr '\r'

/-- `ADDR` or `VALUE`: up to four hexadecimal digits. -/
structure Number where
  digits : List Byte
  hex : ∀ d ∈ digits, isHex d = true
  some_digit : digits ≠ []
  short : digits.length ≤ 4

def Number.word (n : Number) : Word := BitVec.ofNat 16 (hexValue n.digits)

/-- `@ADDR VALUE`, `ADDR VALUE` and `VALUE`. -/
inductive Entry where
  | at (addr val : Number)
  | pair (addr val : Number)
  | next (val : Number)

namespace Entry

def bytes : Entry → List Byte
  | .at addr val => chr '@' :: (addr.digits ++ chr ' ' :: val.digits)
  | .pair addr val => addr.digits ++ chr ' ' :: val.digits
  | .next val => val.digits

def cmd : Entry → Cmd
  | .at addr val => .at addr.word val.word
  | .pair addr val => .at addr.word val.word
  | .next val => .next val.word

def isAt : Entry → Bool
  | .at _ _ => true
  | _ => false

end Entry

/-- A line without its line end. An entry fits into the buffer. -/
inductive Line where
  | comment (indent : Blanks) (mark : Byte) (text : List Byte)
      (marks : mark = chr '#' ∨ mark = chr ';') (no_end : ∀ c ∈ text, c ≠ nl)
  | blank (indent : Blanks)
  | entry (indent : Blanks) (e : Entry) (trail : Blanks)
      (fits : (indent.chars ++ e.bytes ++ trail.chars).length ≤ 255)

namespace Line

def bytes : Line → List Byte
  | .comment indent mark text _ _ => indent.chars ++ mark :: text
  | .blank indent => indent.chars
  | .entry indent e trail _ => indent.chars ++ e.bytes ++ trail.chars

/-- The word that the line lists. -/
def cmd : Line → Option Cmd
  | .entry _ e _ _ => some e.cmd
  | _ => none

/-- A program line that is not indented. -/
def opens : Line → Bool
  | .entry indent _ _ _ => indent.chars.isEmpty
  | _ => false

/-- No piece of a comment after the first reads as a program line, and no `@` is indented. -/
def Plain : Line → Prop
  | .comment indent mark text marks no_end =>
    ∀ p ∈ (fgetsAll 255 [] (bytes (.comment indent mark text marks no_end))).tail,
      readLine p = none
  | .blank _ => True
  | .entry indent e _ _ => e.isAt = true → indent.chars = []

end Line

/-- The last line has no line end, so a text that ends in one has an empty last line. -/
def file : List Line → List Byte
  | [] => []
  | [l] => l.bytes
  | l :: k :: ls => l.bytes ++ nl :: file (k :: ls)

def listed (lines : List Line) : List (Word × Word) := number 0 (lines.filterMap Line.cmd)

/-- The loader stores exactly the listed words; the guess stops at or before every program
line, and a pattern matches each of them. -/
structure Loads (lines : List Line) : Prop where
  stores : stores (file lines) = listed lines
  unread : ∀ before l after, lines = before ++ l :: after → l.cmd.isSome = true →
    (file (l :: after)).length ≤ (seek false (file lines)).length
  known : ∀ l ∈ lines, l.cmd.isSome = true → (readLine l.bytes).isSome = true

/-- The lines from the first program line that is not indented. -/
def opened (lines : List Line) : List Line := lines.dropWhile fun l => !l.opens

def passed (lines : List Line) : List Line := lines.takeWhile fun l => !l.opens

structure Readable (lines : List Line) : Prop where
  passed : ∀ l ∈ passed lines, l.cmd = none
  opened : opened lines ≠ [] ∨ (file lines).length ≤ 1
  plain : ∀ l ∈ Miniglow.opened lines, l.Plain

/-! ## One line -/

theorem Blanks.space (b : Blanks) : ∀ c ∈ b.chars, isSpace c = true := by
  intro c hc
  rcases b.blank c hc with rfl | rfl | rfl <;> decide

theorem Blanks.skip (b : Blanks) : ∀ c ∈ b.chars, skips c = true ∧ c ≠ nl := by
  intro c hc
  rcases b.blank c hc with rfl | rfl | rfl <;> decide

/-- The first character of a text is in its indentation, or the first one behind that. -/
theorem Blanks.first {b : Blanks} {t : List Byte} {m : Byte} (blank : isSpace m = false)
    (behind : ∀ c, t.head? = some c → c ≠ m) : ∀ c, (b.chars ++ t).head? = some c → c ≠ m := by
  intro c first
  cases chars : b.chars with
  | nil =>
    rw [chars] at first
    exact behind c first
  | cons d ds =>
    rw [chars] at first
    obtain rfl := Option.some.inj first
    rintro rfl
    have space := b.space d (by rw [chars]; exact List.mem_cons_self)
    rw [blank] at space
    cases space

theorem hex_ne {c d : Byte} (hex : isHex c = true) (other : isHex d = false) : c ≠ d := by
  rintro rfl
  rw [hex] at other
  cases other

theorem Entry.bytes_opens (e : Entry) :
    ∃ c r, e.bytes = c :: r ∧ opensText c = true ∧ skips c = false := by
  have plain : ∀ c : Byte, isHex c = true → skips c = false := by decide
  have first (n : Number) : ∃ c r, n.digits = c :: r ∧ opensText c = true ∧ skips c = false := by
    obtain ⟨c, r, eq⟩ := List.exists_cons_of_ne_nil n.some_digit
    have hex := n.hex c (by rw [eq]; exact List.mem_cons_self)
    refine ⟨c, r, eq, ?_, plain c hex⟩
    rw [opensText, hex]
    simp
  cases e with
  | «at» addr val => exact ⟨_, _, rfl, by decide, by decide⟩
  | pair addr val =>
    obtain ⟨c, r, eq, opens, skip⟩ := first addr
    exact ⟨c, r ++ chr ' ' :: val.digits, by rw [bytes, eq]; rfl, opens, skip⟩
  | next val => exact first val

theorem Entry.bytes_no_end (e : Entry) : ∀ c ∈ e.bytes, c ≠ nl ∧ c ≠ 0 := by
  have digits (n : Number) : ∀ c ∈ n.digits, c ≠ nl ∧ c ≠ 0 := fun c hc =>
    ⟨hex_ne (n.hex c hc) (by decide), hex_ne (n.hex c hc) (by decide)⟩
  intro c hc
  cases e with
  | «at» addr val =>
    simp only [bytes, List.mem_cons, List.mem_append] at hc
    rcases hc with rfl | hc | rfl | hc
    · decide
    · exact digits addr c hc
    · decide
    · exact digits val c hc
  | pair addr val =>
    simp only [bytes, List.mem_cons, List.mem_append] at hc
    rcases hc with hc | rfl | hc
    · exact digits addr c hc
    · decide
    · exact digits val c hc
  | next val => exact digits val c hc

theorem Line.no_end (l : Line) : ∀ c ∈ l.bytes, c ≠ nl := by
  intro c hc
  cases l with
  | comment indent mark text marks no_end =>
    rcases List.mem_append.mp hc with hc | hc
    · exact (indent.skip c hc).2
    · rcases List.mem_cons.mp hc with rfl | hc
      · rcases marks with rfl | rfl <;> decide
      · exact no_end c hc
  | blank indent => exact (indent.skip c hc).2
  | entry indent e trail fits =>
    rcases List.mem_append.mp hc with hc | hc
    · rcases List.mem_append.mp hc with hc | hc
      · exact (indent.skip c hc).2
      · exact (e.bytes_no_end c hc).1
    · exact (trail.skip c hc).2

/-! ### What a pattern matches -/

theorem Number.setWidth_word (n : Number) :
    (BitVec.ofNat 32 (hexValue n.digits)).setWidth 16 = n.word := by
  apply BitVec.eq_of_toNat_eq
  rw [Number.word, BitVec.toNat_setWidth, BitVec.toNat_ofNat, BitVec.toNat_ofNat]
  omega

section
variable {ws : List Byte} (spaces : ∀ c ∈ ws, isSpace c = true)
include spaces

theorem scanX_number (n : Number) {r : List Byte} (ends : ∀ c, r.head? = some c → isSpace c = true) :
    scanX (ws ++ n.digits ++ r) = some (BitVec.ofNat 32 (hexValue n.digits), r) :=
  scanX_digits spaces n.some_digit n.hex (Nat.le_trans n.short (by decide)) ends

theorem scanX_spaces : scanX ws = none := by
  have none := @scanX_none ws [] spaces (fun c first => by cases first)
  rwa [List.append_nil] at none

theorem scanPair_numbers (addr val : Number) (trail : Blanks) :
    scanPair (ws ++ addr.digits ++ (chr ' ' :: val.digits ++ trail.chars)) =
      some (addr.word, val.word) := by
  have first := scanX_number spaces addr (r := chr ' ' :: val.digits ++ trail.chars) (by
    intro c head
    obtain rfl := Option.some.inj head
    decide)
  have second := @scanX_number [chr ' '] (by decide) val trail.chars
    (fun c head => trail.space c (List.mem_of_mem_head? head))
  rw [List.singleton_append] at second
  rw [scanPair, first]
  dsimp only
  rw [second, Option.map_some, addr.setWidth_word, val.setWidth_word]

theorem scanPair_number (val : Number) (trail : Blanks) :
    scanPair (ws ++ val.digits ++ trail.chars) = none := by
  rw [scanPair, scanX_number spaces val fun c head => trail.space c (List.mem_of_mem_head? head)]
  dsimp only
  rw [scanX_spaces trail.space]
  rfl

end

theorem scanAt_other {s : List Byte} (other : ∀ c, s.head? = some c → c ≠ chr '@') :
    scanAt s = none := by
  cases s with
  | nil => rfl
  | cons c r => exact if_neg (other c rfl)

/-- White space, and then no number and no `@`. -/
theorem readLine_none {p ws t : List Byte} (text : p.takeWhile (· ≠ 0) = ws ++ t)
    (spaces : ∀ c ∈ ws, isSpace c = true)
    (other : ∀ c, t.head? = some c →
      isSpace c = false ∧ isHex c = false ∧ c ≠ chr '-' ∧ c ≠ chr '+')
    (no_at : ∀ c, (ws ++ t).head? = some c → c ≠ chr '@') : readLine p = none := by
  have none := scanX_none spaces other
  unfold readLine
  rw [text]
  split
  · rfl
  · simp only [scanAt_other no_at, scanPair, none, Option.map_none]

theorem readLine_nl (p : List Byte) : readLine (p ++ [nl]) = readLine p := by
  have pair (s : List Byte) : scanPair (s ++ [nl]) = scanPair s := by
    unfold scanPair
    rw [scanX_nl]
    cases scanX s with
    | none => rfl
    | some x =>
      dsimp only [Option.map_some]
      rw [scanX_nl]
      cases scanX x.2 <;> rfl
  have at_sign (s : List Byte) : scanAt (s ++ [nl]) = scanAt s := by
    cases s with
    | nil => rfl
    | cons c r =>
      rw [List.cons_append, scanAt, scanAt, pair]
  cases p with
  | nil => rfl
  | cons c q =>
    have head : ((c :: q) ++ [nl]).head? = (c :: q).head? := rfl
    unfold readLine
    rw [head]
    split
    · rfl
    · have cut : ((c :: q) ++ [nl]).takeWhile (· ≠ 0) = (c :: q).takeWhile (· ≠ 0) ∨
          ((c :: q) ++ [nl]).takeWhile (· ≠ 0) = (c :: q).takeWhile (· ≠ 0) ++ [nl] := by
        rw [List.takeWhile_append]
        split
        · rename_i whole
          have same := (List.takeWhile_prefix (l := c :: q) (· ≠ 0)).eq_of_length whole
          rw [same]
          exact .inr rfl
        · exact .inl rfl
      rcases cut with same | more
      · rw [same]
      · dsimp only
        rw [more, at_sign, pair, scanX_nl]
        cases scanX ((c :: q).takeWhile (· ≠ 0)) <;> rfl

/-! ### What a line stores -/

theorem textCmds_short {l : List Byte} (no_end : ∀ c ∈ l, c ≠ nl) (fits : l.length ≤ 255)
    (some_char : l ≠ []) : textCmds l = (readLine l).toList := by
  rw [textCmds, @fgetsAll_short 255 [] l no_end (by simpa using fits) some_char, List.nil_append,
    List.filterMap_cons]
  cases readLine l <;> rfl

section
variable {indent trail : Blanks} {e : Entry}

theorem entry_text : (indent.chars ++ e.bytes ++ trail.chars).takeWhile (· ≠ 0) =
    indent.chars ++ e.bytes ++ trail.chars := by
  have blanks (b : Blanks) : ∀ c ∈ b.chars, c ≠ 0 := fun c hc => by
    rcases b.blank c hc with rfl | rfl | rfl <;> decide
  have every : ∀ c ∈ indent.chars ++ e.bytes ++ trail.chars, c ≠ 0 := by
    intro c hc
    rcases List.mem_append.mp hc with hc | hc
    · rcases List.mem_append.mp hc with hc | hc
      · exact blanks indent c hc
      · exact (e.bytes_no_end c hc).2
    · exact blanks trail c hc
  have whole := @List.takeWhile_append_of_pos Byte (· ≠ 0) _ []
    (fun c hc => decide_eq_true (every c hc))
  rwa [List.takeWhile_nil, List.append_nil] at whole

/-- The first character of a program line. -/
theorem entry_first : ∃ c r, indent.chars ++ e.bytes ++ trail.chars = c :: r ∧
    c ≠ chr '#' ∧ c ≠ chr ';' ∧ c ≠ nl := by
  have plain : ∀ c : Byte, skips c = false → c ≠ chr '#' ∧ c ≠ chr ';' ∧ c ≠ nl := by decide
  cases blank : indent.chars with
  | nil =>
    obtain ⟨c, r, eq, -, skip⟩ := e.bytes_opens
    exact ⟨c, r ++ trail.chars, by rw [eq]; rfl, plain c skip⟩
  | cons c r =>
    refine ⟨c, r ++ e.bytes ++ trail.chars, rfl, ?_⟩
    rcases indent.blank c (by rw [blank]; exact List.mem_cons_self) with rfl | rfl | rfl <;> decide

theorem readLine_entry (plain : e.isAt = true → indent.chars = []) :
    readLine (indent.chars ++ e.bytes ++ trail.chars) = some e.cmd := by
  obtain ⟨c, r, eq, hash, semi, lf⟩ := @entry_first indent trail e
  have head : ¬((indent.chars ++ e.bytes ++ trail.chars).head? = some (chr '#') ∨
      (indent.chars ++ e.bytes ++ trail.chars).head? = some (chr ';') ∨
      (indent.chars ++ e.bytes ++ trail.chars).head? = some nl) := by
    rw [eq, List.head?_cons]
    simp only [Option.some.injEq, hash, semi, lf, or_self, not_false_eq_true]
  have unsigned_at (n : Number) (s : List Byte) :
      ∀ c, (indent.chars ++ n.digits ++ s).head? = some c → c ≠ chr '@' := by
    rw [List.append_assoc]
    refine Blanks.first (by decide) fun c first => ?_
    obtain ⟨d, ds, digits⟩ := List.exists_cons_of_ne_nil n.some_digit
    rw [digits] at first
    obtain rfl := Option.some.inj first
    exact hex_ne (n.hex d (by rw [digits]; exact List.mem_cons_self)) (by decide)
  unfold readLine
  rw [if_neg head, entry_text]
  cases e with
  | «at» addr val =>
    have scans := @scanPair_numbers [] (by simp) addr val trail
    have line : indent.chars ++ Entry.bytes (.at addr val) ++ trail.chars =
        chr '@' :: (addr.digits ++ (chr ' ' :: val.digits ++ trail.chars)) := by
      rw [plain rfl, Entry.bytes]
      simp
    rw [List.nil_append] at scans
    rw [line]
    simp only [scanAt, if_true, scans]
    rfl
  | pair addr val =>
    have scans := scanPair_numbers indent.space addr val trail
    have line : indent.chars ++ Entry.bytes (.pair addr val) ++ trail.chars =
        indent.chars ++ addr.digits ++ (chr ' ' :: val.digits ++ trail.chars) := by
      rw [Entry.bytes]
      simp
    rw [line]
    simp only [scanAt_other (unsigned_at addr _), scans]
    rfl
  | next val =>
    have single := scanPair_number indent.space val trail
    have scans := scanX_number indent.space val (r := trail.chars)
      fun c first => trail.space c (List.mem_of_mem_head? first)
    simp only [Entry.bytes, scanAt_other (unsigned_at val _), single, scans, Option.map_some,
      val.setWidth_word]
    rfl

/-- No pattern matches an `@` that is indented. -/
theorem readLine_indented (sign : e.isAt = true) (indented : indent.chars ≠ []) :
    readLine (indent.chars ++ e.bytes ++ trail.chars) = none := by
  cases e with
  | «at» addr val =>
    have line := @entry_text indent trail (.at addr val)
    rw [List.append_assoc] at line
    rw [List.append_assoc]
    refine readLine_none line indent.space ?_ ?_
    · intro c first
      obtain rfl := Option.some.inj first
      decide
    · intro c first
      obtain ⟨d, ds, blank⟩ := List.exists_cons_of_ne_nil indented
      rw [blank] at first
      obtain rfl := Option.some.inj first
      rcases indent.blank d (by rw [blank]; exact List.mem_cons_self) with rfl | rfl | rfl <;>
        decide
  | pair addr val => cases sign
  | next val => cases sign

end

theorem blank_cmds (indent : Blanks) : textCmds indent.chars = [] := by
  rw [textCmds, List.filterMap_eq_nil_iff]
  intro p mem
  have chars := fgetsAll_mem mem
  rw [List.nil_append] at chars
  have spaces : ∀ c ∈ p.takeWhile (· ≠ 0), isSpace c = true := fun c hc =>
    indent.space c (chars c (List.takeWhile_subset _ hc))
  refine readLine_none (List.append_nil _).symm spaces (fun c first => by cases first) ?_
  intro c first
  rw [List.append_nil] at first
  have space := spaces c (List.mem_of_mem_head? first)
  rintro rfl
  exact absurd space (by decide)

/-- The first piece of a comment line is skipped. -/
theorem comment_first {indent : Blanks} {mark : Byte} {text p rest : List Byte}
    (marks : mark = chr '#' ∨ mark = chr ';') (whole : indent.chars ++ mark :: text = p ++ rest) :
    readLine p = none := by
  have start : p.takeWhile (· ≠ 0) <+: indent.chars ++ mark :: text :=
    (List.takeWhile_prefix _).trans ⟨rest, whole.symm⟩
  have marked : isSpace mark = false ∧ isHex mark = false ∧ mark ≠ chr '-' ∧ mark ≠ chr '+' ∧
      mark ≠ chr '@' := by
    rcases marks with rfl | rfl <;> decide
  have blanks : ∀ c ∈ indent.chars, c ≠ chr '@' := fun c hc => by
    rcases indent.blank c hc with rfl | rfl | rfl <;> decide
  obtain ⟨after, whole⟩ := start
  rcases List.append_eq_append_iff.mp whole with ⟨x, indented, -⟩ | ⟨x, start, text_eq⟩
  · -- the piece ends in the indentation
    have inside : ∀ c ∈ p.takeWhile (· ≠ 0), c ∈ indent.chars := by
      intro c hc
      rw [indented]
      exact List.mem_append_left _ hc
    refine readLine_none (List.append_nil _).symm (fun c hc => indent.space c (inside c hc))
      (fun c first => by cases first) ?_
    intro c first
    rw [List.append_nil] at first
    exact blanks c (inside c (List.mem_of_mem_head? first))
  · -- the mark is in the piece, or the first thing after it
    have first (c : Byte) (head : x.head? = some c) : c = mark := by
      obtain ⟨x', rfl⟩ : ∃ x', x = c :: x' := by
        cases x with
        | nil => cases head
        | cons d x' => exact ⟨x', by rw [← Option.some.inj head]⟩
      exact (List.cons.inj text_eq).1.symm
    refine readLine_none start indent.space ?_ ?_
    · intro c head
      rw [first c head]
      exact ⟨marked.1, marked.2.1, marked.2.2.1, marked.2.2.2.1⟩
    · refine Blanks.first (by decide) fun c head => ?_
      rw [first c head]
      exact marked.2.2.2.2

/-- What the pieces of a comment after the first store. -/
theorem comment_cmds {indent : Blanks} {mark : Byte} {text : List Byte}
    (marks : mark = chr '#' ∨ mark = chr ';') : textCmds (indent.chars ++ mark :: text) =
      (fgetsAll 255 [] (indent.chars ++ mark :: text)).tail.filterMap readLine := by
  rw [textCmds]
  cases pieces : fgetsAll 255 [] (indent.chars ++ mark :: text) with
  | nil => rfl
  | cons p ps =>
    obtain ⟨rest, whole, -, -, -⟩ := fgetsAll_cons pieces
    rw [List.nil_append] at whole
    rw [List.filterMap_cons, comment_first marks whole]
    rfl

namespace Line

theorem entry_cmds {indent trail : Blanks} {e : Entry}
    (fits : (indent.chars ++ e.bytes ++ trail.chars).length ≤ 255) :
    textCmds (bytes (.entry indent e trail fits)) =
      (readLine (bytes (.entry indent e trail fits))).toList := by
  have short : (bytes (.entry indent e trail fits)).length ≤ 255 := fits
  apply textCmds_short (no_end _) short
  obtain ⟨c, r, eq, -⟩ := @entry_first indent trail e
  intro empty
  rw [bytes, eq] at empty
  cases empty

theorem plain_cmds {l : Line} (plain : l.Plain) : textCmds l.bytes = l.cmd.toList := by
  cases l with
  | comment indent mark text marks no_end =>
    have quiet : (fgetsAll 255 [] (indent.chars ++ mark :: text)).tail.filterMap readLine = [] :=
      List.filterMap_eq_nil_iff.mpr plain
    rw [bytes, comment_cmds marks, quiet]
    rfl
  | blank indent => exact blank_cmds indent
  | entry indent e trail fits =>
    rw [entry_cmds, bytes, readLine_entry plain]
    rfl

/-- A line that stores as many words as it lists is plain. -/
theorem plain_of_length {l : Line} (same : (textCmds l.bytes).length = l.cmd.toList.length) :
    l.Plain := by
  cases l with
  | comment indent mark text marks no_end =>
    rw [bytes, comment_cmds marks] at same
    exact List.filterMap_eq_nil_iff.mp (List.length_eq_zero_iff.mp same)
  | blank indent => trivial
  | entry indent e trail fits =>
    intro sign
    by_contra indented
    rw [entry_cmds, bytes, readLine_indented sign indented] at same
    cases same

/-- Known lines store at least what they list. -/
theorem listed_le {l : Line} (known : l.cmd.isSome = true → (readLine l.bytes).isSome = true) :
    l.cmd.toList.length ≤ (textCmds l.bytes).length := by
  cases l with
  | comment indent mark text marks no_end => exact Nat.zero_le _
  | blank indent => exact Nat.zero_le _
  | entry indent e trail fits =>
    obtain ⟨cmd, reads⟩ := Option.isSome_iff_exists.mp (known rfl)
    rw [entry_cmds, reads]
    exact Nat.le_refl _

end Line

/-! ## Texts -/

theorem file_cons (l k : Line) (ls : List Line) :
    file (l :: k :: ls) = l.bytes ++ nl :: file (k :: ls) := rfl

theorem textCmds_file (lines : List Line) :
    textCmds (file lines) = lines.flatMap fun l => textCmds l.bytes := by
  induction lines with
  | nil => rfl
  | cons l ls ih =>
    cases ls with
    | nil => rw [file, List.flatMap_singleton]
    | cons k ls =>
      rw [file_cons, textCmds, fgetsAll_line l.no_end, List.filterMap_append,
        fgetsAll_nl rfl readLine_nl l.no_end, List.flatMap_cons, ← ih]
      rfl

/-- A line that does not open the text is empty or starts with a character to skip. -/
theorem closed_skips {l : Line} (closed : l.opens = false) :
    (l.bytes ++ [nl]).head?.all skips = true := by
  have blank {indent : Blanks} {c : Byte} {s : List Byte} (eq : indent.chars = c :: s) :
      skips c = true := (indent.skip c (by rw [eq]; exact List.mem_cons_self)).1
  cases l with
  | comment indent mark text marks no_end =>
    rw [Line.bytes]
    cases eq : indent.chars with
    | nil =>
      have skip : skips mark = true := by rcases marks with rfl | rfl <;> decide
      exact skip
    | cons c s => exact blank eq
  | blank indent =>
    rw [Line.bytes]
    cases eq : indent.chars with
    | nil => decide
    | cons c s => exact blank eq
  | entry indent e trail fits =>
    rw [Line.bytes]
    rw [Line.opens] at closed
    cases eq : indent.chars with
    | nil =>
      rw [eq] at closed
      cases closed
    | cons c s => exact blank eq

theorem file_opens {l : Line} (opens : l.opens = true) (ls : List Line) :
    ∃ c r, file (l :: ls) = c :: r ∧ opensText c = true ∧ skips c = false := by
  cases l with
  | entry indent e trail fits =>
    have bare : indent.chars = [] := List.isEmpty_iff.mp opens
    obtain ⟨c, r, eq, first, skip⟩ := e.bytes_opens
    have line : Line.bytes (.entry indent e trail fits) = c :: (r ++ trail.chars) := by
      rw [Line.bytes, bare, eq]
      rfl
    cases ls with
    | nil => exact ⟨c, _, line, first, skip⟩
    | cons k ls => exact ⟨c, _, by rw [file_cons, line]; rfl, first, skip⟩
  | comment indent mark text marks no_end => cases opens
  | blank indent => cases opens

/-- The guess stops at the first program line that is not indented. -/
theorem seek_file (lines : List Line) : seek false (file lines) = file (opened lines) := by
  induction lines with
  | nil => rfl
  | cons l ls ih =>
    cases opens : l.opens with
    | false =>
      have drop : opened (l :: ls) = opened ls :=
        List.dropWhile_cons_of_pos (by rw [opens]; rfl)
      rw [drop, ← ih]
      cases ls with
      | nil => exact (seek_line l.no_end (closed_skips opens) []).2
      | cons k ls => exact (seek_line l.no_end (closed_skips opens) _).1
    | true =>
      have keep : opened (l :: ls) = l :: ls :=
        List.dropWhile_cons_of_neg (by rw [opens]; decide)
      obtain ⟨c, r, eq, -, skip⟩ := file_opens opens ls
      rw [keep, eq, seek, if_neg Bool.false_ne_true, skip, if_neg Bool.false_ne_true]

theorem opened_first {lines : List Line} {l : Line} {ls : List Line}
    (first : opened lines = l :: ls) : l.opens = true := by
  have head := List.head?_dropWhile_not (fun l : Line => !l.opens) lines
  rw [show lines.dropWhile (fun l => !l.opens) = l :: ls from first] at head
  simpa using head

theorem looksText_file (lines : List Line) :
    looksText (file lines) = true ↔ opened lines ≠ [] := by
  rw [looksText, seek_file]
  cases first : opened lines with
  | nil => simp [file]
  | cons l ls =>
    obtain ⟨c, r, eq, opens, -⟩ := file_opens (opened_first first) ls
    rw [eq]
    simp [opens]

theorem file_length (l : Line) (ls : List Line) :
    l.bytes.length + (file ls).length ≤ (file (l :: ls)).length := by
  cases ls with
  | nil => exact Nat.le_refl _
  | cons k ls =>
    rw [file_cons, List.length_append, List.length_cons]
    omega

theorem file_length_append (before after : List Line) :
    (file after).length ≤ (file (before ++ after)).length := by
  induction before with
  | nil => exact Nat.le_refl _
  | cons l ls ih =>
    have := file_length l (ls ++ after)
    rw [List.cons_append]
    omega

theorem bytes_pos {l : Line} (lists : l.cmd.isSome = true) : 0 < l.bytes.length := by
  cases l with
  | entry indent e trail fits =>
    obtain ⟨c, r, eq, -⟩ := @entry_first indent trail e
    rw [Line.bytes, eq, List.length_cons]
    omega
  | comment indent mark text marks no_end => cases lists
  | blank indent => cases lists

theorem passed_opened (lines : List Line) : passed lines ++ opened lines = lines :=
  List.takeWhile_append_dropWhile

/-- Where every part of one list is at most as long as that of another, equal lengths in all
are equal lengths of each. -/
theorem flatMap_length_eq {α β : Type} {xs : List α} {f g : α → List β}
    (le : ∀ x ∈ xs, (f x).length ≤ (g x).length)
    (same : (xs.flatMap f).length = (xs.flatMap g).length) :
    ∀ x ∈ xs, (g x).length = (f x).length := by
  have total (xs : List α) (le : ∀ x ∈ xs, (f x).length ≤ (g x).length) :
      (xs.flatMap f).length ≤ (xs.flatMap g).length := by
    induction xs with
    | nil => exact Nat.le_refl _
    | cons x xs ih =>
      have head := le x List.mem_cons_self
      have tail := ih fun y hy => le y (List.mem_cons_of_mem _ hy)
      simp only [List.flatMap_cons, List.length_append]
      omega
  induction xs with
  | nil => simp
  | cons x xs ih =>
    have head := le x List.mem_cons_self
    have later := fun y hy => le y (List.mem_cons_of_mem _ hy)
    have tail := total xs later
    simp only [List.flatMap_cons, List.length_append] at same
    intro y hy
    rcases List.mem_cons.mp hy with rfl | hy
    · omega
    · exact ih later (by omega) y hy

theorem filterMap_flatMap (lines : List Line) :
    lines.filterMap Line.cmd = lines.flatMap fun l => l.cmd.toList := by
  induction lines with
  | nil => rfl
  | cons l ls ih =>
    rw [List.filterMap_cons, List.flatMap_cons, ← ih]
    cases l.cmd <;> rfl

/-- The lines that the guess passes over list nothing. -/
theorem listed_opened {lines : List Line} (quiet : ∀ l ∈ passed lines, l.cmd = none) :
    lines.filterMap Line.cmd = (opened lines).filterMap Line.cmd := by
  conv => lhs; rw [← passed_opened lines]
  rw [List.filterMap_append, List.filterMap_eq_nil_iff.mpr quiet, List.nil_append]

theorem binaryStores_nil {idx : Nat} {s : List Byte} :
    binaryStores idx s = [] ↔ s.length ≤ 1 := by
  match s with
  | [] => simp [binaryStores]
  | [c] => simp [binaryStores]
  | hi :: lo :: rest => simp [binaryStores]

/-- A text without a program line to open it is stored as an image. -/
theorem stores_closed {lines : List Line} (closed : opened lines = []) :
    stores (file lines) = number 0 ((opened lines).filterMap Line.cmd) ↔
      (file lines).length ≤ 1 := by
  have binary : looksText (file lines) = false :=
    Bool.eq_false_iff.mpr fun yes => (looksText_file lines).mp yes closed
  rw [stores, binary, if_neg Bool.false_ne_true, closed]
  exact binaryStores_nil

theorem stores_opened {lines : List Line} (opens : opened lines ≠ []) :
    stores (file lines) = number 0 ((opened lines).flatMap fun l => textCmds l.bytes) := by
  rw [stores, if_pos ((looksText_file lines).mpr opens), seek_file, textCmds_file]

/-- The guess has read the lines that it passed. -/
theorem passed_read {lines : List Line} {l : Line} (mem : l ∈ passed lines)
    (lists : l.cmd.isSome = true) : ∃ before after, lines = before ++ l :: after ∧
      (seek false (file lines)).length < (file (l :: after)).length := by
  obtain ⟨before, after, eq⟩ := List.append_of_mem mem
  refine ⟨before, after ++ opened lines, ?_, ?_⟩
  · calc lines = passed lines ++ opened lines := (passed_opened lines).symm
      _ = before ++ l :: (after ++ opened lines) := by
        rw [eq, List.append_assoc, List.cons_append]
  · have first := file_length l (after ++ opened lines)
    have longer := file_length_append after (opened lines)
    have pos := bytes_pos lists
    rw [seek_file]
    omega

/-- Where it passed no program line it has read none. -/
theorem unread_of_quiet {lines before after : List Line} {l : Line}
    (quiet : ∀ l ∈ passed lines, l.cmd = none) (whole : lines = before ++ l :: after)
    (lists : l.cmd.isSome = true) :
    (file (l :: after)).length ≤ (seek false (file lines)).length := by
  have split := passed_opened lines
  rw [seek_file]
  rcases List.append_eq_append_iff.mp (split.trans whole) with ⟨x, -, rest⟩ | ⟨x, early, rest⟩
  · rw [rest]
    exact file_length_append _ _
  · cases x with
    | nil =>
      rw [rest]
      exact Nat.le_refl _
    | cons k x =>
      obtain ⟨rfl, -⟩ := List.cons.inj rest
      have none := quiet l (by rw [early]; simp)
      rw [none] at lists
      cases lists

theorem Line.known_of_plain {l : Line} (plain : l.Plain) (lists : l.cmd.isSome = true) :
    (readLine l.bytes).isSome = true := by
  have stored := Line.plain_cmds plain
  cases l with
  | entry indent e trail fits =>
    rw [Line.entry_cmds] at stored
    cases reads : readLine (Line.bytes (.entry indent e trail fits)) with
    | none =>
      rw [reads] at stored
      cases stored
    | some cmd => rfl
  | comment indent mark text marks no_end => cases lists
  | blank indent => cases lists

theorem readable_of_loads {lines : List Line} (loads : Loads lines) : Readable lines := by
  have quiet : ∀ l ∈ passed lines, l.cmd = none := by
    intro l mem
    by_contra lists
    rw [← ne_eq, Option.ne_none_iff_isSome] at lists
    obtain ⟨before, after, whole, read⟩ := passed_read mem lists
    exact absurd (loads.unread before l after whole lists) (not_le.mpr read)
  have stored := loads.stores
  rw [listed, listed_opened quiet] at stored
  by_cases closed : opened lines = []
  · refine ⟨quiet, .inr ((stores_closed closed).mp stored), ?_⟩
    rw [closed]
    simp
  · refine ⟨quiet, .inl closed, ?_⟩
    have lengths := congrArg List.length stored
    rw [stores_opened closed, number_length, number_length, filterMap_flatMap] at lengths
    have each := flatMap_length_eq (fun l mem => Line.listed_le fun lists =>
      loads.known l (by rw [← passed_opened lines]; exact List.mem_append_right _ mem) lists)
      lengths.symm
    exact fun l mem => Line.plain_of_length (each l mem)

theorem loads_of_readable {lines : List Line} (readable : Readable lines) : Loads lines := by
  obtain ⟨quiet, opens, plain⟩ := readable
  refine ⟨?_, fun before l after whole lists => unread_of_quiet quiet whole lists, ?_⟩
  · rw [listed, listed_opened quiet]
    by_cases closed : opened lines = []
    · exact (stores_closed closed).mpr (opens.resolve_left (not_not.mpr closed))
    · rw [stores_opened closed, filterMap_flatMap]
      exact congrArg _ (List.flatMap_congr fun l mem => Line.plain_cmds (plain l mem))
  · intro l mem lists
    rw [← passed_opened lines] at mem
    rcases List.mem_append.mp mem with early | late
    · rw [quiet l early] at lists
      cases lists
    · exact Line.known_of_plain (plain l late) lists

/-- **Texts.** The loader stores what a text lists exactly if the text is readable. -/
theorem text_iff (lines : List Line) : Loads lines ↔ Readable lines :=
  ⟨readable_of_loads, loads_of_readable⟩

/-! ## Both formats -/

/-- **What is loaded as it is written.** A binary image is if it is empty or not like a
text, a text if it is readable, and no other image or text. -/
theorem load_iff (ws : List Word) (fits : ws.length ≤ 65536) (lines : List Line) :
    ((∀ rom, loadProg (image ws) rom = placed ws rom) ↔ ws = [] ∨ ¬TextLike (image ws)) ∧
      (Loads lines ↔ Readable lines) :=
  ⟨image_iff fits, text_iff lines⟩

def bare : Blanks := ⟨[], by decide⟩

def zero : Number := ⟨[chr '0'], by decide, by decide, by decide⟩

def hex0112 : Number := ⟨[chr '0', chr '1', chr '1', chr '2'], by decide, by decide, by decide⟩

/-- `# a` and `@0 0112`. -/
def basicLines : List Line :=
  [.comment bare (chr '#') [chr ' ', chr 'a'] (.inl rfl) (by decide),
    .entry bare (.at zero hex0112) bare (by decide)]

theorem load_iff_basic :
    (∀ rom, loadProg (image [0x0112, 0x0634]) rom = placed [0x0112, 0x0634] rom) ∧
      Loads basicLines := by
  have both := load_iff [0x0112, 0x0634] (by decide) basicLines
  refine ⟨both.1.mpr (.inr ?_), both.2.mpr ⟨?_, .inl ?_, ?_⟩⟩
  · rw [← looksText_iff]
    decide
  · intro l mem
    obtain rfl := List.mem_singleton.mp mem
    rfl
  · exact List.cons_ne_nil _ _
  · intro l mem
    obtain rfl := List.mem_singleton.mp mem
    exact fun _ => rfl

def indented : Blanks := ⟨[chr ' '], by decide⟩

/-- An image of one word that is text, a word lost by its indentation, and a comment taken
for a binary image. -/
theorem load_misreads :
    loadProg (image [0x3030]) (fun _ => 0) 0 ≠ placed [0x3030] (fun _ => 0) 0 ∧
      stores (file [.entry indented (.next hex0112) bare (by decide),
        .entry bare (.next hex0112) bare (by decide)]) ≠
      listed [.entry indented (.next hex0112) bare (by decide),
        .entry bare (.next hex0112) bare (by decide)] ∧
      stores (file [.comment bare (chr '#') [chr 'a'] (.inl rfl) (by decide)]) ≠
        listed [.comment bare (chr '#') [chr 'a'] (.inl rfl) (by decide)] := by
  refine ⟨?_, ?_, ?_⟩ <;> decide

end Chiptune.Miniglow
