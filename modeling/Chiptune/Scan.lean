import Mathlib.Algebra.Ring.Nat
import Mathlib.Data.List.DropRight
import Mathlib.Tactic.Common

/-!
# Text input of C

`sscanf` with `%x` and `fgets`, on lists of bytes.

* `scanX` is one `%x`: white space, a sign, `0x`, and the longest run of digits.
  `scanX_digits` reads a number, `scanX_split` says what a conversion consumed.
* `fgetsAll` are the pieces that `fgets` returns until the end of the file.
  `fgetsAll_cons` takes the first one off, `fgetsAll_line` all those of a line.
-/

namespace Chiptune.Scan

def chr (c : Char) : BitVec 8 := BitVec.ofNat 8 c.toNat

def nl : BitVec 8 := chr '\n'

def isSpace (c : BitVec 8) : Bool := c = chr ' ' ∨ 9 ≤ c.toNat ∧ c.toNat ≤ 13

def hexDigit (c : BitVec 8) : Option Nat :=
  if 48 ≤ c.toNat ∧ c.toNat ≤ 57 then some (c.toNat - 48)
  else if 65 ≤ c.toNat ∧ c.toNat ≤ 70 then some (c.toNat - 55)
  else if 97 ≤ c.toNat ∧ c.toNat ≤ 102 then some (c.toNat - 87)
  else none

def isHex (c : BitVec 8) : Bool := (hexDigit c).isSome

def hexValue (ds : List (BitVec 8)) : Nat := ds.foldl (fun n d => 16 * n + (hexDigit d).getD 0) 0

/-! ## `%x` -/

/-- `strtoul` on 64 bits, stored in an `unsigned int`. -/
def unsigned (neg : Bool) (n : Nat) : BitVec 32 :=
  if 2 ^ 64 ≤ n then BitVec.allOnes 32
  else if neg then -BitVec.ofNat 32 n
  else BitVec.ofNat 32 n

def sign : List (BitVec 8) → Bool × List (BitVec 8)
  | [] => (false, [])
  | c :: r => if c = chr '-' then (true, r) else if c = chr '+' then (false, r) else (false, c :: r)

def hexPrefix : List (BitVec 8) → List (BitVec 8)
  | z :: x :: r => if z = chr '0' ∧ (x = chr 'x' ∨ x = chr 'X') then r else z :: x :: r
  | s => s

/-- The value and what is left of the input. -/
def scanX (s : List (BitVec 8)) : Option (BitVec 32 × List (BitVec 8)) :=
  let t := sign (s.dropWhile isSpace)
  let u := hexPrefix t.2
  if u.takeWhile isHex = [] then none
  else some (unsigned t.1 (hexValue (u.takeWhile isHex)), u.dropWhile isHex)

/-! ### Characters -/

theorem hex_not_space {c : BitVec 8} (hex : isHex c = true) : isSpace c = false := by
  revert c
  decide

theorem hex_not_sign {c : BitVec 8} (hex : isHex c = true) : c ≠ chr '-' ∧ c ≠ chr '+' := by
  revert c
  decide

theorem hex_not_x {c : BitVec 8} (hex : isHex c = true) : c ≠ chr 'x' ∧ c ≠ chr 'X' := by
  revert c
  decide

theorem space_not_x {c : BitVec 8} (space : isSpace c = true) : c ≠ chr 'x' ∧ c ≠ chr 'X' := by
  revert c
  decide

theorem space_not_hex {c : BitVec 8} (space : isSpace c = true) : isHex c = false := by
  revert c
  decide

theorem hexDigit_lt {c : BitVec 8} : (hexDigit c).getD 0 < 16 := by
  revert c
  decide

theorem hexValue_lt (ds : List (BitVec 8)) : hexValue ds < 16 ^ ds.length := by
  induction ds using List.reverseRecOn with
  | nil => decide
  | append_singleton ds d ih =>
    have digit := @hexDigit_lt d
    simp only [hexValue, List.foldl_append, List.foldl_cons, List.foldl_nil, List.length_append,
      List.length_singleton, Nat.pow_succ] at ih ⊢
    omega

theorem unsigned_le (n : Nat) : (unsigned false n).toNat ≤ n := by
  unfold unsigned
  split
  · exact Nat.le_trans (by decide) ‹2 ^ 64 ≤ n›
  · exact Nat.mod_le _ _

theorem unsigned_small {n : Nat} (small : n < 2 ^ 32) : unsigned false n = BitVec.ofNat 32 n := by
  rw [unsigned, if_neg (by omega)]
  rfl

/-! ### What a conversion reads -/

theorem sign_suffix (s : List (BitVec 8)) : (sign s).2 <:+ s := by
  cases s with
  | nil => exact List.suffix_refl _
  | cons c r =>
    rw [sign]
    split_ifs
    · exact List.suffix_cons c r
    · exact List.suffix_cons c r
    · exact List.suffix_refl _

theorem hexPrefix_suffix (s : List (BitVec 8)) : hexPrefix s <:+ s := by
  unfold hexPrefix
  split
  · split_ifs
    · exact (List.suffix_cons _ _).trans (List.suffix_cons _ _)
    · exact List.suffix_refl _
  · exact List.suffix_refl _

/-- A conversion ends with a digit, and all the digits there are. -/
theorem scanX_split {s r : List (BitVec 8)} {v : BitVec 32} (scans : scanX s = some (v, r)) :
    ∃ before d, s = before ++ d :: r ∧ isHex d = true ∧
      ∀ c, r.head? = some c → isHex c = false := by
  unfold scanX at scans
  dsimp only at scans
  split at scans
  · cases scans
  · rename_i digits
    obtain ⟨-, rfl⟩ := Prod.mk.inj (Option.some.inj scans)
    have suffix := (hexPrefix_suffix _).trans
      ((sign_suffix _).trans (List.dropWhile_suffix (l := s) isSpace))
    obtain ⟨before, whole⟩ := suffix
    generalize hexPrefix (sign (s.dropWhile isSpace)).2 = u at digits whole
    obtain ⟨ds, d, last⟩ := List.eq_nil_or_concat (u.takeWhile isHex) |>.resolve_left digits
    have hex : isHex d = true := List.mem_takeWhile_imp (by rw [last]; simp)
    refine ⟨before ++ ds, d, ?_, hex, ?_⟩
    · calc s = before ++ u := whole.symm
        _ = before ++ (u.takeWhile isHex ++ u.dropWhile isHex) := by
          rw [List.takeWhile_append_dropWhile]
        _ = before ++ ds ++ d :: u.dropWhile isHex := by
          rw [last]
          simp
    · intro c first
      have head := List.head?_dropWhile_not isHex u
      rw [first] at head
      simpa using head

/-- A conversion that starts with a digit has no sign, so its value is within its digits. -/
theorem scanX_lt {c : BitVec 8} {s r : List (BitVec 8)} {v : BitVec 32} (hex : isHex c = true)
    (scans : scanX (c :: s) = some (v, r)) : v.toNat < 16 ^ (s.length + 1 - r.length) := by
  have first : (c :: s).dropWhile isSpace = c :: s :=
    List.dropWhile_cons_of_neg (by rw [hex_not_space hex]; decide)
  have plain : sign (c :: s) = (false, c :: s) := by
    rw [sign, if_neg (hex_not_sign hex).1, if_neg (hex_not_sign hex).2]
  unfold scanX at scans
  rw [first, plain] at scans
  dsimp only at scans
  split at scans
  · cases scans
  · obtain ⟨rfl, rfl⟩ := Prod.mk.inj (Option.some.inj scans)
    have bound := hexValue_lt ((hexPrefix (c :: s)).takeWhile isHex)
    have parts := congrArg List.length
      (List.takeWhile_append_dropWhile (p := isHex) (l := hexPrefix (c :: s)))
    have shorter := (hexPrefix_suffix (c :: s)).length_le
    rw [List.length_append] at parts
    rw [List.length_cons] at shorter
    refine Nat.lt_of_le_of_lt (unsigned_le _) (Nat.lt_of_lt_of_le bound ?_)
    exact Nat.pow_le_pow_right (by decide) (by omega)

/-- The second character is a digit or a space, so there is no `0x`. -/
theorem hexPrefix_digits {ds r : List (BitVec 8)} (digits : ∀ d ∈ ds, isHex d = true)
    (some_digit : ds ≠ []) (ends : ∀ c, r.head? = some c → isSpace c = true) :
    hexPrefix (ds ++ r) = ds ++ r := by
  obtain ⟨z, zs, rfl⟩ := List.exists_cons_of_ne_nil some_digit
  rw [List.cons_append]
  unfold hexPrefix
  split
  · rename_i z' x r' eq
    have second : x ≠ chr 'x' ∧ x ≠ chr 'X' := by
      cases zs with
      | nil =>
        obtain ⟨-, rfl⟩ := List.cons.inj eq
        exact space_not_x (ends x rfl)
      | cons d ds' =>
        obtain ⟨-, rest⟩ := List.cons.inj eq
        obtain ⟨rfl, -⟩ := List.cons.inj rest
        exact hex_not_x (digits d (by simp))
    rw [if_neg (fun h => h.2.elim second.1 second.2)]
    exact eq.symm
  · rfl

theorem hex_digits {ds r : List (BitVec 8)} (digits : ∀ d ∈ ds, isHex d = true)
    (ends : ∀ c, r.head? = some c → isSpace c = true) :
    (ds ++ r).takeWhile isHex = ds ∧ (ds ++ r).dropWhile isHex = r := by
  rw [List.takeWhile_append_of_pos digits, List.dropWhile_append_of_pos digits]
  cases r with
  | nil => exact ⟨List.append_nil _, rfl⟩
  | cons c r =>
    have stop : ¬isHex c = true := by rw [space_not_hex (ends c rfl)]; decide
    rw [List.takeWhile_cons_of_neg stop, List.dropWhile_cons_of_neg stop]
    exact ⟨List.append_nil _, rfl⟩

theorem scanX_digits {ws ds r : List (BitVec 8)} (spaces : ∀ c ∈ ws, isSpace c = true)
    (some_digit : ds ≠ []) (digits : ∀ d ∈ ds, isHex d = true) (short : ds.length ≤ 8)
    (ends : ∀ c, r.head? = some c → isSpace c = true) :
    scanX (ws ++ ds ++ r) = some (BitVec.ofNat 32 (hexValue ds), r) := by
  obtain ⟨taken, left⟩ := hex_digits digits ends
  have unmarked := hexPrefix_digits digits some_digit ends
  obtain ⟨z, zs, rfl⟩ := List.exists_cons_of_ne_nil some_digit
  have hex := digits z List.mem_cons_self
  have first : (ws ++ (z :: zs) ++ r).dropWhile isSpace = z :: zs ++ r := by
    rw [List.append_assoc, List.dropWhile_append_of_pos spaces]
    exact List.dropWhile_cons_of_neg (by rw [hex_not_space hex]; decide)
  have plain : sign (z :: zs ++ r) = (false, z :: zs ++ r) := by
    rw [List.cons_append, sign, if_neg (hex_not_sign hex).1, if_neg (hex_not_sign hex).2]
  have value : hexValue (z :: zs) < 2 ^ 32 :=
    Nat.lt_of_lt_of_le (hexValue_lt _) (Nat.pow_le_pow_right (n := 16) (by decide) short)
  rw [scanX, first, plain]
  dsimp only
  rw [unmarked, taken, left, if_neg (List.cons_ne_nil z zs), unsigned_small value]

/-- White space and then a character that no number starts with. -/
theorem scanX_none {ws t : List (BitVec 8)} (spaces : ∀ c ∈ ws, isSpace c = true)
    (other : ∀ c, t.head? = some c →
      isSpace c = false ∧ isHex c = false ∧ c ≠ chr '-' ∧ c ≠ chr '+') :
    scanX (ws ++ t) = none := by
  rw [scanX, List.dropWhile_append_of_pos spaces]
  cases t with
  | nil => rfl
  | cons c t =>
    obtain ⟨space, hex, minus, plus⟩ := other c rfl
    have stop : ¬isHex c = true := by rw [hex]; decide
    have unmarked : (hexPrefix (c :: t)).takeWhile isHex = [] := by
      unfold hexPrefix
      split
      · rename_i z x r eq
        obtain ⟨rfl, -⟩ := List.cons.inj eq
        rw [if_neg]
        · exact List.takeWhile_cons_of_neg stop
        · rintro ⟨rfl, -⟩
          exact stop (by decide)
      · exact List.takeWhile_cons_of_neg stop
    rw [List.dropWhile_cons_of_neg (by rw [space]; decide), sign, if_neg minus, if_neg plus]
    dsimp only
    rw [if_pos unmarked]

theorem hex_nl (u : List (BitVec 8)) : (u ++ [nl]).takeWhile isHex = u.takeWhile isHex ∧
    (u ++ [nl]).dropWhile isHex = u.dropWhile isHex ++ [nl] := by
  induction u with
  | nil => decide
  | cons c u ih =>
    by_cases hex : isHex c = true
    · simp only [List.cons_append, List.takeWhile_cons_of_pos hex,
        List.dropWhile_cons_of_pos hex, ih, and_self]
    · simp only [List.cons_append, List.takeWhile_cons_of_neg hex,
        List.dropWhile_cons_of_neg hex, and_self]

theorem hexPrefix_nl (u : List (BitVec 8)) : hexPrefix (u ++ [nl]) = hexPrefix u ++ [nl] := by
  match u with
  | [] => rfl
  | [z] => exact if_neg (fun h => h.2.elim (by decide) (by decide))
  | z :: x :: r =>
    by_cases zx : z = chr '0' ∧ (x = chr 'x' ∨ x = chr 'X')
    · simp only [hexPrefix, List.cons_append, if_pos zx]
    · simp only [hexPrefix, List.cons_append, if_neg zx]

/-- A line end after the input is left over. -/
theorem scanX_nl (s : List (BitVec 8)) :
    scanX (s ++ [nl]) = (scanX s).map fun x => (x.1, x.2 ++ [nl]) := by
  by_cases blank : s.dropWhile isSpace = []
  · have spaces := List.dropWhile_eq_nil_iff.mp blank
    have spaces_nl : ∀ c ∈ s ++ [nl], isSpace c = true := by
      intro c hc
      rcases List.mem_append.mp hc with hc | hc
      · exact spaces c hc
      · rw [List.mem_singleton.mp hc]
        decide
    have short := @scanX_none s [] spaces (fun c first => by cases first)
    have long := @scanX_none (s ++ [nl]) [] spaces_nl (fun c first => by cases first)
    rw [List.append_nil] at short long
    rw [short, long]
    rfl
  · have kept : (s ++ [nl]).dropWhile isSpace = s.dropWhile isSpace ++ [nl] := by
      rw [List.dropWhile_append, if_neg (by simpa using blank)]
    have signs : sign (s.dropWhile isSpace ++ [nl]) =
        ((sign (s.dropWhile isSpace)).1, (sign (s.dropWhile isSpace)).2 ++ [nl]) := by
      obtain ⟨c, r, eq⟩ := List.exists_cons_of_ne_nil blank
      rw [eq]
      simp only [sign, List.cons_append]
      split_ifs <;> rfl
    unfold scanX
    rw [kept, signs]
    dsimp only
    rw [hexPrefix_nl, (hex_nl _).1, (hex_nl _).2]
    split_ifs <;> rfl

/-! ## `fgets` -/

/-- The calls of `fgets` up to the end of the file, each taking at most `room` characters. -/
def fgetsAll (room : Nat) (cur : List (BitVec 8)) : List (BitVec 8) → List (List (BitVec 8))
  | [] => if cur = [] then [] else [cur]
  | c :: rest =>
    if c = nl ∨ cur.length + 1 = room then (cur ++ [c]) :: fgetsAll room [] rest
    else fgetsAll room (cur ++ [c]) rest

variable {room : Nat}

/-- The first call, and what it leaves. -/
theorem fgetsAll_cons {cur s p : List (BitVec 8)} {ps : List (List (BitVec 8))}
    (reads : fgetsAll room cur s = p :: ps) : ∃ rest, cur ++ s = p ++ rest ∧ p ≠ [] ∧
      ps = fgetsAll room [] rest ∧ (rest = [] ∨ p.getLast? = some nl ∨ p.length = room) := by
  induction s generalizing cur with
  | nil =>
    rw [fgetsAll] at reads
    split at reads
    · cases reads
    · rename_i some_char
      obtain ⟨rfl, rfl⟩ := List.cons.inj reads
      exact ⟨[], rfl, some_char, rfl, .inl rfl⟩
  | cons c s ih =>
    rw [fgetsAll] at reads
    split at reads
    · rename_i ends
      obtain ⟨rfl, rfl⟩ := List.cons.inj reads
      refine ⟨s, by simp, by simp, rfl, .inr ?_⟩
      rcases ends with rfl | full
      · exact .inl (by simp)
      · exact .inr (by simpa using full)
    · obtain ⟨rest, whole, ne, after, ends⟩ := ih reads
      exact ⟨rest, by rw [← whole]; simp, ne, after, ends⟩

theorem fgetsAll_mem {cur s p : List (BitVec 8)} (mem : p ∈ fgetsAll room cur s) :
    ∀ c ∈ p, c ∈ cur ++ s := by
  generalize pieces : fgetsAll room cur s = ps at mem
  induction ps generalizing cur s with
  | nil => cases mem
  | cons q ps ih =>
    obtain ⟨rest, whole, -, rfl, -⟩ := fgetsAll_cons pieces
    intro c hc
    rw [whole]
    rcases List.mem_cons.mp mem with rfl | later
    · exact List.mem_append_left _ hc
    · exact List.mem_append_right _ (ih rfl later c hc)

theorem fgetsAll_line {cur l rest : List (BitVec 8)} (no_end : ∀ c ∈ l, c ≠ nl) :
    fgetsAll room cur (l ++ nl :: rest) =
      fgetsAll room cur (l ++ [nl]) ++ fgetsAll room [] rest := by
  induction l generalizing cur with
  | nil =>
    simp only [List.nil_append, fgetsAll, true_or, if_true, List.cons_append]
  | cons c l ih =>
    have more := fun c hc => no_end c (List.mem_cons_of_mem _ hc)
    simp only [List.cons_append, fgetsAll]
    split
    · rw [ih more, List.cons_append]
    · exact ih more

/-- A line that fits is read by one call. -/
theorem fgetsAll_short {cur l : List (BitVec 8)} (no_end : ∀ c ∈ l, c ≠ nl)
    (fits : cur.length + l.length ≤ room) (some_char : cur ++ l ≠ []) :
    fgetsAll room cur l = [cur ++ l] := by
  induction l generalizing cur with
  | nil =>
    rw [List.append_nil] at some_char ⊢
    rw [fgetsAll, if_neg some_char]
  | cons c l ih =>
    have more := fun c hc => no_end c (List.mem_cons_of_mem _ hc)
    rw [List.length_cons] at fits
    rw [fgetsAll]
    split
    · rename_i ends
      have full := ends.resolve_left (no_end c List.mem_cons_self)
      obtain rfl : l = [] := List.length_eq_zero_iff.mp (by omega)
      rfl
    · rw [ih more (by rw [List.length_append, List.length_singleton]; omega) (by simp)]
      simp

/-- What a line says does not depend on its line end. -/
theorem fgetsAll_nl {α : Type} {read : List (BitVec 8) → Option α} (blank : read [] = none)
    (same : ∀ p, read (p ++ [nl]) = read p) {cur l : List (BitVec 8)}
    (no_end : ∀ c ∈ l, c ≠ nl) :
    (fgetsAll room cur (l ++ [nl])).filterMap read = (fgetsAll room cur l).filterMap read := by
  induction l generalizing cur with
  | nil =>
    have once : fgetsAll room cur ([] ++ [nl]) = [cur ++ [nl]] := by
      simp only [List.nil_append, fgetsAll, true_or, if_true]
    rw [once, fgetsAll, List.filterMap_cons, same cur]
    split_ifs with empty
    · rw [empty, blank]
    · rw [List.filterMap_cons]
  | cons c l ih =>
    have more := fun c hc => no_end c (List.mem_cons_of_mem _ hc)
    simp only [List.cons_append, fgetsAll]
    split
    · rw [List.filterMap_cons, List.filterMap_cons, ih more]
    · exact ih more

end Chiptune.Scan
