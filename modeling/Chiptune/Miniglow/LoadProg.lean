import Mathlib.Data.List.Nodup
import Mathlib.Data.List.Perm.Subperm
import Chiptune.Miniglow.Rtl
import Chiptune.Scan

/-!
# load_prog

`load_prog` of `miniglow/sim/miniglow_sim.c`. It takes the file for text if the first
line that does not start with white space or a comment sign starts with `@` or a
hexadecimal digit, and what it skipped to find that line is not read again.

`image_iff` says for which binary images the guess is right; the texts are in
`Chiptune.Miniglow.TextProg`.
-/

namespace Chiptune.Miniglow

open Scan

/-! ## The format -/

/-- The characters that the guess takes for the start of a line without a program word. -/
def skips (c : Byte) : Bool :=
  c = chr '#' ∨ c = chr ';' ∨ c = nl ∨ c = chr '\r' ∨ c = chr ' ' ∨ c = chr '\t'

/-- What is left of the file where the guess stops; `inLine` while it looks for the end of a
line. -/
def seek (inLine : Bool) : List Byte → List Byte
  | [] => []
  | c :: rest =>
    if inLine then seek (c ≠ nl) rest
    else if skips c then seek (c ≠ nl) rest
    else c :: rest

def opensText (c : Byte) : Bool := c = chr '@' ∨ isHex c

def looksText (file : List Byte) : Bool := (seek false file).head?.any opensText

/-! ## Text -/

/-- What a line stores, at its address or at the next one in sequence. -/
inductive Cmd where
  | at (addr val : Word)
  | next (val : Word)
  deriving DecidableEq

/-- `sscanf(line, "%x %x", &addr, &val) == 2`. -/
def scanPair (s : List Byte) : Option (Word × Word) :=
  match scanX s with
  | none => none
  | some (addr, r) => (scanX r).map fun val => (addr.setWidth 16, val.1.setWidth 16)

/-- `sscanf(line, "@%x %x", &addr, &val) == 2`. -/
def scanAt : List Byte → Option (Word × Word)
  | [] => none
  | c :: r => if c = chr '@' then scanPair r else none

/-- The body of the loop; for `sscanf` the line ends at a NUL. -/
def readLine (line : List Byte) : Option Cmd :=
  if line.head? = some (chr '#') ∨ line.head? = some (chr ';') ∨ line.head? = some nl then none
  else
    let s := line.takeWhile (· ≠ 0)
    match scanAt s with
    | some (addr, val) => some (.at addr val)
    | none =>
      match scanPair s with
      | some (addr, val) => some (.at addr val)
      | none => (scanX s).map fun val => .next (val.1.setWidth 16)

/-- `seq` counts the words without an address. -/
def number (seq : Nat) : List Cmd → List (Word × Word)
  | [] => []
  | .at addr val :: cmds => (addr, val) :: number seq cmds
  | .next val :: cmds => (BitVec.ofNat 16 seq, val) :: number (seq + 1) cmds

/-- The lines of `char line[256]`. -/
def textCmds (s : List Byte) : List Cmd := (fgetsAll 255 [] s).filterMap readLine

/-! ## Loading -/

def binaryStores (idx : Nat) : List Byte → List (Word × Word)
  | hi :: lo :: rest => (BitVec.ofNat 16 idx, hi ++ lo) :: binaryStores (idx + 1) rest
  | _ => []

/-- The assignments to `prog_rom`, in order. -/
def stores (file : List Byte) : List (Word × Word) :=
  if looksText file then number 0 (textCmds (seek false file)) else binaryStores 0 file

def store (rom : Rom) (s : Word × Word) : Rom := Function.update rom s.1 s.2

def loadProg (file : List Byte) (rom : Rom) : Rom := (stores file).foldl store rom

/-! ### Where the guess stops -/

/-- Lines that start with white space or a comment sign. -/
inductive Passed : List Byte → Prop where
  | nil : Passed []
  | line {body rest : List Byte} (no_end : ∀ c ∈ body, c ≠ nl)
      (first : (body ++ [nl]).head?.all skips = true) (later : Passed rest) :
      Passed (body ++ nl :: rest)

/-- The first other line starts with `@` or a hexadecimal digit. -/
def TextLike (file : List Byte) : Prop :=
  ∃ before c after, file = before ++ c :: after ∧ Passed before ∧ opensText c = true

theorem seek_end {s : List Byte} (no_end : ∀ c ∈ s, c ≠ nl) (rest : List Byte) :
    seek true (s ++ nl :: rest) = seek false rest ∧ seek true s = [] := by
  induction s with
  | nil => exact ⟨rfl, rfl⟩
  | cons c s ih =>
    have goes_on : decide (c ≠ nl) = true := decide_eq_true (no_end c List.mem_cons_self)
    have := ih fun d hd => no_end d (List.mem_cons_of_mem _ hd)
    simpa only [List.cons_append, seek, if_true, goes_on] using this

theorem seek_line {body : List Byte} (no_end : ∀ c ∈ body, c ≠ nl)
    (first : (body ++ [nl]).head?.all skips = true) (rest : List Byte) :
    seek false (body ++ nl :: rest) = seek false rest ∧ seek false body = [] := by
  cases body with
  | nil => exact ⟨rfl, rfl⟩
  | cons c s =>
    have skip : skips c = true := first
    have goes_on : decide (c ≠ nl) = true := decide_eq_true (no_end c List.mem_cons_self)
    have := seek_end (fun d hd => no_end d (List.mem_cons_of_mem _ hd)) rest
    simpa only [List.cons_append, seek, Bool.false_eq_true, if_false, if_pos skip, goes_on]
      using this

theorem opens_not_skips {c : Byte} (opens : opensText c = true) : skips c = false := by
  revert c
  decide

/-- The guess passes over whole lines. -/
theorem seek_stops {file after : List Byte} {c : Byte} (stops : seek false file = c :: after) :
    ∃ before, file = before ++ c :: after ∧ Passed before := by
  have both : (seek false file = c :: after → ∃ before, file = before ++ c :: after ∧
      Passed before) ∧ (seek true file = c :: after → ∃ body before, (∀ d ∈ body, d ≠ nl) ∧
        file = body ++ nl :: (before ++ c :: after) ∧ Passed before) := by
    clear stops
    induction file with
    | nil => exact ⟨nofun, nofun⟩
    | cons d file ih =>
      by_cases ends : d = nl
      · have step (inLine : Bool) : seek inLine (d :: file) = seek false file := by
          rw [ends]
          cases inLine <;> rfl
        rw [step, step]
        constructor
        · intro stops
          obtain ⟨before, rfl, passed⟩ := ih.1 stops
          refine ⟨[] ++ nl :: before, by rw [ends]; rfl, ?_⟩
          exact .line (by simp) (by decide) passed
        · intro stops
          obtain ⟨before, rfl, passed⟩ := ih.1 stops
          exact ⟨[], before, by simp, by rw [ends]; rfl, passed⟩
      · have goes_on : decide (d ≠ nl) = true := decide_eq_true ends
        have in_line {body : List Byte} (no_end : ∀ x ∈ body, x ≠ nl) :
            ∀ x ∈ d :: body, x ≠ nl := by
          intro x hx
          rcases List.mem_cons.mp hx with rfl | hx
          · exact ends
          · exact no_end x hx
        rw [seek, seek, if_neg Bool.false_ne_true, if_pos rfl, goes_on]
        constructor
        · split
          · rename_i skip
            intro stops
            obtain ⟨body, before, no_end, rfl, passed⟩ := ih.2 stops
            refine ⟨(d :: body) ++ nl :: before, by simp, ?_⟩
            exact .line (in_line no_end) skip passed
          · intro stops
            exact ⟨[], stops, .nil⟩
        · intro stops
          obtain ⟨body, before, no_end, rfl, passed⟩ := ih.2 stops
          exact ⟨d :: body, before, in_line no_end, by simp, passed⟩
  exact both.1 stops

theorem looksText_iff (file : List Byte) : looksText file = true ↔ TextLike file := by
  constructor
  · intro text
    rw [looksText] at text
    cases stops : seek false file with
    | nil =>
      rw [stops] at text
      cases text
    | cons c after =>
      rw [stops] at text
      obtain ⟨before, eq, passed⟩ := seek_stops stops
      exact ⟨before, c, after, eq, passed, text⟩
  · rintro ⟨before, c, after, rfl, passed, opens⟩
    have stops : seek false (before ++ c :: after) = c :: after := by
      induction passed with
      | nil =>
        rw [List.nil_append, seek, if_neg Bool.false_ne_true, opens_not_skips opens,
          if_neg Bool.false_ne_true]
      | line no_end first later ih =>
        rw [List.append_assoc, List.cons_append, (seek_line no_end first _).1, ih]
    rw [looksText, stops]
    exact opens

/-! ## Binary images -/

def image (ws : List Word) : List Byte := ws.flatMap fun w => [w.extractLsb' 8 8, w.setWidth 8]

def placed (ws : List Word) (rom : Rom) : Rom := fun a => ws[a.toNat]?.getD (rom a)

theorem image_cons (w : Word) (ws : List Word) :
    image (w :: ws) = w.extractLsb' 8 8 :: w.setWidth 8 :: image ws := rfl

theorem image_length (ws : List Word) : (image ws).length = 2 * ws.length := by
  induction ws with
  | nil => rfl
  | cons w ws ih =>
    rw [image_cons, List.length_cons, List.length_cons, List.length_cons, ih]
    omega

theorem foldl_store_other {a : Word} {ss : List (Word × Word)} (rom : Rom)
    (other : a ∉ ss.map Prod.fst) : ss.foldl store rom a = rom a := by
  induction ss generalizing rom with
  | nil => rfl
  | cons s ss ih =>
    rw [List.map_cons, List.mem_cons, not_or] at other
    rw [List.foldl_cons, ih _ other.2, store, Function.update_of_ne other.1]

theorem binary_image (ws : List Word) (idx : Nat) (fits : idx + ws.length ≤ 65536) (rom : Rom)
    (a : Word) : (binaryStores idx (image ws)).foldl store rom a =
      if idx ≤ a.toNat then ws[a.toNat - idx]?.getD (rom a) else rom a := by
  induction ws generalizing idx rom with
  | nil => split <;> rfl
  | cons w ws ih =>
    rw [List.length_cons] at fits
    rw [image_cons, binaryStores, append_bytes, List.foldl_cons, ih (idx + 1) (by omega)]
    have index : (BitVec.ofNat 16 idx).toNat = idx := Nat.mod_eq_of_lt (by omega)
    by_cases here : a = BitVec.ofNat 16 idx
    · rw [here, index, if_neg (by omega), if_pos (Nat.le_refl _), Nat.sub_self]
      exact Function.update_self _ _ _
    · have apart : a.toNat ≠ idx := fun same => here (BitVec.eq_of_toNat_eq (same.trans index.symm))
      rw [store, Function.update_of_ne here]
      by_cases after : idx + 1 ≤ a.toNat
      · rw [if_pos after, if_pos (by omega), show a.toNat - idx = a.toNat - (idx + 1) + 1 by omega]
        rfl
      · rw [if_neg after, if_neg (by omega)]

theorem loadProg_image {ws : List Word} (fits : ws.length ≤ 65536)
    (binary : looksText (image ws) = false) (rom : Rom) :
    loadProg (image ws) rom = placed ws rom := by
  funext a
  rw [loadProg, stores, binary, if_neg Bool.false_ne_true, binary_image ws 0 (by omega),
    if_pos (Nat.zero_le _)]
  rfl

/-! ### An image taken for text

A line stores at most one word and takes two bytes, so `2 * n` bytes store `n` words only if
no byte is wasted. The first word of such an image needs three digits, which wastes two. -/

theorem number_length (seq : Nat) (cmds : List Cmd) :
    (number seq cmds).length = cmds.length := by
  induction cmds generalizing seq with
  | nil => rfl
  | cons cmd cmds ih =>
    cases cmd with
    | «at» addr val => rw [number, List.length_cons, List.length_cons, ih]
    | next val => rw [number, List.length_cons, List.length_cons, ih]

theorem cover_length {n : Nat} (fits : n ≤ 65536) {addrs : List Word}
    (every : ∀ i < n, BitVec.ofNat 16 i ∈ addrs) : n ≤ addrs.length := by
  have apart : ((List.range n).map (BitVec.ofNat 16)).Nodup := by
    refine List.Nodup.map_on ?_ List.nodup_range
    intro i hi j hj same
    have := congrArg BitVec.toNat same
    rw [List.mem_range] at hi hj
    rwa [BitVec.toNat_ofNat, BitVec.toNat_ofNat, Nat.mod_eq_of_lt (by omega),
      Nat.mod_eq_of_lt (by omega)] at this
  have sub : (List.range n).map (BitVec.ofNat 16) ⊆ addrs := by
    intro a ha
    obtain ⟨i, hi, rfl⟩ := List.mem_map.mp ha
    exact every i (List.mem_range.mp hi)
  have le := (List.subperm_of_subset apart sub).length_le
  rwa [List.length_map, List.length_range] at le

/-- The pattern that matched a line. -/
theorem readLine_cases {line : List Byte} {cmd : Cmd} (reads : readLine line = some cmd) :
    (∃ addr val, cmd = .at addr val ∧ (scanAt (line.takeWhile (· ≠ 0)) = some (addr, val) ∨
      scanPair (line.takeWhile (· ≠ 0)) = some (addr, val))) ∨
    ∃ x r, cmd = .next (x.setWidth 16) ∧ scanX (line.takeWhile (· ≠ 0)) = some (x, r) := by
  unfold readLine at reads
  split at reads
  · cases reads
  · dsimp only at reads
    split at reads
    · rename_i addr val scans
      exact .inl ⟨addr, val, (Option.some.inj reads).symm, .inl scans⟩
    · split at reads
      · rename_i addr val scans
        exact .inl ⟨addr, val, (Option.some.inj reads).symm, .inr scans⟩
      · obtain ⟨⟨x, r⟩, scans, rfl⟩ := Option.map_eq_some_iff.mp reads
        exact .inr ⟨x, r, rfl, scans⟩

theorem scanPair_cases {s : List Byte} {addr val : Word} (scans : scanPair s = some (addr, val)) :
    ∃ x y r r', scanX s = some (x, r) ∧ scanX r = some (y, r') := by
  unfold scanPair at scans
  split at scans
  · cases scans
  · rename_i x r first
    obtain ⟨⟨y, r'⟩, second, -⟩ := Option.map_eq_some_iff.mp scans
    exact ⟨x, y, r, r', first, second⟩

/-- Two numbers and what parts them. -/
theorem scanPair_length {s : List Byte} {addr val : Word}
    (scans : scanPair s = some (addr, val)) :
    3 ≤ s.length ∧ (s.getLast? = some nl → 4 ≤ s.length) := by
  obtain ⟨x, y, r, r', first, second⟩ := scanPair_cases scans
  obtain ⟨before, d, rfl, -, stop⟩ := scanX_split first
  obtain ⟨gap, e, rfl, hex, -⟩ := scanX_split second
  have parted : gap ≠ [] := by
    rintro rfl
    rw [stop e rfl] at hex
    exact absurd hex Bool.false_ne_true
  have parted := List.length_pos_of_ne_nil parted
  simp only [List.length_append, List.length_cons]
  refine ⟨by omega, fun ends => ?_⟩
  have left : r' ≠ [] := by
    rintro rfl
    rw [List.getLast?_append_cons, List.getLast?_cons_of_ne_nil (by simp), List.getLast?_append_cons] at ends
    obtain rfl : e = nl := by simpa using ends
    exact absurd hex (by decide)
  have left := List.length_pos_of_ne_nil left
  omega

theorem cstr_length (line : List Byte) :
    line.takeWhile (· ≠ 0) = line ∨ (line.takeWhile (· ≠ 0)).length < line.length := by
  have le := (List.takeWhile_prefix (l := line) (· ≠ 0)).length_le
  rcases Nat.lt_or_eq_of_le le with lt | eq
  · exact .inr lt
  · exact .inl ((List.takeWhile_prefix _).eq_of_length eq)

/-- A conversion leaves the line end. -/
theorem scanX_length {s r : List Byte} {v : BitVec 32} (scans : scanX s = some (v, r)) :
    r.length < s.length ∧ (s.getLast? = some nl → r ≠ []) := by
  obtain ⟨before, d, rfl, hex, -⟩ := scanX_split scans
  refine ⟨by rw [List.length_append, List.length_cons]; omega, ?_⟩
  rintro ends rfl
  rw [List.getLast?_append_cons] at ends
  obtain rfl : d = nl := by simpa using ends
  exact absurd hex (by decide)

theorem scanAt_cases {s : List Byte} {pair : Word × Word} (scans : scanAt s = some pair) :
    ∃ c r, s = c :: r ∧ scanPair r = some pair := by
  cases s with
  | nil => cases scans
  | cons c r =>
    rw [scanAt] at scans
    split at scans
    · exact ⟨c, r, rfl, scans⟩
    · cases scans

theorem readLine_hex {line : List Byte} {cmd : Cmd} (reads : readLine line = some cmd) :
    ∃ d ∈ line, isHex d = true := by
  have of_scan {s r : List Byte} {v : BitVec 32} (scans : scanX s = some (v, r)) :
      ∃ d ∈ s, isHex d = true := by
    obtain ⟨before, d, rfl, hex, -⟩ := scanX_split scans
    exact ⟨d, by simp, hex⟩
  have of_pair {s : List Byte} {addr val : Word} (scans : scanPair s = some (addr, val)) :
      ∃ d ∈ s, isHex d = true := by
    obtain ⟨x, y, r, r', first, -⟩ := scanPair_cases scans
    exact of_scan first
  have whole : ∃ d ∈ line.takeWhile (· ≠ 0), isHex d = true := by
    rcases readLine_cases reads with ⟨addr, val, -, scans | scans⟩ | ⟨x, r, -, scans⟩
    · obtain ⟨c, r, text, scans⟩ := scanAt_cases scans
      obtain ⟨d, mem, hex⟩ := of_pair scans
      rw [text]
      exact ⟨d, List.mem_cons_of_mem _ mem, hex⟩
    · exact of_pair scans
    · exact of_scan scans
  obtain ⟨d, mem, hex⟩ := whole
  exact ⟨d, (List.takeWhile_subset _) mem, hex⟩

/-- A line that stores and is not the last has a digit and ends. -/
theorem reads_two {p : List Byte} (full : p.getLast? = some nl ∨ p.length = 255) {c : Byte}
    (mem : c ∈ p) (ne : c ≠ nl) : 2 ≤ p.length := by
  rcases full with ends | full
  · have last := List.mem_of_getLast? ends
    by_contra short
    have pos := List.length_pos_of_mem mem
    obtain ⟨x, rfl⟩ := List.length_eq_one_iff.mp (by omega : p.length = 1)
    exact ne ((List.mem_singleton.mp mem).trans (List.mem_singleton.mp last).symm)
  · omega

theorem textCmds_length (s : List Byte) : 2 * (textCmds s).length ≤ s.length + 1 := by
  unfold textCmds
  generalize pieces : fgetsAll 255 [] s = ps
  induction ps generalizing s with
  | nil => simp
  | cons p ps ih =>
    obtain ⟨rest, rfl, some_char, rfl, ends⟩ := fgetsAll_cons pieces
    have pos := List.length_pos_of_ne_nil some_char
    rw [List.length_append, List.filterMap_cons]
    rcases ends with rfl | full
    · simp only [fgetsAll, if_true, List.filterMap_nil]
      split <;> simp; omega
    · have later := ih rest rfl
      cases reads : readLine p with
      | none => simp only; omega
      | some cmd =>
        obtain ⟨d, mem, hex⟩ := readLine_hex reads
        have two := reads_two full mem (by rintro rfl; exact absurd hex (by decide))
        simp only [List.length_cons]
        omega

theorem at_length {p : List Byte} {addr val : Word} (reads : readLine p = some (.at addr val)) :
    3 ≤ p.length ∧ (p.getLast? = some nl → 4 ≤ p.length) := by
  have cut := cstr_length p
  rcases readLine_cases reads with ⟨addr, val, -, scans | scans⟩ | ⟨x, r, kind, -⟩
  · obtain ⟨c, r, text, scans⟩ := scanAt_cases scans
    have long := (scanPair_length scans).1
    have whole := (List.takeWhile_prefix (l := p) (· ≠ 0)).length_le
    rw [text, List.length_cons] at whole
    omega
  · obtain ⟨three, four⟩ := scanPair_length scans
    rcases cut with same | lt
    · rw [same] at three four
      exact ⟨three, four⟩
    · omega
  · cases kind

/-- A line that starts the text and stores a word above 255 has three digits. -/
theorem next_length {c : Byte} {q : List Byte} {val : Word} (opens : opensText c = true)
    (reads : readLine (c :: q) = some (.next val)) (large : 255 < val.toNat) :
    3 ≤ (c :: q).length ∧ ((c :: q).getLast? = some nl → 4 ≤ (c :: q).length) := by
  have cut := cstr_length (c :: q)
  rcases readLine_cases reads with ⟨addr, val, kind, -⟩ | ⟨x, r, kind, scans⟩
  · cases kind
  · obtain rfl := Cmd.next.inj kind
    have some_char : c ≠ 0 := by
      rintro rfl
      revert opens
      decide
    rw [List.takeWhile_cons_of_pos (by simpa using some_char)] at scans cut
    have hex : isHex c = true := by
      rw [opensText, decide_eq_true_iff] at opens
      rcases opens with rfl | hex
      · have none := @scanX_none [] (chr '@' :: q.takeWhile (· ≠ 0)) (by simp) (by
          intro c first
          obtain rfl := Option.some.inj first
          decide)
        rw [List.nil_append, scans] at none
        cases none
      · exact hex
    have small := scanX_lt hex scans
    obtain ⟨shorter, ends⟩ := scanX_length scans
    have word : x.toNat < 256 → False := by
      intro lt
      rw [BitVec.toNat_setWidth] at large
      have := Nat.mod_le x.toNat (2 ^ 16)
      omega
    have three : r.length + 3 ≤ (q.takeWhile (· ≠ 0)).length + 1 := by
      by_contra few
      have two : (q.takeWhile (· ≠ 0)).length + 1 - r.length ≤ 2 := by omega
      exact word (Nat.lt_of_lt_of_le small (Nat.pow_le_pow_right (n := 16) (by decide) two))
    rw [List.length_cons] at cut shorter ⊢
    rcases cut with same | lt
    · have tail := (List.cons.inj same).2
      rw [tail] at three ends
      refine ⟨by omega, fun last => ?_⟩
      have left := List.length_pos_of_ne_nil (ends last)
      omega
    · rw [List.length_cons] at lt
      omega

theorem seek_suffix (inLine : Bool) (file : List Byte) : seek inLine file <:+ file := by
  induction file generalizing inLine with
  | nil => exact List.suffix_refl _
  | cons c rest ih =>
    rw [seek]
    split_ifs
    · exact (ih _).trans (List.suffix_cons _ _)
    · exact (ih _).trans (List.suffix_cons _ _)
    · exact List.suffix_refl _

/-- The first word of an image that the guess looks past or takes for text. -/
theorem first_word {w : Word} {ws : List Word} (text : looksText (image (w :: ws)) = true) :
    255 < w.toNat := by
  have high : 9 ≤ (w.extractLsb' 8 8).toNat := by
    rw [looksText, image_cons, seek, if_neg Bool.false_ne_true] at text
    have skip : ∀ c : Byte, skips c = true → 9 ≤ c.toNat := by decide
    have opens : ∀ c : Byte, opensText c = true → 9 ≤ c.toNat := by decide
    split at text
    · exact skip _ ‹_›
    · exact opens _ text
  rw [BitVec.extractLsb'_toNat, Nat.shiftRight_eq_div_pow] at high
  omega

/-- An address that gets the same word whatever it held is stored to. -/
theorem stored_of_same {a w : Word} {ss : List (Word × Word)}
    (same : ∀ rom : Rom, ss.foldl store rom a = w) : a ∈ ss.map Prod.fst := by
  by_contra other
  have zero := same fun _ => 0
  have one := same fun _ => 1
  rw [foldl_store_other _ other] at zero one
  rw [← zero] at one
  exact absurd one (by decide)

/-- A word that a first store does not put there comes from a later one. -/
theorem stored_again {a val w : Word} {ss : List (Word × Word)}
    (same : ∀ rom : Rom, ((a, val) :: ss).foldl store rom a = w) (other : val ≠ w) :
    a ∈ ss.map Prod.fst := by
  by_contra absent
  have kept := same fun _ => 0
  rw [List.foldl_cons, foldl_store_other _ absent, store] at kept
  exact other (by simpa using kept)

section
variable {c : Byte} {q rest : List Byte} {words : Nat}
  (ends : rest = [] ∨ (c :: q).getLast? = some nl ∨ (c :: q).length = 255)
  (left : (c :: q).length + rest.length ≤ 2 * words)

include ends left

/-- The lines behind the first one of an image in text store too few words. -/
theorem later_few (opens : opensText c = true) (some_words : 0 < words) :
    (textCmds rest).length < words := by
  have later := textCmds_length rest
  by_cases last : rest = []
  · have none : textCmds rest = [] := by
      rw [last]
      rfl
    rw [none]
    exact some_words
  · have := reads_two (ends.resolve_left last) List.mem_cons_self
      (by rintro rfl; revert opens; decide)
    omega

/-- With a first one of three digits they still do. -/
theorem long_few (three : 3 ≤ (c :: q).length)
    (four : (c :: q).getLast? = some nl → 4 ≤ (c :: q).length) :
    1 + (textCmds rest).length < words := by
  have later := textCmds_length rest
  rcases ends with rfl | last | full
  · have none : textCmds [] = [] := rfl
    rw [none]
    simp only [List.length_nil] at left ⊢
    omega
  · have := four last
    omega
  · omega

end

theorem text_misreads {w : Word} {ws : List Word} (fits : (w :: ws).length ≤ 65536)
    (text : looksText (image (w :: ws)) = true) :
    ¬∀ rom, loadProg (image (w :: ws)) rom = placed (w :: ws) rom := by
  intro loads
  have large := first_word text
  have size := image_length (w :: ws)
  have left := (seek_suffix false (image (w :: ws))).length_le
  have open_at : (seek false (image (w :: ws))).head?.any opensText = true := text
  simp only [loadProg, stores, if_pos text] at loads
  generalize seek false (image (w :: ws)) = s at loads left open_at
  have every : ∀ i < (w :: ws).length,
      BitVec.ofNat 16 i ∈ (number 0 (textCmds s)).map Prod.fst := by
    intro i hi
    apply stored_of_same (w := (w :: ws)[i])
    intro rom
    have index : (BitVec.ofNat 16 i).toNat = i := Nat.mod_eq_of_lt (by omega)
    rw [loads rom, placed, index, List.getElem?_eq_getElem hi]
    rfl
  have first (rom : Rom) : (number 0 (textCmds s)).foldl store rom 0 = w := by
    rw [loads rom]
    rfl
  -- the first line of the text
  cases pieces : fgetsAll 255 [] s with
  | nil =>
    have none := every 0 (by simp)
    rw [textCmds, pieces] at none
    cases none
  | cons p ps =>
    obtain ⟨rest, rfl, some_char, rfl, ends⟩ := fgetsAll_cons pieces
    obtain ⟨c, q, rfl⟩ := List.exists_cons_of_ne_nil some_char
    have opens : opensText c = true := open_at
    rw [size, List.length_append] at left
    have cmds : textCmds (c :: q ++ rest) = (readLine (c :: q)).toList ++ textCmds rest := by
      rw [textCmds, pieces, List.filterMap_cons]
      cases readLine (c :: q) <;> rfl
    have longest : (w :: ws).length ≤ (readLine (c :: q)).toList.length +
        (textCmds rest).length := by
      have cover := cover_length fits every
      rw [List.length_map, number_length, cmds, List.length_append] at cover
      exact cover
    have few := later_few ends left opens (by simp)
    rw [cmds] at every first
    cases reads : readLine (c :: q) with
    | none =>
      rw [reads] at longest
      simp only [Option.toList_none, List.length_nil] at longest
      omega
    | some cmd =>
      rw [reads] at longest every first
      cases cmd with
      | «at» addr val =>
        obtain ⟨three, four⟩ := at_length reads
        exact absurd longest (not_le.mpr (long_few ends left three four))
      | next val =>
        by_cases high : 255 < val.toNat
        · obtain ⟨three, four⟩ := next_length opens reads high
          exact absurd longest (not_le.mpr (long_few ends left three four))
        · -- the word at 0 comes from a later line, as all the others do
          have again : (0 : Word) ∈ (number 1 (textCmds rest)).map Prod.fst :=
            stored_again first (by rintro rfl; exact high large)
          have later_every : ∀ i < (w :: ws).length,
              BitVec.ofNat 16 i ∈ (number 1 (textCmds rest)).map Prod.fst := by
            intro i hi
            rcases List.mem_cons.mp (every i hi) with here | after
            · rw [here]
              exact again
            · exact after
          have cover := cover_length fits later_every
          rw [List.length_map, number_length] at cover
          exact absurd cover (not_le.mpr few)

/-- An image is loaded as it is exactly if it is not taken for text. -/
theorem image_iff {ws : List Word} (fits : ws.length ≤ 65536) :
    (∀ rom, loadProg (image ws) rom = placed ws rom) ↔
      ws = [] ∨ ¬TextLike (image ws) := by
  rw [← looksText_iff, Bool.not_eq_true]
  constructor
  · intro loads
    cases ws with
    | nil => exact .inl rfl
    | cons w ws =>
      refine .inr (Bool.eq_false_iff.mpr fun text => ?_)
      exact text_misreads fits text loads
  · rintro (rfl | binary)
    · exact fun rom => rfl
    · exact loadProg_image fits binary

end Chiptune.Miniglow
