import Chiptune.Glowworm.Optimizer
import Mathlib.Order.Monotone.Basic

/-!
# Compiled programs

A program has a meaning of its own: every assignment is made, and a jump goes on behind its
label. The words emitted for it and linked, with the optimiser or without, pass through
every point of that run in order.
-/

namespace Chiptune.Glowworm

/-! ## What a program means -/

/-- The ALU is computed twice: the second time with the carry latch of the first. -/
def Sim.tested (alu : Alu) (s : Sim) (m : Byte) : Sim :=
  { s with aluOut := { s with aluOut := s.aluBy alu m }.aluBy alu m }

/-- The item that comes next, and the state. -/
structure Point where
  next : Nat
  state : Sim

section
variable (alu : Alu) (is : List Item)

def behind (l : Nat) : Nat := is.idxOf (.label l) + 1

def Point.step (p : Point) : Point :=
  match is[p.next]? with
  | none => p
  | some (.asgn a) => ⟨p.next + 1, p.state.act alu a⟩
  | some (.label _) => ⟨p.next + 1, p.state⟩
  | some (.jump l) => ⟨behind is l, p.state⟩
  | some (.ifalu m l) =>
    let s := p.state.tested alu m
    ⟨if s.aluOut.getLsbD 0 then p.next + 1 else behind is l, s⟩

def Point.run (p : Point) (n : Nat) : Point := (Point.step alu is)^[n] p

/-! ## What it counts on -/

/-- A jump must not follow an assignment of A2: a NOP would come between the words that are
to be redirected. No label is set twice, and every jump has its label. -/
def Item.Counts (rest : List Item) (f : Facts) : Item → Bool
  | .asgn a => a.Counts f
  | .label l => Item.label l ∉ rest
  | .jump l => f.clear && Item.label l ∈ is
  | .ifalu _ l => f.clear && Item.label l ∈ is

end

/-- Behind a label nothing is known: control comes from elsewhere too. -/
def Item.after (f : Facts) : Item → Facts
  | .asgn a => a.after f
  | .label _ => { Facts.none with clear := f.clear }
  | .jump _ => { f with addr := fun _ => false, clear := true }
  | .ifalu _ _ => { f with addr := fun _ => false, clear := true }

def Facts.over (f : Facts) (is : List Item) : Facts := is.foldl (fun f i => i.after f) f

def checked (is : List Item) : List Item → Facts → Bool
  | [], _ => true
  | i :: rest, f => i.Counts is rest f && checked is rest (i.after f)

theorem checked_at {is pre post : List Item} {i : Item} {f : Facts}
    (h : checked is (pre ++ i :: post) f = true) : i.Counts is post (f.over pre) = true := by
  induction pre generalizing f with
  | nil =>
    simp only [List.nil_append, checked, Bool.and_eq_true] at h
    exact h.1
  | cons j pre ih =>
    simp only [List.cons_append, checked, Bool.and_eq_true] at h
    exact ih h.2

/-! ## Emitting a program -/

theorem dst_code_inj {d e : Dst} (h : d.code = e.code) : d = e := by
  revert d e
  intro d e
  cases d with
  | addr k => cases k <;> cases e with
    | addr j => cases j <;> decide
    | _ => decide
  | _ => cases e with
    | addr j => cases j <;> decide
    | _ => decide

theorem dstLo_prim (p : Prim) : dstLo p.word = p.dst.code := by
  rw [Prim.word, dstLo_word, Prim.op]
  cases p.dst with
  | addr k => cases k <;> cases p.src <;> rfl
  | _ => cases p.src <;> rfl

namespace Gen

variable {g : Gen}

theorem upIs_append {ws : List Word} {ir : Word} (rom : g.rom = ws ++ [ir]) (d : Dst) :
    g.upIs d = (dstLo ir == d.code) := by
  rw [upIs, rom, List.getLast?_concat]
  rfl

theorem upIs_prim {ws : List Word} {p : Prim} (rom : g.rom = ws ++ [p.word]) (d : Dst) :
    g.upIs d = decide (p.dst = d) := by
  rw [upIs_append rom, dstLo_prim, beq_eq_decide]
  exact decide_eq_decide.mpr ⟨dst_code_inj, congrArg Dst.code⟩

/-- No hazard, no NOP. -/
theorem prim_rom {p : Prim} (quiet : ∀ d ∈ p.hazards, g.upIs d = false)
    (room : g.rom.length < romWords) : (g.prim p).rom = g.rom ++ [p.word] := by
  have nops : p.hazards.foldl genNop g = g := by
    generalize p.hazards = ds at quiet
    induction ds with
    | nil => rfl
    | cons d ds ih =>
      rw [List.foldl_cons, genNop, quiet d List.mem_cons_self]
      exact ih fun e mem => quiet e (List.mem_cons_of_mem d mem)
  change ((p.hazards.foldl genNop g).romAddIns p.word).rom = _
  rw [nops, romAddIns_rom room]

theorem prim_upIs {p : Prim} (room : (g.prim p).rom.length < romWords) (d : Dst) :
    (g.prim p).upIs d = decide (p.dst = d) := by
  obtain ⟨⟨n, rom⟩, -⟩ := prim_emits room
  exact upIs_prim (by rw [rom, ← List.append_assoc]) d

/-- The last word does not assign A2. -/
def Clear (f : Facts) (g : Gen) : Prop := f.clear = true → g.upIs (.addr .a2) = false

theorem raO_clear {optimize : Bool} {r : Byte} {f : Facts} (clear : Clear f g)
    (room : (g.raO optimize r).rom.length < romWords) : Clear f (g.raO optimize r) := by
  rw [raO] at room ⊢
  split at room
  · rename_i emitted
    rw [if_pos emitted]
    intro _
    rw [prim_upIs room]
    rfl
  · rename_i skipped
    rw [if_neg skipped]
    exact clear

theorem asgn_clear {optimize : Bool} {a : Asgn} {f : Facts} (clear : Clear f g)
    (room : (g.asgn optimize a).rom.length < romWords) :
    Clear (a.after f) (g.asgn optimize a) := by
  cases a with
  | prim p =>
    intro last
    rw [asgn, prim_upIs room]
    simpa [Asgn.after, Prim.after] using last
  | raO r => exact raO_clear clear room
  | addrO k n =>
    intro last
    simp only [Asgn.after, Bool.and_eq_true, bne_iff_ne] at last
    rw [asgn] at room ⊢
    split at room
    · rename_i emitted
      rw [if_pos emitted, prim_upIs room]
      simpa using last.2
    · rename_i skipped
      rw [if_neg skipped]
      exact clear last.1
  | addrRfO k r =>
    intro last
    simp only [Asgn.after, Bool.and_eq_true, bne_iff_ne] at last
    rw [asgn] at room ⊢
    split at room
    · rename_i emitted
      rw [if_pos emitted, prim_upIs room]
      simpa using last.2
    · rename_i skipped
      rw [if_neg skipped]
      exact clear last.1

end Gen

namespace Out

variable {optimize : Bool} {o : Out}

/-- The three assignments of an address that is still unknown. -/
def addressed (g : Gen) : Gen :=
  ((g.prim ⟨.addr .a2, .imm, 0⟩).prim ⟨.addr .a1, .imm, 0⟩).prim ⟨.addr .a0, .imm, 0⟩

theorem addressed_extends (g : Gen) : g.rom <+: (addressed g).rom :=
  ((g.prim_extends _).trans (Gen.prim_extends _ _)).trans (Gen.prim_extends _ _)

theorem jumpTo_gen_rom (ir : Word) (l : Nat) :
    (o.jumpTo optimize ir l).gen.rom = ((addressed o.gen).romAddIns ir).rom := by
  have zero : a2a1a0AsgnImm 0 = [.prim ⟨.addr .a2, .imm, 0⟩, .prim ⟨.addr .a1, .imm, 0⟩,
      .prim ⟨.addr .a0, .imm, 0⟩] := by decide
  simp only [jumpTo, zero, List.foldl_cons, List.foldl_nil, Gen.asgn, addressed]

theorem jumpTo_prefix (ir : Word) (l : Nat) :
    o.gen.rom <+: (o.jumpTo optimize ir l).gen.rom := by
  rw [jumpTo_gen_rom]
  exact (addressed_extends o.gen).trans (Gen.romAddIns_extends _ ir)

theorem item_extends (i : Item) : o.gen.rom <+: (o.item optimize i).gen.rom := by
  cases i with
  | asgn a => exact o.gen.asgn_prefix optimize a
  | label l => exact List.prefix_refl _
  | jump l => exact jumpTo_prefix _ l
  | ifalu m l => exact jumpTo_prefix _ l

theorem items_extends (is : List Item) : o.gen.rom <+: (o.items optimize is).gen.rom := by
  induction is generalizing o with
  | nil => exact List.prefix_refl _
  | cons i is ih => exact (item_extends i).trans ih

theorem items_append (is js : List Item) :
    o.items optimize (is ++ js) = (o.items optimize is).items optimize js := List.foldl_append

/-- An address that is still unknown, and a jump. -/
def jumpWords (ir : Word) : List Word :=
  [Prim.word ⟨.addr .a2, .imm, 0⟩, Prim.word ⟨.addr .a1, .imm, 0⟩,
    Prim.word ⟨.addr .a0, .imm, 0⟩, ir]

theorem addressed_rom {g : Gen} (clear : g.upIs (.addr .a2) = false)
    (room : (addressed g).rom.length < romWords) :
    (addressed g).rom = g.rom ++ [Prim.word ⟨.addr .a2, .imm, 0⟩,
      Prim.word ⟨.addr .a1, .imm, 0⟩, Prim.word ⟨.addr .a0, .imm, 0⟩] := by
  have room₁ := Nat.lt_of_le_of_lt (Gen.prim_extends _ ⟨.addr .a0, .imm, 0⟩).length_le room
  have room₂ := Nat.lt_of_le_of_lt (Gen.prim_extends _ ⟨.addr .a1, .imm, 0⟩).length_le room₁
  have rom₂ : (g.prim ⟨.addr .a2, .imm, 0⟩).rom = g.rom ++ [_] :=
    Gen.prim_rom (fun d mem => by
      obtain rfl : d = .addr .a2 := List.mem_singleton.mp mem
      exact clear) (Nat.lt_of_le_of_lt (g.prim_extends _).length_le room₂)
  have rom₁ : ((g.prim ⟨.addr .a2, .imm, 0⟩).prim ⟨.addr .a1, .imm, 0⟩).rom = _ ++ [_] :=
    Gen.prim_rom (fun d mem => by
      obtain rfl : d = .addr .a1 := List.mem_singleton.mp mem
      exact Gen.upIs_prim rom₂ _) room₂
  have rom₀ : (addressed g).rom = _ ++ [_] :=
    Gen.prim_rom (fun d mem => by
      obtain rfl : d = .addr .a0 := List.mem_singleton.mp mem
      exact Gen.upIs_prim rom₁ _) room₁
  rw [rom₀, rom₁, rom₂, List.append_assoc, List.append_assoc]
  rfl

theorem jumpTo_rom {ir : Word} {l : Nat} (clear : o.gen.upIs (.addr .a2) = false)
    (room : (o.jumpTo optimize ir l).gen.rom.length < romWords) :
    (o.jumpTo optimize ir l).gen.rom = o.gen.rom ++ jumpWords ir := by
  rw [jumpTo_gen_rom] at room ⊢
  have room₀ : (addressed o.gen).rom.length < romWords :=
    Nat.lt_of_le_of_lt (Gen.romAddIns_extends _ ir).length_le room
  rw [Gen.romAddIns_rom room₀, addressed_rom clear room₀, List.append_assoc]
  rfl

/-! ## Labels and the words to be redirected -/

theorem item_base {i : Item} {l : Nat} (other : i ≠ .label l) :
    (o.item optimize i).base l = o.base l := by
  cases i with
  | label m => exact Function.update_of_ne (fun e => other (by rw [e])) _ _
  | _ => rfl

theorem items_base {is : List Item} {l : Nat} (other : Item.label l ∉ is) :
    (o.items optimize is).base l = o.base l := by
  induction is generalizing o with
  | nil => rfl
  | cons i is ih =>
    rw [List.mem_cons, not_or] at other
    exact (ih other.2).trans (item_base (Ne.symm other.1))

/-- What is recorded for redirection lies behind the words that were there before. -/
theorem items_redirect (is : List Item) : ∃ new, (o.items optimize is).redirect =
    new ++ o.redirect ∧ ∀ x ∈ new, o.gen.rom.length ≤ x.1 := by
  induction is generalizing o with
  | nil => exact ⟨[], rfl, fun x mem => absurd mem List.not_mem_nil⟩
  | cons i is ih =>
    obtain ⟨new, rest, behind⟩ := ih (o := o.item optimize i)
    have here : ∃ one, (o.item optimize i).redirect = one ++ o.redirect ∧
        ∀ x ∈ one, o.gen.rom.length ≤ x.1 := by
      cases i with
      | asgn a => exact ⟨[], rfl, fun x mem => absurd mem List.not_mem_nil⟩
      | label l => exact ⟨[], rfl, fun x mem => absurd mem List.not_mem_nil⟩
      | jump l => exact ⟨[(_, l)], rfl, fun x mem => by rw [List.mem_singleton.mp mem]⟩
      | ifalu m l => exact ⟨[(_, l)], rfl, fun x mem => by rw [List.mem_singleton.mp mem]⟩
    obtain ⟨one, first, there⟩ := here
    refine ⟨new ++ one, by
      rw [List.append_assoc, ← first]
      exact rest, fun x mem => ?_⟩
    obtain mem | mem := List.mem_append.mp mem
    · exact (item_extends i).length_le.trans (behind x mem)
    · exact there x mem

/-- What one label does to the word at `j`. -/
def patch (base : Nat → Option Nat) (j : Nat) (ir : Word) (x : Nat × Nat) : Word :=
  match base x.2 with
  | none => ir
  | some a =>
    if j = x.1 then word (op ir) (BitVec.ofNat 8 (a / 2 ^ 16))
    else if j = x.1 + 1 then word (op ir) (BitVec.ofNat 8 (a / 2 ^ 8))
    else if j = x.1 + 2 then word (op ir) (BitVec.ofNat 8 a)
    else ir

theorem redirectOne_getElem? (base : Nat → Option Nat) (rom : List Word) (x : Nat × Nat)
    (j : Nat) : (redirectOne base rom x)[j]? = rom[j]?.map fun ir => patch base j ir x := by
  rw [redirectOne]
  cases known : base x.2 with
  | none => simp [patch, known]
  | some a =>
    simp only [List.getElem?_modify, patch, known]
    cases rom[j]? with
    | none => rfl
    | some ir =>
      simp only [Option.map_eq_map, Option.map_some, Option.some.injEq]
      split_ifs <;> first | rfl | omega

theorem linked_getElem? (j : Nat) :
    o.linked[j]? = o.gen.rom[j]?.map (o.redirect.foldl (patch o.base j)) := by
  rw [linked]
  generalize o.gen.rom = rom
  induction o.redirect generalizing rom with
  | nil => simp
  | cons x rs ih =>
    rw [List.foldl_cons, ih, redirectOne_getElem?, Option.map_map]
    rfl

/-- The words of a label's address do not reach `j`. -/
def Apart (j : Nat) (x : Nat × Nat) : Prop := j < x.1 ∨ x.1 + 3 ≤ j

theorem patch_apart {base : Nat → Option Nat} {j : Nat} {x : Nat × Nat} (apart : Apart j x)
    (ir : Word) : patch base j ir x = ir := by
  rw [patch]
  cases base x.2 with
  | none => rfl
  | some a =>
    rw [Apart] at apart
    simp only
    rw [if_neg (by omega), if_neg (by omega), if_neg (by omega)]

theorem patches_apart {base : Nat → Option Nat} {j : Nat} {xs : List (Nat × Nat)}
    (apart : ∀ x ∈ xs, Apart j x) (ir : Word) : xs.foldl (patch base j) ir = ir := by
  induction xs generalizing ir with
  | nil => rfl
  | cons x xs ih =>
    rw [List.foldl_cons, patch_apart (apart x List.mem_cons_self)]
    exact ih (fun y mem => apart y (List.mem_cons_of_mem x mem)) ir

/-- A word that no label reaches stays as it was emitted, -/
theorem linked_apart {j : Nat} (apart : ∀ x ∈ o.redirect, Apart j x) :
    o.linked[j]? = o.gen.rom[j]? := by
  rw [linked_getElem?]
  cases o.gen.rom[j]? with
  | none => rfl
  | some ir => exact congrArg some (patches_apart apart ir)

/-- and one that a single label reaches is patched with its address. -/
theorem linked_patch {j : Nat} {x : Nat × Nat} {new old : List (Nat × Nat)}
    (redirect : o.redirect = new ++ x :: old) (apart : ∀ y ∈ new, Apart j y)
    (apart' : ∀ y ∈ old, Apart j y) :
    o.linked[j]? = o.gen.rom[j]?.map fun ir => patch o.base j ir x := by
  rw [linked_getElem?, redirect]
  cases o.gen.rom[j]? with
  | none => rfl
  | some ir =>
    refine congrArg some ?_
    simp only
    rw [List.foldl_append, patches_apart apart, List.foldl_cons, patches_apart apart']

end Out

/-! ## Words in the ROM -/

namespace Sim

theorem codeAt_of_getElem? {rom : BitVec 20 → Byte} {whole ws : List Word} {p : Nat}
    (code : CodeAt rom 0 whole) (here : ∀ j < ws.length, whole[p + j]? = ws[j]?) :
    CodeAt rom (BitVec.ofNat 32 (2 * p)) ws := by
  by_cases inside : p ≤ whole.length
  · have start : ws <+: whole.drop p := by
      rw [List.prefix_iff_getElem?]
      intro j lt
      rw [List.getElem?_drop, here j lt, List.getElem?_eq_getElem lt]
    obtain ⟨rest, split⟩ := start
    have origin : (0 : BitVec 32) + BitVec.ofNat 32 (2 * p) = _ := BitVec.zero_add _
    rw [← List.take_append_drop p whole, codeAt_append, List.length_take_of_le inside,
      origin, ← split, codeAt_append] at code
    exact code.2.1
  · cases ws with
    | nil => trivial
    | cons ir ws =>
      have first := here 0 (Nat.succ_pos _)
      rw [List.getElem?_eq_none (by omega)] at first
      cases first

/-- The three assignments of an address. -/
def addressWords (a : Nat) : List Word :=
  [Prim.word ⟨.addr .a2, .imm, BitVec.ofNat 8 (a / 2 ^ 16)⟩,
    Prim.word ⟨.addr .a1, .imm, BitVec.ofNat 8 (a / 2 ^ 8)⟩,
    Prim.word ⟨.addr .a0, .imm, BitVec.ofNat 8 a⟩]

theorem address_straight (a : Nat) : StraightCode (addressWords a) := by
  simp [addressWords, prim_straight]

theorem address_bytes (a : Nat) : BitVec.ofNat 8 (a / 2 ^ 16) ++ BitVec.ofNat 8 (a / 2 ^ 8) ++
    BitVec.ofNat 8 a = BitVec.ofNat 24 a := by
  apply BitVec.eq_of_getLsbD_eq
  intro i lt
  simp only [BitVec.getLsbD_append, BitVec.getLsbD_ofNat, Nat.testBit_div_two_pow]
  split_ifs with low mid
  · simp [low, lt]
  · simp [show i - 8 < 8 from mid, show i - 8 + 8 = i by omega, lt]
  · simp [show i - 8 - 8 < 8 by omega, show i - 8 - 8 + 16 = i by omega, lt]

section
variable (alu : Alu) (s : Sim) (a : Nat)

theorem address_core : (s.execAllBy alu (addressWords a)).core = s.core := by
  simp only [addressWords, execAllBy_cons, execAllBy_nil]
  rw [core_exec _ _ (.inr ⟨_, rfl⟩) Src.noConfusion, core_exec _ _ (.inr ⟨_, rfl⟩) Src.noConfusion,
    core_exec _ _ (.inr ⟨_, rfl⟩) Src.noConfusion]

theorem address_ra : (s.execAllBy alu (addressWords a)).ra = s.ra := by
  simp [addressWords, exec_ra]

theorem address_target (fits : a < 2 ^ 24) :
    (s.execAllBy alu (addressWords a)).jumpTarget = BitVec.ofNat 32 (2 * a) := by
  have a2 : (s.execAllBy alu (addressWords a)).addr .a2 = BitVec.ofNat 8 (a / 2 ^ 16) := by
    simp [addressWords, exec_addr, get]
  have a1 : (s.execAllBy alu (addressWords a)).addr .a1 = BitVec.ofNat 8 (a / 2 ^ 8) := by
    simp [addressWords, exec_addr, get]
  have a0 : (s.execAllBy alu (addressWords a)).addr .a0 = BitVec.ofNat 8 a := by
    simp [addressWords, exec_addr, get]
  have address : (s.execAllBy alu (addressWords a)).a2a1a0 = BitVec.ofNat 24 a := by
    rw [a2a1a0, ← address_bytes, ← a2, ← a1, ← a0]
    rfl
  have two : (2 : BitVec 32).toNat = 2 := rfl
  rw [jumpTarget, address]
  apply BitVec.eq_of_toNat_eq
  simp only [BitVec.toNat_mul, BitVec.toNat_setWidth, BitVec.toNat_ofNat, two]
  omega

theorem tested_core {s t : Sim} (core : s.core = t.core) (m : Byte) :
    (s.tested alu m).core = (t.tested alu m).core := by
  have latched (x : BitVec 16) : ({ s with aluOut := x } : Sim).core = { t with aluOut := x }.core :=
    congrArg (fun c : Sim => { c with aluOut := x }) core
  rw [tested, tested, aluBy_core core, aluBy_core (latched _)]
  exact latched _

theorem execBy_ifalu (m : Byte) : s.execBy alu (word 0x17 m) = { s.tested alu m with
    pc := if (s.tested alu m).aluOut.getLsbD 0 then s.pc + 2 else s.jumpTarget } := by
  simp [execBy, latchBy, tested]

end

end Sim

/-! ## A program in the ROM -/

/-- The emitter at the end of a function whose labels are its own. -/
def compile (optimize : Bool) (g : Gen) (is : List Item) : Out :=
  Out.items optimize ⟨g, fun _ => none, []⟩ is

/-- What a program may count on where it begins. -/
def entry (g : Gen) : Facts := { Facts.none with clear := !g.upIs (.addr .a2) }

/-- A checked program that is emitted behind other code, linked, and put into the ROM. -/
structure Compiled (optimize : Bool) (g : Gen) (is : List Item) (rom : BitVec 20 → Byte) :
    Prop where
  reset : g.cpu = .reset
  checks : checked is is (entry g) = true
  room : (compile optimize g is).gen.rom.length < romWords
  code : Sim.CodeAt rom 0 (compile optimize g is).linked

/-- The simulator, in state `s`, is where the emitter is at `o`, and a program whose state
is `t` finds there what it counts on. -/
structure Stands (o : Out) (f : Facts) (s t : Sim) : Prop where
  pc : s.pc = BitVec.ofNat 32 (2 * o.gen.rom.length)
  sound : o.gen.cpu.Sound s
  same : Same f s t

structure Out.Ok (o : Out) (f : Facts) : Prop where
  clear : Gen.Clear f o.gen
  redirect : ∀ x ∈ o.redirect, x.1 + 4 ≤ o.gen.rom.length

section
variable (optimize : Bool) (g : Gen) (is : List Item)

/-- The emitter before the item at `k`. -/
def before (k : Nat) : Out := compile optimize g (is.take k)

def facts (k : Nat) : Facts := (entry g).over (is.take k)

/-- The words of the item at `k`. -/
def words (k : Nat) : Nat :=
  (before optimize g is (k + 1)).gen.rom.length - (before optimize g is k).gen.rom.length

end

section
variable {optimize : Bool} {g : Gen} {is : List Item} {k : Nat} {i : Item}

theorem before_succ (optimize : Bool) (g : Gen) (here : is[k]? = some i) :
    before optimize g is (k + 1) = (before optimize g is k).item optimize i := by
  rw [before, List.take_add_one, here, compile, Out.items_append]
  rfl

theorem facts_succ (here : is[k]? = some i) : facts g is (k + 1) = i.after (facts g is k) := by
  rw [facts, List.take_add_one, here, Facts.over, List.foldl_append]
  rfl

theorem compile_split (k : Nat) :
    compile optimize g is = (before optimize g is k).items optimize (is.drop k) := by
  rw [before, compile, compile, ← Out.items_append, List.take_append_drop]

theorem before_extends (optimize : Bool) (g : Gen) (is : List Item) (k : Nat) :
    (before optimize g is k).gen.rom <+: (compile optimize g is).gen.rom := by
  rw [compile_split k]
  exact Out.items_extends _

/-- What is recorded in the end: what lies behind, and what was there before. -/
theorem later_redirects (optimize : Bool) (g : Gen) (is : List Item) (k : Nat) :
    ∃ new, (compile optimize g is).redirect =
    new ++ (before optimize g is k).redirect ∧
      ∀ x ∈ new, (before optimize g is k).gen.rom.length ≤ x.1 := by
  rw [compile_split k]
  exact Out.items_redirect _

theorem is_split (here : is[k]? = some i) : is = is.take k ++ i :: is.drop (k + 1) := by
  obtain ⟨lt, at_k⟩ := List.getElem?_eq_some_iff.mp here
  rw [← at_k, ← List.drop_eq_getElem_cons lt, List.take_append_drop]

theorem jump_ok {o : Out} {f : Facts} {o' x : Byte} {l : Nat} (ok : o.Ok f)
    (clear : f.clear = true) (low : o'.extractLsb' 0 4 = 7)
    (room : (o.jumpTo optimize (word o' x) l).gen.rom.length < romWords) :
    (o.jumpTo optimize (word o' x) l).Ok { f with addr := fun _ => false, clear := true } := by
  have rom := Out.jumpTo_rom (ok.clear clear) room
  refine ⟨fun _ => ?_, fun y mem => ?_⟩
  · have last : (o.jumpTo optimize (word o' x) l).gen.rom =
        (o.gen.rom ++ (Out.jumpWords (word o' x)).take 3) ++ [word o' x] := by
      rw [rom, List.append_assoc]
      rfl
    rw [Gen.upIs_append last, dstLo_word, low]
    rfl
  · rw [rom, List.length_append]
    obtain here | older := List.mem_cons.mp mem
    · rw [here]
      rfl
    · exact (ok.redirect y older).trans (Nat.le_add_right _ _)

theorem item_ok {o : Out} {f : Facts} {rest : List Item} (ok : o.Ok f)
    (counts : i.Counts is rest f = true)
    (room : (o.item optimize i).gen.rom.length < romWords) :
    (o.item optimize i).Ok (i.after f) := by
  cases i with
  | asgn a =>
    exact ⟨Gen.asgn_clear ok.clear room, fun x mem =>
      (ok.redirect x mem).trans (o.gen.asgn_prefix optimize a).length_le⟩
  | label l => exact ⟨ok.clear, ok.redirect⟩
  | jump l =>
    simp only [Item.Counts, Bool.and_eq_true] at counts
    exact jump_ok ok counts.1 (by decide) room
  | ifalu m l =>
    simp only [Item.Counts, Bool.and_eq_true] at counts
    exact jump_ok ok counts.1 (by decide) room

end

namespace Compiled

variable {alu : Alu} {optimize : Bool} {g : Gen} {is : List Item} {rom : BitVec 20 → Byte}
  {k : Nat} {i : Item} (c : Compiled optimize g is rom)
include c

theorem room_before (k : Nat) : (before optimize g is k).gen.rom.length < romWords :=
  Nat.lt_of_le_of_lt (before_extends optimize g is k).length_le c.room

theorem counts (here : is[k]? = some i) :
    i.Counts is (is.drop (k + 1)) (facts g is k) = true := by
  have checks : checked is (is.take k ++ i :: is.drop (k + 1)) (entry g) = true := by
    rw [← is_split here]
    exact c.checks
  exact checked_at checks

theorem ok (k : Nat) : (before optimize g is k).Ok (facts g is k) := by
  induction k with
  | zero =>
    refine ⟨fun clear => ?_, fun x mem => absurd mem List.not_mem_nil⟩
    change g.upIs _ = false
    simpa [facts, entry, Facts.over] using clear
  | succ k ih =>
    cases here : is[k]? with
    | none =>
      have same : is.take (k + 1) = is.take k := by rw [List.take_add_one, here]; simp
      rw [before, facts, same]
      exact ih
    | some i =>
      have room := c.room_before (k + 1)
      rw [before_succ optimize g here] at room ⊢
      rw [facts_succ here]
      exact item_ok ih (c.counts here) room

/-- Words emitted for assignments are in the ROM as they were emitted. -/
theorem asgn_code {a : Asgn} {ws : List Word} (here : is[k]? = some (.asgn a))
    (emitted : (before optimize g is (k + 1)).gen.rom = (before optimize g is k).gen.rom ++ ws) :
    Sim.CodeAt rom (BitVec.ofNat 32 (2 * (before optimize g is k).gen.rom.length)) ws := by
  refine Sim.codeAt_of_getElem? c.code fun j lt => ?_
  obtain ⟨new, redirect, behind⟩ := later_redirects optimize g is (k + 1)
  obtain ⟨rest, final⟩ := before_extends optimize g is (k + 1)
  rw [emitted, List.length_append] at behind
  rw [Out.linked_apart, ← final, emitted, List.append_assoc,
    List.getElem?_append_right (Nat.le_add_right _ _), Nat.add_sub_cancel_left,
    List.getElem?_append_left lt]
  intro x mem
  rw [redirect, before_succ optimize g here] at mem
  obtain later | older := List.mem_append.mp mem
  · have := behind x later
    exact .inl (by omega)
  · have := (c.ok k).redirect x older
    exact .inr (by omega)

/-- The words of a jump are in the ROM with the address of its label. -/
theorem jump_code {ir : Word} {l a : Nat} (base : (compile optimize g is).base l = some a)
    (jump : before optimize g is (k + 1) = (before optimize g is k).jumpTo optimize ir l)
    (clear : (facts g is k).clear = true) :
    Sim.CodeAt rom (BitVec.ofNat 32 (2 * (before optimize g is k).gen.rom.length))
      (Sim.addressWords a ++ [ir]) := by
  have room := c.room_before (k + 1)
  rw [jump] at room
  have emitted := Out.jumpTo_rom ((c.ok k).clear clear) room
  obtain ⟨new, redirect, behind⟩ := later_redirects optimize g is (k + 1)
  obtain ⟨rest, final⟩ := before_extends optimize g is (k + 1)
  rw [jump, emitted, List.append_assoc] at final
  rw [jump, emitted, List.length_append] at behind
  have four : (Out.jumpWords ir).length = 4 := rfl
  rw [jump] at redirect
  refine Sim.codeAt_of_getElem? c.code fun j lt => ?_
  have lt : j < 4 := lt
  rw [Out.linked_patch redirect (fun y later => .inl (by have := behind y later; omega))
    (fun y older => .inr (by have := (c.ok k).redirect y older; omega)), ← final,
    List.getElem?_append_right (Nat.le_add_right _ _), Nat.add_sub_cancel_left,
    List.getElem?_append_left (by omega)]
  generalize (before optimize g is k).gen.rom.length = p
  simp only [Out.patch, base]
  obtain rfl | rfl | rfl | rfl : j = 0 ∨ j = 1 ∨ j = 2 ∨ j = 3 := by omega
  · simp [Out.jumpWords, Sim.addressWords, Prim.word, Prim.op]
  · simp [Out.jumpWords, Sim.addressWords, Prim.word, Prim.op]
  · simp [Out.jumpWords, Sim.addressWords, Prim.word, Prim.op]
  · simp [Out.jumpWords, Sim.addressWords]

/-- A label that a jump names is set once, and the jump gets the place behind it. -/
theorem label_base {l : Nat} (mem : Item.label l ∈ is) :
    is[is.idxOf (.label l)]? = some (.label l) ∧ (compile optimize g is).base l =
      some (before optimize g is (is.idxOf (.label l))).gen.rom.length := by
  have here : is[is.idxOf (.label l)]? = some (.label l) := by
    rw [List.getElem?_eq_getElem (List.idxOf_lt_length_of_mem mem), List.getElem_idxOf]
  refine ⟨here, ?_⟩
  have once := c.counts here
  simp only [Item.Counts, decide_eq_true_eq] at once
  rw [compile_split (is.idxOf (.label l) + 1), Out.items_base once, before_succ optimize g here]
  exact Function.update_self _ _ _

theorem asgn_step {a : Asgn} (here : is[k]? = some (.asgn a)) {s t : Sim}
    (stands : Stands (before optimize g is k) (facts g is k) s t) :
    Stands (before optimize g is (k + 1)) (facts g is (k + 1))
      (s.runBy alu rom (words optimize g is k)) (t.act alu a) := by
  have room := c.room_before (k + 1)
  have next := before_succ optimize g here
  rw [next] at room
  obtain ⟨ws, emitted, effects⟩ := Gen.asgn_effects (f := facts g is k) (c.counts here) room
  have placed : (before optimize g is (k + 1)).gen.rom = (before optimize g is k).gen.rom ++ ws := by
    rw [next]
    exact emitted
  have count : words optimize g is k = ws.length := by
    rw [words, placed, List.length_append, Nat.add_sub_cancel_left]
  have code := c.asgn_code here placed
  rw [← stands.pc] at code
  obtain ⟨run, pc⟩ := Sim.runBy_code effects.straight code
  rw [count, run]
  refine ⟨?_, ?_, ?_⟩
  · rw [pc, stands.pc, placed, List.length_append, Nat.mul_add, BitVec.ofNat_add]
  · rw [next]
    exact effects.sound s stands.sound
  · rw [facts_succ here]
    exact effects.same s t stands.sound stands.same

/-- Where a jump is made, its address is in the address registers. -/
theorem jump_reached {ir : Word} {l a : Nat}
    (base : (compile optimize g is).base l = some a) (fits : a < romWords)
    (jump : before optimize g is (k + 1) = (before optimize g is k).jumpTo optimize ir l)
    (clear : (facts g is k).clear = true) {s t : Sim}
    (stands : Stands (before optimize g is k) (facts g is k) s t) : ∃ s' : Sim,
      s.runBy alu rom (words optimize g is k) = s'.execBy alu ir ∧ s'.core = t.core ∧ s'.ra = s.ra ∧
      s'.jumpTarget = BitVec.ofNat 32 (2 * a) ∧
      s'.pc + 2 = BitVec.ofNat 32 (2 * (before optimize g is (k + 1)).gen.rom.length) := by
  have room := c.room_before (k + 1)
  have code := c.jump_code base jump clear
  rw [jump] at room
  have emitted := Out.jumpTo_rom ((c.ok k).clear clear) room
  rw [← jump] at emitted
  have length : (before optimize g is (k + 1)).gen.rom.length =
      (before optimize g is k).gen.rom.length + 4 := by
    rw [emitted, List.length_append]
    rfl
  have count : words optimize g is k = 4 := by rw [words, length, Nat.add_sub_cancel_left]
  rw [← stands.pc, Sim.codeAt_append] at code
  obtain ⟨address, last⟩ := code
  obtain ⟨run, pc⟩ := Sim.runBy_code (Sim.address_straight a) address
  rw [← pc] at last
  refine ⟨s.execAllBy alu (Sim.addressWords a), ?_, (s.address_core alu a).trans stands.same.core,
    s.address_ra alu a, s.address_target alu a (fits.trans (by decide)), ?_⟩
  · change s.runBy alu rom 3 = _ at run
    rw [count, Sim.runBy_succ, run]
    exact congrArg (Sim.execBy alu · _) last.1
  · rw [pc, stands.pc, length, Nat.mul_add, BitVec.ofNat_add, BitVec.add_assoc]
    rfl

/-- The place behind a label, reached from anywhere. -/
theorem label_stands {l : Nat} (mem : Item.label l ∈ is) {s t : Sim} (core : s.core = t.core)
    (pc : s.pc = BitVec.ofNat 32
      (2 * (before optimize g is (is.idxOf (.label l))).gen.rom.length)) :
    Stands (before optimize g is (behind is l)) (facts g is (behind is l)) s t := by
  obtain ⟨here, -⟩ := c.label_base mem
  rw [behind, before_succ optimize g here, facts_succ here]
  exact ⟨pc, sound_reset s, core, Bool.noConfusion, fun k => Bool.noConfusion⟩

/-- **One item** of the program takes the words that were emitted for it. -/
theorem step {p : Point} {s : Sim}
    (stands : Stands (before optimize g is p.next) (facts g is p.next) s p.state) :
    Stands (before optimize g is (p.step alu is).next) (facts g is (p.step alu is).next)
      (s.runBy alu rom (words optimize g is p.next)) (p.step alu is).state := by
  obtain ⟨k, t⟩ := p
  rw [Point.step]
  cases here : is[k]? with
  | none =>
    have count : words optimize g is k = 0 := by
      rw [words, before, before, List.take_add_one, here]
      simp
    rw [count]
    exact stands
  | some i =>
    have next := before_succ optimize g here
    have counts := c.counts here
    cases i with
    | asgn a => exact c.asgn_step here stands
    | label l =>
      have count : words optimize g is k = 0 := by
        rw [words, next]
        exact Nat.sub_self _
      rw [count]
      simp only [next, facts_succ here]
      exact ⟨stands.pc, sound_reset _, stands.same.core, Bool.noConfusion,
        fun k => Bool.noConfusion⟩
    | jump l =>
      simp only [Item.Counts, Bool.and_eq_true, decide_eq_true_eq] at counts
      obtain ⟨-, base⟩ := c.label_base counts.2
      obtain ⟨s', run, core, -, target, -⟩ :=
        c.jump_reached base (c.room_before _) next counts.1 stands
      rw [run, Sim.execBy_jump]
      exact c.label_stands counts.2 core target
    | ifalu m l =>
      simp only [Item.Counts, Bool.and_eq_true, decide_eq_true_eq] at counts
      obtain ⟨-, base⟩ := c.label_base counts.2
      obtain ⟨s', run, core, ra, target, on⟩ :=
        c.jump_reached base (c.room_before _) next counts.1 stands
      have tested := Sim.tested_core alu core m
      have same_bit : (s'.tested alu m).aluOut = (t.tested alu m).aluOut :=
        (core_eq tested).2.2.2.2.2.2
      rw [run, Sim.execBy_ifalu, same_bit]
      simp only
      split_ifs
      · refine ⟨?_, ?_, ?_, fun known => ?_, fun j => ?_⟩
        · exact on
        · rw [next]
          exact sound_reset _
        · exact tested
        · rw [facts_succ here] at known
          exact ra.trans (stands.same.ra known)
        · rw [facts_succ here]
          exact Bool.noConfusion
      · exact c.label_stands counts.2 tested target

end Compiled

/-! ## The optimiser -/

/-- The instructions that a run of the program takes. -/
def cycles (alu : Alu) (optimize : Bool) (g : Gen) (is : List Item) (p : Point) : Nat → Nat
  | 0 => 0
  | n + 1 => cycles alu optimize g is p n + words optimize g is (p.run alu is n).next

theorem Compiled.run {optimize : Bool} {g : Gen} {is : List Item} {rom : BitVec 20 → Byte}
    (c : Compiled optimize g is rom) (alu : Alu) {s : Sim}
    (start : s.pc = BitVec.ofNat 32 (2 * g.rom.length)) (n : Nat) :
    let p := Point.run alu is ⟨0, s⟩ n
    Stands (before optimize g is p.next) (facts g is p.next)
      (s.runBy alu rom (cycles alu optimize g is ⟨0, s⟩ n)) p.state := by
  induction n with
  | zero =>
    refine ⟨start, ?_, rfl, fun _ => rfl, fun _ _ => rfl⟩
    change g.cpu.Sound s
    rw [c.reset]
    exact sound_reset s
  | succ n ih =>
    rw [cycles, Sim.runBy_add, Point.run, Function.iterate_succ_apply']
    exact c.step ih

/-- **The compiled program**, with the optimiser or without, passes through every point of
the program's own run, at the place of the item that comes next: there all that the program
names is as the program has it, and RA and the address registers where it counts on them. -/
theorem compiled_law (alu : Alu) (optimize : Bool) (g : Gen) (is : List Item)
    (rom : BitVec 20 → Byte) (c : Compiled optimize g is rom) (s : Sim)
    (start : s.pc = BitVec.ofNat 32 (2 * g.rom.length)) (n : Nat) :
    let p := Point.run alu is ⟨0, s⟩ n
    let s' := s.runBy alu rom (cycles alu optimize g is ⟨0, s⟩ n)
    s'.pc = BitVec.ofNat 32 (2 * (before optimize g is p.next).gen.rom.length) ∧
      s'.core = p.state.core ∧
      ((facts g is p.next).ra = true → s'.ra = p.state.ra) ∧
      ∀ k, (facts g is p.next).addr k = true → s'.addr k = p.state.addr k := by
  have stands := c.run alu start n
  exact ⟨stands.pc, stands.same.core, stands.same.ra, stands.same.addr⟩

/-- A loop: `RA = 3; RF = 4; l: RA = 3; A = RF; RF = A - 1; RA = 3; if (!(A & 1)) goto l`. -/
def loopItems : List Item :=
  [.asgn (.raO 3), .asgn (.prim ⟨.rf, .imm, 4⟩), .label 0, .asgn (.raO 3),
    .asgn (.prim ⟨.a, .rf, 0xFF⟩), .asgn (.prim ⟨.rf, .alu, 20⟩), .asgn (.raO 3), .ifalu 23 0]

def noCode : Gen := ⟨[], 0, .reset⟩

def loopRom : BitVec 20 → Byte := romImage (compile true noCode loopItems).linked

theorem compiled_law_loop :
    (Sim.init.run loopRom (cycles aluCompute true noCode loopItems ⟨0, .init⟩ 20)).core =
      (Point.run aluCompute loopItems ⟨0, .init⟩ 20).state.core := by
  rw [← Sim.runBy_simulator]
  exact (compiled_law aluCompute true noCode loopItems loopRom
    ⟨rfl, by decide, by decide, by decide +kernel⟩ .init rfl 20).2.1

end Chiptune.Glowworm
