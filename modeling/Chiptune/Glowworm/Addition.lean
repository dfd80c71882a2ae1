import Chiptune.Glowworm.Code
import Mathlib.Data.Nat.Digits.Defs

/-!
# Compiled addition

The code the compiler emits for the sum of two little-endian numbers, run by the
simulator: which bytes it leaves, and for which operands they are the sum's.
-/

namespace Chiptune.Glowworm

/-! ## The bytes the addition computes -/

/-- What is left for the next byte when `k` is folded into the byte pair `x`, `y` and `l`
is the carry latch: the carry of `x + k`, taken with the latch, and the byte sum
taken again with its own carry. -/
def foldByte (k l x y : Nat) : Nat :=
  (x + k + l) % 256 + ((x + k) % 256 + y + ((x + k) % 256 + y) / 256) % 256

/-- The result bytes behind the first one. -/
def sumBytes : Nat → Nat → List (Nat × Nat) → List Nat
  | _, _, [] => []
  | k, l, (x, y) :: ps =>
    (x + k + y) % 256 :: sumBytes (foldByte k l x y % 256) (foldByte k l x y / 256) ps

/-- What is folded into a byte is the carry `c` into it, for every byte behind. -/
def Folds : Nat → Nat → List (Nat × Nat) → Prop
  | _, _, [] => True
  | _, _, [_] => True
  | c, l, (x, y) :: p :: ps =>
    foldByte c l x y % 256 = (x + y + c) / 256 ∧
      Folds ((x + y + c) / 256) (foldByte c l x y / 256) (p :: ps)

/-- The number of a byte list, lowest byte first. -/
def number (bytes : List Nat) : Nat := Nat.ofDigits 256 bytes

theorem number_cons (d : Nat) (ds : List Nat) : number (d :: ds) = d + 256 * number ds := by
  simp [number, Nat.ofDigits_cons]

theorem sumBytes_iff {ps : List (Nat × Nat)} (some : ps ≠ [])
    (bytes : ∀ p ∈ ps, p.1 < 256 ∧ p.2 < 256) {c k : Nat} (l : Nat) (hc : c ≤ 1) (hk : k < 256) :
    number (sumBytes k l ps) =
      (number (ps.map Prod.fst) + number (ps.map Prod.snd) + c) % 256 ^ ps.length ↔
    k = c ∧ Folds c l ps := by
  induction ps generalizing c k l with
  | nil => exact absurd rfl some
  | cons p ps ih =>
    obtain ⟨x, y⟩ := p
    have hp : x < 256 ∧ y < 256 := bytes (x, y) (by simp)
    have carry : (x + y + c) / 256 ≤ 1 := by omega
    have regroup : number (((x, y) :: ps).map Prod.fst) + number (((x, y) :: ps).map Prod.snd) + c =
        x + y + c + 256 * (number (ps.map Prod.fst) + number (ps.map Prod.snd)) := by
      rw [List.map_cons, List.map_cons, number_cons, number_cons]
      ring
    have first : (x + k + y) % 256 = (x + y + c) % 256 ↔ k = c := by omega
    rw [regroup, List.length_cons, Digits.mod_pow_succ _ _ (by decide), sumBytes, number_cons,
      Digits.digits_inj (Nat.mod_lt _ (by decide)) (Nat.mod_lt _ (by decide)), first]
    cases ps with
    | nil => simp [sumBytes, Folds, number, Nat.mod_one]
    | cons q ps =>
      have rest := ih (by simp) (fun p hp => bytes p (by simp [hp])) (foldByte k l x y / 256) carry
        (Nat.mod_lt (foldByte k l x y) (by decide))
      rw [Nat.add_comm ((x + y + c) / 256), rest, Folds]
      constructor
      · rintro ⟨rfl, same, folds⟩
        exact ⟨rfl, same, folds⟩
      · rintro ⟨rfl, same, folds⟩
        exact ⟨rfl, same, folds⟩

/-! ## The code of the addition -/

/-- The addresses of the operands' bytes of one digit. The sum replaces the first one. -/
structure Digit where
  x : BitVec 16
  y : BitVec 16

/-- The upper byte of an address in the data RAM. -/
def page (addr : BitVec 16) : Byte := addr.extractLsb' 8 8

/-- Sets the RAM address: all of it, or its low byte within the page of `A1`. -/
def seek (far : Bool) (addr : BitVec 16) : List Word :=
  (if far then [a2AsgnImmnum 0, a1AsgnImmnum (page addr)] else []) ++
    [a0AsgnImmnum (addr.setWidth 8)]

def addSingle (far : Bool) (d : Digit) : List Word :=
  seek far d.x ++ [aAsgnRam] ++ seek far d.y ++ [bAsgnRam] ++ seek far d.x ++ [ramAsgnAlu .add]

def addFirst (far : Bool) (d : Digit) : List Word := addSingle far d ++ [bAsgnAlu .addC]

/-- `t` is the register that keeps a carry. Within a page it stays selected. -/
def addMiddle (far first : Bool) (t : Byte) (d : Digit) : List Word :=
  seek far d.x ++
    [aAsgnRam, if far || first then raAsgnImmnum t else nop, rfAsgnAlu .addC, aAsgnAlu .add] ++
    seek far d.y ++ [bAsgnRam] ++ seek far d.x ++ [ramAsgnAlu .add, bAsgnAlu .addC] ++
    (if far then [raAsgnImmnum t] else []) ++ [aAsgnRf, bAsgnAlu .add]

def addLast (far : Bool) (d : Digit) : List Word :=
  seek far d.x ++ [aAsgnRam, nop, aAsgnAlu .add] ++ seek far d.y ++ [bAsgnRam] ++
    seek far d.x ++ [ramAsgnAlu .add]

def addRest (far : Bool) (t : Byte) : Bool → List Digit → List Word
  | _, [] => []
  | _, [d] => addLast far d
  | first, d :: e :: ds => addMiddle far first t d ++ addRest far t false (e :: ds)

/-- Adds numbers of any length in place. -/
def addCode (far : Bool) (t : Byte) : List Digit → List Word
  | [] => []
  | [d] => addSingle far d
  | d :: e :: ds => addFirst far d ++ addRest far t true (e :: ds)

/-- The addition of four bytes within a page, as in the listing of `sw/scc1` from 8AFH on. -/
example : addCode false 0x38 [⟨4, 14⟩, ⟨5, 15⟩, ⟨6, 16⟩, ⟨7, 17⟩] =
    [0x0204, 0x31FF, 0x020E, 0x36FF, 0x0204, 0x1800, 0x1602,
      0x0205, 0x31FF, 0x0538, 0x1002, 0x1100, 0x020F, 0x36FF, 0x0205, 0x1800, 0x1602, 0x21FF, 0x1600,
      0x0206, 0x31FF, 0xFFFF, 0x1002, 0x1100, 0x0210, 0x36FF, 0x0206, 0x1800, 0x1602, 0x21FF, 0x1600,
      0x0207, 0x31FF, 0xFFFF, 0x1100, 0x0211, 0x36FF, 0x0207, 0x1800] := by
  decide +kernel

namespace Sim

variable (s : Sim)

/-- The carry latch. -/
def carry : Nat := (s.aluOut.getLsbD 8).toNat

theorem execAll_seek {far : Bool} {addr : BitVec 16} (h : far = true ∨ s.a1 = page addr) :
    s.execAll (seek far addr) = { s with
      a2 := if far then 0 else s.a2
      a1 := page addr
      a0 := addr.setWidth 8
      pc := if far then s.pc + 2 + 2 + 2 else s.pc + 2 } := by
  cases far with
  | true => simp [seek]
  | false =>
    have near : s.a1 = page addr := h.resolve_left (by decide)
    simp [seek, ← near]

theorem exec_select {far first : Bool} {t : Byte} (h : far = true ∨ first = true ∨ s.ra = t) :
    s.exec (if far || first then raAsgnImmnum t else nop) =
      { s with ra := t, pc := s.pc + 2 } := by
  split
  · rw [exec_raAsgnImmnum]
  · rename_i stays
    rw [Bool.or_eq_true, not_or] at stays
    have same : s.ra = t := (h.resolve_left stays.1).resolve_left stays.2
    rw [exec_nop, ← same]

theorem execAll_reselect {far : Bool} {t : Byte} (h : s.ra = t) :
    s.execAll (if far then [raAsgnImmnum t] else []) =
      { s with pc := if far then s.pc + 2 else s.pc } := by
  cases far <;> simp [← h]

end Sim

theorem page_index (a2 : Byte) (addr : BitVec 16) :
    (a2 ++ page addr ++ addr.setWidth 8 : BitVec 24).setWidth 16 = addr := by
  apply BitVec.eq_of_toNat_eq
  have low := congrArg BitVec.toNat (append_bytes addr)
  rw [toNat_append] at low
  rw [BitVec.toNat_setWidth, toNat_append, toNat_append, page]
  have := addr.isLt
  omega

section
variable (l : BitVec 16) (a b : Byte)

theorem sum16_flag {n : Nat} (hn : n < 512) : ((sum16 n).getLsbD 8).toNat = n / 256 := by
  rw [sum16_carry, Nat.toNat_testBit]
  omega

theorem add_byte : ((aluCompute l a b AluMode.add.code).setWidth 8).toNat =
    (a.toNat + b.toNat) % 256 := by
  have sum : (aluCompute l a b AluMode.add.code).setWidth 8 = _ := sum16_byte _
  rw [sum, BitVec.toNat_ofNat]

theorem add_carry : ((aluCompute l a b AluMode.add.code).getLsbD 8).toNat =
    (a.toNat + b.toNat) / 256 := by
  have ha := a.isLt
  have hb := b.isLt
  exact sum16_flag (by omega)

theorem addC_byte : ((aluCompute l a b AluMode.addC.code).setWidth 8).toNat =
    (a.toNat + b.toNat + (l.getLsbD 8).toNat) % 256 := by
  have sum : (aluCompute l a b AluMode.addC.code).setWidth 8 = _ := sum16_byte _
  rw [sum, BitVec.toNat_ofNat]

theorem addC_carry : ((aluCompute l a b AluMode.addC.code).getLsbD 8).toNat =
    (a.toNat + b.toNat + (l.getLsbD 8).toNat) / 256 := by
  have ha := a.isLt
  have hb := b.isLt
  have hl := (l.getLsbD 8).toNat_le
  exact sum16_flag (by omega)

end

/-- The RAM of `s'` is that of `s` with the byte `n` at `addr`. -/
def Stores (s s' : Sim) (addr : BitVec 16) (n : Nat) : Prop :=
  ∃ v : Byte, v.toNat = n ∧ s'.dataRam = Function.update s.dataRam addr v

theorem seeks {far : Bool} {a x y : Byte} (hx : far = true ∨ a = x) (hy : far = true ∨ a = y) :
    (far = true ∨ x = y) ∧ (far = true ∨ y = x) := by
  cases far with
  | true => exact ⟨.inl rfl, .inl rfl⟩
  | false =>
    have x : a = x := hx.resolve_left (by decide)
    have y : a = y := hy.resolve_left (by decide)
    exact ⟨.inr (x.symm.trans y), .inr (y.symm.trans x)⟩

section
variable {far first : Bool} {t : Byte} {d : Digit} {s : Sim}
variable (hx : far = true ∨ s.a1 = page d.x) (hy : far = true ∨ s.a1 = page d.y)
include hx hy

theorem addSingle_exec :
    let s' := s.execAll (addSingle far d)
    let x := (s.dataRam d.x).toNat
    let y := (s.dataRam d.y).toNat
    Stores s s' d.x ((x + y) % 256) ∧ s'.a.toNat = x ∧ s'.b.toNat = y ∧
      s'.carry = (x + y) / 256 ∧ s'.a1 = page d.x := by
  obtain ⟨hxy, hyx⟩ := seeks hx hy
  simp only [addSingle, Sim.execAll_append, Sim.execAll_seek, Sim.execAll_cons, Sim.execAll_nil,
    Sim.exec_aAsgnRam, Sim.exec_bAsgnRam, Sim.exec_ramAsgnAlu, Sim.dataIndex, Sim.a2a1a0,
    page_index, hx, hxy, hyx, Sim.alu, Sim.carry, add_carry, and_true]
  exact ⟨_, add_byte _ _ _, rfl⟩

theorem addFirst_exec :
    let s' := s.execAll (addFirst far d)
    let x := (s.dataRam d.x).toNat
    let y := (s.dataRam d.y).toNat
    Stores s s' d.x ((x + y) % 256) ∧ s'.b.toNat = (x + y + (x + y) / 256) % 256 ∧
      s'.carry = (x + y + (x + y) / 256) / 256 ∧ s'.a1 = page d.x := by
  obtain ⟨stores, a, b, carry, a1⟩ := addSingle_exec hx hy
  rw [Sim.carry] at carry
  simp only [addFirst, Sim.execAll_append, Sim.execAll_cons, Sim.execAll_nil, Sim.exec_bAsgnAlu,
    Sim.alu, Sim.carry, addC_byte, addC_carry, a, b, carry, a1, and_true]
  exact stores

theorem addMiddle_exec (ht : far = true ∨ first = true ∨ s.ra = t) :
    let s' := s.execAll (addMiddle far first t d)
    let x := (s.dataRam d.x).toNat
    let y := (s.dataRam d.y).toNat
    Stores s s' d.x ((x + s.b.toNat + y) % 256) ∧
      s'.b.toNat = foldByte s.b.toNat s.carry x y % 256 ∧
      s'.carry = foldByte s.b.toNat s.carry x y / 256 ∧ s'.a1 = page d.x ∧ s'.ra = t := by
  obtain ⟨hxy, hyx⟩ := seeks hx hy
  simp only [addMiddle, Sim.execAll_append, Sim.execAll_seek, Sim.execAll_cons, Sim.execAll_nil,
    Sim.exec_aAsgnRam, Sim.exec_select, Sim.exec_rfAsgnAlu, Sim.exec_aAsgnAlu, Sim.exec_bAsgnRam,
    Sim.exec_ramAsgnAlu, Sim.exec_bAsgnAlu, Sim.execAll_reselect, Sim.exec_aAsgnRf, Sim.dataIndex,
    Sim.a2a1a0, page_index, hx, hxy, hyx, ht, Sim.alu, Sim.carry, Function.update_self, add_carry,
    add_byte, addC_byte, and_true]
  refine ⟨⟨_, ?_, rfl⟩, by rw [foldByte], by rw [foldByte]⟩
  rw [add_byte, add_byte, Nat.mod_add_mod]

theorem addLast_exec : Stores s (s.execAll (addLast far d)) d.x
    (((s.dataRam d.x).toNat + s.b.toNat + (s.dataRam d.y).toNat) % 256) := by
  obtain ⟨hxy, hyx⟩ := seeks hx hy
  simp only [addLast, Sim.execAll_append, Sim.execAll_seek, Sim.execAll_cons, Sim.execAll_nil,
    Sim.exec_aAsgnRam, Sim.exec_nop, Sim.exec_aAsgnAlu, Sim.exec_bAsgnRam, Sim.exec_ramAsgnAlu,
    Sim.dataIndex, Sim.a2a1a0, page_index, hx, hxy, hyx, Sim.alu]
  refine ⟨_, ?_, rfl⟩
  rw [add_byte, add_byte, Nat.mod_add_mod]

end

/-! ## Numbers of any length -/

/-- The operands' bytes. -/
def operands (s : Sim) (ds : List Digit) : List (Nat × Nat) :=
  ds.map fun d => ((s.dataRam d.x).toNat, (s.dataRam d.y).toNat)

/-- The bytes at the first operand's addresses. -/
def results (s : Sim) (ds : List Digit) : List Nat := ds.map fun d => (s.dataRam d.x).toNat

/-- No byte of the sum lands on an operand byte that is still to be read, or on
another byte of the sum. -/
def Apart (ds : List Digit) : Prop := ds.Pairwise fun d e => d.x ≠ e.x ∧ d.x ≠ e.y

/-- The code addresses bytes in full, or all bytes lie in the page of `A1`. -/
def Reaches (far : Bool) (s : Sim) (ds : List Digit) : Prop :=
  ∀ d ∈ ds, (far = true ∨ s.a1 = page d.x) ∧ (far = true ∨ s.a1 = page d.y)

section
variable {far : Bool} {t : Byte} {s s' : Sim} {d : Digit} {ds : List Digit}

theorem stores_other {addr other : BitVec 16} {n : Nat} (stores : Stores s s' addr n)
    (h : addr ≠ other) : s'.dataRam other = s.dataRam other := by
  obtain ⟨v, -, ram⟩ := stores
  rw [ram, Function.update_of_ne h.symm]

theorem stores_here {addr : BitVec 16} {n : Nat} (stores : Stores s s' addr n) :
    (s'.dataRam addr).toNat = n := by
  obtain ⟨v, value, ram⟩ := stores
  rw [ram, Function.update_self, value]

theorem operands_stores {n : Nat} (stores : Stores s s' d.x n)
    (apart : ∀ e ∈ ds, d.x ≠ e.x ∧ d.x ≠ e.y) : operands s' ds = operands s ds := by
  apply List.map_congr_left
  intro e he
  rw [stores_other stores (apart e he).1, stores_other stores (apart e he).2]

theorem reaches_next (a1 : s'.a1 = page d.x) (here : far = true ∨ s.a1 = page d.x)
    (reach : Reaches far s ds) : Reaches far s' ds := by
  intro e he
  obtain ⟨ex, ey⟩ := reach e he
  rw [a1]
  exact ⟨(seeks here ex).1, (seeks here ey).1⟩

theorem addRest_exec (ds : List Digit) {first : Bool} {s : Sim} (reach : Reaches far s ds)
    (ht : far = true ∨ first = true ∨ s.ra = t) (apart : Apart ds) :
    let s' := s.execAll (addRest far t first ds)
    results s' ds = sumBytes s.b.toNat s.carry (operands s ds) ∧
      ∀ addr, (∀ d ∈ ds, d.x ≠ addr) → s'.dataRam addr = s.dataRam addr := by
  induction ds generalizing first s with
  | nil => exact ⟨rfl, fun _ _ => rfl⟩
  | cons d ds ih =>
    obtain ⟨hx, hy⟩ := reach d (by simp)
    obtain ⟨apartHere, apart⟩ := List.pairwise_cons.mp apart
    cases ds with
    | nil =>
      have stores := addLast_exec hx hy
      constructor
      · simp only [results, operands, sumBytes, List.map_cons, List.map_nil, addRest]
        rw [stores_here stores]
      · intro addr other
        exact stores_other stores (other d (by simp))
    | cons e ds =>
      obtain ⟨stores, b, carry, a1, ra⟩ := addMiddle_exec hx hy ht
      obtain ⟨rest, frame⟩ := @ih false _
        (reaches_next a1 hx fun e he => reach e (List.mem_cons_of_mem d he))
        (.inr (.inr ra)) apart
      rw [operands_stores stores apartHere, b, carry] at rest
      have code : s.execAll (addRest far t first (d :: e :: ds)) =
          (s.execAll (addMiddle far first t d)).execAll (addRest far t false (e :: ds)) :=
        Sim.execAll_append s _ _
      rw [code]
      constructor
      · have here := frame d.x fun e he => (apartHere e he).1.symm
        have cons : operands s (d :: e :: ds) =
            ((s.dataRam d.x).toNat, (s.dataRam d.y).toNat) :: operands s (e :: ds) := rfl
        rw [cons, sumBytes, ← rest, results, List.map_cons, here, stores_here stores]
        rfl
      · intro addr other
        rw [frame addr fun e he => other e (List.mem_cons_of_mem d he),
          stores_other stores (other d (by simp))]

/-- All bytes of the sum. -/
def sumAll : List (Nat × Nat) → List Nat
  | [] => []
  | (x, y) :: ps =>
    (x + y) % 256 ::
      sumBytes ((x + y + (x + y) / 256) % 256) ((x + y + (x + y) / 256) / 256) ps

/-- **The code.** The bytes it leaves depend on the operands' bytes alone. -/
theorem addCode_exec {ds : List Digit} {s : Sim} (reach : Reaches far s ds) (apart : Apart ds) :
    results (s.execAll (addCode far t ds)) ds = sumAll (operands s ds) := by
  cases ds with
  | nil => rfl
  | cons d ds =>
    obtain ⟨hx, hy⟩ := reach d (by simp)
    obtain ⟨apartHere, apart⟩ := List.pairwise_cons.mp apart
    cases ds with
    | nil =>
      simp only [results, operands, sumAll, sumBytes, List.map_cons, List.map_nil, addCode]
      rw [stores_here (addSingle_exec hx hy).1]
    | cons e ds =>
      obtain ⟨stores, b, carry, a1⟩ := addFirst_exec hx hy
      obtain ⟨rest, frame⟩ := @addRest_exec far t (e :: ds) true _
        (reaches_next a1 hx fun e he => reach e (List.mem_cons_of_mem d he))
        (.inr (.inl rfl)) apart
      rw [operands_stores stores apartHere, b, carry] at rest
      have code : s.execAll (addCode far t (d :: e :: ds)) =
          (s.execAll (addFirst far d)).execAll (addRest far t true (e :: ds)) :=
        Sim.execAll_append s _ _
      have here := frame d.x fun e he => (apartHere e he).1.symm
      have cons : operands s (d :: e :: ds) =
          ((s.dataRam d.x).toNat, (s.dataRam d.y).toNat) :: operands s (e :: ds) := rfl
      rw [code, cons, sumAll, ← rest, results, List.map_cons, here, stores_here stores]
      rfl

/-- The operands for which the compiled addition is right: the lowest bytes sum to 0
or 256, and what is folded into each later byte is the carry into it. -/
def AddsRight : List (Nat × Nat) → Prop
  | [] => True
  | [_] => True
  | (x, y) :: p :: ps =>
    (x + y) % 256 = 0 ∧ Folds ((x + y) / 256) ((x + y) / 256) (p :: ps)

theorem sumAll_iff {ps : List (Nat × Nat)} (some : ps ≠ [])
    (bytes : ∀ p ∈ ps, p.1 < 256 ∧ p.2 < 256) :
    number (sumAll ps) =
      (number (ps.map Prod.fst) + number (ps.map Prod.snd)) % 256 ^ ps.length ↔
    AddsRight ps := by
  cases ps with
  | nil => exact absurd rfl some
  | cons p ps =>
    obtain ⟨x, y⟩ := p
    have hp : x < 256 ∧ y < 256 := bytes (x, y) (by simp)
    have carry : (x + y) / 256 ≤ 1 := by omega
    have regroup : number (((x, y) :: ps).map Prod.fst) + number (((x, y) :: ps).map Prod.snd) =
        x + y + 256 * (number (ps.map Prod.fst) + number (ps.map Prod.snd)) := by
      rw [List.map_cons, List.map_cons, number_cons, number_cons]
      ring
    rw [regroup, List.length_cons, Digits.mod_pow_succ _ _ (by decide), sumAll, number_cons,
      Digits.digits_inj (Nat.mod_lt _ (by decide)) (Nat.mod_lt _ (by decide))]
    cases ps with
    | nil => simp [sumBytes, AddsRight, number, Nat.mod_one]
    | cons q ps =>
      have rest := sumBytes_iff (List.cons_ne_nil q ps)
        (fun p hp => bytes p (List.mem_cons_of_mem _ hp)) ((x + y + (x + y) / 256) / 256) carry
        (Nat.mod_lt (x + y + (x + y) / 256) (by decide))
      have low : (x + y + (x + y) / 256) % 256 = (x + y) / 256 ↔ (x + y) % 256 = 0 := by omega
      rw [Nat.add_comm ((x + y) / 256), rest, low, AddsRight]
      constructor
      · rintro ⟨-, zero, folds⟩
        have latch : (x + y + (x + y) / 256) / 256 = (x + y) / 256 := by omega
        rw [latch] at folds
        exact ⟨zero, folds⟩
      · rintro ⟨zero, folds⟩
        have latch : (x + y + (x + y) / 256) / 256 = (x + y) / 256 := by omega
        rw [latch]
        exact ⟨rfl, zero, folds⟩

@[simp] theorem seek_straight (addr : BitVec 16) : Sim.StraightCode (seek far addr) := by
  cases far <;> simp [seek, a2AsgnImmnum, a1AsgnImmnum, a0AsgnImmnum]

@[simp] theorem addSingle_straight (d : Digit) : Sim.StraightCode (addSingle far d) := by
  simp [addSingle, aAsgnRam, bAsgnRam, ramAsgnAlu]

@[simp] theorem addMiddle_straight (first : Bool) (d : Digit) :
    Sim.StraightCode (addMiddle far first t d) := by
  have select : Sim.Straight (if far || first then raAsgnImmnum t else nop) := by
    split <;> simp [raAsgnImmnum, nop]
  have reselect : Sim.StraightCode (if far then [raAsgnImmnum t] else []) := by
    split <;> simp [raAsgnImmnum]
  simp only [addMiddle, Sim.straightCode_append, Sim.straightCode_cons, select, reselect]
  simp [aAsgnRam, rfAsgnAlu, aAsgnAlu, bAsgnRam, ramAsgnAlu, bAsgnAlu, aAsgnRf]

@[simp] theorem addLast_straight (d : Digit) : Sim.StraightCode (addLast far d) := by
  simp [addLast, aAsgnRam, nop, aAsgnAlu, bAsgnRam, ramAsgnAlu]

@[simp] theorem addRest_straight (first : Bool) (ds : List Digit) :
    Sim.StraightCode (addRest far t first ds) := by
  induction ds generalizing first with
  | nil => simp [addRest]
  | cons d ds ih =>
    cases ds with
    | nil => simp [addRest]
    | cons e ds => simp [addRest, ih false]

theorem addCode_straight (ds : List Digit) : Sim.StraightCode (addCode far t ds) := by
  match ds with
  | [] => simp [addCode]
  | [d] => simp [addCode]
  | d :: e :: ds => simp [addCode, addFirst, bAsgnAlu]

/-- **Addition.** Run by the simulator, the compiled code leaves the sum exactly for
the operands of `AddsRight`. -/
theorem addCode_sum_iff {rom : BitVec 20 → Byte} {ds : List Digit} {s : Sim} (some : ds ≠ [])
    (code : Sim.CodeAt rom s.pc (addCode far t ds)) (reach : Reaches far s ds) (apart : Apart ds) :
    number (results (s.run rom (addCode far t ds).length) ds) =
      (number ((operands s ds).map Prod.fst) + number ((operands s ds).map Prod.snd)) %
        256 ^ ds.length ↔
    AddsRight (operands s ds) := by
  have bytes : ∀ p ∈ operands s ds, p.1 < 256 ∧ p.2 < 256 := by
    intro p hp
    obtain ⟨d, -, rfl⟩ := List.mem_map.mp hp
    exact ⟨(s.dataRam d.x).isLt, (s.dataRam d.y).isLt⟩
  have length : ds.length = (operands s ds).length := (List.length_map _).symm
  have nonempty : operands s ds ≠ [] := mt List.map_eq_nil_iff.mp some
  rw [(Sim.run_code (addCode_straight ds) code).1, addCode_exec reach apart, length]
  exact sumAll_iff nonempty bytes

end

end Chiptune.Glowworm
