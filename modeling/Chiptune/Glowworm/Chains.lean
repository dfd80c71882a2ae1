import Chiptune.Glowworm.Addition
import Chiptune.Glowworm.Routine
import Chiptune.Restoring

/-!
# Chains over the bytes of a number

The pieces that the routines are made of: a number in consecutive registers is doubled from
its top byte down, another is subtracted from its low byte up, and bytes are copied.
-/

namespace Chiptune.Glowworm

namespace Regs

/-- The number in some registers, low byte first. -/
def long (x : Regs) (rs : List Byte) : Nat := number (rs.map fun r => (x.rf r).toNat)

section
variable (x : Regs)

theorem long_nil : x.long [] = 0 := rfl

theorem long_cons (r : Byte) (rs : List Byte) :
    x.long (r :: rs) = (x.rf r).toNat + 256 * x.long rs := Nat.ofDigits_cons

theorem long_append (rs rs' : List Byte) :
    x.long (rs ++ rs') = x.long rs + 256 ^ rs.length * x.long rs' := by
  rw [long, long, long, number, number, number, List.map_append, Nat.ofDigits_append,
    List.length_map]

theorem long_lt (rs : List Byte) : x.long rs < 256 ^ rs.length := by
  induction rs with
  | nil => exact Nat.one_pos
  | cons r rs ih =>
    have byte := (x.rf r).isLt
    rw [long_cons, List.length_cons, Nat.pow_succ]
    omega

theorem long_congr {y : Regs} {rs : List Byte} (same : ∀ r ∈ rs, y.rf r = x.rf r) :
    y.long rs = x.long rs := by
  rw [long, long]
  refine congrArg number (List.map_congr_left fun r mem => ?_)
  rw [same r mem]

end

end Regs

/-! ## Doubling -/

/-- From the register `q`, whose byte is in B, down. -/
def shlFrom (q : Byte) : List Byte → List Op
  | [] => []
  | [p] => [.aAlu .outB, .bRf p, .rfAlu .b0Lsh, .rfAluAt q .aBhLsh]
  | p :: p' :: rest => [.aAlu .outB, .bRf p, .rfAluAt q .aBhLsh] ++ shlFrom p (p' :: rest)

/-- Top byte first. For two bytes the compiler starts at once with the last step. -/
def shl : List Byte → List Op
  | r :: q :: p :: rest => [.bRf q, .aRf r, .rfAlu .aBhLsh] ++ shlFrom q (p :: rest)
  | [r, q] => [.aRf r, .bRf q, .rfAlu .b0Lsh, .rfAluAt r .aBhLsh]
  | _ => []

def doubled : List Byte → List Byte
  | [] => []
  | [v] => [CpuInit.b0Lsh v]
  | v :: w :: vs => CpuInit.aBhLsh v w :: doubled (w :: vs)

/-- The number of bytes given top byte first. -/
def fromTop : List Byte → Nat
  | [] => 0
  | v :: vs => v.toNat * 256 ^ vs.length + fromTop vs

theorem fromTop_lt (vs : List Byte) : fromTop vs < 256 ^ vs.length := by
  induction vs with
  | nil => exact Nat.one_pos
  | cons v vs ih =>
    have byte : v.toNat ≤ 255 := Nat.le_of_lt_succ v.isLt
    have scaled := Nat.mul_le_mul_right (256 ^ vs.length) byte
    rw [fromTop, List.length_cons, Nat.pow_succ]
    omega

theorem fromTop_reverse (x : Regs) (rs : List Byte) :
    fromTop (rs.map x.rf) = x.long rs.reverse := by
  induction rs with
  | nil => rfl
  | cons r rs ih =>
    rw [List.map_cons, fromTop, ih, List.reverse_cons, Regs.long_append, List.length_map,
      List.length_reverse, Regs.long_cons, Nat.mul_comm]
    exact Nat.add_comm _ _

theorem length_doubled (vs : List Byte) : (doubled vs).length = vs.length := by
  induction vs with
  | nil => rfl
  | cons v vs ih =>
    cases vs with
    | nil => rfl
    | cons w vs => exact congrArg (· + 1) ih

theorem fromTop_doubled (vs : List Byte) :
    fromTop (doubled vs) = 2 * fromTop vs % 256 ^ vs.length := by
  induction vs with
  | nil => rfl
  | cons v vs ih =>
    cases vs with
    | nil =>
      change (CpuInit.b0Lsh v).toNat * 1 + 0 = 2 * (v.toNat * 1 + 0) % 256 ^ 1
      rw [CpuInit.b0Lsh_toNat]
      omega
    | cons w vs =>
      -- the low bytes carry out the top bit of `w`
      have low := fromTop_lt (w :: vs)
      have rest := fromTop_lt vs
      have carry : 2 * fromTop (w :: vs) / 256 ^ (w :: vs).length = 2 * w.toNat / 256 := by
        rw [List.length_cons, Nat.pow_succ, fromTop, ← Nat.div_div_eq_div_mul]
        have positive : 0 < 256 ^ vs.length := Nat.pow_pos (by decide)
        have split : 2 * (w.toNat * 256 ^ vs.length + fromTop vs) =
            2 * fromTop vs + 256 ^ vs.length * (2 * w.toNat) := by ring
        rw [split, Nat.add_mul_div_left _ _ positive]
        have small : 2 * fromTop vs / 256 ^ vs.length < 2 := by
          rw [Nat.div_lt_iff_lt_mul positive]
          omega
        generalize 2 * fromTop vs / 256 ^ vs.length = g at small ⊢
        omega
      rw [doubled, fromTop, ih, length_doubled, CpuInit.aBhLsh_toNat, ← carry]
      change _ = 2 * (v.toNat * 256 ^ (w :: vs).length + fromTop (w :: vs)) %
        256 ^ ((w :: vs).length + 1)
      generalize fromTop (w :: vs) = f at low ⊢
      generalize (w :: vs).length = k at low ⊢
      have whole : 2 * (v.toNat * 256 ^ k + f) = 2 * f + 256 ^ k * (2 * v.toNat) := by ring
      have positive : 0 < 256 ^ k := Nat.pow_pos (by decide)
      rw [whole, Nat.pow_succ, Nat.mod_mul, Nat.add_mul_mod_self_left,
        Nat.add_mul_div_left _ _ positive, Nat.mul_comm, Nat.add_comm (2 * f / 256 ^ k),
        Nat.add_comm]

theorem shlFrom_run {q : Byte} {rest : List Byte} (more : rest ≠ []) {x : Regs}
    (nodup : (q :: rest).Nodup) (held : x.b = x.rf q) :
    (q :: rest).map (x.run (shlFrom q rest)).rf = doubled ((q :: rest).map x.rf) ∧
      ∀ r ∉ q :: rest, (x.run (shlFrom q rest)).rf r = x.rf r := by
  induction rest generalizing q x with
  | nil => exact absurd rfl more
  | cons p rest ih =>
    have apart : p ≠ q := fun e => (List.nodup_cons.mp nodup).1 (e ▸ List.mem_cons_self)
    cases rest with
    | nil =>
      refine ⟨?_, fun r other => ?_⟩
      · simp [shlFrom, Regs.op, doubled, CpuInit.stored, held, apart]
      · rw [List.mem_cons, List.mem_singleton, not_or] at other
        simp [shlFrom, Regs.op, other.1, other.2]
    | cons p' rest =>
      let y : Regs := x.run [.aAlu .outB, .bRf p, .rfAluAt q .aBhLsh]
      have at_q : y.rf q = CpuInit.aBhLsh (x.rf q) (x.rf p) := by
        simp [y, Regs.op, CpuInit.stored, held]
      have frame (r : Byte) (other : r ≠ q) : y.rf r = x.rf r := Function.update_of_ne other _ _
      obtain ⟨values, others⟩ := ih (List.cons_ne_nil _ _) (List.nodup_cons.mp nodup).2
        (x := y) (by rw [frame p apart]; rfl)
      have q_out := (List.nodup_cons.mp nodup).1
      have same : (p :: p' :: rest).map y.rf = (p :: p' :: rest).map x.rf :=
        List.map_congr_left fun r mem => frame r fun e => q_out (e ▸ mem)
      rw [shlFrom, Regs.run_append]
      refine ⟨?_, fun r other => ?_⟩
      · rw [List.map_cons, values, others q q_out, at_q, same]
        rfl
      · rw [List.mem_cons, not_or] at other
        exact (others r other.2).trans (frame r other.1)

/-- **Doubling** a number of several bytes. -/
theorem shl_run {rs : List Byte} (several : 2 ≤ rs.length) (nodup : rs.Nodup) (x : Regs) :
    (x.run (shl rs)).long rs.reverse = 2 * x.long rs.reverse % 256 ^ rs.length ∧
      ∀ r ∉ rs, (x.run (shl rs)).rf r = x.rf r := by
  have values : rs.map (x.run (shl rs)).rf = doubled (rs.map x.rf) ∧
      ∀ r ∉ rs, (x.run (shl rs)).rf r = x.rf r := by
    match rs with
    | [] => cases several
    | [_] => exact absurd several (by simp)
    | [r, q] =>
      have apart : q ≠ r := fun e => (List.nodup_cons.mp nodup).1 (e ▸ List.mem_cons_self)
      refine ⟨?_, fun p other => ?_⟩
      · simp [shl, Regs.op, doubled, CpuInit.stored, apart]
      · rw [List.mem_cons, List.mem_singleton, not_or] at other
        simp [shl, Regs.op, other.1, other.2]
    | r :: q :: p :: rest =>
      let y : Regs := x.run [.bRf q, .aRf r, .rfAlu .aBhLsh]
      have at_r : y.rf r = CpuInit.aBhLsh (x.rf r) (x.rf q) := Function.update_self _ _ _
      have frame (t : Byte) (other : t ≠ r) : y.rf t = x.rf t := Function.update_of_ne other _ _
      obtain ⟨r_out, nodup⟩ := List.nodup_cons.mp nodup
      have q_apart : q ≠ r := fun e => r_out (e ▸ List.mem_cons_self)
      obtain ⟨values, others⟩ := shlFrom_run (List.cons_ne_nil _ _) nodup
        (x := y) (by rw [frame q q_apart]; rfl)
      have same : (q :: p :: rest).map y.rf = (q :: p :: rest).map x.rf :=
        List.map_congr_left fun t mem => frame t fun e => r_out (e ▸ mem)
      rw [shl, Regs.run_append]
      refine ⟨?_, fun t other => ?_⟩
      · rw [List.map_cons, values, others r r_out, at_r, same]
        rfl
      · rw [List.mem_cons, not_or] at other
        exact (others t other.2).trans (frame t other.1)
  refine ⟨?_, values.2⟩
  rw [← fromTop_reverse, values.1, fromTop_doubled, fromTop_reverse, List.length_map]

/-! ## Subtracting -/

/-- The registers of a byte of the minuend, of the subtrahend and of the difference. -/
structure Place where
  m : Byte
  p : Byte
  d : Byte

def subFirst (t : Place) : List Op := [.aRf t.m, .bRf t.p, .rfAluAt t.d .sub, .bAlu .subC]

/-- The borrow comes in B. One part of the next is kept in `c`. -/
def subByte (c : Byte) (t : Place) : List Op :=
  [.aRf t.m, .rfAluAt c .subC, .aAlu .sub, .bRf t.p, .rfAluAt t.d .sub]

/-- The borrow goes on in B, and A holds the one part of it. -/
def subNext (c : Byte) (t : Place) : List Op := subByte c t ++ [.bAlu .subC, .aRf c, .bAlu .add]

/-- The borrow goes on in A. -/
def subLast (c : Byte) (t : Place) : List Op := subByte c t ++ [.aAlu .subC, .bRf c, .aAlu .add]

/-- The chain for two bytes, -/
def subtract2 (c : Byte) (t u : Place) : List Op := subFirst t ++ subLast c u

/-- and for more. -/
def subtract (c : Byte) (t : Place) (ts : List Place) : List Op :=
  subFirst t ++ ts.flatMap (subNext c)

/-- No byte is written before it is read. -/
def Spread (c : Byte) (ts : List Place) : Prop :=
  (∀ t ∈ ts, t.m ≠ c ∧ t.p ≠ c ∧ t.d ≠ c) ∧
    ts.Pairwise fun t u => t.d ≠ u.m ∧ t.d ≠ u.p ∧ t.d ≠ u.d

/-- A byte with the borrow in and the two parts of the borrow out. -/
theorem sub_byte {m p c : Byte} (bit : c.toNat ≤ 1) :
    m.toNat + 256 * (CpuInit.add (CpuInit.subC m c) (CpuInit.subC (m - c) p)).toNat =
      (m - c - p).toNat + p.toNat + c.toNat ∧
    (CpuInit.add (CpuInit.subC m c) (CpuInit.subC (m - c) p)).toNat ≤ 1 := by
  have hm := m.isLt
  have hp := p.isLt
  have one : (1 : Byte).toNat = 1 := rfl
  have zero : (0 : Byte).toNat = 0 := rfl
  have part := BitVec.toNat_sub m c
  have all := BitVec.toNat_sub (m - c) p
  rw [CpuInit.add_toNat, CpuInit.subC_eq, CpuInit.subC_eq]
  split_ifs <;> omega

section
variable {c : Byte} {t : Place}

theorem subFirst_run (x : Regs) :
    let y := x.run (subFirst t)
    (x.rf t.m).toNat + 256 * y.b.toNat = (y.rf t.d).toNat + (x.rf t.p).toNat ∧
      y.b.toNat ≤ 1 ∧ ∀ r, r ≠ t.d → y.rf r = x.rf r := by
  intro y
  have value : y.rf t.d = x.rf t.m - x.rf t.p :=
    (Function.update_self _ _ _).trans (CpuInit.sub_eq _ _)
  have borrow : y.b = CpuInit.subC (x.rf t.m) (x.rf t.p) := rfl
  have hm := (x.rf t.m).isLt
  have hp := (x.rf t.p).isLt
  have one : (1 : Byte).toNat = 1 := rfl
  have zero : (0 : Byte).toNat = 0 := rfl
  refine ⟨?_, ?_, fun r other => Function.update_of_ne other _ _⟩
  · rw [value, borrow, CpuInit.subC_eq, BitVec.toNat_sub]
    split_ifs <;> omega
  · rw [borrow, CpuInit.subC_eq]
    split_ifs <;> omega

theorem subByte_run (p_apart : t.p ≠ c) (d_apart : t.d ≠ c) (x : Regs) :
    let y := x.run (subByte c t)
    y.rf t.d = x.rf t.m - x.b - x.rf t.p ∧ y.rf c = CpuInit.subC (x.rf t.m) x.b ∧
      y.a = x.rf t.m - x.b ∧ y.b = x.rf t.p ∧ ∀ r, r ≠ c → r ≠ t.d → y.rf r = x.rf r := by
  refine ⟨?_, ?_, ?_, ?_, fun r other other' => ?_⟩
  · simp [subByte, Regs.op, CpuInit.stored, CpuInit.sub_eq, p_apart]
  · simp [subByte, Regs.op, CpuInit.stored, d_apart.symm]
  · simp [subByte, Regs.op, CpuInit.stored, CpuInit.sub_eq]
  · simp [subByte, Regs.op, p_apart]
  · simp [subByte, Regs.op, other, other']

variable (p_apart : t.p ≠ c) (d_apart : t.d ≠ c) {x : Regs} (bit : x.b.toNat ≤ 1)
include p_apart d_apart bit

theorem subNext_run :
    let y := x.run (subNext c t)
    (x.rf t.m).toNat + 256 * y.b.toNat = (y.rf t.d).toNat + (x.rf t.p).toNat + x.b.toNat ∧
      y.b.toNat ≤ 1 ∧ y.a = CpuInit.subC (x.rf t.m) x.b ∧
      ∀ r, r ≠ c → r ≠ t.d → y.rf r = x.rf r := by
  intro y
  obtain ⟨value, part, a, b, others⟩ := subByte_run p_apart d_apart x
  have whole : y.b =
      CpuInit.add (CpuInit.subC (x.rf t.m) x.b) (CpuInit.subC (x.rf t.m - x.b) (x.rf t.p)) := by
    rw [← part, ← a, ← b]
    rfl
  obtain ⟨sum, low⟩ := sub_byte (m := x.rf t.m) (p := x.rf t.p) bit
  rw [← whole, ← value] at sum
  exact ⟨sum, whole ▸ low, part, others⟩

theorem subLast_run :
    let y := x.run (subLast c t)
    (x.rf t.m).toNat + 256 * y.a.toNat = (y.rf t.d).toNat + (x.rf t.p).toNat + x.b.toNat ∧
      y.a.toNat ≤ 1 ∧ ∀ r, r ≠ c → r ≠ t.d → y.rf r = x.rf r := by
  intro y
  obtain ⟨value, part, a, b, others⟩ := subByte_run p_apart d_apart x
  have whole : y.a =
      CpuInit.add (CpuInit.subC (x.rf t.m) x.b) (CpuInit.subC (x.rf t.m - x.b) (x.rf t.p)) := by
    rw [← part, ← a, ← b, CpuInit.add_eq, BitVec.add_comm, ← CpuInit.add_eq]
    rfl
  obtain ⟨sum, low⟩ := sub_byte (m := x.rf t.m) (p := x.rf t.p) bit
  rw [← whole, ← value] at sum
  exact ⟨sum, whole ▸ low, others⟩

end

/-- A chain and what a byte in front of it adds. -/
structure Subtracts (c : Byte) (ts : List Place) (x y : Regs) (borrow : Nat) : Prop where
  sum : x.long (ts.map (·.m)) + 256 ^ ts.length * y.b.toNat =
    y.long (ts.map (·.d)) + x.long (ts.map (·.p)) + borrow
  bit : y.b.toNat ≤ 1
  others : ∀ r, r ≠ c → r ∉ ts.map (·.d) → y.rf r = x.rf r

theorem Subtracts.cons {c : Byte} {t : Place} {ts : List Place} (spread : Spread c (t :: ts))
    {x y z : Regs} {borrow : Nat}
    (sum : (x.rf t.m).toNat + 256 * y.b.toNat = (y.rf t.d).toNat + (x.rf t.p).toNat + borrow)
    (others : ∀ r, r ≠ c → r ≠ t.d → y.rf r = x.rf r) (rest : Subtracts c ts y z y.b.toNat) :
    Subtracts c (t :: ts) x z borrow := by
  obtain ⟨⟨-, -, d_apart⟩, free⟩ := List.forall_mem_cons.mp spread.1
  have later := (List.pairwise_cons.mp spread.2).1
  have ms : y.long (ts.map (·.m)) = x.long (ts.map (·.m)) := Regs.long_congr _ fun r mem => by
    obtain ⟨u, inside, rfl⟩ := List.mem_map.mp mem
    exact others _ (free u inside).1 (Ne.symm (later u inside).1)
  have ps : y.long (ts.map (·.p)) = x.long (ts.map (·.p)) := Regs.long_congr _ fun r mem => by
    obtain ⟨u, inside, rfl⟩ := List.mem_map.mp mem
    exact others _ (free u inside).2.1 (Ne.symm (later u inside).2.1)
  have kept : z.rf t.d = y.rf t.d := by
    refine rest.others _ d_apart fun mem => ?_
    obtain ⟨u, inside, same⟩ := List.mem_map.mp mem
    exact (later u inside).2.2 same.symm
  have whole := rest.sum
  rw [ms, ps] at whole
  refine ⟨?_, rest.bit, fun r other out => ?_⟩
  · simp only [List.map_cons, Regs.long_cons, List.length_cons, Nat.pow_succ]
    have scaled : 256 ^ ts.length * 256 * z.b.toNat = 256 * (256 ^ ts.length * z.b.toNat) := by ring
    rw [kept]
    omega
  · rw [List.map_cons, List.mem_cons, not_or] at out
    exact (rest.others r other out.2).trans (others r other out.1)

theorem subRest_run {c : Byte} {ts : List Place} (spread : Spread c ts) {x : Regs}
    (bit : x.b.toNat ≤ 1) :
    Subtracts c ts x (x.run (ts.flatMap (subNext c))) x.b.toNat := by
  induction ts generalizing x with
  | nil => exact ⟨by simp [Regs.long, number], bit, fun r _ _ => rfl⟩
  | cons t ts ih =>
    obtain ⟨⟨-, p_apart, d_apart⟩, free⟩ := List.forall_mem_cons.mp spread.1
    obtain ⟨sum, low, -, others⟩ := subNext_run p_apart d_apart bit
    rw [List.flatMap_cons, Regs.run_append]
    exact .cons spread sum others (ih ⟨free, (List.pairwise_cons.mp spread.2).2⟩ low)

theorem subtract_run {c : Byte} {t : Place} {ts : List Place} (spread : Spread c (t :: ts))
    (x : Regs) : Subtracts c (t :: ts) x (x.run (subtract c t ts)) 0 := by
  obtain ⟨sum, low, others⟩ := subFirst_run (t := t) x
  rw [subtract, Regs.run_append]
  exact .cons spread sum (fun r _ other => others r other) (subRest_run
    ⟨(List.forall_mem_cons.mp spread.1).2, (List.pairwise_cons.mp spread.2).2⟩ low)

/-! ## The test behind a subtraction -/

/-- A borrow that comes out says that the subtrahend is greater. -/
theorem borrow_out {M P D b k : Nat} (sum : M + 256 ^ k * b = D + P) (bit : b ≤ 1)
    (hP : P < 256 ^ k) (hD : D < 256 ^ k) :
    b = (if M < P then 1 else 0) ∧ D = (M + (256 ^ k - P)) % 256 ^ k := by
  obtain rfl | rfl : b = 0 ∨ b = 1 := by omega
  · have wrap : M + (256 ^ k - P) = D + 256 ^ k := by omega
    rw [if_neg (by omega), wrap, Nat.add_mod_right, Nat.mod_eq_of_lt hD]
    exact ⟨rfl, rfl⟩
  · have wrap : M + (256 ^ k - P) = D := by omega
    rw [if_pos (by omega), wrap, Nat.mod_eq_of_lt hD]
    exact ⟨rfl, rfl⟩

section
variable {c : Byte} {t u : Place} {ts : List Place}

theorem spread_append {us : List Place} (spread : Spread c (ts ++ us)) : Spread c ts :=
  ⟨fun t mem => spread.1 t (List.mem_append_left us mem), (List.pairwise_append.mp spread.2).1⟩

theorem Subtracts.value {x y : Regs} (h : Subtracts c ts x y 0) :
    y.b.toNat = (if x.long (ts.map (·.m)) < x.long (ts.map (·.p)) then 1 else 0) ∧
      y.long (ts.map (·.d)) = (x.long (ts.map (·.m)) + (256 ^ ts.length - x.long (ts.map (·.p)))) %
        256 ^ ts.length := by
  have below (f : Place → Byte) (z : Regs) : z.long (ts.map f) < 256 ^ ts.length := by
    have := z.long_lt (ts.map f)
    rwa [List.length_map] at this
  exact borrow_out h.sum h.bit (below _ x) (below _ y)

/-- **Two bytes**: A tells whether the subtrahend is greater. -/
theorem subtract2_test (spread : Spread c [t, u]) (x : Regs) :
    let y := x.run (subtract2 c t u)
    y.a.toNat = (if x.long [t.m, u.m] < x.long [t.p, u.p] then 1 else 0) ∧
      y.long [t.d, u.d] = (x.long [t.m, u.m] + (256 ^ 2 - x.long [t.p, u.p])) % 256 ^ 2 ∧
      ∀ r, r ≠ c → r ∉ [t.d, u.d] → y.rf r = x.rf r := by
  intro y
  obtain ⟨sum, low, others⟩ := subFirst_run (t := t) x
  have second := (List.forall_mem_cons.mp spread.1).2
  obtain ⟨⟨um_out, up_out, ud_out⟩, -⟩ := List.forall_mem_cons.mp second
  obtain ⟨m_apart, p_apart, d_apart⟩ := (List.pairwise_cons.mp spread.2).1 u (by simp)
  obtain ⟨sum', low', others'⟩ := subLast_run up_out ud_out low
  have run : y = (x.run (subFirst t)).run (subLast c u) := Regs.run_append _ _ _
  rw [← run] at sum' low' others'
  have td_out : t.d ≠ c := (List.forall_mem_cons.mp spread.1).1.2.2
  rw [others _ (Ne.symm m_apart), others _ (Ne.symm p_apart)] at sum'
  have kept : y.rf t.d = (x.run (subFirst t)).rf t.d := others' _ td_out d_apart
  have whole : x.long [t.m, u.m] + 256 ^ 2 * y.a.toNat = y.long [t.d, u.d] + x.long [t.p, u.p] := by
    simp only [Regs.long_cons, Regs.long_nil, kept]
    omega
  obtain ⟨flag, value⟩ := borrow_out whole low' (x.long_lt [t.p, u.p])
    (y.long_lt [t.d, u.d])
  refine ⟨flag, value, fun r other out => ?_⟩
  rw [List.mem_cons, List.mem_singleton, not_or] at out
  exact (others' r other out.2).trans (others r out.1)

/-- **More bytes**: A is left with one part of the last borrow, which tells it only if the
subtrahend has no top byte. -/
theorem subtract_test (spread : Spread c (t :: ts)) (more : ts ≠ []) (x : Regs) :
    let y := x.run (subtract c t ts)
    let M := x.long ((t :: ts).map (·.m))
    let P := x.long ((t :: ts).map (·.p))
    y.a.toNat = (if Restoring.skipLow (256 ^ ts.length) P M then 1 else 0) ∧
      y.long ((t :: ts).map (·.d)) = (M + (256 ^ (ts.length + 1) - P)) % 256 ^ (ts.length + 1) ∧
      ∀ r, r ≠ c → r ∉ (t :: ts).map (·.d) → y.rf r = x.rf r := by
  intro y M P
  have all := subtract_run spread x
  refine ⟨?_, all.value.2, all.others⟩
  obtain rfl | ⟨us, u, rfl⟩ := List.eq_nil_or_concat' ts
  · exact absurd rfl more
  have parts : Spread c ((t :: us) ++ [u]) := spread
  have low := subtract_run (spread_append parts) x
  have last : u ∈ us ++ [u] := List.mem_append_right us (List.mem_singleton_self u)
  obtain ⟨um_out, up_out, ud_out⟩ := spread.1 u (List.mem_cons_of_mem t last)
  have um_apart : u.m ∉ (t :: us).map (·.d) := fun mem => by
    obtain ⟨v, inside, same⟩ := List.mem_map.mp mem
    have apart := (List.pairwise_append.mp parts.2).2.2
    exact (apart v inside u (List.mem_singleton_self u)).1 same
  obtain ⟨-, -, a, -⟩ := subNext_run up_out ud_out low.bit
  have run : y = (x.run (subtract c t us)).run (subNext c u) := by
    change x.run (subtract c t (us ++ [u])) = _
    rw [← Regs.run_append, subtract, subtract, List.flatMap_append, List.append_assoc]
    simp
  rw [← run, low.others _ um_out um_apart] at a
  have top (f : Place → Byte) : x.long ((t :: (us ++ [u])).map f) =
      x.long ((t :: us).map f) + 256 ^ (us ++ [u]).length * (x.rf (f u)).toNat := by
    rw [← List.cons_append, List.map_append, Regs.long_append, List.length_map]
    simp [Regs.long, number]
  have below (f : Place → Byte) : x.long ((t :: us).map f) < 256 ^ (us ++ [u]).length := by
    have lt := x.long_lt ((t :: us).map f)
    have length : (us ++ [u]).length = us.length + 1 := by simp
    rwa [List.length_map, List.length_cons, ← length] at lt
  have positive : 0 < 256 ^ (us ++ [u]).length := Nat.pow_pos (by decide)
  have byte := (x.rf u.m).isLt
  have test : Restoring.skipLow (256 ^ (us ++ [u]).length) P M = true ↔
      (x.rf u.m).toNat < (x.run (subtract c t us)).b.toNat := by
    rw [Restoring.skipLow, decide_eq_true_eq, low.value.1]
    change x.long ((t :: (us ++ [u])).map (·.m)) / _ = 0 ∧
      x.long ((t :: (us ++ [u])).map (·.m)) % _ < x.long ((t :: (us ++ [u])).map (·.p)) % _ ↔ _
    rw [top, top, Nat.add_mul_div_left _ _ positive, Nat.div_eq_of_lt (below _),
      Nat.add_mul_mod_self_left, Nat.add_mul_mod_self_left, Nat.mod_eq_of_lt (below _),
      Nat.mod_eq_of_lt (below _)]
    split_ifs <;> omega
  rw [a, CpuInit.subC_eq]
  simp only [test]
  split_ifs <;> rfl

end

/-! ## Copying -/

/-- Each byte by way of A. -/
def copy (src dst : List Byte) : List Op :=
  (src.zip dst).flatMap fun r => [.aRf r.1, .rfAluAt r.2 .outA]

theorem copy_run {src dst : List Byte} (same : src.length = dst.length) (nodup : dst.Nodup)
    (apart : ∀ r ∈ src, r ∉ dst) (x : Regs) :
    (x.run (copy src dst)).long dst = x.long src ∧
      ∀ r ∉ dst, (x.run (copy src dst)).rf r = x.rf r := by
  induction src generalizing dst x with
  | nil =>
    obtain rfl : dst = [] := List.length_eq_zero_iff.mp same.symm
    exact ⟨rfl, fun r _ => rfl⟩
  | cons s src ih =>
    cases dst with
    | nil => cases same
    | cons d dst =>
      obtain ⟨d_out, nodup⟩ := List.nodup_cons.mp nodup
      let y : Regs := x.run [.aRf s, .rfAluAt d .outA]
      have at_d : y.rf d = x.rf s := Function.update_self _ _ _
      have frame (r : Byte) (other : r ≠ d) : y.rf r = x.rf r := Function.update_of_ne other _ _
      have s_out (r : Byte) (mem : r ∈ src) : r ∉ d :: dst := apart r (List.mem_cons_of_mem s mem)
      obtain ⟨value, others⟩ := ih (Nat.succ.inj same) nodup
        (fun r mem inside => s_out r mem (List.mem_cons_of_mem d inside)) y
      have kept : y.long src = x.long src := Regs.long_congr _ fun r mem =>
        frame r fun e => s_out r mem (e ▸ List.mem_cons_self)
      have run : x.run (copy (s :: src) (d :: dst)) = y.run (copy src dst) := rfl
      rw [run]
      refine ⟨?_, fun r out => ?_⟩
      · rw [Regs.long_cons, Regs.long_cons, others d d_out, at_d, value, kept]
      · rw [List.mem_cons, not_or] at out
        exact (others r out.2).trans (frame r out.1)

end Chiptune.Glowworm
