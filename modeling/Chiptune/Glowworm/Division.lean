import Chiptune.Glowworm.Chains

/-!
# Unsigned division

`unsigned_div16_func_gen` to `unsigned_mod64_func_gen` of `compiler/glow.cpp`: the routines
that a compiled program calls to divide numbers of two, four or eight bytes.
-/

namespace Chiptune.Glowworm

/-! ## The routines -/

/-- `REGISTER_FILE_OP_FUNC_LOP` and the others. -/
def opFuncLop : Nat := 10
def opFuncRop : Nat := 18
def opFuncDop : Nat := 26
def opFuncRet : Nat := 34
def opFuncCache : Nat := 37

/-- `n` registers, low byte first. -/
def regsFrom (r n : Nat) : List Byte := (List.range n).map fun i => BitVec.ofNat 8 (r + i)

section
variable (n : Nat) (quot : Bool)

def lopRegs : List Byte := regsFrom opFuncLop n

def ropRegs : List Byte := regsFrom opFuncRop n

def dopRegs : List Byte := regsFrom opFuncDop n

def retRegs : List Byte := regsFrom opFuncRet 3

def regSub : List Byte := regsFrom opFuncCache n

def regSubC : Byte := BitVec.ofNat 8 (opFuncCache + n)

/-- Where only the rest is wanted, it is formed in `DOP`. -/
def regMod : List Byte := if quot then regsFrom (opFuncCache + n + 1) n else dopRegs n

def regCp : Byte := BitVec.ofNat 8 (opFuncCache + n + 1 + if quot then n else 0)

def places : List Place :=
  (regMod n quot).zipWith (fun m pd => ⟨m, pd.1, pd.2⟩) ((ropRegs n).zip (regSub n))

/-- The routines for two bytes have another last step than those for more. -/
def subtraction : List Place → List Op
  | [] => []
  | [t, u] => subtract2 (regSubC n) t u
  | t :: ts => subtract (regSubC n) t ts

def clearing : List Op :=
  (regMod n quot).reverse.map (.rfImm · 0) ++
    [.rfImm (regCp n quot) (BitVec.ofNat 8 (8 * n - 1))]

def divTurn : Turn where
  front := shl (lopRegs n ++ regMod n quot).reverse ++
    (if quot then shl (dopRegs n).reverse else []) ++ subtraction n (places n quot)
  skip := .aNot
  body := copy (regSub n) (regMod n quot) ++
    if quot then [.aRf (BitVec.ofNat 8 opFuncDop), .rfAlu .aAdd1] else []
  back := [.aRf (regCp n quot), .rfAlu .aSub1]
  again := .aSub1C

/-- `REGISTER_TO_A2A1A0(REGISTER_FILE_OP_FUNC_RET, 0)`. -/
def returning : List Asgn :=
  [.addrRfO .a2 (BitVec.ofNat 8 (opFuncRet + 2)), .addrRfO .a1 (BitVec.ofNat 8 (opFuncRet + 1)),
    .addrRfO .a0 (BitVec.ofNat 8 opFuncRet)]

/-- Up to the last instruction, `PC_ASGN_A2A1A0`. -/
def unsignedFunc : List Item :=
  code (clearing n quot) ++ (divTurn n quot).items (returning.map .asgn)

end

def unsignedDiv16Func : List Item := unsignedFunc 2 true
def unsignedDiv32Func : List Item := unsignedFunc 4 true
def unsignedDiv64Func : List Item := unsignedFunc 8 true
def unsignedMod16Func : List Item := unsignedFunc 2 false
def unsignedMod32Func : List Item := unsignedFunc 4 false
def unsignedMod64Func : List Item := unsignedFunc 8 false

/-- `PC_ASGN_A2A1A0`. -/
def pcAsgnA2A1A0 : Word := word 0x07 0xFE

/-! ## A turn of the loop -/

section
variable (n : Nat) (quot : Bool)

/-- The test of the source: a true comparison for two bytes only. -/
def skips (b r : Nat) : Bool := if n = 2 then r < b else Restoring.skipLow (256 ^ (n - 1)) b r

def quotRegs : List Byte := if quot then dopRegs n else []

/-- What a routine writes. -/
def touched : List Byte :=
  lopRegs n ++ regMod n quot ++ quotRegs n quot ++ regSubC n :: regSub n ++ [regCp n quot]

/-- The registers of a routine do not get in each other's way. -/
structure Fits : Prop where
  several : 2 ≤ n
  small : n ≤ 8
  shift : (lopRegs n ++ regMod n quot).Nodup
  dop : (quotRegs n quot).Nodup
  spread : Spread (regSubC n) (places n quot)
  dop_out : ∀ r ∈ quotRegs n quot, r ∉ lopRegs n ++ regMod n quot
  sub_out : ∀ r ∈ regSubC n :: regSub n, r ∉ lopRegs n ++ regMod n quot ++ quotRegs n quot
  cp_out : regCp n quot ∉ lopRegs n ++ regMod n quot ++ quotRegs n quot ++ regSubC n :: regSub n
  rop_out : ∀ r ∈ ropRegs n ++ retRegs, r ∉ touched n quot
  ms : (places n quot).map (·.m) = regMod n quot
  ps : (places n quot).map (·.p) = ropRegs n
  ds : (places n quot).map (·.d) = regSub n

end

instance (c : Byte) (ts : List Place) : Decidable (Spread c ts) :=
  inferInstanceAs (Decidable (_ ∧ _))

theorem fits {n : Nat} (size : n = 2 ∨ n = 4 ∨ n = 8) (quot : Bool) : Fits n quot := by
  obtain rfl | rfl | rfl := size <;> cases quot <;> constructor <;> decide +kernel

theorem length_regsFrom (r n : Nat) : (regsFrom r n).length = n := by simp [regsFrom]

theorem byte_pow (n : Nat) : 256 ^ n = 2 ^ (8 * n) := by rw [Nat.pow_mul]

theorem length_regMod (n : Nat) (quot : Bool) : (regMod n quot).length = n := by
  rw [regMod]
  split
  · exact length_regsFrom _ n
  · exact length_regsFrom _ n

theorem subtraction_two (n : Nat) (t u : Place) :
    subtraction n [t, u] = subtract2 (regSubC n) t u := rfl

theorem subtraction_more (n : Nat) (t u v : Place) (ts : List Place) :
    subtraction n (t :: u :: v :: ts) = subtract (regSubC n) t (u :: v :: ts) := rfl

theorem skips_two (b r : Nat) : skips 2 b r = decide (r < b) := rfl

theorem skips_more {n : Nat} (more : n ≠ 2) (b r : Nat) :
    skips n b r = Restoring.skipLow (256 ^ (n - 1)) b r := if_neg more

theorem subtraction_test {n : Nat} {ts : List Place} (several : 2 ≤ n) (length : ts.length = n)
    (spread : Spread (regSubC n) ts) (x : Regs) :
    let y := x.run (subtraction n ts)
    let M := x.long (ts.map (·.m))
    let P := x.long (ts.map (·.p))
    y.a.toNat = (if skips n P M then 1 else 0) ∧
      y.long (ts.map (·.d)) = (M + (256 ^ n - P)) % 256 ^ n ∧
      ∀ r, r ∉ regSubC n :: ts.map (·.d) → y.rf r = x.rf r := by
  generalize place : regSubC n = c at spread
  match ts with
  | [] | [_] =>
    simp at length
    omega
  | [t, u] =>
    obtain rfl : n = 2 := length.symm
    rw [subtraction_two, place]
    obtain ⟨flag, value, others⟩ := subtract2_test spread x
    refine ⟨?_, value, fun r out => ?_⟩
    · simp only [skips_two, decide_eq_true_eq]
      exact flag
    · rw [List.mem_cons, not_or] at out
      exact others r out.1 out.2
  | t :: u :: v :: ts =>
    rw [subtraction_more, place]
    obtain ⟨flag, value, others⟩ := subtract_test spread (List.cons_ne_nil _ _) x
    have count : (u :: v :: ts).length + 1 = n := length
    have low : (u :: v :: ts).length = n - 1 := by omega
    have long : n ≠ 2 := by
      rw [← count]
      simp
    rw [low] at flag
    rw [count] at value
    refine ⟨?_, value, fun r out => ?_⟩
    · rw [skips_more long]
      exact flag
    · rw [List.mem_cons, not_or] at out
      exact others r out.1 out.2

section
variable {n : Nat} {quot : Bool} (f : Fits n quot) (x : Regs)
include f

theorem subtraction_run :
    let y := x.run (subtraction n (places n quot))
    y.a.toNat = (if skips n (x.long (ropRegs n)) (x.long (regMod n quot)) then 1 else 0) ∧
      y.long (regSub n) =
        (x.long (regMod n quot) + (256 ^ n - x.long (ropRegs n))) % 256 ^ n ∧
      ∀ r, r ∉ regSubC n :: regSub n → y.rf r = x.rf r := by
  have length : (places n quot).length = n := by
    rw [← List.length_map (f := (·.d)), f.ds, regSub, length_regsFrom]
  have test := subtraction_test f.several length f.spread x
  rwa [f.ms, f.ps, f.ds] at test

theorem front_run :
    let y := x.run (divTurn n quot).front
    y.long (lopRegs n) = 2 * x.long (lopRegs n) % 256 ^ n ∧
      y.long (regMod n quot) =
        (2 * x.long (regMod n quot) + 2 * x.long (lopRegs n) / 256 ^ n) % 256 ^ n ∧
      y.long (quotRegs n quot) = 2 * x.long (quotRegs n quot) % 256 ^ (quotRegs n quot).length ∧
      y.a.toNat = (if skips n (x.long (ropRegs n)) (y.long (regMod n quot)) then 1 else 0) ∧
      y.long (regSub n) =
        (y.long (regMod n quot) + (256 ^ n - x.long (ropRegs n))) % 256 ^ n ∧
      ∀ r, r ∉ lopRegs n ++ regMod n quot ++ quotRegs n quot ++ regSubC n :: regSub n →
        y.rf r = x.rf r := by
  have lop_length : (lopRegs n).length = n := length_regsFrom _ n
  have mod_length := length_regMod n quot
  have more := f.several
  -- the dividend goes into the rest
  have two : 2 ≤ (lopRegs n ++ regMod n quot).reverse.length := by
    simp [lop_length, mod_length]
    omega
  obtain ⟨shift, others⟩ := shl_run two (List.nodup_reverse.mpr f.shift) x
  generalize x₁_def : x.run (shl (lopRegs n ++ regMod n quot).reverse) = x₁ at shift others
  rw [List.reverse_reverse, Regs.long_append, Regs.long_append, lop_length, List.length_reverse,
    List.length_append, lop_length, mod_length] at shift
  simp only [List.mem_reverse] at others
  -- the quotient makes room
  obtain ⟨twice, others₂⟩ : let x₂ := x₁.run (if quot then shl (dopRegs n).reverse else [])
      x₂.long (quotRegs n quot) = 2 * x₁.long (quotRegs n quot) % 256 ^ (quotRegs n quot).length ∧
        ∀ r ∉ quotRegs n quot, x₂.rf r = x₁.rf r := by
    have nodup := f.dop
    cases quot with
    | true =>
      have two : 2 ≤ (dopRegs n).reverse.length := by
        rw [List.length_reverse, dopRegs, length_regsFrom]
        exact more
      have run := shl_run two (List.nodup_reverse.mpr nodup) x₁
      rw [List.reverse_reverse, List.length_reverse] at run
      exact ⟨run.1, fun r out => run.2 r (by rwa [List.mem_reverse])⟩
    | false => exact ⟨rfl, fun r _ => rfl⟩
  generalize x₂_def : x₁.run (if quot then shl (dopRegs n).reverse else []) = x₂ at twice others₂
  obtain ⟨flag, value, others₃⟩ := subtraction_run f x₂
  have run : x.run (divTurn n quot).front = x₂.run (subtraction n (places n quot)) := by
    rw [divTurn, Regs.run_append, Regs.run_append, x₁_def, x₂_def]
  intro y
  rw [← run] at flag value others₃
  change y.a.toNat = _ at flag
  change y.long _ = _ at value
  have free (r : Byte) (mem : r ∈ lopRegs n ++ regMod n quot ++ quotRegs n quot) :
      y.rf r = x₂.rf r := others₃ r fun inside => f.sub_out r inside mem
  have lop₂ : y.long (lopRegs n) = x₁.long (lopRegs n) := Regs.long_congr _ fun r mem =>
    (free r (by simp [mem])).trans (others₂ r fun inside => f.dop_out r inside (by simp [mem]))
  have mod₂ : y.long (regMod n quot) = x₁.long (regMod n quot) := Regs.long_congr _ fun r mem =>
    (free r (by simp [mem])).trans (others₂ r fun inside => f.dop_out r inside (by simp [mem]))
  have mod₃ : y.long (regMod n quot) = x₂.long (regMod n quot) := Regs.long_congr _ fun r mem =>
    free r (by simp [mem])
  have dop₂ : y.long (quotRegs n quot) = x₂.long (quotRegs n quot) := Regs.long_congr _
    fun r mem => free r (by simp [mem])
  have dop₁ : x₁.long (quotRegs n quot) = x.long (quotRegs n quot) := Regs.long_congr _
    fun r mem => others r (f.dop_out r mem)
  have all (r : Byte) (out : r ∉ lopRegs n ++ regMod n quot ++ quotRegs n quot ++
      regSubC n :: regSub n) : y.rf r = x.rf r := by
    simp only [List.mem_append, not_or] at out others
    exact (others₃ r out.2).trans ((others₂ r out.1.2).trans (others r out.1.1))
  have rop₂ : x₂.long (ropRegs n) = x.long (ropRegs n) := Regs.long_congr _ fun r mem => by
    have out := f.rop_out r (by simp [mem])
    simp only [touched, List.mem_append, not_or] at out others
    exact (others₂ r out.1.1.2).trans (others r out.1.1.1)
  rw [rop₂, ← mod₃] at flag value
  have below (rs : List Byte) (length : rs.length = n) (z : Regs) : z.long rs < 256 ^ n := by
    have := z.long_lt rs
    rwa [length] at this
  have low := below _ lop_length x₁
  have high := below _ mod_length x₁
  have positive : 0 < 256 ^ n := Nat.pow_pos (by decide)
  have whole : 2 * (x.long (lopRegs n) + 256 ^ n * x.long (regMod n quot)) =
      2 * x.long (lopRegs n) + 256 ^ n * (2 * x.long (regMod n quot)) := by ring
  rw [whole, Nat.pow_add, Nat.mod_mul, Nat.add_mul_mod_self_left,
    Nat.add_mul_div_left _ _ positive] at shift
  obtain ⟨lop₁, mod₁⟩ := (Digits.digits_inj low (Nat.mod_lt _ positive)).mp shift
  refine ⟨lop₂.trans lop₁, mod₂.trans (mod₁.trans ?_), ?_, flag, value, all⟩
  · rw [Nat.add_comm]
  · rw [dop₂, twice, dop₁]

end

/-! ## The invariant -/

/-- The division on numbers, after `k` turns. -/
def divided (n l r k : Nat) : Restoring.State :=
  Restoring.run (256 ^ n) r (skips n r) (8 * n) l k

/-- What `k` turns have made of the registers `x₀`. -/
structure Held (n : Nat) (quot : Bool) (x₀ : Regs) (k : Nat) (x : Regs) : Prop where
  lop : x.long (lopRegs n) = x₀.long (lopRegs n) * 2 ^ k % 256 ^ n
  rest : x.long (regMod n quot) =
    (divided n (x₀.long (lopRegs n)) (x₀.long (ropRegs n)) k).rest
  dop : x.long (quotRegs n quot) = (x₀.long (quotRegs n quot) * 2 ^ k +
    (divided n (x₀.long (lopRegs n)) (x₀.long (ropRegs n)) k).quot) %
      256 ^ (quotRegs n quot).length
  cp : x.rf (regCp n quot) = BitVec.ofNat 8 (8 * n - 1) - BitVec.ofNat 8 k
  others : ∀ r ∉ touched n quot, x.rf r = x₀.rf r

theorem regsFrom_succ (r n : Nat) :
    regsFrom r (n + 1) = BitVec.ofNat 8 r :: regsFrom (r + 1) n := by
  simp only [regsFrom, List.range_succ_eq_map, List.map_cons, List.map_map, Nat.add_zero]
  refine congrArg _ (List.map_congr_left fun i _ => ?_)
  simp only [Function.comp_apply]
  congr 1
  omega

theorem update_run (x : Regs) (r : Byte) (m : AluMode) :
    let y := x.run [.aRf r, .rfAlu m]
    y.rf r = CpuInit.stored m (x.rf r) x.b ∧ y.a = x.rf r ∧ ∀ q, q ≠ r → y.rf q = x.rf q :=
  ⟨Function.update_self _ _ _, rfl, fun _ other => Function.update_of_ne other _ _⟩

theorem stored_aAdd1 (a b : Byte) : CpuInit.stored .aAdd1 a b = a + 1 := CpuInit.add_eq a 1

theorem stored_aSub1 (a b : Byte) : CpuInit.stored .aSub1 a b = a - 1 := CpuInit.sub_eq a 1

theorem test_aSub1C (x : Regs) : x.test .aSub1C = decide (x.a.toNat = 0) := by
  have borrow : CpuInit.stored .aSub1C x.a x.b = if x.a.toNat < 1 then 1 else 0 :=
    CpuInit.subC_eq x.a 1
  rw [Regs.test, borrow, decide_eq_decide.mpr Nat.lt_one_iff.symm]
  split_ifs with zero
  · rw [decide_eq_true zero]
    rfl
  · rw [decide_eq_false zero]
    rfl

theorem test_aNot (x : Regs) {p : Bool} (flag : x.a.toNat = if p then 1 else 0) :
    x.test .aNot = !p := by
  have inverse : CpuInit.stored .aNot x.a x.b = ~~~x.a := CpuInit.aNot_eq x.a
  rw [Regs.test, inverse]
  cases p with
  | true =>
    obtain e : x.a = 1 := BitVec.eq_of_toNat_eq flag
    rw [e]
    rfl
  | false =>
    obtain e : x.a = 0 := BitVec.eq_of_toNat_eq flag
    rw [e]
    rfl

theorem back_run (n : Nat) (quot : Bool) (x : Regs) :
    let y := x.run (divTurn n quot).back
    y.rf (regCp n quot) = x.rf (regCp n quot) - 1 ∧
      y.test .aSub1C = decide ((x.rf (regCp n quot)).toNat = 0) ∧
      ∀ r, r ≠ regCp n quot → y.rf r = x.rf r := by
  intro y
  obtain ⟨value, a, others⟩ := update_run x (regCp n quot) .aSub1
  rw [stored_aSub1] at value
  refine ⟨value, ?_, others⟩
  rw [← a]
  exact test_aSub1C y

/-- The quotient takes a one in where it has made room. -/
theorem taken_run {n : Nat} {quot : Bool} (f : Fits n quot) (x : Regs) {v : Nat}
    (room : x.long (quotRegs n quot) = 2 * v % 256 ^ (quotRegs n quot).length) :
    let y := x.run (divTurn n quot).body
    y.long (regMod n quot) = x.long (regSub n) ∧
      y.long (quotRegs n quot) = (2 * v + 1) % 256 ^ (quotRegs n quot).length ∧
      ∀ r, r ∉ regMod n quot ++ quotRegs n quot → y.rf r = x.rf r := by
  have apart (r : Byte) (mem : r ∈ regSub n) : r ∉ regMod n quot := fun inside =>
    f.sub_out r (List.mem_cons_of_mem _ mem) (by simp [inside])
  have length : (regSub n).length = (regMod n quot).length := by
    rw [regSub, length_regsFrom, length_regMod]
  obtain ⟨value, others⟩ := copy_run length (List.nodup_append.mp f.shift).2.1 apart x
  have free := f.dop_out
  have several := f.several
  cases quot with
  | false =>
    have body : (divTurn n false).body = copy (regSub n) (regMod n false) := List.append_nil _
    have none : quotRegs n false = [] := rfl
    rw [body, none, List.append_nil]
    exact ⟨value, (Nat.mod_one _).symm, others⟩
  | true =>
    obtain ⟨m, rfl⟩ : ∃ m, n = m + 1 := ⟨n - 1, by omega⟩
    let r₀ := BitVec.ofNat 8 opFuncDop
    have regs : quotRegs (m + 1) true = r₀ :: regsFrom (opFuncDop + 1) m :=
      regsFrom_succ opFuncDop m
    have nodup := f.dop
    rw [regs] at room free nodup ⊢
    generalize regsFrom (opFuncDop + 1) m = rs at room free nodup ⊢
    intro y
    generalize z_def : x.run (copy (regSub (m + 1)) (regMod (m + 1) true)) = z at value others
    have run : y = z.run [.aRf r₀, .rfAlu .aAdd1] := by
      rw [← z_def, ← Regs.run_append]
      rfl
    obtain ⟨at_r₀, -, frame⟩ := update_run z r₀ .aAdd1
    rw [← run, stored_aAdd1] at at_r₀
    rw [← run] at frame
    have out (r : Byte) (mem : r ∈ r₀ :: rs) : r ∉ regMod (m + 1) true := fun inside =>
      free r mem (by simp [inside])
    refine ⟨?_, ?_, fun r other => ?_⟩
    · rw [← value]
      exact Regs.long_congr _ fun r mem => frame r fun e => out r₀ (by simp) (e ▸ mem)
    · have tail : y.long rs = x.long rs := Regs.long_congr _ fun r mem =>
        (frame r fun e => (List.nodup_cons.mp nodup).1 (e ▸ mem)).trans
          (others r (out r (List.mem_cons_of_mem _ mem)))
      have low := (x.rf r₀).isLt
      rw [Regs.long_cons, List.length_cons, Nat.pow_succ', Nat.mod_mul] at room ⊢
      rw [tail, at_r₀, others r₀ (out r₀ (by simp)), BitVec.toNat_add]
      have half : (2 * v + 1) / 256 = 2 * v / 256 := by omega
      rw [half]
      have one : (1 : Byte).toNat = 1 := rfl
      generalize 2 * v / 256 % 256 ^ rs.length = h at room ⊢
      omega
    · rw [List.mem_append, List.mem_cons, not_or, not_or] at other
      exact (frame r other.2.1).trans (others r other.1)

section
variable {n : Nat} {quot : Bool} (f : Fits n quot) {x₀ x : Regs} {k : Nat}
include f

/-- **A turn** of the loop is a turn of the division. -/
theorem Held.turn (h : Held n quot x₀ k x) (more : k < 8 * n) :
    Held n quot x₀ (k + 1) ((divTurn n quot).run x) ∧
      ((divTurn n quot).run x).test .aSub1C = decide (k + 1 = 8 * n) := by
  generalize l_def : x₀.long (lopRegs n) = l
  generalize r_def : x₀.long (ropRegs n) = r
  have lop := h.lop
  have rest := h.rest
  have dop := h.dop
  rw [l_def] at lop
  rw [l_def, r_def] at rest dop
  generalize s_def : divided n l r k = s at rest dop
  have next : divided n l r (k + 1) =
      Restoring.step (256 ^ n) r (skips n r) s (Digits.digit (8 * n) l k) := by
    rw [← s_def]
    rfl
  obtain ⟨y_lop, y_mod, y_dop, y_a, y_sub, y_others⟩ := front_run f x
  generalize y_def : x.run (divTurn n quot).front = y at y_lop y_mod y_dop y_a y_sub y_others
  have rop : x.long (ropRegs n) = r := by
    rw [← r_def]
    exact Regs.long_congr _ fun q mem => h.others q (f.rop_out q (by simp [mem]))
  have carry : 2 * (l * 2 ^ k % 256 ^ n) / 256 ^ n = Digits.digit (8 * n) l k := by
    rw [byte_pow]
    exact Digits.digit_carry more
  rw [rest, lop, carry] at y_mod
  rw [rop, y_mod] at y_a y_sub
  rw [Restoring.step] at next
  generalize (2 * s.rest + Digits.digit (8 * n) l k) % 256 ^ n = d at y_mod y_a y_sub next
  have test := test_aNot y y_a
  -- with the difference or with what it was taken from
  obtain ⟨z, z_def, z_mod, z_dop, z_others⟩ : ∃ z,
      (if y.test .aNot then y.run (divTurn n quot).body else y) = z ∧
        z.long (regMod n quot) = (divided n l r (k + 1)).rest ∧
        z.long (quotRegs n quot) = (x₀.long (quotRegs n quot) * 2 ^ (k + 1) +
          (divided n l r (k + 1)).quot) % 256 ^ (quotRegs n quot).length ∧
        ∀ q, q ∉ regMod n quot ++ quotRegs n quot → z.rf q = y.rf q := by
    have double (e : Nat) : 2 * (x₀.long (quotRegs n quot) * 2 ^ k + s.quot) + e =
        x₀.long (quotRegs n quot) * 2 ^ (k + 1) + (2 * s.quot + e) := by ring
    rw [test, next]
    rw [dop, Nat.mul_mod_mod] at y_dop
    cases skips n r d with
    | true =>
      refine ⟨y, rfl, y_mod, ?_, fun q _ => rfl⟩
      rw [y_dop]
      exact congrArg (· % _) (double 0)
    | false =>
      obtain ⟨mod, dop, others⟩ := taken_run f y y_dop
      refine ⟨_, rfl, mod.trans y_sub, ?_, others⟩
      exact dop.trans (congrArg (· % _) (double 1))
  obtain ⟨w_cp, w_test, w_others⟩ := back_run n quot z
  have run : (divTurn n quot).run x = z.run (divTurn n quot).back := by
    rw [Turn.run, y_def]
    exact congrArg (Regs.run · _) z_def
  rw [run]
  have cp_out := f.cp_out
  simp only [List.mem_append, not_or] at cp_out y_others z_others
  have z_cp : z.rf (regCp n quot) = BitVec.ofNat 8 (8 * n - 1) - BitVec.ofNat 8 k := by
    rw [z_others _ ⟨cp_out.1.1.2, cp_out.1.2⟩, y_others _ cp_out, h.cp]
  have kept (rs : List Byte) (out : regCp n quot ∉ rs) :
      (z.run (divTurn n quot).back).long rs = z.long rs :=
    Regs.long_congr _ fun q mem => w_others q fun e => out (e ▸ mem)
  have small := f.small
  refine ⟨⟨?_, ?_, ?_, ?_, fun q out => ?_⟩, ?_⟩
  · have apart := (List.nodup_append.mp f.shift).2.2
    have same : z.long (lopRegs n) = y.long (lopRegs n) := Regs.long_congr _ fun q mem =>
      z_others q ⟨fun inside => apart q mem q inside rfl,
        fun inside => f.dop_out q inside (by simp [mem])⟩
    rw [kept _ cp_out.1.1.1, same, y_lop, lop, l_def, Nat.mul_mod_mod, Nat.pow_succ]
    congr 1
    ring
  · rw [kept _ cp_out.1.1.2, z_mod, l_def, r_def]
  · rw [kept _ cp_out.1.2, z_dop, l_def, r_def]
  · rw [w_cp, z_cp]
    have one : (1 : Byte).toNat = 1 := rfl
    refine BitVec.eq_of_toNat_eq ?_
    simp only [BitVec.toNat_sub, BitVec.toNat_ofNat, one]
    omega
  · have free := h.others q out
    simp only [touched, List.mem_append, List.mem_singleton, not_or] at out
    rw [w_others q out.2, z_others q ⟨out.1.1.1.2, out.1.1.2⟩, y_others q out.1, free]
  · rw [w_test, z_cp, decide_eq_decide]
    simp only [BitVec.toNat_sub, BitVec.toNat_ofNat]
    omega

/-- **The loop** so far. -/
theorem Held.turns (h : Held n quot x₀ 0 x) (upTo : k ≤ 8 * n) :
    Held n quot x₀ k ((divTurn n quot).run^[k] x) := by
  induction k with
  | zero => exact h
  | succ k ih =>
    rw [Function.iterate_succ_apply']
    exact ((ih (Nat.le_of_succ_le upTo)).turn f upTo).1

end

/-! ## Before and after the loop -/

theorem zero_run (rs : List Byte) (x : Regs) :
    (∀ r ∈ rs, (x.run (rs.map (.rfImm · 0))).rf r = 0) ∧
      ∀ r ∉ rs, (x.run (rs.map (.rfImm · 0))).rf r = x.rf r := by
  induction rs generalizing x with
  | nil => exact ⟨fun r mem => (List.not_mem_nil mem).elim, fun r _ => rfl⟩
  | cons q rs ih =>
    obtain ⟨zeros, others⟩ := ih (x.op (.rfImm q 0))
    have frame (r : Byte) (other : r ≠ q) : (x.op (.rfImm q 0)).rf r = x.rf r :=
      Function.update_of_ne other _ _
    have at_q : (x.op (.rfImm q 0)).rf q = 0 := Function.update_self _ _ _
    refine ⟨fun r mem => ?_, fun r out => ?_⟩
    · by_cases later : r ∈ rs
      · exact zeros r later
      · obtain rfl : r = q := (List.mem_cons.mp mem).resolve_right later
        exact (others r later).trans at_q
    · rw [List.mem_cons, not_or] at out
      exact (others r out.2).trans (frame r out.1)

theorem Regs.long_zero {x : Regs} {rs : List Byte} (zeros : ∀ r ∈ rs, x.rf r = 0) :
    x.long rs = 0 := by
  induction rs with
  | nil => rfl
  | cons r rs ih =>
    rw [List.forall_mem_cons] at zeros
    rw [long_cons, ih zeros.2, zeros.1]
    rfl

section
variable {n : Nat} {quot : Bool} (f : Fits n quot)
include f

/-- The loop begins with the rest empty. -/
theorem clearing_run (x : Regs) : Held n quot x 0 (x.run (clearing n quot)) := by
  obtain ⟨zeros, others⟩ := zero_run (regMod n quot).reverse x
  simp only [List.mem_reverse] at zeros others
  have run : x.run (clearing n quot) = (x.run ((regMod n quot).reverse.map (.rfImm · 0))).op
      (.rfImm (regCp n quot) (BitVec.ofNat 8 (8 * n - 1))) := Regs.run_append x _ _
  rw [run]
  generalize x.run ((regMod n quot).reverse.map (.rfImm · 0)) = y at zeros others
  have frame (r : Byte) (other : r ≠ regCp n quot) :
      (y.op (.rfImm (regCp n quot) (BitVec.ofNat 8 (8 * n - 1)))).rf r = y.rf r :=
    Function.update_of_ne other _ _
  have at_cp : (y.op (.rfImm (regCp n quot) (BitVec.ofNat 8 (8 * n - 1)))).rf (regCp n quot) =
      BitVec.ofNat 8 (8 * n - 1) := Function.update_self _ _ _
  generalize y.op (.rfImm (regCp n quot) (BitVec.ofNat 8 (8 * n - 1))) = z at frame at_cp
  have cp_out := f.cp_out
  simp only [List.mem_append, not_or] at cp_out
  have apart := (List.nodup_append.mp f.shift).2.2
  have kept (rs : List Byte) (cp : regCp n quot ∉ rs) (mod : ∀ r ∈ rs, r ∉ regMod n quot) :
      z.long rs = x.long rs := Regs.long_congr _ fun r mem =>
    (frame r fun e => cp (e ▸ mem)).trans (others r (mod r mem))
  have lop := x.long_lt (lopRegs n)
  rw [show (lopRegs n).length = n from length_regsFrom _ n] at lop
  refine ⟨?_, ?_, ?_, ?_, fun r out => ?_⟩
  · rw [kept _ cp_out.1.1.1 fun r mem inside => apart r mem r inside rfl, Nat.pow_zero,
      Nat.mul_one, Nat.mod_eq_of_lt lop]
  · exact Regs.long_zero fun r mem => (frame r fun e => cp_out.1.1.2 (e ▸ mem)).trans (zeros r mem)
  · have zero (l r : Nat) : (divided n l r 0).quot = 0 := rfl
    rw [kept _ cp_out.1.2 fun r mem inside => f.dop_out r mem (by simp [inside]), zero,
      Nat.pow_zero, Nat.mul_one, Nat.add_zero, Nat.mod_eq_of_lt (x.long_lt _)]
  · rw [at_cp]
    exact (BitVec.sub_zero _).symm
  · simp only [touched, List.mem_append, List.mem_singleton, not_or] at out
    rw [frame r out.2, others r out.1.1.1.2]

end

theorem act_addrRf (alu : Alu) (s : Sim) (k : AddrReg) (r : Byte) :
    s.act alu (.addrRfO k r) = { s.setAddr (s.rf r) k with ra := r, pc := s.pc + 2 + 2 } := by
  change (s.execBy alu (Prim.word ⟨.ra, .imm, r⟩)).execBy alu (Prim.word ⟨.addr k, .rf, 0xFF⟩) = _
  rw [Sim.exec_prim, Sim.exec_prim]
  cases k <;> rfl

/-- The return address goes into `A2A1A0`, and nothing else but RA moves. -/
theorem returning_run (alu : Alu) (s : Sim) :
    let t := s.acts alu returning
    t.rf = s.rf ∧ s.Leaves t ∧ t.a2a1a0.toNat = s.regs.long retRegs := by
  have acts : s.acts alu returning =
      ((s.act alu (.addrRfO .a2 (BitVec.ofNat 8 (opFuncRet + 2)))).act alu
        (.addrRfO .a1 (BitVec.ofNat 8 (opFuncRet + 1)))).act alu
        (.addrRfO .a0 (BitVec.ofNat 8 opFuncRet)) := rfl
  simp only [acts, act_addrRf, Sim.setAddr]
  refine ⟨trivial, ⟨rfl, rfl, rfl, rfl, rfl⟩, ?_⟩
  have regs : retRegs = [BitVec.ofNat 8 opFuncRet, BitVec.ofNat 8 (opFuncRet + 1),
      BitVec.ofNat 8 (opFuncRet + 2)] := rfl
  rw [regs]
  simp only [Regs.long_cons, Regs.long_nil, Sim.a2a1a0, Sim.regs, toNat_append]
  omega

/-! ## The numbers -/

/-- Where the test never errs: always for two bytes, and for more if the divisor has no top
byte or the dividend is below its other bytes. -/
def Exact (n l r : Nat) : Prop := n = 2 ∨ r < 256 ^ (n - 1) ∨ l < r % 256 ^ (n - 1)

instance (n l r : Nat) : Decidable (Exact n l r) := inferInstanceAs (Decidable (_ ∨ _))

theorem Turn.items_nil (u : Turn) (post : List Item) : u.items post = u.items [] ++ post := by
  simp [items]

theorem Held.same {n : Nat} {quot : Bool} {x₀ x y : Regs} {k : Nat} (h : Held n quot x₀ k x)
    (rf : y.rf = x.rf) : Held n quot x₀ k y := by
  have long (rs : List Byte) : y.long rs = x.long rs :=
    Regs.long_congr _ fun r _ => congrFun rf r
  exact ⟨(long _).trans h.lop, (long _).trans h.rest, (long _).trans h.dop,
    (congrFun rf _).trans h.cp, fun r out => (congrFun rf r).trans (h.others r out)⟩

theorem skips_zero (n r : Nat) : skips n 0 r = false := by
  rw [skips]
  split_ifs
  · exact decide_eq_false (Nat.not_lt_zero r)
  · rw [Restoring.skipLow, Nat.zero_mod]
    exact decide_eq_false fun both => Nat.not_lt_zero _ both.2

section
variable {n l r : Nat} (several : 2 ≤ n) (hl : l < 256 ^ n)
include hl

theorem divided_zero : divided n l 0 (8 * n) = ⟨l, 256 ^ n - 1⟩ := by
  have never : ∀ r, skips n 0 r = false := skips_zero n
  rw [byte_pow] at hl
  rw [divided, byte_pow, Restoring.run_zero hl never (Nat.le_refl _), Digits.top_self]

include several

/-- **Where the quotient is right.** Dividing by zero gives ones. -/
theorem divided_quot (hr : r < 256 ^ n) :
    (divided n l r (8 * n)).quot = (if r = 0 then 256 ^ n - 1 else l / r) ↔ Exact n l r := by
  obtain rfl | positive := Nat.eq_zero_or_pos r
  · have small : 0 < 256 ^ (n - 1) := Nat.pow_pos (by decide)
    rw [divided_zero hl, if_pos rfl]
    exact iff_of_true rfl (.inr (.inl small))
  · rw [if_neg (Nat.ne_of_gt positive)]
    rw [byte_pow] at hl hr
    rw [divided, byte_pow]
    obtain rfl | more := eq_or_ne n 2
    · rw [Restoring.run_right hl positive (Nat.le_of_lt hr) (Nat.le_refl _) fun j _ => by
        rw [skips_two, decide_eq_true_eq], Digits.top_self]
      exact iff_of_true rfl (.inl rfl)
    · have test : skips n r = Restoring.skipLow (256 ^ (n - 1)) r := funext (skips_more more r)
      have two : 1 < 256 ^ (n - 1) := Nat.one_lt_pow (by omega) (by decide)
      rw [test, Exact, or_iff_right more]
      exact Restoring.quot_iff_low two (by omega) hl positive (Nat.le_of_lt hr)

theorem divided_rest (hr : r < 256 ^ n) (exact : Exact n l r) :
    (divided n l r (8 * n)).rest = l % r := by
  obtain rfl | positive := Nat.eq_zero_or_pos r
  · rw [divided_zero hl, Nat.mod_zero]
  · rw [byte_pow] at hl hr
    rw [divided, byte_pow]
    obtain rfl | more := eq_or_ne n 2
    · rw [Restoring.run_right hl positive (Nat.le_of_lt hr) (Nat.le_refl _) fun j _ => by
        rw [skips_two, decide_eq_true_eq], Digits.top_self]
    · have test : skips n r = Restoring.skipLow (256 ^ (n - 1)) r := funext (skips_more more r)
      have two : 1 < 256 ^ (n - 1) := Nat.one_lt_pow (by omega) (by decide)
      rw [Exact, or_iff_right more] at exact
      rw [test, Restoring.run_low two (by omega) hl positive (Nat.le_of_lt hr) exact]

end

/-! ## The routines on the machine -/

section
variable {n : Nat} (size : n = 2 ∨ n = 4 ∨ n = 8) (quot : Bool) {alu : Alu} (table : Tabled alu)
include size table

/-- From the first item behind the last one. -/
theorem routine_run (s : Sim) : ∃ t,
    Arrives alu (unsignedFunc n quot) ⟨0, s⟩ ⟨(unsignedFunc n quot).length, t⟩ ∧
      Held n quot s.regs (8 * n) t.regs ∧ s.Leaves t ∧
      t.a2a1a0.toNat = s.regs.long retRegs := by
  have f := fits size quot
  have small := f.small
  have several := f.several
  let pre := code (clearing n quot)
  let post : List Item := returning.map .asgn
  have split₀ : unsignedFunc n quot = [] ++ (pre ++ (divTurn n quot).items post) := rfl
  have split : unsignedFunc n quot = pre ++ (divTurn n quot).items post := rfl
  have fresh : Item.label 1 ∉ pre ∧ Item.label 2 ∉ pre := ⟨label_code _ _, label_code _ _⟩
  obtain ⟨y, clear, y_regs, y_leaves⟩ := arrives_code table split₀ s
  have label : Arrives alu (unsignedFunc n quot) ⟨pre.length, y⟩
      ⟨(pre ++ [Item.label 1]).length, y⟩ := arrives_label split y
  have start : Held n quot s.regs 0 y.regs := y_regs ▸ clearing_run f s.regs
  obtain ⟨m, count⟩ : ∃ m, 8 * n = m + 1 := ⟨8 * n - 1, by omega⟩
  have test (k : Nat) (more : k < 8 * n) :
      ((divTurn n quot).run^[k + 1] y.regs).test (divTurn n quot).again =
        decide (k + 1 = 8 * n) := by
    rw [Function.iterate_succ_apply']
    exact ((start.turns f (Nat.le_of_lt more)).turn f more).2
  obtain ⟨z, loop, z_regs, z_leaves⟩ := Turn.arrives_loop table split fresh
    (fun k lt => (test k (by omega)).trans (decide_eq_false (by omega)))
    ((test m (by omega)).trans (decide_eq_true count.symm)) rfl
  have held : Held n quot s.regs (8 * n) z.regs := by
    rw [z_regs, ← count]
    exact start.turns f (Nat.le_refl _)
  -- and back
  have back : unsignedFunc n quot =
      (pre ++ (divTurn n quot).items []) ++ (returning.map Item.asgn ++ []) := by
    rw [split, Turn.items_nil, List.append_nil, List.append_assoc]
  have exit : (unsignedFunc n quot).length - post.length =
      (pre ++ (divTurn n quot).items []).length := by
    rw [back, List.append_nil, List.length_append]
    exact Nat.add_sub_cancel _ _
  have returns : Arrives alu (unsignedFunc n quot) ⟨(pre ++ (divTurn n quot).items []).length, z⟩
      ⟨((pre ++ (divTurn n quot).items []) ++ returning.map Item.asgn).length,
        z.acts alu returning⟩ := arrives_acts back z
  rw [exit] at loop
  rw [← List.append_nil (_ ++ returning.map Item.asgn), List.append_assoc, ← back] at returns
  obtain ⟨rf, leaves, address⟩ := returning_run alu z
  have ret : z.regs.long retRegs = s.regs.long retRegs := Regs.long_congr _ fun q mem =>
    held.others q (f.rop_out q (by simp [mem]))
  exact ⟨_, ((clear.trans label).trans loop).trans returns, held.same rf,
    ((y_leaves.trans z_leaves).trans leaves), address.trans ret⟩

end

theorem facts_returned {n : Nat} {quot : Bool} (g : Gen) (k : AddrReg) :
    (facts g (unsignedFunc n quot) (unsignedFunc n quot).length).addr k = true := by
  have split : unsignedFunc n quot =
      (code (clearing n quot) ++ (divTurn n quot).items []) ++ returning.map Item.asgn := by
    rw [unsignedFunc, Turn.items_nil, List.append_assoc]
  rw [facts, List.take_length, split, Facts.over, List.foldl_append]
  generalize List.foldl _ (entry g) _ = f
  cases k <;> simp [returning, Item.after, Asgn.after]

/-- **Division.** With an ALU that reads the table, a routine returns from wherever it is
called, with nothing changed but its own registers. The quotient is right exactly if the
dividend and the divisor are `Exact`, and then the rest is right too. -/
theorem division_law (alu : Alu) (table : Tabled alu) (n : Nat) (size : n = 2 ∨ n = 4 ∨ n = 8)
    (quot optimize : Bool) (g : Gen) (rom : BitVec 20 → Byte)
    (c : Compiled optimize g (unsignedFunc n quot) rom)
    (last : Sim.CodeAt rom (BitVec.ofNat 32
      (2 * (compile optimize g (unsignedFunc n quot)).gen.rom.length)) [pcAsgnA2A1A0])
    (s : Sim) (start : s.pc = BitVec.ofNat 32 (2 * g.rom.length)) : ∃ N,
    let t := s.runBy alu rom N
    let l := s.regs.long (lopRegs n)
    let r := s.regs.long (ropRegs n)
    t.pc = BitVec.ofNat 32 (2 * s.regs.long retRegs) ∧
      (∀ x ∉ touched n quot, t.rf x = s.rf x) ∧ s.Leaves t ∧
      (quot = true → (t.regs.long (dopRegs n) = (if r = 0 then 256 ^ n - 1 else l / r) ↔
        Exact n l r)) ∧
      (quot = false → Exact n l r → t.regs.long (dopRegs n) = l % r) := by
  have f := fits size quot
  obtain ⟨t, ⟨m, arrive⟩, held, leaves, address⟩ := routine_run size quot table s
  have stands := c.run alu start m
  rw [arrive] at stands
  generalize cycles alu optimize g (unsignedFunc n quot) ⟨0, s⟩ m = N at stands
  obtain ⟨pc, -, same⟩ := stands
  generalize at_end : s.runBy alu rom N = u at pc same
  simp only [before, List.take_length] at pc
  rw [← pc] at last
  -- the jump through `A2A1A0`
  have jump : s.runBy alu rom (N + 1) = { u with pc := u.jumpTarget } := by
    have fetched : u.fetched rom = pcAsgnA2A1A0 := last.1
    rw [Sim.runBy_succ, at_end, Sim.stepBy, fetched]
    exact u.execBy_jump alu 0xFE
  have core : u.core = t.core := same.core
  obtain ⟨rf, ram, -, -, io0, io1, -⟩ := core_eq core
  have io0Oe : u.core.io0Oe = t.core.io0Oe := congrArg Sim.io0Oe core
  have io1Oe : u.core.io1Oe = t.core.io1Oe := congrArg Sim.io1Oe core
  have away : u.a2a1a0 = t.a2a1a0 := by
    have register (k : AddrReg) : u.addr k = t.addr k := same.addr k (facts_returned g k)
    have a0 : u.a0 = t.a0 := register .a0
    have a1 : u.a1 = t.a1 := register .a1
    have a2 : u.a2 = t.a2 := register .a2
    rw [Sim.a2a1a0, Sim.a2a1a0, a0, a1, a2]
  have done := held.same (y := { u with pc := u.jumpTarget }.regs) rf
  have length (rs : List Byte) (length : rs.length = n) : s.regs.long rs < 256 ^ n := by
    have lt := s.regs.long_lt rs
    rwa [length] at lt
  have hl := length (lopRegs n) (length_regsFrom _ n)
  have hr := length (ropRegs n) (length_regsFrom _ n)
  refine ⟨N + 1, ?_⟩
  rw [jump]
  refine ⟨?_, done.others, ?_, ?_, ?_⟩
  · refine BitVec.eq_of_toNat_eq ?_
    have wide := u.a2a1a0.isLt
    rw [away] at wide
    change u.jumpTarget.toNat = _
    rw [Sim.jumpTarget, away, BitVec.toNat_mul, BitVec.toNat_setWidth, BitVec.toNat_ofNat,
      ← address]
    have two : (2 : BitVec 32).toNat = 2 := rfl
    rw [two]
    omega
  · exact ⟨ram.trans leaves.ram, io0.trans leaves.io0, io1.trans leaves.io1,
      io0Oe.trans leaves.io0Oe, io1Oe.trans leaves.io1Oe⟩
  · rintro rfl
    have dop := done.dop
    have lengths : (quotRegs n true).length = n := length_regsFrom _ n
    have fits : (divided n (s.regs.long (lopRegs n)) (s.regs.long (ropRegs n)) (8 * n)).quot <
        256 ^ n := by
      rw [byte_pow]
      exact Restoring.run_quot_lt _
    rw [lengths, byte_pow, Nat.mul_add_mod_self_right, ← byte_pow, Nat.mod_eq_of_lt fits] at dop
    have value := divided_quot f.several hl hr
    rw [← dop] at value
    exact value
  · rintro rfl exact
    have rest := done.rest
    rw [divided_rest f.several hl hr exact] at rest
    exact rest

def modeOf (x : Byte) : AluMode :=
  ([.add, .sub, .addC, .subC, .equalC, .and, .or, .aNot, .xor, .aBhLsh, .bAlRsh, .aAhRsh, .a0Rsh,
    .a0Lsh, .b0Lsh, .mulL, .mulH, .div, .mod, .aAdd1, .aSub1, .aAdd1C, .aSub1C, .outA].find?
      fun m => m.code == x).getD .outB

/-- A memory chip filled with the table. -/
def tableAlu : Alu := fun _ a b m => (CpuInit.stored (modeOf m) a b).setWidth 16

theorem tableAlu_tabled : Tabled tableAlu := by
  intro latch a b m
  have mode : modeOf m.code = m := by cases m <;> rfl
  rw [tableAlu, mode]
  exact widened _

/-- The routine for four bytes, and nothing before it. -/
def divRom : BitVec 20 → Byte :=
  romImage ((compile true noCode unsignedDiv32Func).linked ++ [pcAsgnA2A1A0])

/-- Five is to be divided by the third power of 256. -/
def fiveByTop : Sim :=
  { Sim.init with rf := fun r => if r = 10 then 5 else if r = 21 then 1 else 0 }

/-- The result is not 0. -/
theorem division_law_top : ∃ N, (fiveByTop.runBy tableAlu divRom N).regs.long (dopRegs 4) ≠
    5 / 256 ^ 3 := by
  have compiled : Compiled true noCode (unsignedFunc 4 true) divRom :=
    ⟨rfl, by decide +kernel, by decide +kernel, by decide +kernel⟩
  obtain ⟨N, -, -, -, right, -⟩ := division_law tableAlu tableAlu_tabled 4 (.inr (.inl rfl)) true
    true noCode divRom compiled (by decide +kernel) fiveByTop rfl
  have five : fiveByTop.regs.long (lopRegs 4) = 5 := rfl
  have top : fiveByTop.regs.long (ropRegs 4) = 256 ^ 3 := rfl
  have inexact : ¬ Exact 4 5 (256 ^ 3) := by decide
  rw [five, top, if_neg (by decide)] at right
  exact ⟨N, fun same => inexact ((right rfl).mp same)⟩

end Chiptune.Glowworm
