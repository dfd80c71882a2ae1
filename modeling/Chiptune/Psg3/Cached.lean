import Chiptune.Psg3.Song

/-!
# The caching drivers of PSG3 v0.5

The class `Psg` of `host/psg3_rev_e2_test.py` and of `host/psg3_rev_e3_test.py`. Period
and volume share register 4, mode, trigger and slot register 5, and each setter writes
only when its own value has changed. `cached_law` says that the registers hold the
driver's values nevertheless, whatever is called in whatever order.
-/

namespace Chiptune.Psg3

/-! ## Arguments -/

/-- A Python value as far as the drivers look at it: a number or bool, `None`, or an
object with its truth and what `int` makes of it. -/
inductive Arg where
  | none
  | num (q : ℚ)
  | inf (neg : Bool)
  | nan
  | obj (truth : Bool) (int : Option Int) (name : Nat)
  deriving DecidableEq

namespace Arg

/-- `int(x)`, unless it raises. -/
def int : Arg → Option Int
  | num q => some (pyInt q)
  | obj _ int _ => int
  | _ => .none

/-- `if x`. -/
def truth : Arg → Bool
  | none => false
  | num q => q ≠ 0
  | inf _ => true
  | nan => true
  | obj truth _ _ => truth

/-- `x == y`. -/
def eq (x y : Arg) : Bool := x = y && x != nan

end Arg

/-! ## The drivers -/

/-- What a call does on the bus. -/
inductive Op where
  | write (addr data : Byte)
  | reset

/-- `RST` falls and rises, with the other pins idle. -/
def Op.cmds : Op → List Cmd
  | write addr data => busWrite addr data
  | reset => [⟨.d, idle &&& ~~~mRst⟩, ⟨.d, idle &&& ~~~mRst ||| mRst⟩]

/-- `_cur_period12` and `_cur_vol`. -/
structure Level where
  period12 : Option Int
  vol : Option Int

namespace Level
variable (l : Level)

/-- `(((p >> 8) & 0x0F) << 4) | (v & 0x0F)`. -/
def reg4 (p v : Int) : Byte := (low (p >>> (8 : Nat)) &&& 0x0F) <<< 4 ||| low v &&& 0x0F

/-- `set_period`, once its argument is clamped. -/
def setPeriod (p : Int) : Level × List Op :=
  if some p = l.period12 then (l, [])
  else ({ l with period12 := some p }, [.write 0x08 (low p), .write 0x10 (reg4 p (l.vol.getD 0))])

/-- `set_vol`, once its argument is clamped. -/
def setVol (v : Int) : Level × List Op :=
  if some v = l.vol then (l, [])
  else ({ l with vol := some v }, [.write 0x10 (reg4 (l.period12.getD 0) v)])

end Level

def mMode : Byte := 0x80
def mTrig : Byte := 0x40
def mSel : Byte := 0x0F

inductive Setter where
  | setPeriod (p : Arg)
  | setVol (v : Arg)
  | setSel (s : Arg)
  | setMode (m : Arg)
  | trigger
  | initAll (p v m s : Arg)
  | reset

structure RevE2 where
  level : Level
  mode : Arg
  sel : Option Int

namespace RevE2
variable (r : RevE2)

def init : RevE2 := ⟨⟨none, none⟩, .none, none⟩

def reg5 (mode : Arg) (sel : Int) (trig : Bool) : Op :=
  .write 0x20 ((if mode.truth then mMode else 0) ||| (if trig then mTrig else 0) ||| low sel &&& mSel)

/-- `_cur_mode`, or 0. -/
def curMode : Arg := if r.mode = .none then .num 0 else r.mode

def setSel (s : Int) : RevE2 × List Op :=
  if some s = r.sel ∧ r.mode ≠ .none then (r, [])
  else ({ r with sel := some s }, [reg5 r.curMode s false])

def setMode (m : Arg) : RevE2 × List Op :=
  if m.eq r.mode then (r, []) else ({ r with mode := m }, [reg5 m (r.sel.getD 0) false])

def trigger : List Op := [reg5 r.curMode (r.sel.getD 0) true, reg5 r.curMode (r.sel.getD 0) false]

def initAll (p v : Int) (m : Bool) (s : Int) : RevE2 × List Op :=
  let mode : Arg := .num (if m then 1 else 0)
  (⟨⟨some p, some v⟩, mode, some s⟩,
    [.write 0x08 (low p), .write 0x10 (Level.reg4 p v), reg5 mode s false])

/-- A call. One whose argument `int` does not take raises before it changes anything. -/
def step (call : Setter) : RevE2 × List Op :=
  match call with
  | .setPeriod p =>
    match p.int with
    | some p =>
      let (level, ops) := r.level.setPeriod (clamp 0 4095 p)
      ({ r with level }, ops)
    | none => (r, [])
  | .setVol v =>
    match v.int with
    | some v =>
      let (level, ops) := r.level.setVol (clamp 0 15 v)
      ({ r with level }, ops)
    | none => (r, [])
  | .setSel s =>
    match s.int with
    | some s => r.setSel (clamp 0 15 s)
    | none => (r, [])
  | .setMode m => r.setMode m
  | .trigger => (r, r.trigger)
  | .initAll p v m s =>
    match p.int, v.int, s.int with
    | some p, some v, some s => initAll (clamp 0 4095 p) (clamp 0 15 v) m.truth (clamp 0 15 s)
    | _, _, _ => (r, [])
  | .reset => (r, [.reset])

end RevE2

/-- It has neither mode nor trigger. -/
inductive SetterE3 where
  | setPeriod (p : Arg)
  | setVol (v : Arg)
  | setSel (s : Arg)
  | initAll (p v s : Arg)
  | reset

structure RevE3 where
  level : Level
  sel : Option Int

namespace RevE3
variable (r : RevE3)

def init : RevE3 := ⟨⟨none, none⟩, none⟩

def reg5 (sel : Int) : Op := .write 0x20 (low sel &&& 0x0F)

def setSel (s : Int) : RevE3 × List Op :=
  if some s = r.sel then (r, []) else ({ r with sel := some s }, [reg5 s])

def initAll (p v s : Int) : RevE3 × List Op :=
  (⟨⟨some p, some v⟩, some s⟩, [.write 0x08 (low p), .write 0x10 (Level.reg4 p v), reg5 s])

def step (call : SetterE3) : RevE3 × List Op :=
  match call with
  | .setPeriod p =>
    match p.int with
    | some p =>
      let (level, ops) := r.level.setPeriod (clamp 0 4095 p)
      ({ r with level }, ops)
    | none => (r, [])
  | .setVol v =>
    match v.int with
    | some v =>
      let (level, ops) := r.level.setVol (clamp 0 15 v)
      ({ r with level }, ops)
    | none => (r, [])
  | .setSel s =>
    match s.int with
    | some s => r.setSel (clamp 0 15 s)
    | none => (r, [])
  | .initAll p v s =>
    match p.int, v.int, s.int with
    | some p, some v, some s => initAll (clamp 0 4095 p) (clamp 0 15 v) (clamp 0 15 s)
    | _, _, _ => (r, [])
  | .reset => (r, [.reset])

end RevE3

/-! ## What the registers should hold -/

/-- `period12[7:0]`. -/
def Level.lowByte (l : Level) : Byte := (BitVec.ofInt 12 (l.period12.getD 0)).extractLsb' 0 8

/-- `period12[11:8]` and the volume. -/
def Level.highByte (l : Level) : Byte :=
  (BitVec.ofInt 12 (l.period12.getD 0)).extractLsb' 8 4 ++ BitVec.ofInt 4 (l.vol.getD 0)

def Level.encoding (l : Level) (n : Fin 8) : Byte :=
  if n.val = 3 then l.lowByte else if n.val = 4 then l.highByte else 0

/-- A value never set counts as 0. -/
def RevE2.encoding (r : RevE2) (n : Fin 8) : Byte :=
  if n.val = 5 then BitVec.ofBool r.mode.truth ++ 0#3 ++ BitVec.ofInt 4 (r.sel.getD 0)
  else r.level.encoding n

def RevE3.encoding (r : RevE3) (n : Fin 8) : Byte :=
  if n.val = 5 then 0#4 ++ BitVec.ofInt 4 (r.sel.getD 0) else r.level.encoding n

/-- The operation clocks register `n`. -/
def Op.hits (n : Fin 8) : Op → Bool
  | write addr _ => addr.getLsbD n
  | reset => false

def Op.lands (regs : Fin 8 → Byte) : Op → Fin 8 → Byte
  | write addr data, n => if addr.getLsbD n then data else regs n
  | reset, n => regs n

def landed (regs : Fin 8 → Byte) (ops : List Op) : Fin 8 → Byte := ops.foldl Op.lands regs

section
variable {D C : Type} (step : D → C → D × List Op)

/-- The driver after the calls, and what they do on the bus. -/
def callAll (d : D) : List C → D × List Op
  | [] => (d, [])
  | c :: rest =>
    let (d', ops) := step d c
    let (last, more) := callAll d' rest
    (last, ops ++ more)

end

/-! ## Operations on the bus -/

theorem op_law {op : Op} {b t : Bus} (ready : b.d = idle) (run : Bus.Runs op.cmds b t) :
    t.d = idle ∧ t.regs = op.lands b.regs := by
  cases op with
  | write addr data => exact Bus.write_law ready run
  | reset =>
    obtain ⟨o1, e1, run⟩ := run.first
    obtain ⟨o2, e2, run⟩ := run.first
    have high : Bus.csN b.d = true := by rw [ready]; decide
    have first := (Bus.exec_cs_high o1 (v := idle &&& ~~~mRst) high (by decide)).2
    have pins := (Bus.exec_d_pins (b := b) (v := idle &&& ~~~mRst) e1).1
    have low : Bus.csN (b.exec ⟨.d, idle &&& ~~~mRst⟩ o1).d = true := by rw [pins]; decide
    have second := (Bus.exec_cs_high o2 (v := idle &&& ~~~mRst ||| mRst) low (by decide)).2
    rw [run.last, second, first, (Bus.exec_d_pins e2).1]
    exact ⟨by decide, rfl⟩

theorem ops_law {ops : List Op} {b t : Bus} (ready : b.d = idle)
    (run : Bus.Runs (ops.flatMap Op.cmds) b t) : t.d = idle ∧ t.regs = landed b.regs ops := by
  induction ops generalizing b with
  | nil =>
    rw [run.last]
    exact ⟨ready, rfl⟩
  | cons op rest ih =>
    rw [List.flatMap_cons] at run
    obtain ⟨s, front, back⟩ := run.append
    obtain ⟨pins, regs⟩ := op_law ready front
    obtain ⟨rests, same⟩ := ih pins back
    rw [regs] at same
    exact ⟨rests, same⟩

/-! ## A driver that keeps its registers -/

/-- A call that touches a register leaves the encoding of the driver's values in it, and
one that does not leaves the encoding alone. -/
structure Keeps {D : Type} (enc : D → Fin 8 → Byte) (d : D) (n : Fin 8) (next : D × List Op) :
    Prop where
  told : next.2.any (Op.hits n) = true → ∀ regs, landed regs next.2 n = enc next.1 n
  still : next.2.any (Op.hits n) = false → enc next.1 n = enc d n

theorem landed_still {ops : List Op} {n : Fin 8} (none : ops.any (Op.hits n) = false)
    (regs : Fin 8 → Byte) : landed regs ops n = regs n := by
  induction ops generalizing regs with
  | nil => rfl
  | cons op rest ih =>
    rw [List.any_cons, Bool.or_eq_false_iff] at none
    refine (ih none.2 (op.lands regs)).trans ?_
    cases op with
    | write addr data =>
      have off : addr.getLsbD n = false := none.1
      rw [Op.lands, off]
      rfl
    | reset => rfl

section
variable {D C : Type} {step : D → C → D × List Op} {enc : D → Fin 8 → Byte} {n : Fin 8}

theorem callAll_keeps (keeps : ∀ d c, Keeps enc d n (step d c)) (d : D) (calls : List C) :
    Keeps enc d n (callAll step d calls) := by
  induction calls generalizing d with
  | nil => exact ⟨fun none => absurd none Bool.false_ne_true, fun _ => rfl⟩
  | cons c rest ih =>
    have first := keeps d c
    have later := ih (step d c).1
    constructor
    · intro hit regs
      change landed regs ((step d c).2 ++ (callAll step (step d c).1 rest).2) n = _
      rw [landed, List.foldl_append]
      cases more : (callAll step (step d c).1 rest).2.any (Op.hits n) with
      | true => exact later.told more _
      | false =>
        refine (landed_still more _).trans ((first.told ?_ regs).trans (later.still more).symm)
        change ((step d c).2 ++ (callAll step (step d c).1 rest).2).any (Op.hits n) = true at hit
        rw [List.any_append, more, Bool.or_false] at hit
        exact hit
    · intro none
      change ((step d c).2 ++ (callAll step (step d c).1 rest).2).any (Op.hits n) = false at none
      rw [List.any_append, Bool.or_eq_false_iff] at none
      exact (later.still none.2).trans (first.still none.1)

/-- What the registers hold after the calls, sent with the pins switching in any order. -/
theorem callAll_law (keeps : ∀ d c, Keeps enc d n (step d c)) {d : D} {calls : List C} {b t : Bus}
    (ready : b.d = idle) (run : Bus.Runs ((callAll step d calls).2.flatMap Op.cmds) b t) :
    t.regs n = if (callAll step d calls).2.any (Op.hits n) then enc (callAll step d calls).1 n
      else b.regs n := by
  have kept := callAll_keeps keeps d calls
  rw [(ops_law ready run).2]
  cases hit : (callAll step d calls).2.any (Op.hits n) with
  | true => exact kept.told hit b.regs
  | false => exact landed_still hit b.regs

end

/-! ## Bytes -/

theorem low_eq (p : Int) : low p = (BitVec.ofInt 12 p).extractLsb' 0 8 := by
  apply BitVec.eq_of_toNat_eq
  have whole := low_toNat p
  rw [BitVec.extractLsb'_toNat, BitVec.toNat_ofInt, Nat.shiftRight_zero]
  omega

theorem low_setWidth (x : Int) : (low x).setWidth 4 = BitVec.ofInt 4 x := by
  apply BitVec.eq_of_toNat_eq
  have whole := low_toNat x
  rw [BitVec.toNat_setWidth, BitVec.toNat_ofInt]
  omega

theorem ofInt_shiftRight (p : Int) :
    BitVec.ofInt 4 (p >>> (8 : Nat)) = (BitVec.ofInt 12 p).extractLsb' 8 4 := by
  apply BitVec.eq_of_toNat_eq
  rw [BitVec.extractLsb'_toNat, BitVec.toNat_ofInt, BitVec.toNat_ofInt, Int.shiftRight_eq_div_pow,
    Nat.shiftRight_eq_div_pow]
  omega

/-- Two nibbles, masked and joined. -/
theorem join_nibbles (x y : Byte) :
    (x &&& 0x0F) <<< 4 ||| y &&& 0x0F = x.setWidth 4 ++ y.setWidth 4 := by
  apply BitVec.eq_of_getLsbD_eq
  intro i hi
  rw [BitVec.getLsbD_append]
  have cases : i = 0 ∨ i = 1 ∨ i = 2 ∨ i = 3 ∨ i = 4 ∨ i = 5 ∨ i = 6 ∨ i = 7 := by omega
  rcases cases with rfl | rfl | rfl | rfl | rfl | rfl | rfl | rfl <;> simp

theorem reg4_eq (p v : Int) :
    Level.reg4 p v = (BitVec.ofInt 12 p).extractLsb' 8 4 ++ BitVec.ofInt 4 v := by
  rw [Level.reg4, join_nibbles, low_setWidth, low_setWidth, ofInt_shiftRight]

theorem mask_nibble (x : Byte) : x &&& 0x0F = 0#4 ++ x.setWidth 4 := by
  have join := join_nibbles 0#8 x
  rw [show 0#8 &&& 0x0F = 0#8 from rfl, show 0#8 <<< 4 = 0#8 from rfl, BitVec.zero_or] at join
  exact join

theorem mode_bit (m : Bool) (x : BitVec 4) :
    (if m then mMode else 0) ||| (0 : Byte) ||| (0#4 ++ x) = BitVec.ofBool m ++ 0#3 ++ x := by
  revert m x
  decide

/-! ## The setters -/

theorem hits_period (n : Fin 8) (data : Byte) :
    Op.hits n (.write 8#8 data) = decide (n.val = 3) := by
  have every : ∀ n : Fin 8, (0x08 : Byte).getLsbD n = decide (n.val = 3) := by decide
  exact every n

theorem hits_level (n : Fin 8) (data : Byte) :
    Op.hits n (.write 16#8 data) = decide (n.val = 4) := by
  have every : ∀ n : Fin 8, (0x10 : Byte).getLsbD n = decide (n.val = 4) := by decide
  exact every n

theorem hits_slot (n : Fin 8) (data : Byte) :
    Op.hits n (.write 32#8 data) = decide (n.val = 5) := by
  have every : ∀ n : Fin 8, (0x20 : Byte).getLsbD n = decide (n.val = 5) := by decide
  exact every n

theorem lands_eq (regs : Fin 8 → Byte) (addr data : Byte) (n : Fin 8) :
    Op.lands regs (.write addr data) n =
      if Op.hits n (.write addr data) then data else regs n := rfl

section
variable {n : Fin 8}

/-- A call without effect. -/
theorem keeps_none {D : Type} {enc : D → Fin 8 → Byte} (d : D) : Keeps enc d n (d, []) :=
  ⟨fun hit => absurd hit Bool.false_ne_true, fun _ => rfl⟩

theorem keeps_reset {D : Type} {enc : D → Fin 8 → Byte} (d : D) : Keeps enc d n (d, [.reset]) :=
  ⟨fun hit => absurd hit Bool.false_ne_true, fun _ => rfl⟩

theorem setPeriod_keeps (l : Level) (p : Int) :
    Keeps Level.encoding l n (l.setPeriod p) := by
  unfold Level.setPeriod
  split
  · exact keeps_none l
  · by_cases three : n.val = 3
    · refine ⟨fun _ regs => ?_, fun none => ?_⟩
      · simp [landed, lands_eq, hits_period, hits_level, three, Level.encoding, Level.lowByte,
          low_eq]
      · simp [hits_period, three] at none
    · by_cases four : n.val = 4
      · refine ⟨fun _ regs => ?_, fun none => ?_⟩
        · simp [landed, lands_eq, hits_level, four, Level.encoding, Level.highByte, reg4_eq]
        · simp [hits_level, four] at none
      · refine ⟨fun hit => ?_, fun _ => ?_⟩
        · simp [hits_period, hits_level, three, four] at hit
        · simp [Level.encoding, three, four]

theorem setVol_keeps (l : Level) (v : Int) : Keeps Level.encoding l n (l.setVol v) := by
  unfold Level.setVol
  split
  · exact keeps_none l
  · by_cases four : n.val = 4
    · refine ⟨fun _ regs => ?_, fun none => ?_⟩
      · simp [landed, lands_eq, hits_level, four, Level.encoding, Level.highByte, reg4_eq]
      · simp [hits_level, four] at none
    · refine ⟨fun hit => ?_, fun _ => ?_⟩
      · simp [hits_level, four] at hit
      · simp [Level.encoding, Level.lowByte, four]

/-- A write of all three registers. -/
theorem all_keeps {D : Type} {enc : D → Fin 8 → Byte} {d d' : D} {lo hi slot : Byte}
    (first : n.val = 3 → lo = enc d' n) (second : n.val = 4 → hi = enc d' n)
    (third : n.val = 5 → slot = enc d' n)
    (other : n.val ≠ 3 → n.val ≠ 4 → n.val ≠ 5 → enc d' n = enc d n) :
    Keeps enc d n (d', [.write 0x08 lo, .write 0x10 hi, .write 0x20 slot]) := by
  constructor
  · intro hit regs
    by_cases three : n.val = 3
    · simp [landed, lands_eq, hits_period, hits_level, hits_slot, three, first three]
    · by_cases four : n.val = 4
      · simp [landed, lands_eq, hits_level, hits_slot, four, second four]
      · by_cases five : n.val = 5
        · simp [landed, lands_eq, hits_slot, five, third five]
        · simp [hits_period, hits_level, hits_slot, three, four, five] at hit
  · intro none
    simp only [List.any_cons, List.any_nil, Bool.or_eq_false_iff] at none
    exact other (of_decide_eq_false ((hits_period n lo).symm.trans none.1))
      (of_decide_eq_false ((hits_level n hi).symm.trans none.2.1))
      (of_decide_eq_false ((hits_slot n slot).symm.trans none.2.2.1))

/-- The level's setters do not touch the slot. -/
theorem level_still (l : Level) (x : Int) (five : n.val = 5) :
    (l.setPeriod x).2.any (Op.hits n) = false ∧ (l.setVol x).2.any (Op.hits n) = false := by
  constructor
  · unfold Level.setPeriod
    split <;> simp [hits_period, hits_level, five]
  · unfold Level.setVol
    split <;> simp [hits_level, five]

/-- A driver whose level alone moves. -/
theorem level_keeps {D : Type} {enc : D → Fin 8 → Byte} {d d' : D} {l : Level}
    {next : Level × List Op} (keeps : Keeps Level.encoding l n next)
    (still : n.val = 5 → next.2.any (Op.hits n) = false)
    (slot : n.val = 5 → enc d' n = enc d n)
    (level : n.val ≠ 5 → enc d n = l.encoding n ∧ enc d' n = next.1.encoding n) :
    Keeps enc d n (d', next.2) := by
  by_cases five : n.val = 5
  · exact ⟨fun hit => absurd ((still five).symm.trans hit) Bool.false_ne_true,
      fun _ => slot five⟩
  · obtain ⟨before, after⟩ := level five
    exact ⟨fun hit regs => (keeps.told hit regs).trans after.symm,
      fun none => after.trans ((keeps.still none).trans before.symm)⟩

/-! ## rev.e2 -/

namespace RevE2
variable (r : RevE2)

/-- A call that moves the level alone. -/
theorem moved_keeps {next : Level × List Op} (keeps : Keeps Level.encoding r.level n next)
    (still : n.val = 5 → next.2.any (Op.hits n) = false) :
    Keeps encoding r n ({ r with level := next.1 }, next.2) := by
  refine level_keeps keeps still (fun five => ?_) (fun five => ⟨if_neg five, if_neg five⟩)
  rw [encoding, encoding, if_pos five, if_pos five]

theorem curMode_truth : r.curMode.truth = r.mode.truth := by
  unfold curMode
  split
  · rename_i none
    rw [none]
    rfl
  · rfl

theorem reg5_released (mode : Arg) (sel : Int) : reg5 mode sel false =
    .write 0x20 (BitVec.ofBool mode.truth ++ 0#3 ++ BitVec.ofInt 4 sel) := by
  rw [reg5, mSel, mask_nibble, low_setWidth]
  exact congrArg (Op.write 0x20) (mode_bit mode.truth (BitVec.ofInt 4 sel))

/-- A write of the slot with the trigger released. -/
theorem slot_keeps {s : RevE2} (level : s.level = r.level) (before : List Op)
    (slot : ∀ op ∈ before, n.val ≠ 5 → op.hits n = false) {mode : Arg}
    (truth : mode.truth = s.mode.truth) :
    Keeps encoding r n (s, before ++ [reg5 mode (s.sel.getD 0) false]) := by
  by_cases five : n.val = 5
  · refine ⟨fun _ regs => ?_, fun none => ?_⟩
    · simp [landed, lands_eq, reg5_released, hits_slot, five, encoding, truth]
    · simp [reg5_released, hits_slot, five] at none
  · refine ⟨fun hit => ?_, fun _ => ?_⟩
    · obtain ⟨op, mem, hits⟩ := List.any_eq_true.mp hit
      rcases List.mem_append.mp mem with early | last
      · exact absurd ((slot op early five).symm.trans hits) Bool.false_ne_true
      · rw [List.mem_singleton.mp last] at hits
        simp [reg5_released, hits_slot, five] at hits
    · rw [encoding, encoding, if_neg five, if_neg five, level]

theorem initAll_keeps (p v : Int) (m : Bool) (x : Int) :
    Keeps encoding r n (initAll p v m x) := by
  have mode : (Arg.num (if m then 1 else 0)).truth = m := by cases m <;> decide
  rw [initAll, reg5_released, mode]
  apply all_keeps
  · intro three
    simp [encoding, Level.encoding, Level.lowByte, three, low_eq]
  · intro four
    simp [encoding, Level.encoding, Level.highByte, four, reg4_eq]
  · intro five
    simp [encoding, five, mode]
  · intro three four five
    simp [encoding, Level.encoding, three, four, five]

theorem step_keeps (call : Setter) : Keeps encoding r n (r.step call) := by
  cases call with
  | setPeriod p =>
    rw [step]
    split
    · exact r.moved_keeps (setPeriod_keeps _ _) fun five => (level_still _ _ five).1
    · exact keeps_none r
  | setVol v =>
    rw [step]
    split
    · exact r.moved_keeps (setVol_keeps _ _) fun five => (level_still _ _ five).2
    · exact keeps_none r
  | setSel s =>
    rw [step]
    split
    · rw [setSel]
      split
      · exact keeps_none r
      · exact r.slot_keeps (s := ⟨r.level, r.mode, some _⟩) rfl [] nofun r.curMode_truth
    · exact keeps_none r
  | setMode m =>
    rw [step, setMode]
    split
    · exact keeps_none r
    · exact r.slot_keeps (s := ⟨r.level, m, r.sel⟩) rfl [] nofun rfl
  | trigger =>
    refine r.slot_keeps rfl [reg5 r.curMode (r.sel.getD 0) true] ?_ r.curMode_truth
    intro op mem other
    rw [List.mem_singleton.mp mem]
    simp [reg5, hits_slot, other]
  | initAll p v m s =>
    rw [step]
    split
    · exact initAll_keeps r _ _ _ _
    · exact keeps_none r
  | reset => exact keeps_reset r

end RevE2

/-! ## rev.e3 -/

namespace RevE3
variable (r : RevE3)

theorem reg5_eq (sel : Int) : reg5 sel = .write 0x20 (0#4 ++ BitVec.ofInt 4 sel) := by
  rw [reg5, mask_nibble, low_setWidth]

/-- A call that moves the level alone. -/
theorem moved_keeps {next : Level × List Op} (keeps : Keeps Level.encoding r.level n next)
    (still : n.val = 5 → next.2.any (Op.hits n) = false) :
    Keeps encoding r n ({ r with level := next.1 }, next.2) := by
  refine level_keeps keeps still (fun five => ?_) (fun five => ⟨if_neg five, if_neg five⟩)
  rw [encoding, encoding, if_pos five, if_pos five]

theorem setSel_keeps (s : Int) : Keeps encoding r n (r.setSel s) := by
  rw [setSel]
  split
  · exact keeps_none r
  · by_cases five : n.val = 5
    · refine ⟨fun _ regs => ?_, fun none => ?_⟩
      · simp [landed, lands_eq, reg5_eq, hits_slot, five, encoding]
      · simp [reg5_eq, hits_slot, five] at none
    · refine ⟨fun hit => ?_, fun _ => ?_⟩
      · simp [reg5_eq, hits_slot, five] at hit
      · simp [encoding, five]

theorem initAll_keeps (p v x : Int) : Keeps encoding r n (initAll p v x) := by
  rw [initAll, reg5_eq]
  apply all_keeps
  · intro three
    simp [encoding, Level.encoding, Level.lowByte, three, low_eq]
  · intro four
    simp [encoding, Level.encoding, Level.highByte, four, reg4_eq]
  · intro five
    simp [encoding, five]
  · intro three four five
    simp [encoding, Level.encoding, three, four, five]

theorem step_keeps (call : SetterE3) : Keeps encoding r n (r.step call) := by
  cases call with
  | setPeriod p =>
    rw [step]
    split
    · exact r.moved_keeps (setPeriod_keeps _ _) fun five => (level_still _ _ five).1
    · exact keeps_none r
  | setVol v =>
    rw [step]
    split
    · exact r.moved_keeps (setVol_keeps _ _) fun five => (level_still _ _ five).2
    · exact keeps_none r
  | setSel s =>
    rw [step]
    split
    · exact r.setSel_keeps _
    · exact keeps_none r
  | initAll p v s =>
    rw [step]
    split
    · exact initAll_keeps r _ _ _
    · exact keeps_none r
  | reset => exact keeps_reset r

end RevE3

end

/-! ## Runs -/

/-- **The caching drivers.** After any sequence of calls with any arguments, sent with the
pins switching in any order, every register that was written holds the encoding of the
driver's values, and every other what it held. -/
theorem cached_law :
    (∀ (calls : List Setter) (b t : Bus), b.d = idle →
      let sent := callAll RevE2.step RevE2.init calls
      Bus.Runs (sent.2.flatMap Op.cmds) b t → ∀ n, t.regs n =
        if sent.2.any (Op.hits n) then sent.1.encoding n else b.regs n) ∧
    ∀ (calls : List SetterE3) (b t : Bus), b.d = idle →
      let sent := callAll RevE3.step RevE3.init calls
      Bus.Runs (sent.2.flatMap Op.cmds) b t → ∀ n, t.regs n =
        if sent.2.any (Op.hits n) then sent.1.encoding n else b.regs n := by
  constructor
  · intro calls b t ready sent run n
    exact callAll_law (fun r c => r.step_keeps c) ready run
  · intro calls b t ready sent run n
    exact callAll_law (fun r c => r.step_keeps c) ready run

/-- Volume and slot before period and mode, and a trigger. -/
def mixedCalls : List Setter :=
  [.setVol (.num 9), .setSel (.num 5), .setPeriod (.num 0x234), .setMode (.num 1), .trigger, .reset,
    .setVol (.num (19 / 2))]

def mixedCallsE3 : List SetterE3 := [.setSel (.num 5), .setPeriod (.num 0x234), .reset]

/-- With `/CS` first in every command. -/
theorem cached_law_mixed :
    let order := (List.finRange 8).reverse
    let left (ops : List Op) := (ops.flatMap Op.cmds).foldl (fun b cmd => b.exec cmd order) quiet
    (left (callAll RevE2.step RevE2.init mixedCalls).2).regs 4 = 0x29 ∧
    (left (callAll RevE2.step RevE2.init mixedCalls).2).regs 5 = 0x85 ∧
    (left (callAll RevE3.step RevE3.init mixedCallsE3).2).regs 4 = 0x20 := by
  intro order left
  have run (ops : List Op) : Bus.Runs (ops.flatMap Op.cmds) quiet (left ops) :=
    Bus.Runs.fixed order (List.reverse_perm _) _ _
  have e2 := cached_law.1 mixedCalls quiet _ rfl (run _)
  have e3 := cached_law.2 mixedCallsE3 quiet _ rfl (run _)
  exact ⟨(e2 4).trans (by decide +kernel), (e2 5).trans (by decide +kernel),
    (e3 4).trans (by decide +kernel)⟩

end Chiptune.Psg3
