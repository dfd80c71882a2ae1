import Mathlib.Data.List.FinRange
import Mathlib.Logic.Function.Basic
import Chiptune.Chips

/-!
# The PSG3 bus

The bus layer that `rtl/psg3_top.v` has in v0.4 and in v0.5, and the MPSSE commands of
`Psg._bus_write` in `host/psg_adsr_songs_v04.py`. The latches are clocked by gates of
the pins `A0`, `/WR` and `/CS`, so every pin that switches may be a clock edge. A
command sets the eight pins of a port; those that change switch one at a time, in any
order.

`write_law` says what one write does to the registers and `writes_law` what a sequence
of writes leaves in them.
-/

namespace Chiptune.Psg3

/-! ## Pins and latches -/

structure Bus where
  /-- The D port: `A0`, `/WR`, `/RST` and `/CS` are its bits 4 to 7. -/
  d : Byte
  /-- The C port, `bus_data`. -/
  c : Byte
  addrOut : Byte
  regs : Fin 8 → Byte

namespace Bus

def a0 (d : Byte) : Bool := d.getLsbD 4
def wrN (d : Byte) : Bool := d.getLsbD 5
def csN (d : Byte) : Bool := d.getLsbD 7

def csActive (d : Byte) : Bool := !csN d

def addrCp (d : Byte) : Bool := csActive d && !a0 d && wrN d

def dataStrobe (d : Byte) : Bool := csActive d && a0 d && wrN d

def regCp (b : Bus) (n : Fin 8) : Bool := b.addrOut.getLsbD n && dataStrobe b.d

/-- The pins move. The address latch takes the data on a rising `addr_cp`, and each
register on a rising `reg_cp`, which follows the latch. -/
def settle (b : Bus) (d c : Byte) : Bus :=
  let addrOut := if !addrCp b.d && addrCp d then c else b.addrOut
  let moved : Bus := { d, c, addrOut, regs := b.regs }
  { moved with regs := fun n => if !b.regCp n && moved.regCp n then c else b.regs n }

end Bus

/-! The fields of the registers. -/

section
variable (regs : Fin 8 → Byte)

def periodQ : Byte := regs 0
def sqVol : BitVec 4 := (regs 1).extractLsb' 0 4
def dutySel : BitVec 2 := (regs 1).extractLsb' 4 2
def modeSel : Bool := (regs 1).getLsbD 6
def nzVol : BitVec 4 := (regs 6).extractLsb' 0 4
def freqSel : BitVec 2 := (regs 6).extractLsb' 4 2
def bindSw : Bool := (regs 6).getLsbD 6

end

inductive Port where
  | d | c

/-- `0x80, value, 0xFF` for the D port and `0x82, value, 0xFF` for the C port. -/
structure Cmd where
  port : Port
  value : Byte

def setPin (x : Byte) (i : Fin 8) (level : Bool) : Byte :=
  if level then x ||| BitVec.twoPow 8 i else x &&& ~~~BitVec.twoPow 8 i

namespace Bus
variable (cmd : Cmd) (b : Bus)

/-- One pin of the command's port takes its new level. -/
def switch (i : Fin 8) : Bus :=
  match cmd.port with
  | .d => b.settle (setPin b.d i (cmd.value.getLsbD i)) b.c
  | .c => b.settle b.d (setPin b.c i (cmd.value.getLsbD i))

def exec (order : List (Fin 8)) : Bus := order.foldl (switch cmd) b

/-- The commands one after the other, each with its pins in some order. -/
inductive Runs : List Cmd → Bus → Bus → Prop where
  | done (b : Bus) : Runs [] b b
  | next {cmd : Cmd} {rest : List Cmd} {b t : Bus} (order : List (Fin 8))
      (every : order.Perm (List.finRange 8)) (later : Runs rest (b.exec cmd order) t) :
      Runs (cmd :: rest) b t

end Bus

/-! ## The host's write -/

def mA0 : Byte := 1 <<< 4
def mWr : Byte := 1 <<< 5
def mRst : Byte := 1 <<< 6
def mCs : Byte := 1 <<< 7

/-- `_bus_write`. -/
def busWrite (addr data : Byte) : List Cmd :=
  [⟨.d, mRst⟩,
   ⟨.d, mRst⟩,
   ⟨.c, addr⟩,
   ⟨.d, mRst⟩,
   ⟨.d, mRst ||| mWr⟩,
   ⟨.d, mRst⟩,
   ⟨.c, data⟩,
   ⟨.d, mRst ||| mA0⟩,
   ⟨.d, mRst ||| mA0 ||| mWr⟩,
   ⟨.d, mRst ||| mA0⟩,
   ⟨.d, mRst ||| mCs ||| mA0⟩,
   ⟨.d, mRst ||| mCs ||| mWr⟩]

/-- The D port between writes. -/
def idle : Byte := mRst ||| mCs ||| mWr

/-- A write to the register of a one-hot address. -/
structure Write where
  reg : Fin 8
  data : Byte

def Write.addr (w : Write) : Byte := 1 <<< w.reg.val

def commands (ws : List Write) : List Cmd := ws.flatMap fun w => busWrite w.addr w.data

/-! ## Pins -/

theorem getLsbD_setPin (x : Byte) (i j : Fin 8) (level : Bool) :
    (setPin x i level).getLsbD j = if j = i then level else x.getLsbD j := by
  have bit : (BitVec.twoPow 8 i).getLsbD j = decide (j = i) := by
    rw [BitVec.getLsbD_twoPow, decide_eq_true i.isLt, Bool.true_and]
    exact decide_eq_decide.mpr ⟨fun h => Fin.ext h.symm, fun h => congrArg Fin.val h.symm⟩
  cases level with
  | true =>
    rw [setPin, if_pos rfl, BitVec.getLsbD_or, bit]
    by_cases here : j = i <;> simp only [here, decide_true, decide_false, Bool.or_true,
      Bool.or_false, ↓reduceIte]
  | false =>
    rw [setPin, if_neg Bool.false_ne_true, BitVec.getLsbD_and, BitVec.getLsbD_not, bit,
      decide_eq_true j.isLt]
    by_cases here : j = i <;> simp only [here, decide_true, decide_false, Bool.not_true,
      Bool.not_false, Bool.and_false, Bool.and_true, ↓reduceIte]

theorem pins_ext {x y : Byte} (same : ∀ j : Fin 8, x.getLsbD j = y.getLsbD j) : x = y := by
  apply BitVec.eq_of_getLsbD_eq
  intro j hj
  exact same ⟨j, hj⟩

theorem setPin_self (x : Byte) (i : Fin 8) : setPin x i (x.getLsbD i) = x := by
  apply pins_ext
  intro j
  rw [getLsbD_setPin]
  split
  · rename_i here
    rw [here]
  · rfl

theorem setPin_other {x v : Byte} {k i : Fin 8} (one : v = setPin x k (v.getLsbD k))
    (other : i ≠ k) : setPin x i (v.getLsbD i) = x := by
  have level : v.getLsbD i = x.getLsbD i := by
    rw [one, getLsbD_setPin, if_neg other]
  rw [level, setPin_self]

/-- A level that a pin has before and after a command it has throughout. -/
theorem setPin_level {x v : Byte} {k : Fin 8} {level : Bool} (i : Fin 8)
    (before : x.getLsbD k = level) (after : v.getLsbD k = level) :
    (setPin x i (v.getLsbD i)).getLsbD k = level := by
  rw [getLsbD_setPin]
  split
  · rename_i here
    rw [← here, after]
  · exact before

/-- All pins set, in any order. -/
theorem setPins (v : Byte) {order : List (Fin 8)} (every : order.Perm (List.finRange 8))
    (x : Byte) :
    order.foldl (fun x i => setPin x i (v.getLsbD i)) x = v := by
  have level (order : List (Fin 8)) (x : Byte) (j : Fin 8) :
      (order.foldl (fun x i => setPin x i (v.getLsbD i)) x).getLsbD j =
        if j ∈ order then v.getLsbD j else x.getLsbD j := by
    induction order generalizing x with
    | nil => simp
    | cons i rest ih =>
      rw [List.foldl_cons, ih, getLsbD_setPin]
      by_cases later : j ∈ rest
      · simp [later]
      · by_cases here : j = i <;> simp [here, later]
  apply pins_ext
  intro j
  rw [level, if_pos (every.mem_iff.mpr (List.mem_finRange j))]

/-! ## Single commands -/

namespace Bus
variable {b : Bus} {v : Byte} {order : List (Fin 8)}

/-- What holds before a command and is kept by every pin holds after it. -/
theorem exec_invariant {cmd : Cmd} (P : Bus → Prop) (start : P b)
    (keep : ∀ b i, P b → P (b.switch cmd i)) : P (b.exec cmd order) := by
  unfold exec
  induction order generalizing b with
  | nil => exact start
  | cons i rest ih => exact ih (keep b i start)

theorem exec_d_pins (every : order.Perm (List.finRange 8)) :
    (b.exec ⟨.d, v⟩ order).d = v ∧ (b.exec ⟨.d, v⟩ order).c = b.c := by
  have pins (order : List (Fin 8)) (b : Bus) : (b.exec ⟨.d, v⟩ order).d =
      order.foldl (fun x i => setPin x i (v.getLsbD i)) b.d := by
    induction order generalizing b with
    | nil => rfl
    | cons i rest ih => exact ih _
  constructor
  · rw [pins, setPins v every]
  · exact exec_invariant (P := fun s => s.c = b.c) rfl (fun _ _ same => same)

/-- While the pins of the D port rest there is no edge. -/
theorem settle_still (b : Bus) (c : Byte) : b.settle b.d c = { b with c } := by
  have strobe (x : Bool) : (!x && x) = false := by cases x <;> rfl
  simp only [settle, strobe, Bool.false_eq_true, ↓reduceIte, regCp]

theorem exec_c {d c addrOut : Byte} {regs : Fin 8 → Byte}
    (every : order.Perm (List.finRange 8)) :
    exec ⟨.c, v⟩ ⟨d, c, addrOut, regs⟩ order = ⟨d, v, addrOut, regs⟩ := by
  have pins (order : List (Fin 8)) (b : Bus) : b.exec ⟨.c, v⟩ order =
      { b with c := order.foldl (fun x i => setPin x i (v.getLsbD i)) b.c } := by
    induction order generalizing b with
    | nil => rfl
    | cons i rest ih =>
      refine (ih _).trans ?_
      simp only [switch, settle_still, List.foldl_cons]
  rw [pins, setPins v every]

/-- A command that changes one pin. -/
theorem exec_single (k : Fin 8) (one : v = setPin b.d k (v.getLsbD k))
    (every : order.Perm (List.finRange 8)) : b.exec ⟨.d, v⟩ order = b.settle v b.c := by
  have moved : (b.exec ⟨.d, v⟩ order).d = v := (exec_d_pins every).1
  have either : b.exec ⟨.d, v⟩ order = b ∨ b.exec ⟨.d, v⟩ order = b.settle v b.c := by
    apply exec_invariant (P := fun s => s = b ∨ s = b.settle v b.c) (.inl rfl)
    rintro s i (rfl | rfl)
    · by_cases here : i = k
      · right
        subst here
        rw [switch, ← one]
      · left
        simp only [switch, setPin_other one here, settle_still]
    · right
      have pins : (b.settle v b.c).d = v := rfl
      have data : (b.settle v b.c).c = b.c := rfl
      simp only [switch, pins, setPin_self]
      exact settle_still (b.settle v b.c) (b.settle v b.c).c
  rcases either with same | same
  · rw [same] at moved
    rw [same, ← moved, settle_still]
  · exact same

/-- With `A0` low throughout no register is clocked. -/
theorem exec_a0_low (order : List (Fin 8)) (before : a0 b.d = false) (after : a0 v = false) :
    (b.exec ⟨.d, v⟩ order).regs = b.regs := by
  have inv : a0 (b.exec ⟨.d, v⟩ order).d = false ∧ (b.exec ⟨.d, v⟩ order).regs = b.regs := by
    apply exec_invariant (P := fun s => a0 s.d = false ∧ s.regs = b.regs) ⟨before, rfl⟩
    rintro s i ⟨low, same⟩
    have still : a0 (setPin s.d i (v.getLsbD i)) = false := setPin_level (k := 4) i low after
    refine ⟨still, ?_⟩
    have strobe : dataStrobe (setPin s.d i (v.getLsbD i)) = false := by
      rw [dataStrobe, still, Bool.and_false, Bool.false_and]
    simp only [switch, settle, regCp, strobe, Bool.and_false, Bool.false_eq_true, ↓reduceIte]
    exact same
  exact inv.2

/-- With `/CS` high throughout nothing is clocked. -/
theorem exec_cs_high (order : List (Fin 8)) (before : csN b.d = true) (after : csN v = true) :
    (b.exec ⟨.d, v⟩ order).addrOut = b.addrOut ∧ (b.exec ⟨.d, v⟩ order).regs = b.regs := by
  have inv : csN (b.exec ⟨.d, v⟩ order).d = true ∧
      (b.exec ⟨.d, v⟩ order).addrOut = b.addrOut ∧ (b.exec ⟨.d, v⟩ order).regs = b.regs := by
    apply exec_invariant (P := fun s => csN s.d = true ∧ s.addrOut = b.addrOut ∧ s.regs = b.regs)
      ⟨before, rfl, rfl⟩
    rintro s i ⟨high, addr, same⟩
    have still : csN (setPin s.d i (v.getLsbD i)) = true := setPin_level (k := 7) i high after
    have active : csActive (setPin s.d i (v.getLsbD i)) = false := by
      rw [csActive, still]
      rfl
    refine ⟨still, ?_, ?_⟩
    · simp only [switch, settle, addrCp, active, Bool.false_and, Bool.and_false,
        Bool.false_eq_true, ↓reduceIte]
      exact addr
    · simp only [switch, settle, regCp, dataStrobe, active, Bool.false_and, Bool.and_false,
        Bool.false_eq_true, ↓reduceIte]
      exact same
  exact inv.2

/-! ## The write -/

theorem Runs.first {cmd : Cmd} {rest : List Cmd} {b t : Bus} (run : Runs (cmd :: rest) b t) :
    ∃ order : List (Fin 8), order.Perm (List.finRange 8) ∧ Runs rest (b.exec cmd order) t := by
  cases run with
  | next order every later => exact ⟨order, every, later⟩

theorem Runs.last {b t : Bus} (run : Runs [] b t) : t = b := by
  cases run
  rfl

section
variable {d c addrOut : Byte} {regs : Fin 8 → Byte}

/-- A command that changes pin `k` and raises no strobe. -/
theorem exec_quiet (k : Fin 8) (one : v = setPin d k (v.getLsbD k)) (low : addrCp v = false)
    (rest : dataStrobe v = false) (every : order.Perm (List.finRange 8)) :
    exec ⟨.d, v⟩ ⟨d, c, addrOut, regs⟩ order = ⟨v, c, addrOut, regs⟩ := by
  rw [exec_single k one every]
  simp only [settle, regCp, low, rest, Bool.and_false, Bool.false_eq_true, ↓reduceIte]

/-- A command that changes pin `k` and raises `addr_cp`. -/
theorem exec_addr (k : Fin 8) (one : v = setPin d k (v.getLsbD k)) (low : addrCp d = false)
    (high : addrCp v = true) (every : order.Perm (List.finRange 8)) :
    exec ⟨.d, v⟩ ⟨d, c, addrOut, regs⟩ order = ⟨v, c, c, regs⟩ := by
  have strobe : dataStrobe v = false := by
    revert high
    unfold addrCp dataStrobe
    cases a0 v <;> simp
  rw [exec_single k one every]
  simp only [settle, regCp, low, high, strobe, Bool.and_false, Bool.not_false, Bool.and_self,
    Bool.false_eq_true, ↓reduceIte]

/-- A command that changes pin `k` and raises `data_strobe`. -/
theorem exec_data (k : Fin 8) (one : v = setPin d k (v.getLsbD k)) (low : dataStrobe d = false)
    (high : dataStrobe v = true) (every : order.Perm (List.finRange 8)) :
    exec ⟨.d, v⟩ ⟨d, c, addrOut, regs⟩ order =
      ⟨v, c, addrOut, fun n => if addrOut.getLsbD n then c else regs n⟩ := by
  have strobe : addrCp v = false := by
    revert high
    unfold addrCp dataStrobe
    cases a0 v <;> simp
  rw [exec_single k one every]
  simp only [settle, regCp, low, high, strobe, Bool.and_false, Bool.and_true, Bool.not_false,
    Bool.true_and, Bool.false_eq_true, ↓reduceIte]

end

/-- The last command moves `A0` and `/WR` together, with `/CS` high. -/
theorem exec_end {c addrOut : Byte} {regs : Fin 8 → Byte} (every : order.Perm (List.finRange 8)) :
    exec ⟨.d, mRst ||| mCs ||| mWr⟩ ⟨mRst ||| mCs ||| mA0, c, addrOut, regs⟩ order =
      ⟨Psg3.idle, c, addrOut, regs⟩ := by
  let before : Bus := ⟨mRst ||| mCs ||| mA0, c, addrOut, regs⟩
  have high : csN before.d = true := show csN (mRst ||| mCs ||| mA0) = true by decide
  have after : csN (mRst ||| mCs ||| mWr) = true := by decide
  obtain ⟨addr, same⟩ := exec_cs_high order high after
  obtain ⟨d, data⟩ := exec_d_pins (b := before) (v := mRst ||| mCs ||| mWr) every
  change before.exec _ order = _
  generalize before.exec ⟨.d, mRst ||| mCs ||| mWr⟩ order = s at addr same d data
  cases s
  simp only at addr same d data
  rw [addr, same, d, data]
  rfl

/-- The first command moves `/WR` and `/CS` together. In one of the two orders the
address latch takes what the data lines happen to carry, and no register does. -/
theorem exec_begin (ready : b.d = Psg3.idle) (every : order.Perm (List.finRange 8)) :
    ∃ addrOut, b.exec ⟨.d, mRst⟩ order = ⟨mRst, b.c, addrOut, b.regs⟩ := by
  have low : a0 b.d = false := by
    rw [ready]
    decide
  have regs := exec_a0_low order (v := mRst) low (by decide)
  obtain ⟨d, c⟩ := exec_d_pins (b := b) (v := mRst) every
  generalize b.exec ⟨.d, mRst⟩ order = s at regs d c
  exact ⟨s.addrOut, by rw [← d, ← c, ← regs]⟩

theorem write_law {addr data : Byte} {t : Bus} (ready : b.d = Psg3.idle)
    (run : Runs (busWrite addr data) b t) :
    t.d = Psg3.idle ∧ t.regs = fun n : Fin 8 => if addr.getLsbD n then data else b.regs n := by
  obtain ⟨o1, e1, run⟩ := run.first
  obtain ⟨o2, e2, run⟩ := run.first
  obtain ⟨o3, e3, run⟩ := run.first
  obtain ⟨o4, e4, run⟩ := run.first
  obtain ⟨o5, e5, run⟩ := run.first
  obtain ⟨o6, e6, run⟩ := run.first
  obtain ⟨o7, e7, run⟩ := run.first
  obtain ⟨o8, e8, run⟩ := run.first
  obtain ⟨o9, e9, run⟩ := run.first
  obtain ⟨o10, e10, run⟩ := run.first
  obtain ⟨o11, e11, run⟩ := run.first
  obtain ⟨o12, e12, run⟩ := run.first
  have last := run.last
  obtain ⟨addrOut, begun⟩ := exec_begin ready e1
  rw [begun, exec_quiet 5 (by decide) (by decide) (by decide) e2, exec_c e3,
    exec_quiet 5 (by decide) (by decide) (by decide) e4] at last
  -- the rising edge of `/WR` with `A0` low
  rw [exec_addr 5 (by decide) (by decide) (by decide) e5] at last
  rw [exec_quiet 5 (by decide) (by decide) (by decide) e6, exec_c e7,
    exec_quiet 4 (by decide) (by decide) (by decide) e8] at last
  -- and with `A0` high
  rw [exec_data 5 (by decide) (by decide) (by decide) e9] at last
  rw [exec_quiet 5 (by decide) (by decide) (by decide) e10,
    exec_quiet 7 (by decide) (by decide) (by decide) e11, exec_end e12] at last
  rw [last]
  exact ⟨rfl, rfl⟩

/-! ## Sequences of writes -/

/-- The registers after the writes. -/
def after (regs : Fin 8 → Byte) (ws : List Write) : Fin 8 → Byte :=
  ws.foldl (fun regs w => Function.update regs w.reg w.data) regs

theorem Runs.append {first second : List Cmd} {b t : Bus} (run : Runs (first ++ second) b t) :
    ∃ s, Runs first b s ∧ Runs second s t := by
  induction first generalizing b with
  | nil => exact ⟨b, .done b, run⟩
  | cons cmd rest ih =>
    obtain ⟨order, every, later⟩ := run.first
    obtain ⟨s, front, back⟩ := ih later
    exact ⟨s, .next order every front, back⟩

theorem addr_getLsbD (w : Write) (n : Fin 8) : w.addr.getLsbD n = decide (n = w.reg) := by
  have every : ∀ k n : Fin 8, ((1 : Byte) <<< k.val).getLsbD n = decide (n = k) := by decide
  exact every w.reg n

theorem writes_after {ws : List Write} {t : Bus} (ready : b.d = Psg3.idle)
    (run : Runs (commands ws) b t) : t.d = Psg3.idle ∧ t.regs = after b.regs ws := by
  induction ws generalizing b with
  | nil =>
    rw [run.last]
    exact ⟨ready, rfl⟩
  | cons w rest ih =>
    have split : Runs (commands [w] ++ commands rest) b t := run
    obtain ⟨s, front, back⟩ := split.append
    obtain ⟨pins, regs⟩ := write_law ready front
    obtain ⟨rests, same⟩ := ih pins back
    refine ⟨rests, ?_⟩
    rw [same, regs]
    apply congrArg (after · rest)
    funext n
    simp only [addr_getLsbD, decide_eq_true_eq, Function.update_apply]

/-- The last byte written to a register. -/
def lastTo (ws : List Write) (n : Fin 8) : Option Byte :=
  (ws.reverse.find? (·.reg = n)).map Write.data

theorem after_last (regs : Fin 8 → Byte) (ws : List Write) (n : Fin 8) :
    after regs ws n = (lastTo ws n).getD (regs n) := by
  induction ws generalizing regs with
  | nil => rfl
  | cons w rest ih =>
    have later := ih (Function.update regs w.reg w.data)
    refine later.trans ?_
    unfold lastTo
    rw [List.reverse_cons, List.find?_append]
    cases found : rest.reverse.find? (·.reg = n) with
    | some v => rfl
    | none =>
      by_cases here : w.reg = n
      · subst here
        simp
      · simp [here, Function.update_of_ne (Ne.symm here)]

/-- **The bus.** Whatever the latch and the registers hold, and in whatever order the
pins of each command switch, after the writes every register holds the last byte
written to it, or what it held. -/
theorem writes_law {ws : List Write} {t : Bus} (ready : b.d = Psg3.idle)
    (run : Runs (commands ws) b t) (n : Fin 8) : t.regs n = (lastTo ws n).getD (b.regs n) := by
  rw [(writes_after ready run).2, after_last]

/-- The run in which the pins of every command switch in the same order. -/
theorem Runs.fixed (order : List (Fin 8)) (every : order.Perm (List.finRange 8))
    (cmds : List Cmd) (b : Bus) : Runs cmds b (cmds.foldl (fun b cmd => b.exec cmd order) b) := by
  induction cmds generalizing b with
  | nil => exact .done b
  | cons cmd rest ih => exact .next order every (ih _)

/-- Registers full of `0xEE` and the address latch selecting all of them. -/
def full : Bus := ⟨Psg3.idle, 0xFF, 0xFF, fun _ => 0xEE⟩

def threeWrites : List Write := [⟨0, 0x12⟩, ⟨1, 0x34⟩, ⟨0, 0x56⟩]

/-- With `/CS` first in every command, so that every write begins with an edge of
`addr_cp`. -/
theorem writes_law_reversed :
    let order := (List.finRange 8).reverse
    let t := (commands threeWrites).foldl (fun b cmd => b.exec cmd order) full
    t.regs 0 = 0x56 ∧ t.regs 1 = 0x34 ∧ t.regs 2 = 0xEE := by
  intro order t
  have run : Runs (commands threeWrites) full t := Runs.fixed order (List.reverse_perm _) _ _
  exact ⟨writes_law rfl run 0, writes_law rfl run 1, writes_law rfl run 2⟩

end Bus

end Chiptune.Psg3
