import Chiptune.Cpu39040.Accumulator

/-!
# The program of the microcode ROMs

`39040cpu/gen_roms.py` writes a loop that counts down and shows the count, and then a
marker for ever. `demo_law` gives the output at every clock, for every count and marker.
-/

namespace Chiptune.Cpu39040

/-- `steps`, which counts from 5 and ends with 0xAA. -/
def steps (count marker : Byte) : List Instr :=
  [⟨.ldImm, count⟩, ⟨.out, 0⟩, ⟨.subImm, 1⟩, ⟨.jz, 5⟩, ⟨.jmp, 1⟩, ⟨.ldImm, marker⟩, ⟨.out, 0⟩,
    ⟨.jmp, 7⟩]

/-- The ROMs hold the program, and anything behind it. -/
def Holds (count marker : Byte) (rom : BitVec 19 → Word) : Prop :=
  ∀ k i, (steps count marker)[k]? = some i → rom (BitVec.ofNat 19 k) = i.word

/-- A CPU at step `k`, in page 0. -/
structure At (k : Nat) (ac out : Byte) (c : Cpu) : Prop where
  pc : c.pc = BitVec.ofNat 20 k
  y : c.y = 0
  ac : c.ac = ac
  out : c.out = out

/-- How often the loop is run: a count of 0 is 256. -/
def turns (count : Byte) : Nat := if count = 0 then 256 else count.toNat

/-- The accumulator after some turns. -/
def left (count : Byte) (i : Nat) : Byte := count - BitVec.ofNat 8 i

theorem left_zero_iff {count : Byte} {i : Nat} (hi : i < turns count) :
    left count (i + 1) = 0 ↔ i + 1 = turns count := by
  have fits := count.isLt
  have zero : count = 0 ↔ count.toNat = 0 := BitVec.toNat_inj.symm
  rw [left, ← BitVec.toNat_inj, BitVec.toNat_sub, BitVec.toNat_ofNat]
  change (2 ^ 8 - (i + 1) % 2 ^ 8 + count.toNat) % 2 ^ 8 = 0 ↔ _
  unfold turns at hi ⊢
  split at hi <;> rename_i h <;> rw [zero] at h
  · rw [if_pos (zero.mpr h)]
    omega
  · rw [if_neg fun n => h (zero.mp n)]
    omega

theorem left_succ (count : Byte) (i : Nat) : left count i - 1 = left count (i + 1) := by
  have one : (1 : Byte).toNat = 1 := rfl
  apply BitVec.eq_of_toNat_eq
  simp only [left, BitVec.toNat_sub, BitVec.toNat_ofNat, one]
  omega

section
variable {count marker : Byte} {rom : BitVec 19 → Word} (unknown : Byte) {c : Cpu} {ac out : Byte}
  (holds : Holds count marker rom)
include holds

/-- A step of the program is that instruction on the accumulator machine. -/
theorem at_exec {k : Nat} (_ : k < 8) {i : Instr} (here : (steps count marker)[k]? = some i)
    (other : i.op ≠ .st) (now : At k ac out c) : (c.step rom unknown).view = c.view.exec i := by
  have word : c.word rom = i.word := by
    rw [Cpu.word, now.pc, ← holds k i here]
    congr 1
    apply BitVec.eq_of_toNat_eq
    rw [BitVec.toNat_setWidth, BitVec.toNat_ofNat, BitVec.toNat_ofNat]
    omega
  rw [Cpu.step, word]
  exact c.exec_view i unknown fun st => absurd st other

theorem at_exec_eq {k : Nat} (hk : k < 8) {i : Instr} (here : (steps count marker)[k]? = some i)
    (other : i.op ≠ .st) (now : At k ac out c) :
    (c.step rom unknown).pc = (c.view.exec i).pc ∧ (c.step rom unknown).y = (c.view.exec i).y ∧
      (c.step rom unknown).ac = (c.view.exec i).ac ∧
      (c.step rom unknown).out = (c.view.exec i).out := by
  have exec := at_exec unknown holds hk here other now
  exact ⟨congrArg Acc.pc exec, congrArg Acc.y exec, congrArg Acc.ac exec, congrArg Acc.out exec⟩

theorem at_load (now : At 0 ac out c) : At 1 count out (c.step rom unknown) := by
  obtain ⟨pc, y, acc, shown⟩ := at_exec_eq unknown holds (by decide) rfl Op.noConfusion now
  exact ⟨pc.trans (congrArg (· + 1) now.pc), y.trans now.y, acc, shown.trans now.out⟩

theorem at_show (now : At 1 ac out c) : At 2 ac ac (c.step rom unknown) := by
  obtain ⟨pc, y, acc, shown⟩ := at_exec_eq unknown holds (by decide) rfl Op.noConfusion now
  exact ⟨pc.trans (congrArg (· + 1) now.pc), y.trans now.y, acc.trans now.ac, shown.trans now.ac⟩

theorem at_sub (now : At 2 ac out c) : At 3 (ac - 1) out (c.step rom unknown) := by
  obtain ⟨pc, y, acc, shown⟩ := at_exec_eq unknown holds (by decide) rfl Op.noConfusion now
  exact ⟨pc.trans (congrArg (· + 1) now.pc), y.trans now.y, acc.trans (congrArg (· - 1) now.ac),
    shown.trans now.out⟩

theorem at_jz (now : At 3 ac out c) :
    At (if ac = 0 then 5 else 4) ac out (c.step rom unknown) := by
  obtain ⟨pc, y, acc, shown⟩ := at_exec_eq unknown holds (by decide) rfl Op.noConfusion now
  refine ⟨pc.trans ?_, y.trans now.y, acc.trans now.ac, shown.trans now.out⟩
  change (if c.ac = 0 then (c.y ++ 5#8).setWidth 20 else c.pc + 1) = _
  rw [now.ac, now.pc, now.y]
  split <;> rfl

theorem at_jmp (now : At 4 ac out c) : At 1 ac out (c.step rom unknown) := by
  obtain ⟨pc, y, acc, shown⟩ := at_exec_eq unknown holds (by decide) rfl Op.noConfusion now
  refine ⟨pc.trans ?_, y.trans now.y, acc.trans now.ac, shown.trans now.out⟩
  change (c.y ++ 1#8).setWidth 20 = _
  rw [now.y]
  rfl

theorem at_mark (now : At 5 ac out c) : At 6 marker out (c.step rom unknown) := by
  obtain ⟨pc, y, acc, shown⟩ := at_exec_eq unknown holds (by decide) rfl Op.noConfusion now
  exact ⟨pc.trans (congrArg (· + 1) now.pc), y.trans now.y, acc, shown.trans now.out⟩

theorem at_end (now : At 6 ac out c) : At 7 ac ac (c.step rom unknown) := by
  obtain ⟨pc, y, acc, shown⟩ := at_exec_eq unknown holds (by decide) rfl Op.noConfusion now
  exact ⟨pc.trans (congrArg (· + 1) now.pc), y.trans now.y, acc.trans now.ac, shown.trans now.ac⟩

theorem at_halt (now : At 7 ac out c) : At 7 ac out (c.step rom unknown) := by
  obtain ⟨pc, y, acc, shown⟩ := at_exec_eq unknown holds (by decide) rfl Op.noConfusion now
  refine ⟨pc.trans ?_, y.trans now.y, acc.trans now.ac, shown.trans now.out⟩
  change (c.y ++ 7#8).setWidth 20 = _
  rw [now.y]
  rfl

end

/-! ## Runs -/

section
variable {count marker : Byte} {rom : BitVec 19 → Word} (unknown : Nat → Byte) {c : Cpu}
  (holds : Holds count marker rom) (pc : c.pc = 0) (y : c.y = 0)
include holds pc y

omit pc y in
/-- The first three instructions of a turn, from the one that shows the count. -/
theorem turn_run {t : Nat} {ac out : Byte} (now : At 1 ac out (c.run rom unknown t)) :
    At 2 ac ac (c.run rom unknown (t + 1)) ∧ At 3 (ac - 1) ac (c.run rom unknown (t + 2)) ∧
      At (if ac - 1 = 0 then 5 else 4) (ac - 1) ac (c.run rom unknown (t + 3)) :=
  have shown := at_show (unknown t) holds now
  have less := at_sub (unknown (t + 1)) holds shown
  ⟨shown, less, at_jz (unknown (t + 2)) holds less⟩

/-- The start of each turn. -/
theorem turn_start (i : Nat) (hi : i < turns count) :
    ∃ out, At 1 (left count i) out (c.run rom unknown (4 * i + 1)) := by
  induction i with
  | zero =>
    have start : At 0 c.ac c.out c := ⟨pc, y, rfl, rfl⟩
    have loaded := at_load (unknown 0) holds start
    refine ⟨c.out, ?_⟩
    rw [left, BitVec.sub_zero]
    exact loaded
  | succ i ih =>
    obtain ⟨out, now⟩ := ih (by omega)
    obtain ⟨-, -, decided⟩ := turn_run unknown holds now
    have more : ¬ left count (i + 1) = 0 := by
      rw [left_zero_iff (by omega)]
      omega
    rw [left_succ, if_neg more] at decided
    exact ⟨_, at_jmp _ holds decided⟩

/-- From the marker on nothing changes. -/
theorem halted (d : Nat) : At 7 marker marker (c.run rom unknown (4 * turns count + 2 + d)) := by
  induction d with
  | zero =>
    have pos : 0 < turns count := by
      unfold turns
      split
      · decide
      · rename_i some
        exact Nat.pos_of_ne_zero fun zero => some (BitVec.eq_of_toNat_eq zero)
    obtain ⟨last, hlast⟩ : ∃ last, last + 1 = turns count := ⟨turns count - 1, by omega⟩
    obtain ⟨out, now⟩ := turn_start unknown holds pc y last (by omega)
    obtain ⟨-, -, decided⟩ := turn_run unknown holds now
    rw [left_succ, if_pos ((left_zero_iff (by omega)).mpr hlast)] at decided
    have halts := at_end (unknown (4 * last + 1 + 4)) holds
      (at_mark (unknown (4 * last + 1 + 3)) holds decided)
    rw [show 4 * turns count + 2 + 0 = 4 * last + 1 + 3 + 1 + 1 by omega]
    exact halts
  | succ d ih => exact at_halt _ holds ih

end

/-- **The program of the ROMs.** From a reset with Y at zero, whatever else the registers and
the RAM hold: the count is shown for four clocks, then each smaller number down to 1, a count
of 0 standing for 256, and from then on the marker. Zero is never shown, unless it is the
count or the marker. -/
theorem demo_law (count marker : Byte) (rom : BitVec 19 → Word) (holds : Holds count marker rom)
    (unknown : Nat → Byte) (c : Cpu) (pc : c.pc = 0) (y : c.y = 0) :
    (∀ t, (c.run rom unknown t).out =
      if t < 2 then c.out
      else if t < 4 * turns count + 2 then count - BitVec.ofNat 8 ((t - 2) / 4)
      else marker) ∧
    (count ≠ 0 → marker ≠ 0 → ∀ t, 2 ≤ t → (c.run rom unknown t).out ≠ 0) := by
  have shows (t : Nat) : (c.run rom unknown t).out =
      if t < 2 then c.out
      else if t < 4 * turns count + 2 then count - BitVec.ofNat 8 ((t - 2) / 4)
      else marker := by
    split
    · rename_i early
      have start : At 0 c.ac c.out c := ⟨pc, y, rfl, rfl⟩
      obtain rfl | rfl : t = 0 ∨ t = 1 := by omega
      · rfl
      · exact (at_load (unknown 0) holds start).out
    split
    · rename_i late loops
      obtain ⟨d, hd⟩ : ∃ d, t = 4 * ((t - 2) / 4) + 2 + d := ⟨(t - 2) % 4, by omega⟩
      have short : d < 4 := by omega
      have inside : (t - 2) / 4 < turns count := by omega
      generalize (t - 2) / 4 = i at hd inside
      obtain ⟨out, now⟩ := turn_start unknown holds pc y i inside
      obtain ⟨second, third, fourth⟩ := turn_run unknown holds now
      obtain rfl | rfl | rfl | rfl : d = 0 ∨ d = 1 ∨ d = 2 ∨ d = 3 := by omega
      · exact hd ▸ second.out
      · exact hd ▸ third.out
      · exact hd ▸ fourth.out
      · -- the jump back, or the load of the marker
        rw [hd]
        split at fourth
        · exact (at_mark (unknown (4 * i + 1 + 3)) holds fourth).out
        · exact (at_jmp (unknown (4 * i + 1 + 3)) holds fourth).out
    · rename_i late ended
      obtain ⟨d, rfl⟩ : ∃ d, t = 4 * turns count + 2 + d :=
        ⟨t - (4 * turns count + 2), by omega⟩
      exact (halted unknown holds pc y d).out
  refine ⟨shows, fun some mark t late => ?_⟩
  rw [shows, if_neg (by omega)]
  split
  · rename_i loops
    have inside : (t - 2) / 4 < turns count := by omega
    cases h : (t - 2) / 4 with
    | zero => simpa using some
    | succ i =>
      rw [h] at inside
      exact fun zero => absurd ((left_zero_iff (by omega)).mp zero) (by omega)
  · exact mark

/-- The image that the repository holds. -/
def demoRom (addr : BitVec 19) : Word :=
  ((steps 0x05 0xAA)[addr.toNat]?.map Instr.word).getD ⟨0, 0, 0⟩

/-- It shows 1, and then the marker. -/
theorem demo_law_five : (Cpu.init.run demoRom (fun _ => 0) 21).out = 1 ∧
    (Cpu.init.run demoRom (fun _ => 0) 1000).out = 0xAA := by
  have holds : Holds 0x05 0xAA demoRom := by
    intro k i here
    obtain ⟨lt, -⟩ := List.getElem?_eq_some_iff.mp here
    change k < 8 at lt
    rw [demoRom, BitVec.toNat_ofNat, Nat.mod_eq_of_lt (by omega), here]
    rfl
  have law := (demo_law 0x05 0xAA demoRom holds (fun _ => 0) Cpu.init rfl rfl).1
  exact ⟨(law 21).trans (by decide), (law 1000).trans (by decide)⟩

end Chiptune.Cpu39040
