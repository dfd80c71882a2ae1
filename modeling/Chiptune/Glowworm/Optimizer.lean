import Chiptune.Glowworm.Emit
import Chiptune.Glowworm.Machine

/-!
# The optimised code does what the plain code does

A program has a meaning of its own: every assignment is made, and a jump goes on behind its
label. The code emitted for it, with `optimize` or without, runs through the same states
but for RA and the address registers where the program does not count on them.
-/

namespace Chiptune.Glowworm

/-! ## One assignment on the simulator -/

namespace Sim

section
variable (alu : Alu) (s : Sim) (p : Prim)

def addr : AddrReg → Byte
  | .a0 => s.a0
  | .a1 => s.a1
  | .a2 => s.a2

def setAddr (x : Byte) : AddrReg → Sim
  | .a0 => { s with a0 := x }
  | .a1 => { s with a1 := x }
  | .a2 => { s with a2 := x }

def get : Byte :=
  match p.src with
  | .imm => p.x
  | .alu => (s.aluBy alu p.x).setWidth 8
  | .rf => s.rf s.ra
  | .ram => s.dataRam s.dataIndex
  | .io0 => s.io0
  | .io1 => s.io1

def latched : Sim := if p.src = .alu then { s with aluOut := s.aluBy alu p.x } else s

def put (x : Byte) : Sim :=
  match p.dst with
  | .rf => { s with rf := Function.update s.rf s.ra x }
  | .a => { s with a := x }
  | .addr k => s.setAddr x k
  | .ra => { s with ra := x }
  | .b => { s with b := x }
  | .ram => { s with dataRam := Function.update s.dataRam s.dataIndex x }
  | .alu => { s with
      aluOut := s.aluBy alu p.x
      rf := Function.update s.rf s.ra ((s.aluBy alu p.x).setWidth 8) }
  | .io0 => { s with io0 := x, io0Oe := true }
  | .io1 => { s with io1 := x, io1Oe := true }

theorem setAddr_addr (x : Byte) (k j : AddrReg) :
    (s.setAddr x k).addr j = if j = k then x else s.addr j := by
  cases k <;> cases j <;> rfl

theorem put_ra (x : Byte) : (s.put alu p x).ra = if p.dst = .ra then x else s.ra := by
  obtain ⟨d, src, y⟩ := p
  cases d with
  | addr k => cases k <;> rfl
  | _ => rfl

theorem put_addr (x : Byte) (k : AddrReg) :
    (s.put alu p x).addr k = if p.dst = .addr k then x else s.addr k := by
  obtain ⟨d, src, y⟩ := p
  cases d with
  | addr j =>
    simp only [put, setAddr_addr, Dst.addr.injEq, eq_comm]
  | _ => cases k <;> rfl

theorem put_rf {p : Prim} (table : p.dst ≠ .alu) (x : Byte) :
    (s.put alu p x).rf = if p.dst = .rf then Function.update s.rf s.ra x else s.rf := by
  obtain ⟨d, src, y⟩ := p
  cases d with
  | addr k => cases k <;> rfl
  | alu => exact absurd rfl table
  | _ => rfl

theorem latched_ra : (s.latched alu p).ra = s.ra := by
  rw [latched]
  split <;> rfl

theorem latched_rf : (s.latched alu p).rf = s.rf := by
  rw [latched]
  split <;> rfl

theorem latched_addr (k : AddrReg) : (s.latched alu p).addr k = s.addr k := by
  rw [latched]
  split
  · cases k <;> rfl
  · rfl

theorem pc_addr (n : BitVec 32) (k : AddrReg) : { s with pc := n }.addr k = s.addr k := by
  cases k <;> rfl

theorem exec_prim : s.execBy alu p.word =
    { (s.latched alu p).put alu p (s.get alu p) with pc := s.pc + 2 } := by
  have op : p.op.extractLsb' 4 4 = p.src.code ∧ p.op.extractLsb' 0 4 = p.dst.code ∧
      p.op.extractLsb' 4 4 ≤ 5 ∧ p.op ≠ 0x07 ∧ p.op ≠ 0x17 ∧ p.op ≠ 0xFF := by
    rw [Prim.op]
    generalize p.dst = d
    generalize p.src = c
    revert d c
    intro d c
    cases d with
    | addr k => cases k <;> cases c <;> decide
    | _ => cases c <;> decide
  obtain ⟨high, low, valid, h07, h17, hff⟩ := op
  rw [Prim.word, execBy_data alu s _ valid h07 h17 hff]
  have latch : s.latchBy alu (word p.op p.x) = s.latched alu p := by
    rw [Sim.latchBy, srcHi_word, high, xx_word, latched]
    cases p.src <;> rfl
  have src : s.srcBy alu (word p.op p.x) = s.get alu p := by
    rw [Sim.srcBy, srcHi_word, high, xx_word, get]
    cases p.src <;> rfl
  rw [latch, src, Sim.writeBy, dstLo_word, low, xx_word]
  generalize s.latched alu p = t
  generalize s.get alu p = x
  rw [put]
  cases p.dst with
  | addr k => cases k <;> rfl
  | _ => rfl

theorem exec_ra : (s.execBy alu p.word).ra = if p.dst = .ra then s.get alu p else s.ra := by
  rw [exec_prim]
  change ((s.latched alu p).put alu p (s.get alu p)).ra = _
  rw [put_ra, latched_ra]

theorem exec_addr (k : AddrReg) :
    (s.execBy alu p.word).addr k = if p.dst = .addr k then s.get alu p else s.addr k := by
  rw [exec_prim, pc_addr, put_addr, latched_addr]

end

end Sim

/-! ## What a program counts on -/

/-- The registers that hold what the program put there. `clear` says that the last word
emitted does not assign A2. -/
structure Facts where
  ra : Bool
  addr : AddrReg → Bool
  clear : Bool

def Facts.none : Facts where
  ra := false
  addr := fun _ => false
  clear := false

def Facts.address (f : Facts) : Bool := f.addr .a0 && f.addr .a1 && f.addr .a2

/-- An assignment counts on the registers that select its operands. The ALU table is not
written while the emitter remembers anything. -/
def Prim.Counts (p : Prim) (f : Facts) : Bool :=
  p.dst != .alu && (f.ra || (p.src != .rf && p.dst != .rf)) &&
    (f.address || (p.src != .ram && p.dst != .ram))

def Prim.after (p : Prim) (f : Facts) : Facts where
  ra := f.ra || p.dst == .ra
  addr := fun k => f.addr k || p.dst == .addr k
  clear := p.dst != .addr .a2

/-- The registers that a program does not name. -/
def Sim.core (s : Sim) : Sim := { s with pc := 0, ra := 0, a0 := 0, a1 := 0, a2 := 0 }

/-- Equal but for the program counter, RA and the address registers, and there too where
the program counts on it. -/
structure Same (f : Facts) (s t : Sim) : Prop where
  core : s.core = t.core
  ra : f.ra = true → s.ra = t.ra
  addr : ∀ k, f.addr k = true → s.addr k = t.addr k

/-- What the emitter remembers is so. -/
structure CpuO.Sound (c : CpuO) (s : Sim) : Prop where
  ra : ∀ r, c.ra = some r → s.ra = r
  num : ∀ k n, c.addr k = .num n → s.addr k = n
  rf : ∀ k r, c.addr k = .rf r → s.addr k = s.rf r

theorem sound_reset (s : Sim) : CpuO.reset.Sound s := ⟨nofun, nofun, nofun⟩

section
variable {alu : Alu} {s t : Sim} {f : Facts}

theorem core_eq (h : s.core = t.core) : s.rf = t.rf ∧ s.dataRam = t.dataRam ∧ s.a = t.a ∧
    s.b = t.b ∧ s.io0 = t.io0 ∧ s.io1 = t.io1 ∧ s.aluOut = t.aluOut := by
  simp only [Sim.core, Sim.mk.injEq] at h
  exact ⟨h.1, h.2.1, h.2.2.2.1, h.2.2.2.2.1, h.2.2.2.2.2.2.2.2.2.1, h.2.2.2.2.2.2.2.2.2.2.1,
    h.2.2.2.2.2.2.2.2.2.2.2.2.2⟩

theorem aluBy_core (h : s.core = t.core) (m : Byte) : s.aluBy alu m = t.aluBy alu m := by
  obtain ⟨-, -, a, b, -, -, out⟩ := core_eq h
  rw [Sim.aluBy, Sim.aluBy, a, b, out]

/-- Registers that a program does not name, assigned without the ALU. -/
theorem core_exec (alu : Alu) (t : Sim) {p : Prim} (dst : p.dst = .ra ∨ ∃ k, p.dst = .addr k)
    (src : p.src ≠ .alu) : (t.execBy alu p.word).core = t.core := by
  rw [Sim.exec_prim, Sim.latched, if_neg src, Sim.put]
  obtain ra | ⟨k, addr⟩ := dst
  · rw [ra]
    rfl
  · rw [addr]
    cases k <;> rfl

theorem Same.index (same : Same f s t) (known : f.address = true) : s.dataIndex = t.dataIndex := by
  simp only [Facts.address, Bool.and_eq_true] at known
  have a0 : s.a0 = t.a0 := same.addr .a0 known.1.1
  have a1 : s.a1 = t.a1 := same.addr .a1 known.1.2
  have a2 : s.a2 = t.a2 := same.addr .a2 known.2
  rw [Sim.dataIndex, Sim.dataIndex, Sim.a2a1a0, Sim.a2a1a0, a0, a1, a2]

theorem Same.get (same : Same f s t) {p : Prim} (counts : p.Counts f = true) :
    s.get alu p = t.get alu p := by
  obtain ⟨rf, ram, -, -, io0, io1, -⟩ := core_eq same.core
  have index := same.index
  have selected := same.ra
  obtain ⟨d, src, x⟩ := p
  simp only [Prim.Counts, Bool.and_eq_true, Bool.or_eq_true, bne_iff_ne] at counts
  cases src with
  | imm => rfl
  | alu =>
    change (s.aluBy alu x).setWidth 8 = (t.aluBy alu x).setWidth 8
    rw [aluBy_core same.core]
  | rf =>
    change s.rf s.ra = t.rf t.ra
    rw [rf, selected (counts.1.2.resolve_right fun h => h.1 rfl)]
  | ram =>
    change s.dataRam s.dataIndex = t.dataRam t.dataIndex
    rw [ram, index (counts.2.resolve_right fun h => h.1 rfl)]
  | io0 => exact io0
  | io1 => exact io1

theorem Same.latched (same : Same f s t) (p : Prim) :
    Same f (s.latched alu p) (t.latched alu p) := by
  refine ⟨?_, ?_, fun k => ?_⟩
  · rw [Sim.latched, Sim.latched, aluBy_core same.core]
    split
    · exact congrArg (fun c : Sim => { c with aluOut := t.aluBy alu p.x }) same.core
    · exact same.core
  · rw [Sim.latched_ra, Sim.latched_ra]
    exact same.ra
  · rw [Sim.latched_addr, Sim.latched_addr]
    exact same.addr k

theorem Same.pc (same : Same f s t) (m n : BitVec 32) :
    Same f { s with pc := m } { t with pc := n } :=
  ⟨same.core, same.ra, fun k => by rw [Sim.pc_addr, Sim.pc_addr]; exact same.addr k⟩

theorem Same.put_core (same : Same f s t) {p : Prim} (counts : p.Counts f = true) (x : Byte) :
    (s.put alu p x).core = (t.put alu p x).core := by
  obtain ⟨rf, ram, -⟩ := core_eq same.core
  have index := same.index
  have selected := same.ra
  have core := same.core
  obtain ⟨d, src, y⟩ := p
  simp only [Prim.Counts, Bool.and_eq_true, Bool.or_eq_true, bne_iff_ne] at counts
  cases d with
  | rf =>
    simp only [Sim.put, selected (counts.1.2.resolve_right fun h => h.2 rfl), rf]
    exact congrArg (fun c : Sim => { c with rf := Function.update t.rf t.ra x }) core
  | a => exact congrArg (fun c : Sim => { c with a := x }) core
  | addr k => cases k <;> exact core
  | ra => exact core
  | b => exact congrArg (fun c : Sim => { c with b := x }) core
  | ram =>
    simp only [Sim.put, index (counts.2.resolve_right fun h => h.2 rfl), ram]
    exact congrArg (fun c : Sim => { c with
      dataRam := Function.update t.dataRam t.dataIndex x }) core
  | alu => exact absurd rfl counts.1.1
  | io0 => exact congrArg (fun c : Sim => { c with io0 := x, io0Oe := true }) core
  | io1 => exact congrArg (fun c : Sim => { c with io1 := x, io1Oe := true }) core

theorem Same.put (same : Same f s t) {p : Prim} (counts : p.Counts f = true) (x : Byte) :
    Same (p.after f) (s.put alu p x) (t.put alu p x) := by
  refine ⟨same.put_core counts x, fun known => ?_, fun k known => ?_⟩
  · rw [Sim.put_ra, Sim.put_ra]
    split
    · rfl
    · rename_i other
      exact same.ra (by simpa [Prim.after, other] using known)
  · rw [Sim.put_addr, Sim.put_addr]
    split
    · rfl
    · rename_i other
      exact same.addr k (by simpa [Prim.after, other] using known)

/-- An assignment keeps states alike. -/
theorem Same.prim (same : Same f s t) {p : Prim} (counts : p.Counts f = true) :
    Same (p.after f) (s.execBy alu p.word) (t.execBy alu p.word) := by
  rw [Sim.exec_prim, Sim.exec_prim, same.get counts]
  exact ((same.latched p).put counts _).pc _ _

/-! ## The memory stays sound -/

theorem sound_pc {c : CpuO} (sound : c.Sound s) (n : BitVec 32) : c.Sound { s with pc := n } :=
  ⟨sound.ra, fun k => by rw [Sim.pc_addr]; exact sound.num k,
    fun k => by rw [Sim.pc_addr]; exact sound.rf k⟩

theorem sound_latched {c : CpuO} (sound : c.Sound s) (p : Prim) : c.Sound (s.latched alu p) :=
  ⟨by rw [Sim.latched_ra]; exact sound.ra, fun k => by rw [Sim.latched_addr]; exact sound.num k,
    fun k => by rw [Sim.latched_addr, Sim.latched_rf]; exact sound.rf k⟩

theorem written_num {ra : Option Byte} {k : Known} {n : Byte} (h : k.written ra = .num n) :
    k = .num n := by
  cases ra with
  | none => cases h
  | some q =>
    simp only [Known.written] at h
    split_ifs at h
    exact h

theorem written_rf {ra : Option Byte} {k : Known} {r : Byte} (h : k.written ra = .rf r) :
    k = .rf r ∧ ∃ q, ra = some q ∧ r ≠ q := by
  cases ra with
  | none => cases h
  | some q =>
    simp only [Known.written] at h
    split_ifs at h with copy
    refine ⟨h, q, rfl, ?_⟩
    rintro rfl
    exact copy h

theorem assigned_num {c : CpuO} {p : Prim} {n : Byte} (h : c.assigned p = .num n) :
    p.src = .imm ∧ n = p.x := by
  obtain ⟨d, src, x⟩ := p
  cases src with
  | imm => exact ⟨rfl, (Known.num.inj h).symm⟩
  | rf =>
    rw [CpuO.assigned] at h
    cases ra : c.ra <;> simp [ra] at h
  | _ => cases h

theorem assigned_rf {c : CpuO} {p : Prim} {r : Byte} (h : c.assigned p = .rf r) :
    p.src = .rf ∧ c.ra = some r := by
  obtain ⟨d, src, x⟩ := p
  cases src with
  | rf =>
    rw [CpuO.assigned] at h
    cases ra : c.ra with
    | none => simp [ra] at h
    | some q =>
      simp only [ra, Known.rf.injEq] at h
      exact ⟨rfl, by rw [h]⟩
  | _ => cases h

theorem sound_put {c : CpuO} (sound : c.Sound s) {p : Prim} (table : p.dst ≠ .alu) {x : Byte}
    (imm : p.src = .imm → x = p.x) (rf : p.src = .rf → x = s.rf s.ra) :
    (c.assign p).Sound (s.put alu p x) := by
  have ra := s.put_ra alu p x
  have addr := s.put_addr alu p x
  have file := s.put_rf alu table x
  cases d : p.dst with
  | rf =>
    simp only [d, reduceCtorEq, ↓reduceIte] at ra addr file
    simp only [CpuO.assign, d]
    refine ⟨by rw [ra]; exact sound.ra, fun k n known => ?_, fun k r known => ?_⟩
    · rw [addr]
      exact sound.num k n (written_num known)
    · obtain ⟨copy, q, here, other⟩ := written_rf known
      rw [addr, file, sound.ra q here, Function.update_of_ne other]
      exact sound.rf k r copy
  | addr k =>
    simp only [d, reduceCtorEq, ↓reduceIte, Dst.addr.injEq] at ra addr file
    simp only [CpuO.assign, d]
    refine ⟨by rw [ra]; exact sound.ra, fun j n known => ?_, fun j r known => ?_⟩
    · rw [addr]
      by_cases here : k = j
      · subst here
        simp only [Function.update_self] at known
        obtain ⟨src, rfl⟩ := assigned_num known
        rw [if_pos rfl, imm src]
      · simp only [Function.update_of_ne (Ne.symm here)] at known
        rw [if_neg here]
        exact sound.num j n known
    · rw [addr, file]
      by_cases here : k = j
      · subst here
        simp only [Function.update_self] at known
        obtain ⟨src, select⟩ := assigned_rf known
        rw [if_pos rfl, rf src, sound.ra r select]
      · simp only [Function.update_of_ne (Ne.symm here)] at known
        rw [if_neg here]
        exact sound.rf j r known
  | ra =>
    simp only [d, reduceCtorEq, ↓reduceIte] at ra addr file
    simp only [CpuO.assign, d]
    refine ⟨fun r known => ?_, fun k => by rw [addr]; exact sound.num k,
      fun k => by rw [addr, file]; exact sound.rf k⟩
    split_ifs at known with src
    rw [ra, imm src]
    exact Option.some.inj known
  | alu => exact absurd d table
  | _ =>
    simp only [d, reduceCtorEq, ↓reduceIte] at ra addr file
    simp only [CpuO.assign, d]
    exact ⟨by rw [ra]; exact sound.ra, fun k => by rw [addr]; exact sound.num k,
      fun k => by rw [addr, file]; exact sound.rf k⟩

theorem sound_prim {c : CpuO} (sound : c.Sound s) {p : Prim} (table : p.dst ≠ .alu) :
    (c.assign p).Sound (s.execBy alu p.word) := by
  rw [Sim.exec_prim]
  refine sound_pc (sound_put (sound_latched sound p) table (fun src => ?_) fun src => ?_) _
  · rw [Sim.get, src]
  · rw [Sim.get, src, Sim.latched_rf, Sim.latched_ra]

end

/-! ## The words emitted -/

namespace Gen

section
variable (g : Gen)

theorem romAddIns_rom {g : Gen} (room : g.rom.length < romWords) (ir : Word) :
    (g.romAddIns ir).rom = g.rom ++ [ir] := by
  rw [romAddIns, if_pos (by rw [cp]; omega)]

@[simp] theorem romAddIns_cpu (ir : Word) : (g.romAddIns ir).cpu = g.cpu := by
  rw [romAddIns]
  split <;> rfl

theorem romAddIns_extends (ir : Word) : g.rom <+: (g.romAddIns ir).rom := by
  rw [romAddIns]
  split
  · exact List.prefix_append _ _
  · exact List.prefix_refl _

theorem genNop_prefix (d : Dst) : g.rom <+: (g.genNop d).rom := by
  rw [genNop]
  split
  · exact g.romAddIns_extends nop
  · exact List.prefix_refl _

theorem nops_prefix (ds : List Dst) : g.rom <+: (ds.foldl genNop g).rom := by
  induction ds generalizing g with
  | nil => exact List.prefix_refl _
  | cons d ds ih => exact (g.genNop_prefix d).trans (ih _)

theorem prim_extends (p : Prim) : g.rom <+: (g.prim p).rom :=
  (g.nops_prefix p.hazards).trans (romAddIns_extends _ p.word)

theorem raO_prefix (optimize : Bool) (r : Byte) : g.rom <+: (g.raO optimize r).rom := by
  rw [raO]
  split
  · exact g.prim_extends _
  · exact List.prefix_refl _

theorem asgn_prefix (optimize : Bool) (a : Asgn) : g.rom <+: (g.asgn optimize a).rom := by
  cases a with
  | prim p => exact g.prim_extends p
  | raO r => exact g.raO_prefix optimize r
  | addrO k n =>
    rw [asgn]
    split
    · exact g.prim_extends _
    · exact List.prefix_refl _
  | addrRfO k r =>
    rw [asgn]
    split
    · exact (g.raO_prefix optimize r).trans (prim_extends _ _)
    · exact List.prefix_refl _

/-- The hazards of an assignment cost it NOPs only. -/
theorem nops_emit {g : Gen} (ds : List Dst) (room : (ds.foldl genNop g).rom.length < romWords) :
    ∃ n, (ds.foldl genNop g).rom = g.rom ++ List.replicate n nop ∧
      (ds.foldl genNop g).cpu = g.cpu := by
  induction ds generalizing g with
  | nil => exact ⟨0, (List.append_nil _).symm, rfl⟩
  | cons d ds ih =>
    obtain ⟨n, rom, cpu⟩ := ih room
    rw [List.foldl_cons, rom, cpu, genNop]
    split
    · have here : g.rom.length < romWords :=
        Nat.lt_of_le_of_lt (g.nops_prefix (d :: ds)).length_le room
      exact ⟨n + 1, by rw [romAddIns_rom here, List.append_assoc]; rfl, g.romAddIns_cpu nop⟩
    · exact ⟨n, rfl, rfl⟩

theorem prim_emits {g : Gen} {p : Prim} (room : (g.prim p).rom.length < romWords) :
    (∃ n, (g.prim p).rom = g.rom ++ (List.replicate n nop ++ [p.word])) ∧
      (g.prim p).cpu = g.cpu.assign p := by
  have before : (p.hazards.foldl genNop g).rom.length < romWords :=
    Nat.lt_of_le_of_lt (romAddIns_extends _ p.word).length_le room
  obtain ⟨n, rom, cpu⟩ := nops_emit p.hazards before
  refine ⟨⟨n, ?_⟩, ?_⟩
  · change ((p.hazards.foldl genNop g).romAddIns p.word).rom = _
    rw [romAddIns_rom before, rom, List.append_assoc]
  · change (p.hazards.foldl genNop g).cpu.assign p = _
    rw [cpu]

end

end Gen

/-! ## An assignment of a program -/

/-- All that an assignment stands for. -/
def Asgn.all : Asgn → List Prim
  | .prim p => [p]
  | .raO r => [⟨.ra, .imm, r⟩]
  | .addrO k n => [⟨.addr k, .imm, n⟩]
  | .addrRfO k r => [⟨.ra, .imm, r⟩, ⟨.addr k, .rf, 0xFF⟩]

def Sim.act (alu : Alu) (s : Sim) (a : Asgn) : Sim := s.execAllBy alu (a.all.map Prim.word)

def Asgn.Counts (a : Asgn) (f : Facts) : Bool :=
  match a with
  | .prim p => p.Counts f
  | _ => true

def Asgn.after (a : Asgn) (f : Facts) : Facts :=
  match a with
  | .prim p => p.after f
  | .raO _ => { f with ra := true }
  | .addrO k _ => { f with
      addr := fun j => f.addr j || k == j
      clear := f.clear && k != .a2 }
  | .addrRfO k _ => { f with
      ra := false
      addr := fun j => f.addr j || k == j
      clear := f.clear && k != .a2 }

theorem nops_same {alu : Alu} {f : Facts} {s t : Sim} (same : Same f s t) (n : Nat) :
    Same f (s.execAllBy alu (List.replicate n nop)) t := by
  induction n generalizing s with
  | zero => exact same
  | succ n ih =>
    rw [List.replicate_succ, Sim.execAllBy_cons, Sim.execBy_nop]
    exact ih (same.pc (s.pc + 2) t.pc)

theorem nops_sound {alu : Alu} {c : CpuO} {s : Sim} (sound : c.Sound s) (n : Nat) :
    c.Sound (s.execAllBy alu (List.replicate n nop)) := by
  induction n generalizing s with
  | zero => exact sound
  | succ n ih =>
    rw [List.replicate_succ, Sim.execAllBy_cons, Sim.execBy_nop]
    exact ih (sound_pc sound _)

/-- Code that does what the assignments `ps` do, from a state like the program's of which
the emitter remembers `c`. -/
structure Effects (alu : Alu) (c : CpuO) (f : Facts) (ps : List Prim) (c' : CpuO) (f' : Facts)
    (ws : List Word) : Prop where
  straight : Sim.StraightCode ws
  sound : ∀ s, c.Sound s → c'.Sound (s.execAllBy alu ws)
  same : ∀ s t, c.Sound s → Same f s t →
    Same f' (s.execAllBy alu ws) (t.execAllBy alu (ps.map Prim.word))

namespace Effects

variable {alu : Alu} {c c' c'' : CpuO} {f f' f'' : Facts} {ps qs : List Prim} {ws vs : List Word}

theorem append (first : Effects alu c f ps c' f' ws) (second : Effects alu c' f' qs c'' f'' vs) :
    Effects alu c f (ps ++ qs) c'' f'' (ws ++ vs) := by
  refine ⟨Sim.straightCode_append.mpr ⟨first.straight, second.straight⟩, fun s sound => ?_,
    fun s t sound same => ?_⟩
  · rw [Sim.execAllBy_append]
    exact second.sound _ (first.sound s sound)
  · rw [List.map_append, Sim.execAllBy_append, Sim.execAllBy_append]
    exact second.same _ _ (first.sound s sound) (first.same s t sound same)

/-- Counting on less. -/
theorem weaken (effects : Effects alu c f ps c' f' ws) (ra : f''.ra = true → f'.ra = true)
    (addr : ∀ k, f''.addr k = true → f'.addr k = true) : Effects alu c f ps c' f'' ws := by
  refine ⟨effects.straight, effects.sound, fun s t sound same => ?_⟩
  have after := effects.same s t sound same
  exact ⟨after.core, fun known => after.ra (ra known), fun k known => after.addr k (addr k known)⟩

end Effects

theorem prim_straight (p : Prim) : Sim.Straight p.word := by
  have apart : p.op ≠ 0x07 ∧ p.op ≠ 0x17 := by
    rw [Prim.op]
    generalize p.dst = d
    generalize p.src = c
    cases d with
    | addr k => cases k <;> cases c <;> decide
    | _ => cases c <;> decide
  rw [Prim.word, Sim.straight_word]
  exact apart

theorem nops_straight (n : Nat) : Sim.StraightCode (List.replicate n nop) := by
  intro ir mem
  rw [(List.mem_replicate.mp mem).2]
  simp [nop]

namespace Gen

variable {alu : Alu} {g : Gen} {f : Facts}

theorem prim_effects {p : Prim} (counts : p.Counts f = true)
    (room : (g.prim p).rom.length < romWords) :
    ∃ ws, (g.prim p).rom = g.rom ++ ws ∧ Effects alu g.cpu f [p] (g.prim p).cpu (p.after f) ws := by
  obtain ⟨⟨n, rom⟩, cpu⟩ := prim_emits room
  have table : p.dst ≠ .alu := by
    simp only [Prim.Counts, Bool.and_eq_true, bne_iff_ne] at counts
    exact counts.1.1
  refine ⟨_, rom, ⟨?_, fun s sound => ?_, fun s t sound same => ?_⟩⟩
  · simp [prim_straight, nops_straight]
  · rw [cpu, Sim.execAllBy_append]
    exact sound_prim (nops_sound sound n) table
  · rw [Sim.execAllBy_append]
    exact (nops_same same n).prim counts

/-- RA that holds the number already. -/
theorem ra_effects {c : CpuO} {r : Byte} (known : c.ra = some r) :
    Effects alu c f [⟨.ra, .imm, r⟩] c { f with ra := true } [] := by
  refine ⟨Sim.straightCode_nil, fun s sound => sound, fun s t sound same => ?_⟩
  simp only [List.map_cons, List.map_nil, Sim.execAllBy_cons, Sim.execAllBy_nil]
  have core := core_exec alu t (p := ⟨.ra, .imm, r⟩) (.inl rfl) nofun
  refine ⟨same.core.trans core.symm, fun _ => ?_, fun k known' => ?_⟩
  · rw [Sim.exec_ra, if_pos rfl]
    exact sound.ra r known
  · rw [Sim.exec_addr, if_neg Dst.noConfusion]
    exact same.addr k known'

theorem raO_effects {optimize : Bool} {r : Byte}
    (room : (g.raO optimize r).rom.length < romWords) :
    ∃ ws, (g.raO optimize r).rom = g.rom ++ ws ∧
      Effects alu g.cpu f [⟨.ra, .imm, r⟩] (g.raO optimize r).cpu { f with ra := true } ws := by
  rw [raO] at room ⊢
  split at room
  · rename_i emitted
    rw [if_pos emitted]
    obtain ⟨ws, rom, effects⟩ := prim_effects (f := f) (p := ⟨.ra, .imm, r⟩) (by
      simp [Prim.Counts]) room
    exact ⟨ws, rom, effects.weaken (fun _ => by simp [Prim.after]) fun k => by simp [Prim.after]⟩
  · rename_i skipped
    rw [if_neg skipped]
    simp only [Bool.or_eq_true, Bool.not_eq_true', decide_eq_true_eq, not_or, not_not] at skipped
    exact ⟨[], (List.append_nil _).symm, ra_effects skipped.2⟩

/-- An address register that holds the number already. -/
theorem num_effects {c : CpuO} {k : AddrReg} {n : Byte} (known : c.addr k = .num n) :
    Effects alu c f [⟨.addr k, .imm, n⟩] c ((Asgn.addrO k n).after f) [] := by
  refine ⟨Sim.straightCode_nil, fun s sound => sound, fun s t sound same => ?_⟩
  simp only [List.map_cons, List.map_nil, Sim.execAllBy_cons, Sim.execAllBy_nil]
  have core := core_exec alu t (p := ⟨.addr k, .imm, n⟩) (.inr ⟨k, rfl⟩) nofun
  refine ⟨same.core.trans core.symm, fun known' => ?_, fun j known' => ?_⟩
  · rw [Sim.exec_ra, if_neg Dst.noConfusion]
    exact same.ra known'
  · rw [Sim.exec_addr]
    split_ifs with here
    · rw [← Dst.addr.inj here]
      exact sound.num k n known
    · have other : k ≠ j := fun e => here (congrArg Dst.addr e)
      exact same.addr j (by simpa [Asgn.after, other] using known')

/-- An address register that holds the register of the file already. -/
theorem rf_effects {c : CpuO} {k : AddrReg} {r : Byte} (known : c.addr k = .rf r) :
    Effects alu c f [⟨.ra, .imm, r⟩, ⟨.addr k, .rf, 0xFF⟩] c ((Asgn.addrRfO k r).after f) [] := by
  refine ⟨Sim.straightCode_nil, fun s sound => sound, fun s t sound same => ?_⟩
  simp only [List.map_cons, List.map_nil, Sim.execAllBy_cons, Sim.execAllBy_nil]
  have core := (core_exec alu (t.execBy alu (Prim.word ⟨.ra, .imm, r⟩)) (p := ⟨.addr k, .rf, 0xFF⟩)
    (.inr ⟨k, rfl⟩) nofun).trans (core_exec alu t (.inl rfl) nofun)
  refine ⟨same.core.trans core.symm, Bool.noConfusion, fun j known' => ?_⟩
  rw [Sim.exec_addr]
  split_ifs with here
  · rw [← Dst.addr.inj here, sound.rf k r known, (core_eq same.core).1, Sim.get, Sim.exec_ra,
      if_pos rfl, (core_eq (core_exec alu t (p := ⟨.ra, .imm, r⟩) (.inl rfl) nofun)).1]
    rfl
  · have other : k ≠ j := fun e => here (congrArg Dst.addr e)
    rw [Sim.exec_addr, if_neg Dst.noConfusion]
    exact same.addr j (by simpa [Asgn.after, other] using known')

/-- **An assignment** has the same effect with the optimiser and without it. -/
theorem asgn_effects {optimize : Bool} {a : Asgn} (counts : a.Counts f = true)
    (room : (g.asgn optimize a).rom.length < romWords) :
    ∃ ws, (g.asgn optimize a).rom = g.rom ++ ws ∧
      Effects alu g.cpu f a.all (g.asgn optimize a).cpu (a.after f) ws := by
  cases a with
  | prim p => exact prim_effects counts room
  | raO r => exact raO_effects room
  | addrO k n =>
    rw [asgn] at room ⊢
    split at room
    · rename_i emitted
      rw [if_pos emitted]
      obtain ⟨ws, rom, effects⟩ := prim_effects (f := f) (p := ⟨.addr k, .imm, n⟩) (by
        simp [Prim.Counts]) room
      refine ⟨ws, rom, effects.weaken (fun known => ?_) fun j known => ?_⟩
      · simpa [Prim.after, Asgn.after] using known
      · simpa [Prim.after, Asgn.after] using known
    · rename_i skipped
      rw [if_neg skipped]
      simp only [Bool.or_eq_true, Bool.not_eq_true', decide_eq_true_eq, not_or, not_not] at skipped
      exact ⟨[], (List.append_nil _).symm, num_effects skipped.2⟩
  | addrRfO k r =>
    rw [asgn] at room ⊢
    split at room
    · rename_i emitted
      rw [if_pos emitted]
      have select : (g.raO optimize r).rom.length < romWords :=
        Nat.lt_of_le_of_lt (prim_extends _ _).length_le room
      obtain ⟨vs, first, selects⟩ := raO_effects (f := f) select
      obtain ⟨ws, rom, effects⟩ := prim_effects (f := { f with ra := true })
        (p := ⟨.addr k, .rf, 0xFF⟩) (by simp [Prim.Counts]) room
      refine ⟨vs ++ ws, by rw [rom, first, List.append_assoc], ?_⟩
      exact (selects.append effects).weaken (fun known => by cases known) fun j known => by
        simpa [Prim.after, Asgn.after] using known
    · rename_i skipped
      rw [if_neg skipped]
      simp only [Bool.or_eq_true, Bool.not_eq_true', decide_eq_true_eq, not_or, not_not] at skipped
      exact ⟨[], (List.append_nil _).symm, rf_effects skipped.2⟩

end Gen

end Chiptune.Glowworm
