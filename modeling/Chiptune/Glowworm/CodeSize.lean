import Chiptune.Glowworm.Program

/-!
# The optimised code is never longer

An assignment that is left out can cost a NOP later: the word before the next one is then
another. It cannot cost more.
-/

namespace Chiptune.Glowworm

theorem code_ne_nop (d : Dst) : (dstLo nop == d.code) = false := by
  cases d with
  | addr k => cases k <;> rfl
  | _ => rfl

namespace Gen

variable {g h : Gen}

/-- The destination of the last instruction. -/
def last (g : Gen) : Option (BitVec 4) := g.rom.getLast?.map dstLo

theorem upIs_last (same : g.last = h.last) : g.upIs = h.upIs := by
  funext d
  rw [upIs, upIs, ← last, ← last, same]

theorem last_append {ws : List Word} {ir : Word} (rom : g.rom = ws ++ [ir]) :
    g.last = some (dstLo ir) := by
  rw [last, rom, List.getLast?_concat]
  rfl

theorem nops_quiet (ds : List Dst) (quiet : ∀ d, g.upIs d = false) : ds.foldl genNop g = g := by
  induction ds with
  | nil => rfl
  | cons d ds ih =>
    rw [List.foldl_cons, genNop, quiet d]
    exact ih

/-- The NOPs that an assignment costs. -/
def cost (g : Gen) (p : Prim) : Nat := if p.hazards.any g.upIs then 1 else 0

theorem cost_le (g : Gen) (p : Prim) : g.cost p ≤ 1 := by
  rw [cost]
  split <;> decide

/-- One NOP is enough. -/
theorem nops_length (ds : List Dst) (room : g.rom.length < romWords) :
    (ds.foldl genNop g).rom.length = g.rom.length + if ds.any g.upIs then 1 else 0 := by
  induction ds with
  | nil => rfl
  | cons d ds ih =>
    rw [List.foldl_cons, genNop]
    cases up : g.upIs d with
    | false =>
      simp only [Bool.false_eq_true, ↓reduceIte]
      rw [ih, List.any_cons, up, Bool.false_or]
    | true =>
      have rom := romAddIns_rom room nop
      simp only [↓reduceIte, List.any_cons, up, Bool.true_or]
      rw [nops_quiet ds fun e => by rw [upIs_append rom]; exact code_ne_nop e, rom,
        List.length_append]
      rfl

theorem prim_length {p : Prim} (room : g.rom.length + g.cost p < romWords) :
    (g.prim p).rom.length = g.rom.length + g.cost p + 1 ∧
      (g.prim p).last = some p.dst.code := by
  have nops : (p.hazards.foldl genNop g).rom.length = g.rom.length + g.cost p :=
    nops_length _ (by omega)
  have rom : (g.prim p).rom = (p.hazards.foldl genNop g).rom ++ [p.word] :=
    romAddIns_rom (by rw [nops]; exact room) p.word
  refine ⟨by rw [rom, List.length_append, nops]; rfl, ?_⟩
  rw [last_append rom, dstLo_prim]

theorem prim_room {p : Prim} (room : (g.prim p).rom.length < romWords) :
    g.rom.length + g.cost p < romWords := by
  rw [cost, ← nops_length _ (Nat.lt_of_le_of_lt (g.prim_extends p).length_le room)]
  exact Nat.lt_of_le_of_lt (romAddIns_extends _ p.word).length_le room

/-! ## One emitter behind another -/

/-- Not longer; and of the same length only with the same last destination. -/
structure Within (g h : Gen) : Prop where
  length : g.rom.length ≤ h.rom.length
  last : g.rom.length = h.rom.length → g.last = h.last

namespace Within

theorem of_rom {g' h' : Gen} (within : Within g h) (rom : g'.rom = g.rom) (rom' : h'.rom = h.rom) :
    Within g' h' := by
  refine ⟨?_, ?_⟩
  · rw [rom, rom']
    exact within.length
  · rw [rom, rom', Gen.last, Gen.last, rom, rom']
    exact within.last

/-- Both emit a word: at most one NOP more, if one was ahead already. -/
theorem prim (within : Within g h) {p : Prim} (room : (h.prim p).rom.length < romWords) :
    Within (g.prim p) (h.prim p) := by
  have costs : g.rom.length + g.cost p ≤ h.rom.length + h.cost p := by
    obtain same | less := within.length.eq_or_lt
    · rw [same, cost, cost, upIs_last (within.last same)]
    · have := g.cost_le p
      omega
  obtain ⟨longer, last⟩ := prim_length (prim_room room)
  obtain ⟨length, last'⟩ := prim_length (g := g) (p := p) (costs.trans_lt (prim_room room))
  exact ⟨by omega, fun _ => last'.trans last.symm⟩

/-- Only the plain code has the word. -/
theorem skip (within : Within g h) {p : Prim} (room : (h.prim p).rom.length < romWords) :
    Within g (h.prim p) := by
  have longer := (prim_length (prim_room room)).1
  have := within.length
  exact ⟨by omega, fun same => by omega⟩

theorem romAddIns (within : Within g h) {ir : Word} (room : (h.romAddIns ir).rom.length < romWords) :
    Within (g.romAddIns ir) (h.romAddIns ir) := by
  have full : h.rom.length < romWords :=
    Nat.lt_of_le_of_lt (h.romAddIns_extends ir).length_le room
  have rom := romAddIns_rom full ir
  have rom' := romAddIns_rom (within.length.trans_lt full) ir
  refine ⟨?_, fun _ => (last_append rom').trans (last_append rom).symm⟩
  rw [rom, rom', List.length_append, List.length_append]
  exact Nat.add_le_add_right within.length 1

theorem raO (within : Within g h) {r : Byte} (room : (h.raO false r).rom.length < romWords) :
    Within (g.raO true r) (h.raO false r) := by
  change (h.prim ⟨.ra, .imm, r⟩).rom.length < romWords at room
  change Within _ (h.prim ⟨.ra, .imm, r⟩)
  rw [Gen.raO]
  split
  · exact within.prim room
  · exact within.skip room

theorem asgn (within : Within g h) {a : Asgn} (room : (h.asgn false a).rom.length < romWords) :
    Within (g.asgn true a) (h.asgn false a) := by
  cases a with
  | prim p => exact within.prim room
  | raO r => exact within.raO room
  | addrO k n =>
    change (h.prim ⟨.addr k, .imm, n⟩).rom.length < romWords at room
    change Within _ (h.prim ⟨.addr k, .imm, n⟩)
    rw [Gen.asgn]
    split
    · exact within.prim room
    · exact within.skip room
  | addrRfO k r =>
    change ((h.raO false r).prim ⟨.addr k, .rf, 0xFF⟩).rom.length < romWords at room
    change Within _ ((h.raO false r).prim ⟨.addr k, .rf, 0xFF⟩)
    have select : (h.raO false r).rom.length < romWords :=
      Nat.lt_of_le_of_lt (prim_extends _ _).length_le room
    rw [Gen.asgn]
    split
    · exact (within.raO select).prim room
    · exact Within.skip (within.skip select) room

end Within

end Gen

namespace Out

variable {o o' : Out}

theorem jumpTo_within (within : Gen.Within o.gen o'.gen) {ir : Word} {l : Nat}
    (room : (o'.jumpTo false ir l).gen.rom.length < romWords) :
    Gen.Within (o.jumpTo true ir l).gen (o'.jumpTo false ir l).gen := by
  rw [jumpTo_gen_rom] at room
  have room₀ : (addressed o'.gen).rom.length < romWords :=
    Nat.lt_of_le_of_lt (Gen.romAddIns_extends _ ir).length_le room
  have room₁ := Nat.lt_of_le_of_lt (Gen.prim_extends _ ⟨.addr .a0, .imm, 0⟩).length_le room₀
  have room₂ := Nat.lt_of_le_of_lt (Gen.prim_extends _ ⟨.addr .a1, .imm, 0⟩).length_le room₁
  have after := (((within.prim room₂).prim room₁).prim room₀).romAddIns room
  exact after.of_rom (jumpTo_gen_rom ir l) (jumpTo_gen_rom ir l)

theorem item_within (within : Gen.Within o.gen o'.gen) {i : Item}
    (room : (o'.item false i).gen.rom.length < romWords) :
    Gen.Within (o.item true i).gen (o'.item false i).gen := by
  cases i with
  | asgn a => exact within.asgn room
  | label l => exact within.of_rom rfl rfl
  | jump l => exact jumpTo_within within room
  | ifalu m l => exact jumpTo_within within room

theorem items_within (within : Gen.Within o.gen o'.gen) {is : List Item}
    (room : (o'.items false is).gen.rom.length < romWords) :
    Gen.Within (o.items true is).gen (o'.items false is).gen := by
  induction is generalizing o o' with
  | nil => exact within
  | cons i is ih =>
    exact ih (item_within within (Nat.lt_of_le_of_lt (items_extends is).length_le room)) room

end Out

/-- **The optimised code** of a program is not longer than the plain code. -/
theorem optimized_le (g : Gen) (is : List Item)
    (room : (compile false g is).gen.rom.length < romWords) :
    (compile true g is).gen.rom.length ≤ (compile false g is).gen.rom.length := by
  have within : Gen.Within (compile true g is).gen (compile false g is).gen :=
    Out.items_within ⟨Nat.le_refl _, fun _ => rfl⟩ room
  exact within.length

theorem optimized_le_loop : (compile true noCode loopItems).gen.rom.length ≤
    (compile false noCode loopItems).gen.rom.length :=
  optimized_le noCode loopItems (by decide)

end Chiptune.Glowworm
