import Chiptune.Glowworm.Program

/-!
# Routines on the register file

The compiler links in routines that use A, B and the register file only, written with the
primitives that select a register first. On such code the machine with the table is a
smaller one, `Regs`, and its jumps go from place to place in the item list.
-/

namespace Chiptune.Glowworm

/-! ## Register code -/

/-- What such code moves. -/
structure Regs where
  rf : Byte → Byte
  a : Byte
  b : Byte
  ra : Byte

/-- `A_ASGN__RF`, `B_ASGN__RF`, `A_ASGN_ALU`, `B_ASGN_ALU`, `RF_ASGN_ALU`, `_RF_ASGN_ALU`
and `_RF_ASGN_IMMNUM`. -/
inductive Op
  | aRf (r : Byte)
  | bRf (r : Byte)
  | aAlu (m : AluMode)
  | bAlu (m : AluMode)
  | rfAlu (m : AluMode)
  | rfAluAt (r : Byte) (m : AluMode)
  | rfImm (r x : Byte)

def Op.asgns : Op → List Asgn
  | .aRf r => [.prim ⟨.ra, .imm, r⟩, .prim ⟨.a, .rf, 0xFF⟩]
  | .bRf r => [.prim ⟨.ra, .imm, r⟩, .prim ⟨.b, .rf, 0xFF⟩]
  | .aAlu m => [.prim ⟨.a, .alu, m.code⟩]
  | .bAlu m => [.prim ⟨.b, .alu, m.code⟩]
  | .rfAlu m => [.prim ⟨.rf, .alu, m.code⟩]
  | .rfAluAt r m => [.prim ⟨.ra, .imm, r⟩, .prim ⟨.rf, .alu, m.code⟩]
  | .rfImm r x => [.prim ⟨.ra, .imm, r⟩, .prim ⟨.rf, .imm, x⟩]

def asgns (ops : List Op) : List Asgn := ops.flatMap Op.asgns

def code (ops : List Op) : List Item := (asgns ops).map .asgn

@[simp] theorem code_append (ops ops' : List Op) : code (ops ++ ops') = code ops ++ code ops' := by
  simp [code, asgns]

namespace Regs

variable (x : Regs)

def put (v : Byte) : Dst → Regs
  | .rf => { x with rf := Function.update x.rf x.ra v }
  | .a => { x with a := v }
  | .b => { x with b := v }
  | .ra => { x with ra := v }
  | _ => x

/-- The ALU is the table. -/
def op : Op → Regs
  | .aRf r => { x with a := x.rf r, ra := r }
  | .bRf r => { x with b := x.rf r, ra := r }
  | .aAlu m => { x with a := CpuInit.stored m x.a x.b }
  | .bAlu m => { x with b := CpuInit.stored m x.a x.b }
  | .rfAlu m => { x with rf := Function.update x.rf x.ra (CpuInit.stored m x.a x.b) }
  | .rfAluAt r m => { x with rf := Function.update x.rf r (CpuInit.stored m x.a x.b), ra := r }
  | .rfImm r n => { x with rf := Function.update x.rf r n, ra := r }

def run (ops : List Op) : Regs := ops.foldl op x

/-- What a conditional jump looks at. -/
def test (m : AluMode) : Bool := (CpuInit.stored m x.a x.b).getLsbD 0

@[simp] theorem run_nil : x.run [] = x := rfl

@[simp] theorem run_cons (o : Op) (ops : List Op) : x.run (o :: ops) = (x.op o).run ops := rfl

theorem run_append (ops ops' : List Op) : x.run (ops ++ ops') = (x.run ops).run ops' :=
  List.foldl_append

end Regs

/-! ## Register code on the machine -/

namespace Sim

def regs (s : Sim) : Regs := ⟨s.rf, s.a, s.b, s.ra⟩

/-- Memory and ports are not touched. -/
structure Leaves (s t : Sim) : Prop where
  ram : t.dataRam = s.dataRam
  io0 : t.io0 = s.io0
  io1 : t.io1 = s.io1
  io0Oe : t.io0Oe = s.io0Oe
  io1Oe : t.io1Oe = s.io1Oe

theorem Leaves.refl (s : Sim) : s.Leaves s := ⟨rfl, rfl, rfl, rfl, rfl⟩

theorem Leaves.trans {s t u : Sim} (first : s.Leaves t) (second : t.Leaves u) : s.Leaves u :=
  ⟨second.ram.trans first.ram, second.io0.trans first.io0, second.io1.trans first.io1,
    second.io0Oe.trans first.io0Oe, second.io1Oe.trans first.io1Oe⟩

def acts (alu : Alu) (s : Sim) (as : List Asgn) : Sim := as.foldl (act alu) s

theorem acts_append (alu : Alu) (s : Sim) (as bs : List Asgn) :
    s.acts alu (as ++ bs) = (s.acts alu as).acts alu bs := List.foldl_append

variable {alu : Alu} (table : Tabled alu) (s : Sim)

theorem act_prim (p : Prim) : s.act alu (.prim p) =
    { (s.latched alu p).put alu p (s.get alu p) with pc := s.pc + 2 } := s.exec_prim alu p

section
variable {d : Dst} (plain : d ∈ [Dst.rf, .a, .b, .ra]) (src : Src) (x : Byte)
include plain

theorem leaves_prim : s.Leaves (s.act alu (.prim ⟨d, src, x⟩)) := by
  have latched : s.Leaves (s.latched alu ⟨d, src, x⟩) := by
    rw [Sim.latched]
    split
    · exact ⟨rfl, rfl, rfl, rfl, rfl⟩
    · exact .refl s
  rw [act_prim]
  refine latched.trans ?_
  generalize s.latched alu ⟨d, src, x⟩ = t
  generalize s.get alu ⟨d, src, x⟩ = v
  simp only [List.mem_cons, List.not_mem_nil, or_false] at plain
  obtain rfl | rfl | rfl | rfl := plain <;> exact ⟨rfl, rfl, rfl, rfl, rfl⟩

theorem regs_prim : (s.act alu (.prim ⟨d, src, x⟩)).regs =
    s.regs.put (s.get alu ⟨d, src, x⟩) d := by
  have latched : (s.latched alu ⟨d, src, x⟩).regs = s.regs := by
    rw [Sim.latched]
    split <;> rfl
  rw [act_prim, ← latched]
  generalize s.latched alu ⟨d, src, x⟩ = t
  generalize s.get alu ⟨d, src, x⟩ = v
  simp only [List.mem_cons, List.not_mem_nil, or_false] at plain
  obtain rfl | rfl | rfl | rfl := plain <;> rfl

end

theorem regs_imm {d : Dst} (plain : d ∈ [Dst.rf, .a, .b, .ra]) (x : Byte) :
    (s.act alu (.prim ⟨d, .imm, x⟩)).regs = s.regs.put x d := s.regs_prim plain .imm x

theorem regs_rf {d : Dst} (plain : d ∈ [Dst.rf, .a, .b, .ra]) :
    (s.act alu (.prim ⟨d, .rf, 0xFF⟩)).regs = s.regs.put (s.regs.rf s.regs.ra) d :=
  s.regs_prim plain .rf 0xFF

include table

theorem regs_alu {d : Dst} (plain : d ∈ [Dst.rf, .a, .b, .ra]) (m : AluMode) :
    (s.act alu (.prim ⟨d, .alu, m.code⟩)).regs =
      s.regs.put (CpuInit.stored m s.regs.a s.regs.b) d := by
  have out : s.get alu ⟨d, .alu, m.code⟩ = CpuInit.stored m s.a s.b := table _ _ _ m
  rw [s.regs_prim plain, out]
  rfl

theorem regs_op (o : Op) : (s.acts alu o.asgns).regs = s.regs.op o := by
  have select (r : Byte) : (s.act alu (.prim ⟨.ra, .imm, r⟩)).regs = s.regs.put r .ra :=
    s.regs_imm (by decide) r
  cases o with
  | aRf r =>
    change ((s.act alu _).act alu _).regs = _
    rw [regs_rf _ (by decide), select]
    rfl
  | bRf r =>
    change ((s.act alu _).act alu _).regs = _
    rw [regs_rf _ (by decide), select]
    rfl
  | aAlu m => exact regs_alu table s (by decide) m
  | bAlu m => exact regs_alu table s (by decide) m
  | rfAlu m => exact regs_alu table s (by decide) m
  | rfAluAt r m =>
    change ((s.act alu _).act alu _).regs = _
    rw [regs_alu table _ (by decide) m, select]
    rfl
  | rfImm r x =>
    change ((s.act alu _).act alu _).regs = _
    rw [regs_imm _ (by decide), select]
    rfl

/-- Register code moves the small machine. -/
theorem regs_run (ops : List Op) : (s.acts alu (asgns ops)).regs = s.regs.run ops := by
  induction ops generalizing s with
  | nil => rfl
  | cons o ops ih =>
    rw [asgns, List.flatMap_cons, acts_append, Regs.run_cons, ← regs_op table s o]
    exact ih (s.acts alu o.asgns)

omit table in
theorem leaves_run (ops : List Op) : s.Leaves (s.acts alu (asgns ops)) := by
  induction ops generalizing s with
  | nil => exact .refl s
  | cons o ops ih =>
    rw [asgns, List.flatMap_cons, acts_append]
    refine Leaves.trans ?_ (ih _)
    have two {d : Dst} (plain : d ∈ [Dst.rf, .a, .b, .ra]) (r : Byte) (src : Src) (x : Byte) :
        s.Leaves (s.acts alu [.prim ⟨.ra, .imm, r⟩, .prim ⟨d, src, x⟩]) :=
      (s.leaves_prim (by decide) .imm r).trans (leaves_prim _ plain src x)
    cases o with
    | aAlu m => exact s.leaves_prim (by decide) .alu m.code
    | bAlu m => exact s.leaves_prim (by decide) .alu m.code
    | rfAlu m => exact s.leaves_prim (by decide) .alu m.code
    | aRf r => exact two (by decide) r .rf 0xFF
    | bRf r => exact two (by decide) r .rf 0xFF
    | rfAluAt r m => exact two (by decide) r .alu m.code
    | rfImm r x => exact two (by decide) r .imm x

/-- The test of a conditional jump. -/
theorem tested_bit (m : AluMode) :
    (s.tested alu m.code).aluOut.getLsbD 0 = (CpuInit.stored m s.a s.b).getLsbD 0 := by
  have out (l : BitVec 16) : (alu l s.a s.b m.code).getLsbD 0 =
      ((alu l s.a s.b m.code).setWidth 8).getLsbD 0 := by simp
  change (alu _ s.a s.b m.code).getLsbD 0 = _
  rw [out, table]

end Sim

/-! ## From place to place -/

section
variable (alu : Alu) (is : List Item)

def Arrives (p q : Point) : Prop := ∃ n, p.run alu is n = q

end

section
variable {alu : Alu} {is pre post : List Item} {p q r : Point}

theorem Arrives.refl (p : Point) : Arrives alu is p p := ⟨0, rfl⟩

theorem Arrives.trans (first : Arrives alu is p q) (second : Arrives alu is q r) :
    Arrives alu is p r := by
  obtain ⟨m, rfl⟩ := first
  obtain ⟨n, rfl⟩ := second
  exact ⟨n + m, Function.iterate_add_apply _ _ _ _⟩

theorem Arrives.step (next : p.step alu is = q) : Arrives alu is p q := ⟨1, next⟩

theorem item_at {i : Item} (split : is = pre ++ i :: post) : is[pre.length]? = some i := by
  rw [split, List.getElem?_append_right (Nat.le_refl _), Nat.sub_self]
  rfl

theorem arrives_acts {as : List Asgn} (split : is = pre ++ (as.map .asgn ++ post)) (s : Sim) :
    Arrives alu is ⟨pre.length, s⟩ ⟨(pre ++ as.map Item.asgn).length, s.acts alu as⟩ := by
  induction as generalizing pre s with
  | nil =>
    rw [List.map_nil, List.append_nil]
    exact .refl _
  | cons a as ih =>
    have next : is = (pre ++ [Item.asgn a]) ++ (as.map .asgn ++ post) := by simp [split]
    have step : Point.step alu is ⟨pre.length, s⟩ =
        ⟨(pre ++ [Item.asgn a]).length, s.act alu a⟩ := by
      rw [Point.step, item_at split, List.length_append]
      rfl
    have rest := ih next (s.act alu a)
    rw [List.append_assoc] at rest
    exact (Arrives.step step).trans rest

theorem arrives_label {l : Nat} (split : is = pre ++ .label l :: post) (s : Sim) :
    Arrives alu is ⟨pre.length, s⟩ ⟨(pre ++ [Item.label l]).length, s⟩ :=
  .step (by
    rw [Point.step, item_at split, List.length_append]
    rfl)

/-- A place behind a label that is set once. -/
theorem behind_at {l : Nat} (split : is = pre ++ .label l :: post) (fresh : Item.label l ∉ pre) :
    behind is l = (pre ++ [Item.label l]).length := by
  rw [behind, split, List.idxOf_append_of_notMem fresh, List.idxOf_cons_self, List.length_append]
  rfl

theorem label_code (l : Nat) (ops : List Op) : Item.label l ∉ code ops := by simp [code]

variable (table : Tabled alu)
include table

theorem arrives_code {ops : List Op} (split : is = pre ++ (code ops ++ post)) (s : Sim) :
    ∃ t, Arrives alu is ⟨pre.length, s⟩ ⟨(pre ++ code ops).length, t⟩ ∧
      t.regs = s.regs.run ops ∧ s.Leaves t :=
  ⟨_, arrives_acts split s, s.regs_run table ops, s.leaves_run ops⟩

theorem arrives_ifalu {m : AluMode} {l : Nat}
    (split : is = pre ++ .ifalu m.code l :: post) (s : Sim) :
    ∃ t, Arrives alu is ⟨pre.length, s⟩
        ⟨if s.regs.test m then (pre ++ [Item.ifalu m.code l]).length else behind is l, t⟩ ∧
      t.regs = s.regs ∧ s.Leaves t := by
  refine ⟨s.tested alu m.code, .step ?_, rfl, ⟨rfl, rfl, rfl, rfl, rfl⟩⟩
  rw [Point.step, item_at split, List.length_append]
  simp only [s.tested_bit table m]
  rfl

end

/-! ## A loop with a piece that may be skipped -/

/-- The pieces of a turn: what comes before the test, what may be skipped, and the rest. -/
structure Turn where
  front : List Op
  skip : AluMode
  body : List Op
  back : List Op
  again : AluMode

namespace Turn

variable (u : Turn)

/-- From its label on. -/
def items (post : List Item) : List Item :=
  .label 1 :: (code u.front ++ .ifalu u.skip.code 2 :: (code u.body ++
    .label 2 :: (code u.back ++ .ifalu u.again.code 1 :: post)))

def run (x : Regs) : Regs :=
  let y := x.run u.front
  (if y.test u.skip then y.run u.body else y).run u.back

variable {u : Turn} {alu : Alu} (table : Tabled alu) {is pre post : List Item}
  (split : is = pre ++ u.items post) (fresh : Item.label 1 ∉ pre ∧ Item.label 2 ∉ pre)
include table split fresh

theorem arrives_turn (s : Sim) : ∃ t,
    Arrives alu is ⟨(pre ++ [Item.label 1]).length, s⟩
      ⟨if (u.run s.regs).test u.again then is.length - post.length
        else (pre ++ [Item.label 1]).length, t⟩ ∧
    t.regs = u.run s.regs ∧ s.Leaves t := by
  have at_1 : behind is 1 = (pre ++ [Item.label 1]).length := behind_at split fresh.1
  have split₁ : is = (pre ++ [Item.label 1]) ++ (code u.front ++ (.ifalu u.skip.code 2 ::
      (code u.body ++ .label 2 :: (code u.back ++ .ifalu u.again.code 1 :: post)))) := by
    simp [split, items]
  obtain ⟨y, front, y_regs, y_leaves⟩ := arrives_code table split₁ s
  have split₂ : is = (pre ++ [Item.label 1] ++ code u.front) ++ .ifalu u.skip.code 2 ::
      (code u.body ++ .label 2 :: (code u.back ++ .ifalu u.again.code 1 :: post)) := by
    rw [split₁]
    simp
  obtain ⟨y', test, y'_regs, y'_leaves⟩ := arrives_ifalu table split₂ y
  generalize at_body : pre ++ [Item.label 1] ++ code u.front ++ [Item.ifalu u.skip.code 2] = body
    at test
  have split₃ : is = body ++ (code u.body ++ (.label 2 :: (code u.back ++
      .ifalu u.again.code 1 :: post))) := by
    rw [split₂, ← at_body]
    simp
  have split₄ : is = (body ++ code u.body) ++ .label 2 :: (code u.back ++
      .ifalu u.again.code 1 :: post) := by
    rw [split₃]
    simp
  have at_2 : behind is 2 = (body ++ code u.body ++ [Item.label 2]).length := by
    refine behind_at split₄ ?_
    simp [← at_body, fresh.2, label_code]
  -- with the body or without, behind the second label
  obtain ⟨z, skipped, z_regs, z_leaves⟩ : ∃ z,
      Arrives alu is ⟨if y.regs.test u.skip then body.length else behind is 2, y'⟩
        ⟨(body ++ code u.body ++ [Item.label 2]).length, z⟩ ∧
      z.regs = (if y.regs.test u.skip then y.regs.run u.body else y.regs) ∧ y'.Leaves z := by
    cases y.regs.test u.skip with
    | true =>
      obtain ⟨z, taken, z_regs, z_leaves⟩ := arrives_code table split₃ y'
      exact ⟨z, taken.trans (arrives_label split₄ z), by rw [z_regs, y'_regs]; rfl, z_leaves⟩
    | false => exact ⟨y', by rw [at_2]; exact .refl _, y'_regs, .refl y'⟩
  have split₅ : is = (body ++ code u.body ++ [Item.label 2]) ++ (code u.back ++
      (.ifalu u.again.code 1 :: post)) := by
    rw [split₄]
    simp
  obtain ⟨w, back, w_regs, w_leaves⟩ := arrives_code table split₅ z
  have split₆ : is = (body ++ code u.body ++ [Item.label 2] ++ code u.back) ++
      .ifalu u.again.code 1 :: post := by
    rw [split₅]
    simp
  obtain ⟨t, again, t_regs, t_leaves⟩ := arrives_ifalu table split₆ w
  have exit : (body ++ code u.body ++ [Item.label 2] ++ code u.back ++
      [Item.ifalu u.again.code 1]).length = is.length - post.length := by
    rw [split₆]
    simp only [List.length_append, List.length_cons, List.length_nil]
    omega
  have whole : w.regs = u.run s.regs := by
    rw [w_regs, z_regs, y_regs]
    rfl
  rw [exit, at_1, whole] at again
  exact ⟨t, ((((front.trans test).trans skipped).trans back).trans again), t_regs.trans whole,
    (((y_leaves.trans y'_leaves).trans z_leaves).trans w_leaves).trans t_leaves⟩

/-- **The loop** ends behind the first turn whose test says so. -/
theorem arrives_loop {N : Nat} {x : Regs}
    (first : ∀ k, k < N → (u.run^[k + 1] x).test u.again = false)
    (last : (u.run^[N + 1] x).test u.again = true) {s : Sim} (start : s.regs = x) : ∃ t,
    Arrives alu is ⟨(pre ++ [Item.label 1]).length, s⟩ ⟨is.length - post.length, t⟩ ∧
      t.regs = u.run^[N + 1] x ∧ s.Leaves t := by
  induction N generalizing x s with
  | zero =>
    obtain ⟨t, turn, regs, leaves⟩ := arrives_turn table split fresh s
    rw [start] at turn regs
    rw [show (u.run x).test u.again = true from last] at turn
    exact ⟨t, turn, regs, leaves⟩
  | succ N ih =>
    obtain ⟨t, turn, regs, leaves⟩ := arrives_turn table split fresh s
    rw [start] at turn regs
    rw [show (u.run x).test u.again = false from first 0 (Nat.succ_pos N)] at turn
    obtain ⟨w, rest, w_regs, w_leaves⟩ :=
      ih (fun k lt => first (k + 1) (Nat.succ_lt_succ lt)) last regs
    exact ⟨w, turn.trans rest, w_regs, leaves.trans w_leaves⟩

end Turn

end Chiptune.Glowworm
