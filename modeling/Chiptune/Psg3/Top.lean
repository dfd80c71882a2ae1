import Chiptune.Psg3.Channels
import Chiptune.Psg3.Host
import Chiptune.Trace

/-!
# The PSG3 v0.4 chip

`psg3_top` of `PSG3 v0.4/rtl/psg3_top.v` as a whole. An event is an edge of the crystal or
one pin of the host's commands, and the two come in any order.

* `lfsr_law`: nothing on the bus can lock the noise register up.
* `heard_law`: what is heard once the bus rests.
* `told_law`: what is heard after the host's calls, whenever the crystal ran meanwhile.
-/

namespace Chiptune.Psg3

open Period

/-- So that register numbers can be written as literals. -/
scoped instance registers_ne_zero : NeZero 8 := ⟨by decide⟩

structure Top where
  bus : Bus
  ch : Channels

namespace Top

def rstN (d : Byte) : Bool := d.getLsbD 6

inductive Event where
  | clk
  | pin (cmd : Cmd) (i : Fin 8)

section
variable (hc153 : BitVec 2 → BitVec 4 → Bool) (s : Top)

def noiseClk : Bool := s.ch.noiseClk hc153 s.bus.regs

/-- The registers of CH0 are reset on the falling `rst_n`. -/
def reset (before after : Bool) (ch : Channels) : Channels :=
  if before && !after then { ch with ch0 := Ch0.reset } else ch

/-- A register that is written may switch `noise_clk` too. -/
def event : Event → Top
  | .clk => { s with ch := s.ch.clock hc153 s.bus.regs (rstN s.bus.d) }
  | .pin cmd i =>
    let bus := s.bus.switch cmd i
    let ch := reset (rstN s.bus.d) (rstN bus.d) s.ch
    { bus, ch := ch.settle hc153 bus.regs (s.noiseClk hc153) }

def run (es : List Event) : Top := es.foldl (event hc153) s

/-- A rising `noise_clk`. -/
def edge (e : Event) : List Unit :=
  if !s.noiseClk hc153 && (s.event hc153 e).noiseClk hc153 then [()] else []

/-- How often `noise_clk` has risen. -/
def edges (es : List Event) : Nat := (Trace.outputs (event hc153) (edge hc153) s es).length

/-- The bus rests for `n` clocks. -/
def rest (n : Nat) : Top := s.run hc153 (List.replicate n .clk)

def sqAudio : Byte := s.ch.ch0.sqAudio s.bus.regs
def nzAudio : Byte := s.ch.nzAudio s.bus.regs

end

/-- The pins stand somehow, and all registers are at zero. -/
def powerUp (d c : Byte) : Top :=
  ⟨⟨d, c, 0, fun _ => 0⟩, ⟨Ch0.reset, 0, Lfsr.powerUp⟩⟩

section
variable {hc153 : BitVec 2 → BitVec 4 → Bool} {s : Top}

/-! ## The noise register -/

theorem event_lfsr (s : Top) (e : Event) : (s.event hc153 e).ch.lfsr =
    (s.edge hc153 e).foldl (fun l _ => l.clock) s.ch.lfsr := by
  have clocked (rise : Bool) (l : Lfsr) : Lfsr.clock^[rise.toNat] l =
      (if rise then [()] else []).foldl (fun l _ => l.clock) l := by
    cases rise <;> rfl
  rw [edge, ← clocked]
  cases e with
  | clk =>
    rw [noiseClk, noiseClk, event, Channels.clock, Channels.settle_noiseClk]
    exact Channels.settle_lfsr _
  | pin cmd i =>
    have kept (before after : Bool) : (reset before after s.ch).lfsr = s.ch.lfsr := by
      unfold reset
      split <;> rfl
    simp only [event, noiseClk, Channels.settle_noiseClk, Channels.settle_lfsr, kept]

theorem run_lfsr (s : Top) (es : List Event) :
    (s.run hc153 es).ch.lfsr = Lfsr.clock^[s.edges hc153 es] s.ch.lfsr := by
  have fold (outs : List Unit) (l : Lfsr) :
      outs.foldl (fun l _ => l.clock) l = Lfsr.clock^[outs.length] l := by
    induction outs generalizing l with
    | nil => rfl
    | cons _ rest ih => exact ih l.clock
  have view := @Trace.view_run _ _ _ (event hc153) (edge hc153) _ (fun s => s.ch.lfsr)
    (fun l _ => l.clock) (fun _ => True) (fun _ => True) (fun _ _ _ _ => trivial)
    (fun s e _ _ => event_lfsr s e) s trivial es (fun _ _ => trivial)
  rw [run, view, fold, edges]

theorem powerUp_lfsr (d c : Byte) (es : List Event) : ((powerUp d c).run hc153 es).ch.lfsr =
    Lfsr.after ((powerUp d c).edges hc153 es) := run_lfsr _ es

/-- **No lock-up.** Whatever the pins do between the edges of the crystal, resets and
changes of the noise clock included, the noise register depends only on how often its clock
has risen. It is zero before the first edge and never again, and once the start-up is over
it goes through all states but zero, 128 of them high. -/
theorem lfsr_law (hc153 : BitVec 2 → BitVec 4 → Bool) :
    (∀ d c es, ((powerUp d c).run hc153 es).ch.lfsr =
      Lfsr.after ((powerUp d c).edges hc153 es)) ∧
    (∀ k, (Lfsr.after k).q = 0 ↔ k = 0) ∧
    (∀ i j, (Lfsr.after (16 + i)).q = (Lfsr.after (16 + j)).q ↔ i ≡ j [MOD 255]) ∧
    (∀ q ≠ 0, ∀ k, ∃ i < 255, (Lfsr.after (16 + k + i)).q = q) ∧
    ∀ k, ((Finset.range 255).filter fun i => Lfsr.level (16 + k + i) = true).card = 128 := by
  refine ⟨powerUp_lfsr, Lfsr.after_zero_iff, fun i j => ?_, fun q some k => ?_, fun k => ?_⟩
  · rw [Lfsr.after_eq_iff (Nat.le_add_right 16 i) (Nat.le_add_right 16 j)]
    exact ⟨Nat.ModEq.add_left_cancel' 16, Nat.ModEq.add_left 16⟩
  · have count := Lfsr.after_count (fun y => y = q) (Nat.le_add_right 16 k)
    have one : ((Finset.univ.erase (0 : Byte)).filter fun y => y = q) = {q} := by
      ext y
      simp only [Finset.mem_filter, Finset.mem_erase, Finset.mem_univ, and_true,
        Finset.mem_singleton]
      exact ⟨And.right, fun same => ⟨same ▸ some, same⟩⟩
    rw [one, Finset.card_singleton] at count
    obtain ⟨i, hi⟩ := Finset.card_pos.mp (by rw [count]; exact Nat.one_pos)
    obtain ⟨inside, here⟩ := Finset.mem_filter.mp hi
    exact ⟨i, Finset.mem_range.mp inside, here⟩
  · exact Lfsr.level_count (Nat.le_add_right 16 k)

/-! ## The bus at rest -/

theorem rest_eq (high : rstN s.bus.d = true) (n : Nat) :
    s.rest hc153 n = ⟨s.bus, s.ch.run hc153 s.bus.regs n⟩ := by
  induction n with
  | zero => rfl
  | succ n ih =>
    have last : s.rest hc153 (n + 1) = (s.rest hc153 n).event hc153 .clk := by
      rw [rest, run, List.replicate_succ', List.foldl_append]
      rfl
    rw [last, ih, event, high]
    rfl

theorem rest_sqAudio (high : rstN s.bus.d = true) (n : Nat) :
    (s.rest hc153 n).sqAudio = (s.ch.ch0.run s.bus.regs n).sqAudio s.bus.regs := by
  rw [rest_eq high, sqAudio, Channels.run_ch0]

theorem rest_nzAudio (high : rstN s.bus.d = true) (n : Nat) :
    (s.rest hc153 n).nzAudio = (s.ch.run hc153 s.bus.regs n).nzAudio s.bus.regs := by
  rw [rest_eq high, nzAudio]

/-- **What is heard.** From any state reached, with the bus at rest. -/
theorem heard_law (selects : Channels.Selects hc153) (d c : Byte) (es : List Event)
    (high : rstN ((powerUp d c).run hc153 es).bus.d = true) :
    let s := (powerUp d c).run hc153 es
    let regs := s.bus.regs
    let T := 256 - (periodQ regs).toNat
    (periodQ regs ≠ 0xFF → ∃ first, ∀ n, first ≤ n → (s.rest hc153 n).sqAudio =
      if (n - first) % (T * Ch0.dutyLen (dutySel regs)) < T * Ch0.dutyHigh (dutySel regs) then
        (sqVol regs).setWidth 8 <<< 4 else 0) ∧
    (periodQ regs = 0xFF → Repeats 1 fun n => (s.rest hc153 n).sqAudio) ∧
    (¬ Channels.Stuck regs → ∃ d j, ∀ n, (s.rest hc153 (d + n)).nzAudio =
      if Lfsr.level (j + n / Channels.noisePeriod regs) then (nzVol regs).setWidth 8 <<< 4
      else 0) ∧
    ∀ m, Repeats m (fun n => (s.rest hc153 n).nzAudio) ↔
      nzVol regs = 0 ∨ Channels.Stuck regs ∨ 255 * Channels.noisePeriod regs ∣ m := by
  intro s regs T
  have up : rstN s.bus.d = true := high
  simp only [rest_sqAudio up, rest_nzAudio up]
  obtain ⟨wave, still⟩ := Ch0.sq_audio_law regs s.ch.ch0
  exact ⟨wave, still, Channels.nz_audio_law selects (powerUp_lfsr d c es)⟩

/-- Register 6 with volume 3, the slowest clock and no binding. -/
def noiseOn : Top :=
  (powerUp idle 0).run (fun sel c => c.getLsbD sel.toNat)
    ((commands [⟨6, 0x33⟩]).flatMap fun cmd => (List.finRange 8).map (.pin cmd ·))

theorem heard_law_noise :
    Repeats (255 * 16) (fun n => (noiseOn.rest (fun sel c => c.getLsbD sel.toNat) n).nzAudio) ∧
      ¬ Repeats 255 (fun n => (noiseOn.rest (fun sel c => c.getLsbD sel.toNat) n).nzAudio) := by
  have selects : Channels.Selects fun sel c => c.getLsbD sel.toNat := fun _ _ => rfl
  have law (m : Nat) : Repeats m (fun n => (noiseOn.rest _ n).nzAudio) ↔ _ :=
    (heard_law selects idle 0 _ (by decide +kernel)).2.2.2 m
  have vol : nzVol noiseOn.bus.regs ≠ 0 := by decide +kernel
  have bind : bindSw noiseOn.bus.regs = false := by decide +kernel
  have freq : freqSel noiseOn.bus.regs = 3 := by decide +kernel
  have free : ¬ Channels.Stuck noiseOn.bus.regs := by
    rintro ⟨bound, -⟩
    exact Bool.false_ne_true (bind.symm.trans bound)
  have period : Channels.noisePeriod noiseOn.bus.regs = 16 := by
    rw [Channels.noisePeriod, bind, freq]
    rfl
  constructor
  · exact (law _).mpr (.inr (.inr ⟨1, by rw [← noiseOn, period]⟩))
  · intro short
    obtain silent | stuck | whole := (law _).mp short
    · exact vol silent
    · exact free stuck
    · rw [← noiseOn, period] at whole
      exact absurd whole (by decide)

/-! ## The host -/

/-- The crystal ticks before every pin. -/
def interleaved (cmds : List Cmd) : List Event :=
  cmds.flatMap fun cmd => (List.finRange 8).flatMap fun i => [.clk, .pin cmd i]

/-- The pin events among the others. -/
def pins (es : List Event) : List (Cmd × Fin 8) :=
  es.filterMap fun
    | .clk => none
    | .pin cmd i => some (cmd, i)

/-- The pins of the commands one after the other, those of a command in any order. -/
inductive Serves : List Cmd → List (Cmd × Fin 8) → Prop where
  | done : Serves [] []
  | next {cmd : Cmd} {rest : List Cmd} {ps : List (Cmd × Fin 8)} (order : List (Fin 8))
      (every : order.Perm (List.finRange 8)) (later : Serves rest ps) :
      Serves (cmd :: rest) (order.map (cmd, ·) ++ ps)

theorem run_bus (s : Top) (es : List Event) : (s.run hc153 es).bus =
    (pins es).foldl (fun b p => b.switch p.1 p.2) s.bus := by
  induction es generalizing s with
  | nil => rfl
  | cons e rest ih =>
    have later := ih (s.event hc153 e)
    cases e with
    | clk => exact later
    | pin cmd i => exact later

theorem Serves.runs {cmds : List Cmd} {ps : List (Cmd × Fin 8)} (serves : Serves cmds ps)
    (b : Bus) : Bus.Runs cmds b (ps.foldl (fun b p => b.switch p.1 p.2) b) := by
  induction serves generalizing b with
  | done => exact .done b
  | next order every _ ih =>
    rw [List.foldl_append, List.foldl_map]
    exact .next order every (ih _)

theorem interleaved_serves (cmds : List Cmd) : Serves cmds (pins (interleaved cmds)) := by
  induction cmds with
  | nil => exact .done
  | cons cmd rest ih =>
    have split : pins (interleaved (cmd :: rest)) =
        (List.finRange 8).map (cmd, ·) ++ pins (interleaved rest) := by
      rw [interleaved, List.flatMap_cons, pins, List.filterMap_append]
      rfl
    rw [split]
    exact .next _ (List.Perm.refl _) ih

theorem rest_zero (high : rstN s.bus.d = true) (vol : nzVol s.bus.regs = 0) (n : Nat) :
    (s.rest hc153 n).nzAudio = 0 := by
  rw [rest_nzAudio high, Channels.nzAudio, vol]
  split <;> rfl

theorem run_idle {calls : List Call} {psg : Psg} {b t : Bus} (ready : b.d = idle)
    (run : Bus.Runs (send psg calls) b t) : t.d = idle := by
  induction calls generalizing psg b with
  | nil =>
    rw [run.last]
    exact ready
  | cons call rest ih =>
    cases call with
    | setPeriod p =>
      obtain ⟨s, pins, -, later⟩ := sent_write 0 rfl ready run
      exact ih pins later
    | writeCtrl vol =>
      obtain ⟨s, pins, -, later⟩ := sent_write 1 rfl ready run
      exact ih pins later
    | writeNoise vol freqCode bind =>
      obtain ⟨s, pins, -, later⟩ := sent_write 2 rfl ready run
      exact ih pins later
    | tone duty ref mode => exact ih ready run

theorem periodQ_clamp {regs : Fin 8 → Byte} {p : Int} (sent : regs 0 = low (clamp 0 255 p)) :
    256 - (periodQ regs).toNat = (256 - clamp 0 255 p).toNat ∧ (periodQ regs = 0xFF ↔ 255 ≤ p) := by
  have whole := low_toNat (clamp 0 255 p)
  have last : periodQ regs = 0xFF ↔ (periodQ regs).toNat = 255 := BitVec.toNat_inj.symm
  rw [last, periodQ, sent]
  unfold clamp at whole ⊢
  omega

/-- The duty and the level that a control byte of the host selects. -/
theorem ctrl_fields {regs : Fin 8 → Byte} {psg : Psg} {vol : Int} (sent : regs 1 = psg.ctrl vol) :
    dutySel regs = BitVec.ofInt 2 psg.duty ∧
      (sqVol regs).setWidth 8 <<< 4 = BitVec.ofInt 8 (16 * clamp 0 15 vol) := by
  constructor
  · have field := dutySel_ctrl psg vol sent
    apply BitVec.eq_of_toNat_eq
    simp only [BitVec.toNat_ofInt]
    omega
  · have field := sqVol_ctrl psg vol sent
    apply BitVec.eq_of_toNat_eq
    simp only [BitVec.toNat_ofInt, BitVec.toNat_shiftLeft, BitVec.toNat_setWidth,
      Nat.shiftLeft_eq]
    unfold clamp at field ⊢
    omega

/-- **From the host to the ear.** No noise at all, whatever the host was told about that, and
the square wave of the last period, volume and duty. -/
theorem told_law (hc153 : BitVec 2 → BitVec 4 → Bool) {calls : List Call} {psg : Psg}
    {es : List Event} (c : Byte) (serves : Serves (send psg calls) (pins es)) :
    let s := (powerUp idle c).run hc153 es
    (∀ n, (s.rest hc153 n).nzAudio = 0) ∧
    ∀ p vol last, (Told.nothing.after psg calls).period = some p →
      (Told.nothing.after psg calls).ctrl = some (vol, last) →
      let T := (256 - clamp 0 255 p).toNat
      let duty := BitVec.ofInt 2 last.duty
      (p < 255 → ∃ first, ∀ n, first ≤ n → (s.rest hc153 n).sqAudio =
        if (n - first) % (T * Ch0.dutyLen duty) < T * Ch0.dutyHigh duty then
          BitVec.ofInt 8 (16 * clamp 0 15 vol) else 0) ∧
      (255 ≤ p → Repeats 1 fun n => (s.rest hc153 n).sqAudio) := by
  intro s
  have runs : Bus.Runs (send psg calls) (powerUp idle c).bus s.bus := by
    rw [show s.bus = _ from run_bus (powerUp idle c) es]
    exact serves.runs _
  have ready : s.bus.d = idle := run_idle rfl runs
  have holds := run_holds rfl (holds_nothing (powerUp idle c).bus.regs) runs
  have high : rstN s.bus.d = true := by
    rw [ready]
    decide
  have silent : nzVol s.bus.regs = 0 := by
    rw [nzVol, holds.rest]
    rfl
  refine ⟨rest_zero high silent, ?_⟩
  intro p vol last period ctrl T duty
  obtain ⟨length, whole⟩ := periodQ_clamp (holds.period p period)
  obtain ⟨sel, loud⟩ := ctrl_fields (holds.ctrl vol last ctrl)
  obtain ⟨wave, still⟩ := Ch0.sq_audio_law s.bus.regs s.ch.ch0
  simp only [rest_sqAudio high]
  rw [length, sel, loud] at wave
  refine ⟨fun below => wave fun last => ?_, fun above => still (whole.mpr above)⟩
  have := whole.mp last
  omega

/-- Period 200, volume 9 and a pulse of an eighth. -/
def eighth : List Call := [.tone 2 0 0, .setPeriod 200, .writeCtrl 9, .writeNoise 15 3 0]

theorem told_law_eighth :
    let hc153 : BitVec 2 → BitVec 4 → Bool := fun sel c => c.getLsbD sel.toNat
    let s := (powerUp idle 0).run hc153 (interleaved (send ⟨3, 0, 0⟩ eighth))
    (∀ n, (s.rest hc153 n).nzAudio = 0) ∧ ∃ first, ∀ n, first ≤ n → (s.rest hc153 n).sqAudio =
      if (n - first) % (56 * 8) < 56 * 1 then 144 else 0 := by
  intro hc153 s
  have serves := interleaved_serves (send ⟨3, 0, 0⟩ eighth)
  obtain ⟨silent, square⟩ := told_law hc153 0 serves
  exact ⟨silent, (square 200 9 ⟨2, 0, 0⟩ rfl rfl).1 (by decide)⟩

end

end Top

end Chiptune.Psg3
