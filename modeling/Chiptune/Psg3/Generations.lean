import Chiptune.Psg3.Latched

/-!
# Three generations of the square voice

`psg_voice.v` of v0.1 gates its toggle with `D5`, `psg_voice_v02.v` clocks a volume with it,
and `psg_square_duty_v03.v` a duty and a mode too. On the same pins and the same crystal
they play the same wave: `generations_law` says how long, and what each makes of it.
-/

namespace Chiptune.Psg3

/-- The counter and the two flip-flops that v0.1 and v0.2 have in common. -/
structure Tone where
  cnt : Byte
  reloadPulse : Bool
  toggleQ : Bool

namespace Tone
variable (periodQ : Byte) (s : Tone)

def reset : Tone := ⟨0, false, false⟩

def tcLo : Bool := hc161Tc true (nibble s.cnt 0)
def tcHi : Bool := hc161Tc s.tcLo (nibble s.cnt 1)
def peN : Bool := !(s.tcHi && s.tcHi)

/-- A rising `clk`. A cleared flip-flop stays where it is. -/
def clock (rstN : Bool) : Tone :=
  let reloadPulse := rstN && s.tcHi
  { cnt := hc161 rstN s.peN s.tcLo s.tcLo (nibble periodQ 1) (nibble s.cnt 1) ++
      hc161 rstN s.peN true true (nibble periodQ 0) (nibble s.cnt 0)
    reloadPulse
    toggleQ := if !s.reloadPulse && reloadPulse then !s.toggleQ else s.toggleQ }

/-- The pins move. -/
def settle (before after : Bool) : Tone := if before && !after then reset else s

end Tone

/-- `psg_voice` -/
structure Voice01 where
  d : Byte
  c : Byte
  periodQ : Byte
  tone : Tone

namespace Voice01
variable (s : Voice01)

def settle (d c : Byte) : Voice01 where
  d := d
  c := c
  periodQ := if Latches.le d then c else s.periodQ
  tone := s.tone.settle (Top.rstN s.d) (Top.rstN d)

def event : Top.Event → Voice01
  | .clk => { s with tone := s.tone.clock s.periodQ (Top.rstN s.d) }
  | .pin ⟨.d, v⟩ i => s.settle (setPin s.d i (v.getLsbD i)) s.c
  | .pin ⟨.c, v⟩ i => s.settle s.d (setPin s.c i (v.getLsbD i))

def run (es : List Top.Event) : Voice01 := es.foldl event s

/-- Two gates of the 74HC00, behind `gate` on `D5`. -/
def waveOut : Bool :=
  let gateNand1 := !(s.d.getLsbD 5 && s.tone.toggleQ)
  !(gateNand1 && gateNand1)

def powerUp (d c : Byte) : Voice01 := ⟨d, c, if Latches.le d then c else 0, Tone.reset⟩

end Voice01

/-- `psg_voice_v02` -/
structure Voice02 where
  d : Byte
  c : Byte
  periodQ : Byte
  volQ : Byte
  tone : Tone

namespace Voice02
variable (s : Voice02)

def settle (d c : Byte) : Voice02 where
  d := d
  c := c
  periodQ := if Latches.le d then c else s.periodQ
  volQ := if !Latches.a0 s.d && Latches.a0 d then c else s.volQ
  tone := s.tone.settle (Top.rstN s.d) (Top.rstN d)

def event : Top.Event → Voice02
  | .clk => { s with tone := s.tone.clock s.periodQ (Top.rstN s.d) }
  | .pin ⟨.d, v⟩ i => s.settle (setPin s.d i (v.getLsbD i)) s.c
  | .pin ⟨.c, v⟩ i => s.settle s.d (setPin s.c i (v.getLsbD i))

def run (es : List Top.Event) : Voice02 := es.foldl event s

def vol : BitVec 4 := s.volQ.extractLsb' 0 4

def audioOut : Byte := if s.tone.toggleQ then s.vol.setWidth 8 <<< 4 else 0

def powerUp (d c : Byte) : Voice02 := ⟨d, c, if Latches.le d then c else 0, 0, Tone.reset⟩

end Voice02

/-! ## Side by side -/

/-- v0.1 and v0.2 have the same pins and the same tone. -/
structure Same12 (a : Voice01) (b : Voice02) : Prop where
  d : a.d = b.d
  c : a.c = b.c
  periodQ : a.periodQ = b.periodQ
  tone : a.tone = b.tone

theorem same12_run {a : Voice01} {b : Voice02} (same : Same12 a b) (es : List Top.Event) :
    Same12 (a.run es) (b.run es) := by
  induction es generalizing a b with
  | nil => exact same
  | cons e rest ih =>
    refine ih ?_
    obtain ⟨d, c, period, tone⟩ := same
    cases e with
    | clk => exact ⟨d, c, period, by simp only [Voice01.event, Voice02.event, d, period, tone]⟩
    | pin cmd i =>
      obtain ⟨port, v⟩ := cmd
      cases port with
      | d =>
        simp only [Voice01.event, Voice02.event, Voice01.settle, Voice02.settle, d, c, period, tone]
        exact ⟨rfl, rfl, rfl, rfl⟩
      | c =>
        simp only [Voice01.event, Voice02.event, Voice01.settle, Voice02.settle, d, c, period, tone]
        exact ⟨rfl, rfl, rfl, rfl⟩

section
variable (hc153 : BitVec 2 → BitVec 4 → Bool)

/-- v0.3 has the latches of v0.2. -/
structure Latched (b : Voice02) (s : V03) : Prop where
  d : b.d = s.latches.d
  c : b.c = s.latches.c
  periodQ : b.periodQ = s.latches.periodQ
  volQ : b.volQ = s.latches.ctrlQ

/-- The first flip-flop of its chain is that of v0.2. -/
structure SameTone (b : Voice02) (s : V03) : Prop where
  cnt : b.tone.cnt = s.ch.ch0.cnt
  reloadPulse : b.tone.reloadPulse = s.ch.ch0.reloadPulse
  toggleQ : b.tone.toggleQ = s.ch.ch0.q1

/-- The board is never in the mode of white noise while the crystal ticks. -/
def Tonal (s : V03) : List Top.Event → Prop
  | [] => True
  | .clk :: rest => modeSel s.regs = false ∧ Tonal (s.event hc153 .clk) rest
  | .pin cmd i :: rest => Tonal (s.event hc153 (.pin cmd i)) rest

def Tonal.decide (s : V03) : (es : List Top.Event) → Decidable (Tonal hc153 s es)
  | [] => isTrue trivial
  | .clk :: rest =>
    have := Tonal.decide (s.event hc153 .clk) rest
    inferInstanceAs (Decidable (_ ∧ _))
  | .pin cmd i :: rest => Tonal.decide (s.event hc153 (.pin cmd i)) rest

instance (s : V03) (es : List Top.Event) : Decidable (Tonal hc153 s es) := Tonal.decide hc153 s es

end

section
variable {hc153 : BitVec 2 → BitVec 4 → Bool} {b : Voice02} {s : V03}

theorem latched_event (same : Latched b s) (e : Top.Event) :
    Latched (b.event e) (s.event hc153 e) := by
  obtain ⟨d, c, period, vol⟩ := same
  cases e with
  | clk => exact ⟨d, c, period, vol⟩
  | pin cmd i =>
    obtain ⟨port, v⟩ := cmd
    cases port with
    | d =>
      simp only [Voice02.event, Voice02.settle, d, c, period, vol]
      exact ⟨rfl, rfl, rfl, rfl⟩
    | c =>
      simp only [Voice02.event, Voice02.settle, d, c, period, vol]
      exact ⟨rfl, rfl, rfl, rfl⟩

/-- A clock of both, with the square wave on. -/
theorem clock_sameTone {t : Tone} {ch : Ch0} {regs : Fin 8 → Byte} (mode : modeSel regs = false)
    (cnt : t.cnt = ch.cnt) (pulse : t.reloadPulse = ch.reloadPulse) (toggle : t.toggleQ = ch.q1) :
    (t.clock (periodQ regs) true).cnt = (ch.clock regs).cnt ∧
      (t.clock (periodQ regs) true).reloadPulse = (ch.clock regs).reloadPulse ∧
      (t.clock (periodQ regs) true).toggleQ = (ch.clock regs).q1 := by
  have tc : t.tcHi = ch.tcHi := by rw [Tone.tcHi, Ch0.tcHi, Tone.tcLo, Ch0.tcLo, cnt]
  have source : ch.reloadSrc regs = ch.tcHi := by
    rw [Ch0.reloadSrc, mode]
    rfl
  simp only [Tone.clock, Ch0.clock, Ch0.cntNext, Tone.peN, Ch0.peN, Tone.tcLo, Ch0.tcLo, tc, source,
    cnt, pulse, toggle, Bool.true_and, and_self]

theorem held_sameTone {t : Tone} {ch : Ch0} (p : Byte) (toggle : t.toggleQ = ch.q1) :
    (t.clock p false).cnt = (Channels.heldCh0 ch).cnt ∧
      (t.clock p false).reloadPulse = (Channels.heldCh0 ch).reloadPulse ∧
      (t.clock p false).toggleQ = (Channels.heldCh0 ch).q1 := by
  refine ⟨?_, rfl, ?_⟩
  · simp only [Tone.clock, Channels.heldCh0, hc161, Bool.not_false, ↓reduceIte]
    rfl
  · simp only [Tone.clock, Channels.heldCh0, Bool.false_and, Bool.and_false, Bool.false_eq_true,
      ↓reduceIte, toggle]

theorem sameTone_event (same : Latched b s) (sameTone : SameTone b s) {e : Top.Event}
    (square : e = .clk → modeSel s.regs = false) : SameTone (b.event e) (s.event hc153 e) := by
  obtain ⟨cnt, pulse, toggle⟩ := sameTone
  cases e with
  | clk =>
    have ch0 : (s.event hc153 .clk).ch.ch0 = if Top.rstN s.latches.d then s.ch.ch0.clock s.regs
        else Channels.heldCh0 s.ch.ch0 := Channels.settle_ch0 _
    have tone : (b.event .clk).tone = b.tone.clock (periodQ s.regs) (Top.rstN s.latches.d) := by
      rw [Voice02.event, same.d, same.periodQ]
      rfl
    cases high : Top.rstN s.latches.d with
    | true =>
      rw [high] at tone
      obtain ⟨first, second, third⟩ := clock_sameTone (square rfl) cnt pulse toggle
      rw [if_pos high] at ch0
      exact ⟨by rw [tone, ch0, first], by rw [tone, ch0, second], by rw [tone, ch0, third]⟩
    | false =>
      rw [high] at tone
      obtain ⟨first, second, third⟩ := held_sameTone (periodQ s.regs) toggle
      rw [if_neg (by rw [high]; exact Bool.false_ne_true)] at ch0
      exact ⟨by rw [tone, ch0, first], by rw [tone, ch0, second], by rw [tone, ch0, third]⟩
  | pin cmd i =>
    have moved : Latched (b.event (.pin cmd i)) (s.event hc153 (.pin cmd i)) :=
      latched_event same _
    have ch0 : (s.event hc153 (.pin cmd i)).ch.ch0 = (Top.reset (Top.rstN s.latches.d)
        (Top.rstN (s.event hc153 (.pin cmd i)).latches.d) s.ch).ch0 := Channels.settle_ch0 _
    have tone : (b.event (.pin cmd i)).tone =
        b.tone.settle (Top.rstN b.d) (Top.rstN (b.event (.pin cmd i)).d) := by
      obtain ⟨port, v⟩ := cmd
      cases port <;> rfl
    rw [same.d, moved.d] at tone
    constructor
    all_goals
      rw [tone, ch0, Tone.settle, Top.reset]
      split
      · rfl
      · assumption

end

/-- **Three generations.** Whatever happens on the pins, between the edges of the crystal or
not: v0.1 plays the tone of v0.2 while `D5` is high; v0.2 plays it at its volume; and as
long as the mode of white noise is off, v0.3 at the first duty plays it too, at that volume. -/
theorem generations_law (hc153 : BitVec 2 → BitVec 4 → Bool) (d c : Byte) (es : List Top.Event) :
    let a := (Voice01.powerUp d c).run es
    let b := (Voice02.powerUp d c).run es
    let s := (V03.powerUp d c).run hc153 es
    (a.waveOut = (a.d.getLsbD 5 && b.tone.toggleQ)) ∧
    (b.audioOut = if a.tone.toggleQ then b.vol.setWidth 8 <<< 4 else 0) ∧
    (Tonal hc153 (V03.powerUp d c) es → s.ch.ch0.q1 = a.tone.toggleQ ∧
      (dutySel s.regs = 0 → s.sqAudio = b.audioOut)) := by
  intro a b s
  have same := same12_run (a := Voice01.powerUp d c) (b := Voice02.powerUp d c)
    ⟨rfl, rfl, rfl, rfl⟩ es
  have toggle : a.tone.toggleQ = b.tone.toggleQ := congrArg Tone.toggleQ same.tone
  refine ⟨?_, ?_, fun square => ?_⟩
  · rw [← toggle]
    change (!(!(a.d.getLsbD 5 && a.tone.toggleQ) && !(a.d.getLsbD 5 && a.tone.toggleQ))) = _
    rw [Bool.and_self, Bool.not_not]
  · rw [toggle]
    rfl
  · have both (es : List Top.Event) (b : Voice02) (s : V03) (same : Latched b s)
        (sameTone : SameTone b s) (square : Tonal hc153 s es) :
        Latched (b.run es) (s.run hc153 es) ∧ SameTone (b.run es) (s.run hc153 es) := by
      induction es generalizing b s with
      | nil => exact ⟨same, sameTone⟩
      | cons e rest ih =>
        cases e with
        | clk =>
          exact ih _ _ (latched_event same .clk) (sameTone_event same sameTone fun _ => square.1)
            square.2
        | pin cmd i =>
          exact ih _ _ (latched_event same _) (sameTone_event same sameTone nofun) square
    obtain ⟨latched, sameTone⟩ := both es (Voice02.powerUp d c) (V03.powerUp d c)
      ⟨rfl, rfl, rfl, rfl⟩ ⟨rfl, rfl, rfl⟩ square
    refine ⟨sameTone.toggleQ.symm.trans toggle.symm, fun duty => ?_⟩
    have first : s.ch.ch0.waveSel 0 = b.tone.toggleQ := sameTone.toggleQ.symm
    have level : sqVol s.regs = b.vol := by
      rw [Voice02.vol, latched.volQ]
      rfl
    rw [V03.sqAudio, Ch0.sqAudio, duty, first, level]
    rfl

/-- Period 254 and volume 9, written as the host of v0.2 does, and the clocks up to
the first pulse. -/
def lowA : List Top.Event :=
  Top.interleaved (pokeCmds 0x40 [.sd 5 false, .data 254, .sd 4 true, .sd 4 false, .sd 4 false,
    .data 9, .sd 5 true, .sd 5 false]) ++ List.replicate 192 .clk

theorem generations_law_low :
    let b := (Voice02.powerUp 0x40 0).run lowA
    let s := (V03.powerUp 0x40 0).run (fun sel c => c.getLsbD sel.toNat) lowA
    s.sqAudio = b.audioOut ∧ b.audioOut = 144 := by
  have law := (generations_law (fun sel c => c.getLsbD sel.toNat) 0x40 0 lowA).2.2
    (by decide +kernel)
  exact ⟨law.2 (by decide +kernel), by decide +kernel⟩

end Chiptune.Psg3
