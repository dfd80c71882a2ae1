import Mathlib.Data.List.Induction
import Mathlib.Data.Rat.Floor
import Mathlib.Tactic.Linarith
import Mathlib.Tactic.NormNum
import Mathlib.Tactic.FieldSimp
import Chiptune.Axis
import Chiptune.Psg3.Envelope
import Chiptune.Psg3.Host

/-!
# The time axes of a song

`dump_tracks` and `build_print_schedule` of `host/psg_adsr_songs_v04.py`. Lengths are
exact; the pitches are those of a `SongFloats`. A note of `beats` lasts
`int(beats * beat_t * 1000)` milliseconds on the noise axis and on the printed ones, but
a note that `Voice.tick` plays lasts a whole number of ticks of five milliseconds.
`axes_agree_iff` says for which songs the axes agree nevertheless.
-/

namespace Chiptune.Psg3

/-- Python's `int` of a fraction. -/
def pyInt (q : ℚ) : Int := if 0 ≤ q then ⌊q⌋ else ⌈q⌉

def TICK : ℚ := 5 / 1000

def tickMs : Int := pyInt (TICK * 1000)

/-- The tuples of `parse_notes`. -/
inductive Item where
  | square (degree : Fin 8) (beats : ℚ) (octOverride : Option Int) (accidental : Int)
      (rawTok : String) (sqIns : Option String)
  | noise (beats : ℚ) (rawTok : String) (noiseIns : String)

namespace Item

def beats : Item → ℚ
  | square _ beats _ _ _ _ => beats
  | noise beats _ _ => beats

def rawTok : Item → String
  | square _ _ _ _ rawTok _ => rawTok
  | noise _ rawTok _ => rawTok

/-- `noise_ins is not None`. -/
def isNoise : Item → Bool
  | square _ _ _ _ _ _ => false
  | noise _ _ _ => true

end Item

/-- `is_adsr` where there are no `volumes`. -/
structure SquareInstrument where
  modeBit : Int
  refBit : Int
  dutyBits : Int
  octaveShift : Int
  volumes : Option (List Int)

/-- `NoiseInstrument.__init__` puts `[15, 0]` and 0.1 s where the file has nothing of use. -/
structure NoiseInstrument where
  volumes : List Int
  step : ℚ
  freqCode : Int
  bind : Int
  sounds : volumes ≠ []
  positive : 0 < step

/-- The computations in floating point of the dump, rounded where the source rounds them. -/
structure SongFloats (F : Type) extends Floats F where
  jianpuFreq (degree : Fin 8) (octave keySemi accidental : Int) : F
  /-- `max(1, min(255, round(256 - CLK_HZ / (2 * f))))`. -/
  freqPeriod : F → Int
  beatOf : ℚ → F

/-- The arguments of `dump_tracks` but for the notes. -/
structure Score (F : Type) where
  instruments : String → Option NoiseInstrument
  squareInstruments : String → Option SquareInstrument
  baseOctave : Int
  keySemi : Int
  keyOctaveShift : Int
  beatT : ℚ
  psg : Psg
  dutyOct : Option (Int → Int)
  vibEnabled : Bool
  vibRate : F
  vibAmpFrac : F
  vibDelay : F

/-! ## The recorder -/

inductive Track where
  | sqPeriod | sqCtrl | noise
  deriving DecidableEq

structure Event where
  ms : Int
  track : Track
  data : Int
  deriving DecidableEq

structure Recorder where
  events : List Event
  curMs : Int
  sqPeriod : Option Int
  sqCtrl : Option Byte
  psg : Psg

namespace Recorder
variable (rec : Recorder)

def advance (ms : Int) : Recorder := { rec with curMs := rec.curMs + ms }

def setPeriod (p : Int) : Recorder :=
  if rec.sqPeriod = some p then rec
  else { rec with events := rec.events ++ [⟨rec.curMs, .sqPeriod, p⟩], sqPeriod := some p }

def writeCtrl (vol : Int) : Recorder :=
  let ctrl := rec.psg.ctrl vol
  if rec.sqCtrl = some ctrl then rec
  else { rec with events := rec.events ++ [⟨rec.curMs, .sqCtrl, ctrl.toNat⟩], sqCtrl := some ctrl }

@[simp] theorem setPeriod_curMs (p : Int) : (rec.setPeriod p).curMs = rec.curMs := by
  unfold setPeriod
  split <;> rfl

@[simp] theorem writeCtrl_curMs (vol : Int) : (rec.writeCtrl vol).curMs = rec.curMs := by
  unfold writeCtrl
  simp only
  split <;> rfl

end Recorder

/-! ## The square track -/

/-- The variables of the square loop. -/
structure Square (F : Type) where
  recorder : Recorder
  voice : Voice04 F
  sqMs : Int
  curSqIns : Option SquareInstrument

section
variable {F : Type} (f : SongFloats F) (s : Score F)

namespace Square
variable (t : Square F)

/-- The calls of `Voice`, whose chip is the recorder. -/
def silence : Square F :=
  { t with
    voice := (Player.silence ⟨t.voice, 0, 0⟩).voice
    recorder := t.recorder.writeCtrl 0 }

def keyOn (freq : F) : Square F :=
  let p := Player.keyOn f.toFloats ⟨t.voice, 0, 0⟩ freq (s.dutyOct.map (· t.recorder.psg.duty))
  { t with
    voice := p.voice
    recorder := if f.positive freq then t.recorder.setPeriod p.period else t.recorder }

def keyOff : Square F :=
  { t with
    voice := (Player.keyOff ⟨t.voice, 0, 0⟩).voice
    recorder :=
      if t.voice.state ≠ .idle ∧ t.voice.vibEnabled ∧ t.voice.basePeriod > 0 then
        t.recorder.setPeriod t.voice.basePeriod
      else t.recorder }

def tick : Square F :=
  let p := Player.tick f.toFloats ⟨t.voice, 0, 0⟩
  let told := if p.voice.state ≠ .idle ∨ p.voice.vol ≠ 0 then t.recorder.writeCtrl p.voice.vol
    else t.recorder
  { t with
    voice := p.voice
    recorder := if p.voice.vibrates then told.setPeriod p.period else told }

/-- `psg.freq`. -/
def freq (hz : F) : Square F :=
  { t with
    recorder := if f.positive hz then t.recorder.setPeriod (f.freqPeriod hz) else t.recorder }

/-- One turn of the loops over `int(dur / TICK)`. -/
def turn : Square F :=
  tick f { t with recorder := t.recorder.advance tickMs, sqMs := t.sqMs + tickMs }

/-- The manual envelope of `volumes` over `durMs`. -/
def manual (volumes : List Int) (durMs : Int) : Square F :=
  let stepMs := if volumes.length > 0 then durMs / volumes.length else durMs
  let rec' := volumes.zipIdx.foldl
    (fun rec vol => { rec with curMs := t.sqMs + vol.2 * stepMs : Recorder }.writeCtrl vol.1)
    t.recorder
  { t with
    recorder := { rec' with curMs := t.sqMs + durMs : Recorder }.writeCtrl 0
    sqMs := t.sqMs + durMs }

end Square

/-- `cur_sq_ins` after the look at `sq_ins`. -/
def switched (cur : Option SquareInstrument) : Item → Option SquareInstrument
  | .square _ _ _ _ _ (some name) => (s.squareInstruments name).or cur
  | _ => cur

def Square.switch (t : Square F) (sqIns : Option String) : Square F :=
  match sqIns.bind s.squareInstruments with
  | some ins =>
    { t with
      curSqIns := some ins
      recorder := { t.recorder with psg := ⟨ins.dutyBits, ins.refBit, ins.modeBit⟩ } }
  | none => t

/-- One item of the square loop. -/
def squareItem (t : Square F) : Item → Square F
  | .noise _ _ _ => t
  | .square degree beats octOverride accidental _ sqIns =>
    let t := t.switch s sqIns
    let octUse := octOverride.getD s.baseOctave + s.keyOctaveShift +
      (t.curSqIns.map (·.octaveShift)).getD 0
    let dur := beats * s.beatT
    let durMs := pyInt (dur * 1000)
    let n := (pyInt (dur / TICK)).toNat
    let hz := f.jianpuFreq degree octUse s.keySemi accidental
    if degree.val = 0 then (Square.turn f)^[n] t.silence
    else
      match t.curSqIns.bind (·.volumes) with
      | some volumes => (t.freq f hz).manual volumes durMs
      | none =>
        let t := ((Square.turn f)^[n] (t.keyOn f s hz)).keyOff
        (Square.tick f)^[(t.voice.rTicks + 2).toNat] t

def squareStart : Square F where
  recorder := ⟨[], 0, none, none, s.psg⟩
  voice := ((Player.init f.toFloats).voice.setTempo f.toFloats (f.beatOf s.beatT)).setVibrato
    f.toFloats s.vibEnabled (some s.vibRate) (some s.vibAmpFrac) (some s.vibDelay)
  sqMs := 0
  curSqIns := none

/-- The square loop over the items of the lines. -/
def squareTrack (items : List Item) : Square F :=
  items.foldl (squareItem f s) (squareStart f s)

/-! ## The noise track and the printed lines -/

/-- The variables of the noise loop. -/
structure Noise where
  events : List Event
  nzMs : Int
  lastNoiseCtrl : Option Byte

def NoiseInstrument.ctrl (ins : NoiseInstrument) (vol : Int) : Byte :=
  low vol &&& 0x0F ||| (low ins.freqCode &&& 0x03) <<< 4 ||| (low ins.bind &&& 1) <<< 6

/-- The loop over `volumes` from the `vi`-th on. -/
def Noise.steps (t : Noise) (ins : NoiseInstrument) (endMs : Int) : List Int → Nat → Noise
  | [], _ => t
  | vol :: rest, vi =>
    let ms := t.nzMs + vi * pyInt (ins.step * 1000)
    if endMs ≤ ms then t
    else if t.lastNoiseCtrl = some (ins.ctrl vol) then Noise.steps t ins endMs rest (vi + 1)
    else
      Noise.steps
        { t with
          events := t.events ++ [⟨ms, .noise, (ins.ctrl vol).toNat⟩]
          lastNoiseCtrl := some (ins.ctrl vol) }
        ins endMs rest (vi + 1)

/-- One item of the noise loop. -/
def noiseItem (t : Noise) : Item → Noise
  | .square _ _ _ _ _ _ => t
  | .noise beats _ noiseIns =>
    match s.instruments noiseIns with
    | none => t
    | some ins =>
      let endMs := t.nzMs + pyInt (beats * s.beatT * 1000)
      let t := t.steps ins endMs ins.volumes 0
      let t := if t.lastNoiseCtrl = some 0 then t
        else { t with events := t.events ++ [⟨endMs, .noise, 0⟩], lastNoiseCtrl := some 0 }
      { t with nzMs := endMs }

def noiseTrack (items : List Item) : Noise := items.foldl (noiseItem s) ⟨[], 0, none⟩

def dumpTracks (notesLines : List (List Item)) : List Event × Int :=
  let square := squareTrack f s notesLines.flatten
  let noise := noiseTrack s notesLines.flatten
  (square.recorder.events ++ noise.events, max square.sqMs noise.nzMs)

inductive Label where
  | square | drums
  deriving DecidableEq

structure Row where
  start : Int
  label : Label
  text : String
  deriving DecidableEq

/-- The variables of `build_print_schedule`. -/
structure Printer where
  rows : List Row
  hasNoise : Bool
  sqMs : Int
  nzMs : Int

def Printer.line (beatT : ℚ) (p : Printer) (line : List Item) : Printer :=
  let text := " ".intercalate (line.map fun item => "[" ++ item.rawTok ++ "]")
  let advance := fun (ms : Int) (item : Item) => ms + pyInt (item.beats * beatT * 1000)
  if line.any Item.isNoise then
    { p with
      rows := p.rows ++ [⟨p.nzMs, .drums, text⟩]
      hasNoise := true
      nzMs := line.foldl advance p.nzMs }
  else
    { p with
      rows := p.rows ++ [⟨p.sqMs, .square, text⟩]
      sqMs := line.foldl advance p.sqMs }

def printed (beatT : ℚ) (notesLines : List (List Item)) : Printer :=
  notesLines.foldl (Printer.line beatT) ⟨[], false, 0, 0⟩

def buildPrintSchedule (beatT : ℚ) (notesLines : List (List Item)) : List Row × Bool :=
  let p := printed beatT notesLines
  (p.rows, p.hasNoise)

/-! ## What the axes should be, and for which songs they are -/

/-- `int(beats * beat_t * 1000)`. -/
def wholeMs (beatT : ℚ) (item : Item) : Int := pyInt (item.beats * beatT * 1000)

/-- The notes of one track, one behind the other. -/
def lasts (beatT : ℚ) (noise : Bool) (items : List Item) : Int :=
  (items.map fun item => if item.isNoise = noise then wholeMs beatT item else 0).sum

/-- The item is a noise note of an instrument of the table. -/
def known : Item → Bool
  | .square _ _ _ _ _ _ => false
  | .noise _ _ noiseIns => (s.instruments noiseIns).isSome

/-- Every note starts, and every line is printed, at the end of the notes before it that
are of the note's own track. -/
structure AxesAgree (notesLines : List (List Item)) : Prop where
  square : ∀ before item after, notesLines.flatten = before ++ item :: after →
    item.isNoise = false →
      (squareTrack f s before).recorder.curMs = lasts s.beatT false before
  noise : ∀ before item after, notesLines.flatten = before ++ item :: after →
    known s item = true → (noiseTrack s before).nzMs = lasts s.beatT true before
  lines : ∀ above line below, notesLines = above ++ line :: below → ∀ item ∈ line,
    ((buildPrintSchedule s.beatT notesLines).1[above.length]?).map Row.start =
      some (lasts s.beatT item.isNoise above.flatten)

/-- Rests and notes without manual volumes are played by `Voice.tick`. -/
def ticked (cur : Option SquareInstrument) : Item → Bool
  | .noise _ _ _ => false
  | item@(.square degree _ _ _ _ _) =>
    degree.val = 0 || ((switched s cur item).bind (·.volumes)).isNone

/-- What that takes. -/
structure InStep (notesLines : List (List Item)) : Prop where
  /-- A ticked note in front of another square note lasts whole ticks. -/
  ticks : ∀ before item after, notesLines.flatten = before ++ item :: after →
    (∃ later ∈ after, later.isNoise = false) →
      ticked s (before.foldl (switched s) none) item = true →
        0 ≤ wholeMs s.beatT item ∧ 5 ∣ wholeMs s.beatT item
  /-- No noise note follows notes of unknown instruments, unless these take no time. -/
  unknown : ∀ before item after, notesLines.flatten = before ++ item :: after →
    known s item = true →
      ((before.filter fun item => item.isNoise && !known s item).map (wholeMs s.beatT)).sum = 0
  /-- The square notes among the noise notes of a line take no time, unless it is the last. -/
  mixed : ∀ above line below, notesLines = above ++ line :: below → below.flatten ≠ [] →
    line.any Item.isNoise = true → lasts s.beatT false line = 0
  /-- The tracks are equally long where such a line starts. -/
  level : ∀ above line below, notesLines = above ++ line :: below →
    line.any Item.isNoise = true → (∃ item ∈ line, item.isNoise = false) →
      lasts s.beatT false above.flatten = lasts s.beatT true above.flatten

end

/-! ## Ticks and milliseconds -/

theorem tickMs_eq : tickMs = 5 := by
  have five : TICK * 1000 = ((5 : Int) : ℚ) := by norm_num [TICK]
  rw [tickMs, five, pyInt, if_pos (by norm_num), Int.floor_intCast]

theorem pyInt_nonpos {q : ℚ} (low : q < 0) : pyInt q ≤ 0 := by
  rw [pyInt, if_neg (not_le.mpr low)]
  exact Int.ceil_nonpos.mpr low.le

theorem ticks_exact (dur : ℚ) : tickMs * (pyInt (dur / TICK)).toNat = pyInt (dur * 1000) ↔
    0 ≤ pyInt (dur * 1000) ∧ 5 ∣ pyInt (dur * 1000) := by
  have fifth : dur / TICK = dur * 1000 / 5 := by
    rw [TICK]
    ring
  rw [tickMs_eq, fifth]
  generalize dur * 1000 = x
  by_cases h : 0 ≤ x
  · have floor : pyInt (x / 5) = pyInt x / 5 := by
      rw [pyInt, pyInt, if_pos h, if_pos (by positivity)]
      exact_mod_cast Int.floor_div_natCast x 5
    have pos : 0 ≤ pyInt x := by
      rw [pyInt, if_pos h]
      exact Int.floor_nonneg.mpr h
    rw [floor]
    omega
  · have neg : x < 0 := not_le.mp h
    have whole := pyInt_nonpos neg
    have ticks : pyInt (x / 5) ≤ 0 := pyInt_nonpos (by linarith)
    omega

/-! ## The square axis -/

section
variable {F : Type} (f : SongFloats F) (s : Score F)

/-- `u` is at the time of `t`, with its instrument. -/
structure Square.Still (t u : Square F) : Prop where
  curMs : u.recorder.curMs = t.recorder.curMs
  sqMs : u.sqMs = t.sqMs
  curSqIns : u.curSqIns = t.curSqIns

namespace Square
variable {t u v : Square F}

theorem Still.trans (first : Still t u) (second : Still u v) : Still t v where
  curMs := second.curMs.trans first.curMs
  sqMs := second.sqMs.trans first.sqMs
  curSqIns := second.curSqIns.trans first.curSqIns

variable (t)

theorem silence_still : Still t t.silence := ⟨Recorder.writeCtrl_curMs _ _, rfl, rfl⟩

theorem keyOn_still (hz : F) : Still t (t.keyOn f s hz) := by
  refine ⟨?_, rfl, rfl⟩
  unfold keyOn
  simp only
  split
  · exact Recorder.setPeriod_curMs _ _
  · rfl

theorem keyOff_still : Still t t.keyOff := by
  refine ⟨?_, rfl, rfl⟩
  unfold keyOff
  simp only
  split
  · exact Recorder.setPeriod_curMs _ _
  · rfl

theorem freq_still (hz : F) : Still t (t.freq f hz) := by
  refine ⟨?_, rfl, rfl⟩
  unfold freq
  simp only
  split
  · exact Recorder.setPeriod_curMs _ _
  · rfl

theorem tick_still : Still t (t.tick f) := by
  refine ⟨?_, rfl, rfl⟩
  unfold tick
  simp only
  split <;> split <;> simp

theorem ticks_still (n : Nat) : Still t ((tick f)^[n] t) := by
  induction n generalizing t with
  | zero => exact ⟨rfl, rfl, rfl⟩
  | succ n ih =>
    rw [Function.iterate_succ_apply]
    exact (tick_still f t).trans (ih _)

variable {t}

/-- `u` is `ms` later than `t`, with its instrument. -/
structure Later (ms : Int) (t u : Square F) : Prop where
  curMs : u.recorder.curMs = t.recorder.curMs + ms
  sqMs : u.sqMs = t.sqMs + ms
  curSqIns : u.curSqIns = t.curSqIns

theorem Still.later {ms : Int} (still : Still t u) (later : Later ms u v) : Later ms t v where
  curMs := by rw [later.curMs, still.curMs]
  sqMs := by rw [later.sqMs, still.sqMs]
  curSqIns := later.curSqIns.trans still.curSqIns

theorem Later.still {ms : Int} (later : Later ms t u) (still : Still u v) : Later ms t v where
  curMs := still.curMs.trans later.curMs
  sqMs := still.sqMs.trans later.sqMs
  curSqIns := still.curSqIns.trans later.curSqIns

variable (t)

theorem turns_later (n : Nat) : Later (tickMs * n) t ((turn f)^[n] t) := by
  induction n generalizing t with
  | zero => exact ⟨by simp, by simp, rfl⟩
  | succ n ih =>
    rw [Function.iterate_succ_apply]
    have one := tick_still f
      { t with recorder := t.recorder.advance tickMs, sqMs := t.sqMs + tickMs }
    obtain ⟨cur, sq, ins⟩ := ih (turn f t)
    have ms : tickMs * ((n + 1 : Nat) : Int) = tickMs + tickMs * n := by
      push_cast
      ring
    refine ⟨?_, ?_, ins.trans one.curSqIns⟩
    · rw [cur, turn, one.curMs, Recorder.advance, ms, Int.add_assoc]
    · rw [sq, turn, one.sqMs, ms, Int.add_assoc]

theorem manual_later (volumes : List Int) (durMs : Int)
    (level : t.recorder.curMs = t.sqMs) : Later durMs t (t.manual volumes durMs) := by
  refine ⟨?_, rfl, rfl⟩
  rw [level]
  exact Recorder.writeCtrl_curMs _ _

theorem switch_curSqIns (degree : Fin 8) (beats : ℚ) (octOverride : Option Int) (accidental : Int)
    (rawTok : String) (sqIns : Option String) :
    (t.switch s sqIns).curSqIns =
      switched s t.curSqIns (.square degree beats octOverride accidental rawTok sqIns) := by
  cases sqIns with
  | none => rfl
  | some name =>
    simp only [switch, switched, Option.bind_some]
    cases s.squareInstruments name <;> rfl

theorem switch_times (sqIns : Option String) :
    (t.switch s sqIns).recorder.curMs = t.recorder.curMs ∧ (t.switch s sqIns).sqMs = t.sqMs := by
  unfold switch
  split
  · exact ⟨rfl, rfl⟩
  · exact ⟨rfl, rfl⟩

end Square

/-- How long the square loop stays with an item. -/
def squareLasts (cur : Option SquareInstrument) (item : Item) : Int :=
  if item.isNoise then 0
  else if ticked s cur item then tickMs * (pyInt (item.beats * s.beatT / TICK)).toNat
  else wholeMs s.beatT item

theorem squareItem_time {t : Square F} (level : t.recorder.curMs = t.sqMs) (item : Item) :
    (squareItem f s t item).recorder.curMs = (squareItem f s t item).sqMs ∧
      (squareItem f s t item).sqMs = t.sqMs + squareLasts s t.curSqIns item ∧
      (squareItem f s t item).curSqIns = switched s t.curSqIns item := by
  cases item with
  | noise beats rawTok noiseIns => exact ⟨level, (Int.add_zero _).symm, rfl⟩
  | square degree beats octOverride accidental rawTok sqIns =>
    obtain ⟨cur, sq⟩ := t.switch_times s sqIns
    have ins := t.switch_curSqIns s degree beats octOverride accidental rawTok sqIns
    have here : (t.switch s sqIns).recorder.curMs = (t.switch s sqIns).sqMs := by
      rw [cur, sq, level]
    -- It is enough to know how much later the item ends.
    have enough : ∀ u, Square.Later (squareLasts s t.curSqIns
        (.square degree beats octOverride accidental rawTok sqIns)) (t.switch s sqIns) u →
        u.recorder.curMs = u.sqMs ∧ u.sqMs = t.sqMs + squareLasts s t.curSqIns
          (.square degree beats octOverride accidental rawTok sqIns) ∧
        u.curSqIns = switched s t.curSqIns
          (.square degree beats octOverride accidental rawTok sqIns) := by
      intro u later
      rw [later.curMs, later.sqMs, later.curSqIns, here, sq, ins]
      exact ⟨rfl, rfl, rfl⟩
    apply enough
    simp only [squareItem, squareLasts, ticked, Item.isNoise, Item.beats, wholeMs, ← ins]
    by_cases rest : degree.val = 0
    · simp only [rest, decide_true, Bool.true_or, ↓reduceIte, Bool.false_eq_true]
      exact (Square.silence_still _).later (Square.turns_later f _ _)
    · cases volumes : (t.switch s sqIns).curSqIns.bind (·.volumes) with
      | none =>
        simp only [rest, decide_false, Bool.false_or, Option.isNone_none, ↓reduceIte,
          Bool.false_eq_true]
        refine Square.Later.still ?_ (Square.ticks_still f _ _)
        refine Square.Later.still ?_ (Square.keyOff_still _)
        exact (Square.keyOn_still f s _ _).later (Square.turns_later f _ _)
      | some volumes =>
        simp only [rest, decide_false, Bool.false_or, Option.isNone_some, ↓reduceIte,
          Bool.false_eq_true]
        have still := Square.freq_still f (t.switch s sqIns) (f.jianpuFreq degree
          (octOverride.getD s.baseOctave + s.keyOctaveShift +
            ((t.switch s sqIns).curSqIns.map (·.octaveShift)).getD 0) s.keySemi accidental)
        exact still.later (Square.manual_later _ _ _ (by rw [still.curMs, still.sqMs, here]))

theorem squareFold_time (items : List Item) {t : Square F} (level : t.recorder.curMs = t.sqMs) :
    (items.foldl (squareItem f s) t).recorder.curMs =
      t.sqMs + Axis.total (switched s) (squareLasts s) t.curSqIns items := by
  induction items generalizing t with
  | nil => rw [List.foldl_nil, level, Axis.total_nil, Int.add_zero]
  | cons item rest ih =>
    obtain ⟨level', time, ins⟩ := squareItem_time f s level item
    rw [List.foldl_cons, ih level', time, ins, Axis.total_cons, Int.add_assoc]

theorem squareTrack_time (items : List Item) : (squareTrack f s items).recorder.curMs =
    Axis.total (switched s) (squareLasts s) none items := by
  rw [squareTrack, squareFold_time f s items rfl]
  exact Int.zero_add _

/-! ## The notes of a track -/

variable (beatT : ℚ) (noise : Bool)

@[simp] theorem lasts_nil : lasts beatT noise [] = 0 := rfl

@[simp] theorem lasts_append (front back : List Item) :
    lasts beatT noise (front ++ back) = lasts beatT noise front + lasts beatT noise back := by
  simp only [lasts, List.map_append, List.sum_append]

theorem lasts_cons (item : Item) (rest : List Item) : lasts beatT noise (item :: rest) =
    (if item.isNoise = noise then wholeMs beatT item else 0) + lasts beatT noise rest := by
  simp only [lasts, List.map_cons, List.sum_cons]

/-- How long a square note should last. -/
def squareShould (_ : Option SquareInstrument) (item : Item) : Int :=
  if item.isNoise = false then wholeMs s.beatT item else 0

theorem lasts_total (cur : Option SquareInstrument) (items : List Item) :
    lasts s.beatT false items = Axis.total (switched s) (squareShould s) cur items := by
  induction items generalizing cur with
  | nil => rfl
  | cons item rest ih => rw [lasts_cons, Axis.total_cons, ih (switched s cur item), squareShould]

theorem squareLasts_iff (cur : Option SquareInstrument) (item : Item) :
    squareLasts s cur item = squareShould s cur item ↔
      (ticked s cur item = true → 0 ≤ wholeMs s.beatT item ∧ 5 ∣ wholeMs s.beatT item) := by
  cases item with
  | noise beats rawTok noiseIns => simp [squareLasts, squareShould, ticked, Item.isNoise]
  | square degree beats octOverride accidental rawTok sqIns =>
    unfold squareLasts squareShould
    cases played : ticked s cur (.square degree beats octOverride accidental rawTok sqIns) with
    | false => simp [Item.isNoise]
    | true => simpa [Item.isNoise, wholeMs, Item.beats] using ticks_exact (beats * s.beatT)

/-- The square notes start where they should exactly if ticks do not show. -/
theorem squares_iff (items : List Item) :
    (∀ before item after, items = before ++ item :: after → item.isNoise = false →
        (squareTrack f s before).recorder.curMs = lasts s.beatT false before) ↔
      ∀ before item after, items = before ++ item :: after →
        (∃ later ∈ after, later.isNoise = false) →
          ticked s (before.foldl (switched s) none) item = true →
            0 ≤ wholeMs s.beatT item ∧ 5 ∣ wholeMs s.beatT item := by
  simp only [squareTrack_time, lasts_total s none, ← squareLasts_iff]
  apply Axis.together_iff
  intro cur item noise
  simp [squareLasts, squareShould, noise]

/-! ## The noise axis -/

theorem noiseItem_nzMs (t : Noise) (item : Item) : (noiseItem s t item).nzMs =
    t.nzMs + if known s item then wholeMs s.beatT item else 0 := by
  cases item with
  | square degree beats octOverride accidental rawTok sqIns => exact (Int.add_zero _).symm
  | noise beats rawTok noiseIns =>
    cases table : s.instruments noiseIns with
    | none => simp [noiseItem, known, table]
    | some ins => simp [noiseItem, known, table, wholeMs, Item.beats]

theorem noiseTrack_time (items : List Item) : (noiseTrack s items).nzMs =
    (items.map fun item => if known s item then wholeMs s.beatT item else 0).sum := by
  have from_time : ∀ t : Noise, (items.foldl (noiseItem s) t).nzMs =
      t.nzMs + (items.map fun item => if known s item then wholeMs s.beatT item else 0).sum := by
    induction items with
    | nil => exact fun t => (Int.add_zero _).symm
    | cons item rest ih =>
      intro t
      rw [List.foldl_cons, ih, noiseItem_nzMs, List.map_cons, List.sum_cons, Int.add_assoc]
  rw [noiseTrack, from_time]
  exact Int.zero_add _

/-- The noise axis lacks the notes of unknown instruments. -/
theorem noiseTrack_lacks (items : List Item) : lasts s.beatT true items =
    (noiseTrack s items).nzMs +
      ((items.filter fun item => item.isNoise && !known s item).map (wholeMs s.beatT)).sum := by
  rw [noiseTrack_time]
  induction items with
  | nil => rfl
  | cons item rest ih =>
    have square : item.isNoise = false → known s item = false := by
      intro h
      cases item <;> first | rfl | cases h
    rw [lasts_cons, ih, List.map_cons, List.sum_cons]
    cases noise : item.isNoise with
    | false => simp [noise, square noise]
    | true =>
      cases table : known s item with
      | false =>
        simp only [↓reduceIte, List.filter_cons, noise, table, Bool.not_false, Bool.and_self,
          List.map_cons, List.sum_cons, Bool.false_eq_true, zero_add]
        omega
      | true =>
        simp only [↓reduceIte, List.filter_cons, noise, table, Bool.not_true, Bool.and_false,
          Bool.false_eq_true]
        omega

/-! ## The printed axes -/

/-- What a line of noise notes adds to the wrong axis. -/
def astray (beatT : ℚ) (line : List Item) : Int :=
  if line.any Item.isNoise then lasts beatT false line else 0

theorem advance_fold (line : List Item) (ms : Int) :
    line.foldl (fun (ms : Int) (item : Item) => ms + pyInt (item.beats * beatT * 1000)) ms =
      ms + (lasts beatT false line + lasts beatT true line) := by
  induction line generalizing ms with
  | nil => simp
  | cons item rest ih =>
    rw [List.foldl_cons, ih, lasts_cons, lasts_cons]
    cases noise : item.isNoise <;> simp [wholeMs] <;> omega

theorem square_line {line : List Item} (none : line.any Item.isNoise = false) :
    lasts beatT true line = 0 := by
  induction line with
  | nil => rfl
  | cons item rest ih =>
    rw [List.any_cons, Bool.or_eq_false_iff] at none
    rw [lasts_cons, none.1, ih none.2]
    simp

/-- The printer keeps the rows it has, adds one for each line, and its axes differ from
those of the notes by what went astray. -/
theorem printed_axes (lines : List (List Item)) :
    (printed beatT lines).rows.length = lines.length ∧
      (printed beatT lines).nzMs = lasts beatT true lines.flatten + (lines.map (astray beatT)).sum ∧
      (printed beatT lines).sqMs =
        lasts beatT false lines.flatten - (lines.map (astray beatT)).sum := by
  induction lines using List.reverseRecOn with
  | nil => exact ⟨rfl, rfl, rfl⟩
  | append_singleton lines line ih =>
    obtain ⟨rows, nz, sq⟩ := ih
    rw [printed, List.foldl_append, List.foldl_cons, List.foldl_nil, ← printed]
    simp only [List.length_append, List.length_singleton, List.flatten_append,
      List.flatten_singleton, lasts_append, List.map_append, List.map_singleton, List.sum_append, List.sum_singleton]
    cases noise : line.any Item.isNoise with
    | true =>
      simp only [Printer.line, noise, ↓reduceIte, List.length_append, List.length_singleton,
        advance_fold, astray]
      refine ⟨by omega, by omega, by omega⟩
    | false =>
      have none := square_line beatT noise
      simp only [Printer.line, noise, ↓reduceIte, Bool.false_eq_true, List.length_append,
        List.length_singleton, advance_fold, astray]
      refine ⟨by omega, by omega, by omega⟩

theorem Printer.line_rows (p : Printer) (line : List Item) : ∃ text, (p.line beatT line).rows =
    p.rows ++ [⟨if line.any Item.isNoise then p.nzMs else p.sqMs,
      if line.any Item.isNoise then .drums else .square, text⟩] := by
  cases noise : line.any Item.isNoise with
  | true => exact ⟨_, by simp only [Printer.line, noise, ↓reduceIte]; rfl⟩
  | false =>
    exact ⟨_, by simp only [Printer.line, noise, ↓reduceIte, Bool.false_eq_true]; rfl⟩

theorem Printer.rows_kept (p : Printer) (lines : List (List Item)) :
    ∃ more, (lines.foldl (Printer.line beatT) p).rows = p.rows ++ more := by
  induction lines generalizing p with
  | nil => exact ⟨[], (List.append_nil _).symm⟩
  | cons line rest ih =>
    obtain ⟨text, row⟩ := p.line_rows beatT line
    obtain ⟨more, rows⟩ := ih (p.line beatT line)
    rw [List.foldl_cons, rows, row, List.append_assoc]
    exact ⟨_, rfl⟩

theorem printed_start (above below : List (List Item)) (line : List Item) :
    ((buildPrintSchedule beatT (above ++ line :: below)).1[above.length]?).map Row.start =
      some (if line.any Item.isNoise then
          lasts beatT true above.flatten + (above.map (astray beatT)).sum
        else lasts beatT false above.flatten - (above.map (astray beatT)).sum) := by
  obtain ⟨count, nz, sq⟩ := printed_axes beatT above
  have rows : (buildPrintSchedule beatT (above ++ line :: below)).1 =
      ((line :: below).foldl (Printer.line beatT) (printed beatT above)).rows := by
    rw [buildPrintSchedule, printed, List.foldl_append]
    rfl
  obtain ⟨text, row⟩ := (printed beatT above).line_rows beatT line
  obtain ⟨more, kept⟩ := Printer.rows_kept beatT ((printed beatT above).line beatT line) below
  rw [rows, List.foldl_cons, kept, row, List.append_assoc, ← count, ← nz, ← sq]
  simp

theorem lines_iff (notesLines : List (List Item)) :
    (∀ above line below, notesLines = above ++ line :: below → ∀ item ∈ line,
        ((buildPrintSchedule beatT notesLines).1[above.length]?).map Row.start =
          some (lasts beatT item.isNoise above.flatten)) ↔
      (∀ above line below, notesLines = above ++ line :: below → below.flatten ≠ [] →
        line.any Item.isNoise = true → lasts beatT false line = 0) ∧
      ∀ above line below, notesLines = above ++ line :: below →
        line.any Item.isNoise = true → (∃ item ∈ line, item.isNoise = false) →
          lasts beatT false above.flatten = lasts beatT true above.flatten := by
  have starts : ∀ above line below, notesLines = above ++ line :: below → ∀ item : Item,
      (((buildPrintSchedule beatT notesLines).1[above.length]?).map Row.start =
        some (lasts beatT item.isNoise above.flatten) ↔
      (if line.any Item.isNoise then
          lasts beatT true above.flatten + (above.map (astray beatT)).sum
        else lasts beatT false above.flatten - (above.map (astray beatT)).sum) =
        lasts beatT item.isNoise above.flatten) := by
    rintro above line below rfl item
    rw [printed_start, Option.some_inj]
  have nothing_astray : (∀ above line below, notesLines = above ++ line :: below → line ≠ [] →
        (above.map (astray beatT)).sum = 0) ↔
      ∀ above line below, notesLines = above ++ line :: below → below.flatten ≠ [] →
        line.any Item.isNoise = true → lasts beatT false line = 0 := by
    have each := @Axis.excess_iff _ (· ≠ []) (astray beatT) notesLines
      (by intro line empty; rw [not_not.mp empty]; rfl)
    rw [each]
    simp only [ne_eq, List.flatten_eq_nil_iff, not_forall, exists_prop, astray, ite_eq_right_iff]
  rw [← nothing_astray]
  constructor
  · intro right
    have none : ∀ above line below, notesLines = above ++ line :: below → line ≠ [] →
        (above.map (astray beatT)).sum = 0 := by
      intro above line below split some
      cases noise : line.any Item.isNoise with
      | true =>
        obtain ⟨item, mem, drum⟩ := List.any_eq_true.mp noise
        have start :=
          (starts above line below split item).mp (right above line below split item mem)
        rw [noise, if_pos rfl, drum] at start
        omega
      | false =>
        obtain ⟨item, mem⟩ := List.exists_mem_of_ne_nil line some
        have square : item.isNoise = false := by
          simpa using List.any_eq_false.mp noise item mem
        have start :=
          (starts above line below split item).mp (right above line below split item mem)
        rw [noise, if_neg (by decide), square] at start
        omega
    refine ⟨none, ?_⟩
    rintro above line below split noise ⟨item, mem, square⟩
    have start := (starts above line below split item).mp (right above line below split item mem)
    have zero := none above line below split (List.ne_nil_of_mem mem)
    rw [noise, if_pos rfl, square, zero] at start
    omega
  · rintro ⟨none, level⟩ above line below split item mem
    have zero := none above line below split (List.ne_nil_of_mem mem)
    rw [starts above line below split item, zero]
    cases noise : line.any Item.isNoise with
    | true =>
      cases kind : item.isNoise with
      | true => simp
      | false =>
        have same := level above line below split noise ⟨item, mem, kind⟩
        simp [same]
    | false =>
      have square : item.isNoise = false := by
        simpa using List.any_eq_false.mp noise item mem
      simp [square]

/-- **The axes agree exactly for the songs in step.** -/
theorem axes_agree_iff (notesLines : List (List Item)) :
    AxesAgree f s notesLines ↔ InStep s notesLines := by
  constructor
  · intro agree
    obtain ⟨mixed, level⟩ := (lines_iff s.beatT notesLines).mp agree.lines
    refine ⟨(squares_iff f s notesLines.flatten).mp agree.square, ?_, mixed, level⟩
    intro before item after split note
    have start := agree.noise before item after split note
    have lacks := noiseTrack_lacks s before
    omega
  · intro inStep
    refine ⟨(squares_iff f s notesLines.flatten).mpr inStep.ticks, ?_,
      (lines_iff s.beatT notesLines).mpr ⟨inStep.mixed, inStep.level⟩⟩
    intro before item after split note
    have none := inStep.unknown before item after split note
    have lacks := noiseTrack_lacks s before
    omega

end

/-- The pitches from C4 to B4 in thousandths of a hertz. -/
def pitches : List Int :=
  [261626, 277183, 293665, 311127, 329628, 349228, 369994, 391995, 415305, 440000, 466164, 493883]

/-- `NOTE_SEMITONE`, which has no rest. -/
def noteSemitone (degree : Fin 8) : Int := ([0, 0, 2, 4, 5, 7, 9, 11] : List Int).getD degree 0

def songThousandths : SongFloats Int where
  toFloats := thousandths
  jianpuFreq degree octave keySemi accidental :=
    let midi := 12 * (octave + 1) + noteSemitone degree + keySemi + accidental
    pitches.getD (midi % 12).toNat 0 * 2 ^ (midi / 12 - 5).toNat / 2 ^ (5 - midi / 12).toNat
  freqPeriod hz := max 1 (min 255 (roundDiv (256 * (2 * hz) - 64000000) (2 * hz)))
  beatOf beatT := pyInt (beatT * 1000)

/-- The default tempo, no instruments. -/
def defaultScore : Score Int where
  instruments _ := none
  squareInstruments _ := none
  baseOctave := 4
  keySemi := 0
  keyOctaveShift := 0
  beatT := 22 / 100
  psg := ⟨3, 0, 0⟩
  dutyOct := none
  vibEnabled := false
  vibRate := 6000
  vibAmpFrac := 14
  vibDelay := 100

def firstNote : Item := .square ⟨1, by decide⟩ (3 / 10) none 0 "1:0.3" none
def secondNote : Item := .square ⟨2, by decide⟩ 1 none 0 "2:1" none

/-- The first note lasts 66 ms and the second starts at 65 ms. -/
theorem axes_drift :
    lasts defaultScore.beatT false [firstNote] = 66 ∧
    (squareTrack songThousandths defaultScore [firstNote]).recorder.curMs = 65 ∧
    ¬ AxesAgree songThousandths defaultScore [[firstNote, secondNote]] := by
  have should : lasts defaultScore.beatT false [firstNote] = 66 := by decide +kernel
  have is : (squareTrack songThousandths defaultScore [firstNote]).recorder.curMs = 65 := by
    rw [squareTrack_time]
    decide +kernel
  refine ⟨should, is, ?_⟩
  intro agree
  have start := agree.square [firstNote] secondNote [] rfl rfl
  rw [is, should] at start
  exact absurd start (by decide)

end Chiptune.Psg3
