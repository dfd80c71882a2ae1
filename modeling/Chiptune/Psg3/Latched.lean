import Chiptune.Psg3.Top

/-!
# The PSG2 v0.3 board

Before the bus of PSG3 the host clocked the registers itself: `psg_square_duty_v03.v` and
`psg_noise_374_v03.v` latch the C port through a 74HC373 on `LE` and two 74HC374 on `A0` and
`A1`. The drivers are `Psg` of `host/psg_adsr_songs_v03.py` and `NoisePsg` of
`host/psg_noisetest_v03.py`. The channels are those of PSG3 v0.4.

* `serves_command`: the order in which the pins of a command switch makes no difference.
* `latched_law`: what is heard after the calls of a session.
-/

namespace Chiptune.Psg3

open Period

/-! ## The latches -/

/-- The D port carries `LE`, `A0`, `RST` and `A1` on its bits 4 to 7. -/
@[ext] structure Latches where
  d : Byte
  c : Byte
  periodQ : Byte
  ctrlQ : Byte
  noiseQ : Byte
  /-- The 373 is transparent. -/
  follows : d.getLsbD 4 = true → periodQ = c

namespace Latches

def le (d : Byte) : Bool := d.getLsbD 4
def a0 (d : Byte) : Bool := d.getLsbD 5
def a1 (d : Byte) : Bool := d.getLsbD 7

section
variable (b : Latches)

/-- The pins move. -/
def settle (d c : Byte) : Latches where
  d := d
  c := c
  periodQ := if le d then c else b.periodQ
  ctrlQ := if !a0 b.d && a0 d then c else b.ctrlQ
  noiseQ := if !a1 b.d && a1 d then c else b.noiseQ
  follows := fun high => if_pos high

/-- One pin of the command's port takes its new level. -/
def switch (cmd : Cmd) (i : Fin 8) : Latches :=
  match cmd.port with
  | .d => b.settle (setPin b.d i (cmd.value.getLsbD i)) b.c
  | .c => b.settle b.d (setPin b.c i (cmd.value.getLsbD i))

/-- All its pins at once. -/
def command (cmd : Cmd) : Latches :=
  match cmd.port with
  | .d => b.settle cmd.value b.c
  | .c => b.settle b.d cmd.value

/-- The registers where PSG3 has them. -/
def regs (n : Fin 8) : Byte :=
  if n = 0 then b.periodQ else if n = 1 then b.ctrlQ else if n = 6 then b.noiseQ else 0

end

section
variable {b : Latches} {v : Byte}

theorem no_edge (x : Bool) : (!x && x) = false := by cases x <;> rfl

theorem settle_self : b.settle b.d b.c = b := by
  obtain ⟨d, c, p, q, n, follows⟩ := b
  have period : (if le d then c else p) = p := by
    by_cases high : le d = true
    · rw [if_pos high, follows high]
    · rw [if_neg high]
  simp only [settle, no_edge, period, Bool.false_eq_true, ↓reduceIte]

/-- Data that change twice. -/
theorem settle_data (x y : Byte) : (b.settle b.d x).settle b.d y = b.settle b.d y := by
  by_cases high : le b.d = true
  · simp only [settle, no_edge, high, Bool.false_eq_true, ↓reduceIte]
  · simp only [settle, no_edge, high, Bool.false_eq_true, ↓reduceIte]

/-- Two moves of the D port are one if no pin moves twice. -/
theorem settle_path {x y : Byte}
    (once : ∀ k : Fin 8, x.getLsbD k = b.d.getLsbD k ∨ x.getLsbD k = y.getLsbD k) :
    (b.settle x b.c).settle y b.c = b.settle y b.c := by
  have edge (old mid new : Bool) (one : mid = old ∨ mid = new) (q c : Byte) :
      (if !mid && new then c else if !old && mid then c else q) = if !old && new then c else q := by
    cases old <;> cases mid <;> cases new <;> simp_all
  have period : (if le y then b.c else if le x then b.c else b.periodQ) =
      if le y then b.c else b.periodQ := by
    obtain same | same : le x = le b.d ∨ le x = le y := once 4
    · by_cases high : le b.d = true
      · rw [same, if_pos high, b.follows high]
      · rw [same, if_neg high]
    · rw [same]
      split <;> rfl
  have ctrl := edge (a0 b.d) (a0 x) (a0 y) (once 5) b.ctrlQ b.c
  have noise := edge (a1 b.d) (a1 x) (a1 y) (once 7) b.noiseQ b.c
  exact Latches.ext rfl rfl period ctrl noise

/-- The pins of a command in some order. -/
theorem switches_command (cmd : Cmd) {order : List (Fin 8)}
    (every : order.Perm (List.finRange 8)) : order.foldl (switch · cmd) b = b.command cmd := by
  obtain ⟨port, v⟩ := cmd
  cases port with
  | d =>
    -- the pins that have moved so far are at their new levels
    have moved (order : List (Fin 8)) (x : Byte)
        (once : ∀ k : Fin 8, x.getLsbD k = b.d.getLsbD k ∨ x.getLsbD k = v.getLsbD k) :
        order.foldl (switch · ⟨.d, v⟩) (b.settle x b.c) =
          b.settle (order.foldl (fun x i => setPin x i (v.getLsbD i)) x) b.c := by
      induction order generalizing x with
      | nil => rfl
      | cons i rest ih =>
        have level (k : Fin 8) := getLsbD_setPin x i k (v.getLsbD i)
        have one : (b.settle x b.c).settle (setPin x i (v.getLsbD i)) b.c =
            b.settle (setPin x i (v.getLsbD i)) b.c := by
          refine settle_path fun k => ?_
          rw [level]
          split
          · rename_i here
            exact here ▸ once k
          · exact .inr rfl
        refine (congrArg (rest.foldl (switch · ⟨.d, v⟩)) one).trans (ih _ fun k => ?_)
        rw [level]
        split
        · rename_i here
          exact .inr (here ▸ rfl)
        · exact once k
    have start := moved order b.d fun k => .inl rfl
    rwa [settle_self, setPins v every] at start
  | c =>
    have moved (order : List (Fin 8)) (x : Byte) :
        order.foldl (switch · ⟨.c, v⟩) (b.settle b.d x) =
          b.settle b.d (order.foldl (fun x i => setPin x i (v.getLsbD i)) x) := by
      induction order generalizing x with
      | nil => rfl
      | cons i rest ih =>
        exact (congrArg (rest.foldl (switch · ⟨.c, v⟩)) (settle_data x _)).trans (ih _)
    have start := moved order b.c
    rwa [settle_self, setPins v every] at start

theorem serves_command {cmds : List Cmd} {ps : List (Cmd × Fin 8)} (serves : Top.Serves cmds ps) :
    ps.foldl (fun b p => b.switch p.1 p.2) b = cmds.foldl command b := by
  induction serves generalizing b with
  | done => rfl
  | next order every _ ih =>
    rw [List.foldl_append, List.foldl_map, switches_command _ every, ih, List.foldl_cons]

end

end Latches

/-! ## The board -/

structure V03 where
  latches : Latches
  ch : Channels

namespace V03

section
variable (hc153 : BitVec 2 → BitVec 4 → Bool) (s : V03)

def regs : Fin 8 → Byte := s.latches.regs

def event : Top.Event → V03
  | .clk => { s with ch := s.ch.clock hc153 s.regs (Top.rstN s.latches.d) }
  | .pin cmd i =>
    let latches := s.latches.switch cmd i
    let ch := Top.reset (Top.rstN s.latches.d) (Top.rstN latches.d) s.ch
    { latches, ch := ch.settle hc153 latches.regs (s.ch.noiseClk hc153 s.regs) }

def run (es : List Top.Event) : V03 := es.foldl (event hc153) s

def rest (n : Nat) : V03 := s.run hc153 (List.replicate n .clk)

def sqAudio : Byte := s.ch.ch0.sqAudio s.regs
def nzAudio : Byte := s.ch.nzAudio s.regs

/-- The noise register is where some number of clocks takes it. -/
def Ran : Prop := ∃ k, s.ch.lfsr = Lfsr.after k

end

section
variable {hc153 : BitVec 2 → BitVec 4 → Bool} {s : V03}

theorem event_ran {e : Top.Event} (ran : s.Ran) : (s.event hc153 e).Ran := by
  obtain ⟨k, since⟩ := ran
  have clocked (times : Nat) : ∃ k', Lfsr.clock^[times] s.ch.lfsr = Lfsr.after k' :=
    ⟨times + k, by rw [since, Lfsr.after, Lfsr.after, Function.iterate_add_apply]⟩
  cases e with
  | clk =>
    simp only [event, Ran]
    rw [Channels.clock, Channels.settle_lfsr]
    exact clocked _
  | pin cmd i =>
    have kept (before after : Bool) : (Top.reset before after s.ch).lfsr = s.ch.lfsr := by
      unfold Top.reset
      split <;> rfl
    simp only [event, Ran]
    rw [Channels.settle_lfsr, kept]
    exact clocked _

theorem run_ran (ran : s.Ran) (es : List Top.Event) : (s.run hc153 es).Ran := by
  induction es generalizing s with
  | nil => exact ran
  | cons e rest ih => exact ih (event_ran ran)

theorem run_latches (s : V03) (es : List Top.Event) : (s.run hc153 es).latches =
    (Top.pins es).foldl (fun b p => b.switch p.1 p.2) s.latches := by
  induction es generalizing s with
  | nil => rfl
  | cons e rest ih =>
    have later := ih (s.event hc153 e)
    cases e with
    | clk => exact later
    | pin cmd i => exact later

theorem rest_eq (high : Top.rstN s.latches.d = true) (n : Nat) :
    s.rest hc153 n = ⟨s.latches, s.ch.run hc153 s.regs n⟩ := by
  induction n with
  | zero => rfl
  | succ n ih =>
    have last : s.rest hc153 (n + 1) = (s.rest hc153 n).event hc153 .clk := by
      rw [rest, run, List.replicate_succ', List.foldl_append]
      rfl
    rw [last, ih, event]
    simp only [high]
    rfl

end

end V03

/-! ## The drivers -/

inductive Poke
  /-- `_sd` -/
  | sd (bit : Fin 8) (v : Bool)
  /-- The C port. -/
  | data (x : Byte)

/-- `_d` after them. -/
def lines (d : Byte) : List Poke → Byte
  | [] => d
  | .sd bit v :: rest => lines (setPin d bit v) rest
  | .data _ :: rest => lines d rest

def pokeCmds (d : Byte) : List Poke → List Cmd
  | [] => []
  | .sd bit v :: rest => ⟨.d, setPin d bit v⟩ :: pokeCmds (setPin d bit v) rest
  | .data x :: rest => ⟨.c, x⟩ :: pokeCmds d rest

/-- `reset` of both drivers. -/
def resetPokes : List Poke := [.sd 6 false, .sd 6 true]

/-- Both start with all pins of the D port high, and low again. -/
def opening : List Cmd := [⟨.d, 0xFF⟩, ⟨.d, 0⟩]

/-- What the three registers mean, in the words of the hosts. -/
structure Settings where
  period : Int
  vol : Int
  duty : Int
  noiseVol : Int
  freqCode : Int
  bind : Int

/-- The meaning of bytes that no call has sent. -/
def Settings.of (period ctrl noise : Byte) : Settings where
  period := period.toNat
  vol := (ctrl.extractLsb' 0 4).toNat
  duty := (ctrl.extractLsb' 4 2).toNat
  noiseVol := (noise.extractLsb' 0 4).toNat
  freqCode := (noise.extractLsb' 4 2).toNat
  bind := (noise.getLsbD 6).toNat

namespace Psg

/-- The methods of `Psg` in `psg_adsr_songs_v03.py`. -/
inductive Call03
  | reset
  | setPeriod (p : Int)
  | writeCtrl (vol : Int)
  /-- New values of the attributes. -/
  | tone (duty ref mode : Int)

variable (psg : Psg)

def pokes : Call03 → List Poke
  | .reset => resetPokes
  | .setPeriod p => [.sd 5 false, .data (low (clamp 0 255 p)), .sd 4 true, .sd 4 false]
  | .writeCtrl vol => [.sd 4 false, .data (psg.ctrl vol), .sd 5 true, .sd 5 false]
  | .tone _ _ _ => []

def told : Call03 → Psg
  | .tone duty ref mode => ⟨duty, ref, mode⟩
  | _ => psg

def set (w : Settings) : Call03 → Settings
  | .setPeriod p => { w with period := p }
  | .writeCtrl vol => { w with vol, duty := psg.duty }
  | _ => w

def send03 (psg : Psg) : List Call03 → List Poke
  | [] => []
  | c :: rest => psg.pokes c ++ (psg.told c).send03 rest

/-- What the calls leave of these settings. -/
def settings (psg : Psg) (w : Settings) : List Call03 → Settings
  | [] => w
  | c :: rest => (psg.told c).settings (psg.set w c) rest

/-- `init_audio` -/
def initAudio : List Call03 := [.tone 3 0 0, .setPeriod 1, .writeCtrl 0]

/-- `__init__` and these calls. -/
def session (calls : List Call03) : List Cmd :=
  opening ++ pokeCmds 0 (send03 ⟨3, 0, 0⟩ (.reset :: initAudio ++ calls))

end Psg

namespace NoisePsg

/-- The methods of `NoisePsg` in `psg_noisetest_v03.py`. -/
inductive Call03
  | reset
  | writeSquarePeriod (p : Int)
  | writeNoiseCtrl (vol freqCode bind : Int)

def pokes : Call03 → List Poke
  | .reset => resetPokes
  | .writeSquarePeriod p =>
    [.sd 5 false, .sd 7 false, .data (low (clamp 0 255 p)), .sd 4 true, .sd 4 false]
  | .writeNoiseCtrl vol freqCode bind =>
    [.sd 4 false, .sd 5 false, .data (noiseCtrl vol freqCode bind), .sd 7 true, .sd 7 false]

def set (w : Settings) : Call03 → Settings
  | .reset => w
  | .writeSquarePeriod p => { w with period := p }
  | .writeNoiseCtrl vol freqCode bind => { w with noiseVol := vol, freqCode, bind }

/-- `__init__` and these calls. -/
def session (calls : List Call03) : List Cmd :=
  opening ++ pokeCmds 0 ((.reset :: calls).flatMap pokes)

end NoisePsg

/-! ## What the latches hold -/

namespace Latches

/-- What one of them does, whatever the order of the data pins. -/
def poke (b : Latches) : Poke → Latches
  | .sd bit v => b.settle (setPin b.d bit v) b.c
  | .data x => b.settle b.d x

theorem pokeCmds_command (b : Latches) (ps : List Poke) :
    (pokeCmds b.d ps).foldl command b = ps.foldl poke b ∧
      (ps.foldl poke b).d = lines b.d ps := by
  induction ps generalizing b with
  | nil => exact ⟨rfl, rfl⟩
  | cons s rest ih =>
    cases s with
    | sd bit v => exact ih (b.settle (setPin b.d bit v) b.c)
    | data x => exact ih (b.settle b.d x)

section
variable (x : Byte) (i : Fin 8) (v : Bool)

@[simp] theorem le_setPin : le (setPin x i v) = if 4 = i then v else le x := getLsbD_setPin x i 4 v
@[simp] theorem a0_setPin : a0 (setPin x i v) = if 5 = i then v else a0 x := getLsbD_setPin x i 5 v
@[simp] theorem a1_setPin : a1 (setPin x i v) = if 7 = i then v else a1 x := getLsbD_setPin x i 7 v

@[simp] theorem rstN_setPin : Top.rstN (setPin x i v) = if 6 = i then v else Top.rstN x :=
  getLsbD_setPin x i 6 v

end

/-- No latch is open. -/
structure Ready (d : Byte) : Prop where
  le : le d = false
  a0 : a0 d = false
  a1 : a1 d = false

/-- The latches stand for the settings. -/
structure Stands (w : Settings) (b : Latches) : Prop where
  period : (b.periodQ.toNat : Int) = clamp 0 255 w.period
  ctrl : ((sqVol b.regs).toNat : Int) = clamp 0 15 w.vol ∧
    ((dutySel b.regs).toNat : Int) = w.duty % 4
  noise : ((nzVol b.regs).toNat : Int) = clamp 0 15 w.noiseVol ∧
    ((freqSel b.regs).toNat : Int) = w.freqCode % 4 ∧ ((bindSw b.regs).toNat : Int) = w.bind % 2

/-- The noise fields of a byte that the host encodes. -/
theorem noise_fields {regs : Fin 8 → Byte} {vol freqCode bind : Int}
    (sent : regs 6 = noiseCtrl vol freqCode bind) :
    ((nzVol regs).toNat : Int) = clamp 0 15 vol ∧ ((freqSel regs).toNat : Int) = freqCode % 4 ∧
      ((bindSw regs).toNat : Int) = bind % 2 := by
  have bits : noiseCtrl vol freqCode bind = (low (clamp 0 15 vol) &&& 0x0F |||
      (low freqCode &&& 0x03) <<< 4 ||| (low bind &&& 1) <<< 6 ||| ((0 : Byte) &&& 1) <<< 7) := by
    simp [noiseCtrl]
  rw [bits] at sent
  refine ⟨?_, ?_, ?_⟩
  · rw [nzVol, sent, ctrl_vol, low_nibble]
    unfold clamp
    omega
  · rw [freqSel, sent, ctrl_duty, low_pair]
  · rw [bindSw, sent, ctrl_mode, low_bit]

section
variable {w : Settings} {b t : Latches}

/-! Each call opens its own latch only. -/

theorem stands_period (stands : Stands w b) {p : Int} (own : t.periodQ = low (clamp 0 255 p))
    (ctrl : t.ctrlQ = b.ctrlQ) (noise : t.noiseQ = b.noiseQ) :
    Stands { w with period := p } t := by
  obtain ⟨-, second, third⟩ := stands
  have whole := low_toNat (clamp 0 255 p)
  refine ⟨?_, ?_, ?_⟩
  · rw [own, whole]
    change clamp 0 255 p % 256 = clamp 0 255 p
    unfold clamp
    omega
  · have same : t.regs 1 = b.regs 1 := ctrl
    rw [sqVol, dutySel, same]
    exact second
  · have same : t.regs 6 = b.regs 6 := noise
    rw [nzVol, freqSel, bindSw, same]
    exact third

theorem stands_ctrl (stands : Stands w b) {psg : Psg} {vol : Int} (period : t.periodQ = b.periodQ)
    (own : t.ctrlQ = psg.ctrl vol) (noise : t.noiseQ = b.noiseQ) :
    Stands { w with vol, duty := psg.duty } t := by
  obtain ⟨first, -, third⟩ := stands
  have sent : t.regs 1 = psg.ctrl vol := own
  refine ⟨?_, ⟨sqVol_ctrl psg vol sent, dutySel_ctrl psg vol sent⟩, ?_⟩
  · rw [period]
    exact first
  · have same : t.regs 6 = b.regs 6 := noise
    rw [nzVol, freqSel, bindSw, same]
    exact third

theorem stands_noise (stands : Stands w b) {vol freqCode bind : Int}
    (period : t.periodQ = b.periodQ) (ctrl : t.ctrlQ = b.ctrlQ)
    (own : t.noiseQ = noiseCtrl vol freqCode bind) :
    Stands { w with noiseVol := vol, freqCode, bind } t := by
  obtain ⟨first, second, -⟩ := stands
  refine ⟨?_, ?_, noise_fields own⟩
  · rw [period]
    exact first
  · have same : t.regs 1 = b.regs 1 := ctrl
    rw [sqVol, dutySel, same]
    exact second

/-- A reset moves its own pin only. -/
theorem reset_stands (ready : Ready b.d) (stands : Stands w b) :
    Ready (resetPokes.foldl poke b).d ∧ Top.rstN (resetPokes.foldl poke b).d = true ∧
      Stands w (resetPokes.foldl poke b) := by
  obtain ⟨le, a0, a1⟩ := ready
  have same : (resetPokes.foldl poke b).periodQ = b.periodQ ∧
      (resetPokes.foldl poke b).ctrlQ = b.ctrlQ ∧ (resetPokes.foldl poke b).noiseQ = b.noiseQ := by
    simp [resetPokes, poke, settle, le]
  refine ⟨⟨?_, ?_, ?_⟩, ?_, ?_⟩
  · simpa [resetPokes, poke, settle] using le
  · simpa [resetPokes, poke, settle] using a0
  · simpa [resetPokes, poke, settle] using a1
  · simp [resetPokes, poke, settle]
  · obtain ⟨first, second, third⟩ := stands
    have ctrl : (resetPokes.foldl poke b).regs 1 = b.regs 1 := same.2.1
    have noise : (resetPokes.foldl poke b).regs 6 = b.regs 6 := same.2.2
    refine ⟨?_, ?_, ?_⟩
    · rw [same.1]
      exact first
    · rw [sqVol, dutySel, ctrl]
      exact second
    · rw [nzVol, freqSel, bindSw, noise]
      exact third

/-- Where both drivers are between two calls. -/
structure Between (w : Settings) (b : Latches) : Prop where
  ready : Ready b.d
  high : Top.rstN b.d = true
  stands : Stands w b

theorem song_call (psg : Psg) (between : Between w b) (c : Psg.Call03) :
    Between (psg.set w c) ((psg.pokes c).foldl poke b) := by
  obtain ⟨⟨le, a0, a1⟩, high, stands⟩ := between
  cases c with
  | reset =>
    obtain ⟨ready, high, stands⟩ := reset_stands ⟨le, a0, a1⟩ stands
    exact ⟨ready, high, stands⟩
  | setPeriod p =>
    refine ⟨⟨?_, ?_, ?_⟩, ?_, stands_period stands ?_ ?_ ?_⟩ <;>
      simp [Psg.pokes, poke, settle, a1, high]
  | writeCtrl vol =>
    refine ⟨⟨?_, ?_, ?_⟩, ?_, stands_ctrl stands ?_ ?_ ?_⟩ <;>
      simp [Psg.pokes, poke, settle, a0, a1, high]
  | tone duty ref mode => exact ⟨⟨le, a0, a1⟩, high, stands⟩

theorem noise_call (between : Between w b) (c : NoisePsg.Call03) :
    Between (NoisePsg.set w c) ((NoisePsg.pokes c).foldl poke b) := by
  obtain ⟨⟨le, a0, a1⟩, high, stands⟩ := between
  cases c with
  | reset =>
    obtain ⟨ready, high, stands⟩ := reset_stands ⟨le, a0, a1⟩ stands
    exact ⟨ready, high, stands⟩
  | writeSquarePeriod p =>
    refine ⟨⟨?_, ?_, ?_⟩, ?_, stands_period stands ?_ ?_ ?_⟩ <;>
      simp [NoisePsg.pokes, poke, settle, high]
  | writeNoiseCtrl vol freqCode bind =>
    refine ⟨⟨?_, ?_, ?_⟩, ?_, stands_noise stands ?_ ?_ ?_⟩ <;>
      simp [NoisePsg.pokes, poke, settle, a1, high]

theorem song_calls (psg : Psg) (between : Between w b) (calls : List Psg.Call03) :
    Between (psg.settings w calls) ((psg.send03 calls).foldl poke b) := by
  induction calls generalizing psg w b with
  | nil => exact between
  | cons c rest ih =>
    rw [Psg.send03, List.foldl_append]
    exact ih (psg.told c) (song_call psg between c)

theorem noise_calls (between : Between w b) (calls : List NoisePsg.Call03) :
    Between (calls.foldl NoisePsg.set w) ((calls.flatMap NoisePsg.pokes).foldl poke b) := by
  induction calls generalizing w b with
  | nil => exact between
  | cons c rest ih =>
    rw [List.flatMap_cons, List.foldl_append]
    exact ih (noise_call between c)

end

/-- The settings that a session finds. It opens all latches at once, and so the registers take
the data lines, but a latch whose line was high before sees no edge. -/
def found (b : Latches) : Settings :=
  .of b.c (if a0 b.d then b.ctrlQ else b.c) (if a1 b.d then b.noiseQ else b.c)

/-- Latches stand for what their own bytes mean. -/
theorem of_stands (b : Latches) : Stands (.of b.periodQ b.ctrlQ b.noiseQ) b := by
  refine ⟨?_, ?_, ?_⟩
  · change _ = clamp 0 255 (b.periodQ.toNat : Int)
    unfold clamp
    omega
  · change (((b.ctrlQ.extractLsb' 0 4).toNat : Int) = clamp 0 15 ((b.ctrlQ.extractLsb' 0 4).toNat : Int) ∧
      ((b.ctrlQ.extractLsb' 4 2).toNat : Int) = ((b.ctrlQ.extractLsb' 4 2).toNat : Int) % 4)
    unfold clamp
    omega
  · have bit := Bool.toNat_lt (b.noiseQ.getLsbD 6)
    change (((b.noiseQ.extractLsb' 0 4).toNat : Int) =
        clamp 0 15 ((b.noiseQ.extractLsb' 0 4).toNat : Int) ∧
      ((b.noiseQ.extractLsb' 4 2).toNat : Int) = ((b.noiseQ.extractLsb' 4 2).toNat : Int) % 4 ∧
      ((b.noiseQ.getLsbD 6).toNat : Int) = ((b.noiseQ.getLsbD 6).toNat : Int) % 2)
    unfold clamp
    omega

/-- The first reset of a session. -/
theorem opening_between (b : Latches) :
    Between b.found (resetPokes.foldl poke (opening.foldl command b)) := by
  let opened := opening.foldl command b
  have d : opened.d = 0 := rfl
  have low : Ready opened.d := by
    rw [d]
    exact ⟨rfl, rfl, rfl⟩
  have ctrl : opened.ctrlQ = if a0 b.d then b.ctrlQ else b.c := by
    have edges : a0 0xFF = true ∧ a0 0 = false := by decide
    simp only [opened, opening, List.foldl, command, settle, edges]
    cases a0 b.d <;> rfl
  have noise : opened.noiseQ = if a1 b.d then b.noiseQ else b.c := by
    have edges : a1 0xFF = true ∧ a1 0 = false := by decide
    simp only [opened, opening, List.foldl, command, settle, edges]
    cases a1 b.d <;> rfl
  have stands : Stands b.found opened := by
    rw [found, ← ctrl, ← noise]
    exact of_stands opened
  obtain ⟨ready, high, stands⟩ := reset_stands low stands
  exact ⟨ready, high, stands⟩

theorem song_session (b : Latches) (calls : List Psg.Call03) :
    Between (Psg.settings ⟨3, 0, 0⟩ b.found (Psg.initAudio ++ calls))
      ((Psg.session calls).foldl command b) := by
  have sent := (pokeCmds_command (opening.foldl command b)
    (Psg.send03 ⟨3, 0, 0⟩ (.reset :: Psg.initAudio ++ calls))).1
  rw [Psg.session, List.foldl_append]
  change Between _ ((pokeCmds (opening.foldl command b).d _).foldl command _)
  rw [sent, List.cons_append, Psg.send03, List.foldl_append]
  exact song_calls _ (opening_between b) _

theorem noise_session (b : Latches) (calls : List NoisePsg.Call03) :
    Between (calls.foldl NoisePsg.set b.found) ((NoisePsg.session calls).foldl command b) := by
  have sent := (pokeCmds_command (opening.foldl command b)
    ((.reset :: calls).flatMap NoisePsg.pokes)).1
  rw [NoisePsg.session, List.foldl_append]
  change Between _ ((pokeCmds (opening.foldl command b).d _).foldl command _)
  rw [sent, List.flatMap_cons, List.foldl_append]
  exact noise_calls (opening_between b) calls

end Latches

/-! ## What is heard -/

/-- The board plays these settings: a square wave of the period, the duty and the volume, still
where the period stops the counter, and a noise with exactly these periods. -/
def V03.Plays (hc153 : BitVec 2 → BitVec 4 → Bool) (w : Settings) (t : V03) : Prop :=
  let T := (256 - clamp 0 255 w.period).toNat
  let duty := BitVec.ofInt 2 w.duty
  (w.period < 255 → ∃ first, ∀ n, first ≤ n → (t.rest hc153 n).sqAudio =
    if (n - first) % (T * Ch0.dutyLen duty) < T * Ch0.dutyHigh duty then
      BitVec.ofInt 8 (16 * clamp 0 15 w.vol) else 0) ∧
  (255 ≤ w.period → Repeats 1 fun n => (t.rest hc153 n).sqAudio) ∧
  ∀ m, Repeats m (fun n => (t.rest hc153 n).nzAudio) ↔
    w.noiseVol ≤ 0 ∨ (w.bind % 2 = 1 ∧ 255 ≤ w.period) ∨
      255 * (if w.bind % 2 = 1 then T else 2 ^ ((w.freqCode % 4).toNat + 1)) ∣ m

theorem stands_plays {hc153 : BitVec 2 → BitVec 4 → Bool} (selects : Channels.Selects hc153)
    {w : Settings} {t : V03} (ran : t.Ran) (between : Latches.Between w t.latches) :
    t.Plays hc153 w := by
  obtain ⟨-, high, ⟨period, ⟨vol, sel⟩, noiseVol, freq, bound⟩⟩ := between
  obtain ⟨k, since⟩ := ran
  have length : 256 - (periodQ t.regs).toNat = (256 - clamp 0 255 w.period).toNat := by
    change (((periodQ t.regs).toNat : Int)) = _ at period
    omega
  have whole : periodQ t.regs = 0xFF ↔ 255 ≤ w.period := by
    rw [← BitVec.toNat_inj]
    change (((periodQ t.regs).toNat : Int)) = _ at period
    change (periodQ t.regs).toNat = 255 ↔ _
    unfold clamp at period
    omega
  have duty : dutySel t.regs = BitVec.ofInt 2 w.duty := by
    apply BitVec.eq_of_toNat_eq
    simp only [BitVec.toNat_ofInt]
    change (((dutySel t.regs).toNat : Int)) = _ at sel
    omega
  have loud : (sqVol t.regs).setWidth 8 <<< 4 = BitVec.ofInt 8 (16 * clamp 0 15 w.vol) := by
    apply BitVec.eq_of_toNat_eq
    simp only [BitVec.toNat_ofInt, BitVec.toNat_shiftLeft, BitVec.toNat_setWidth,
      Nat.shiftLeft_eq]
    change (((sqVol t.regs).toNat : Int)) = _ at vol
    unfold clamp at vol ⊢
    omega
  have silent : nzVol t.regs = 0 ↔ w.noiseVol ≤ 0 := by
    rw [← BitVec.toNat_inj]
    change (((nzVol t.regs).toNat : Int)) = _ at noiseVol
    change (nzVol t.regs).toNat = 0 ↔ _
    unfold clamp at noiseVol
    omega
  have on : bindSw t.regs = true ↔ w.bind % 2 = 1 := by
    rw [← bound]
    change bindSw t.regs = true ↔ (((bindSw t.regs).toNat : Int)) = 1
    cases bindSw t.regs <;> simp
  have clock : Channels.noisePeriod t.regs = if w.bind % 2 = 1 then
      (256 - clamp 0 255 w.period).toNat else 2 ^ ((w.freqCode % 4).toNat + 1) := by
    change (((freqSel t.regs).toNat : Int)) = _ at freq
    have code : (freqSel t.regs).toNat = (w.freqCode % 4).toNat := by omega
    rw [Channels.noisePeriod, code, length]
    exact if_congr on rfl rfl
  obtain ⟨wave, still⟩ := Ch0.sq_audio_law t.regs t.ch.ch0
  have noise (m : Nat) : Repeats m (fun n => (t.ch.run hc153 t.regs n).nzAudio t.regs) ↔ _ :=
    (Channels.nz_audio_law selects since).2 m
  have sq (n : Nat) : (t.rest hc153 n).sqAudio = (t.ch.ch0.run t.regs n).sqAudio t.regs := by
    rw [V03.rest_eq high, V03.sqAudio, Channels.run_ch0]
    rfl
  have nz (n : Nat) : (t.rest hc153 n).nzAudio = (t.ch.run hc153 t.regs n).nzAudio t.regs := by
    rw [V03.rest_eq high]
    rfl
  rw [length, duty, loud] at wave
  rw [V03.Plays]
  simp only [sq, nz]
  refine ⟨fun below => wave fun last => ?_, fun above => still (whole.mpr above), fun m => ?_⟩
  · have := whole.mp last
    omega
  · rw [noise m, silent, Channels.Stuck, on, whole, clock]

/-- **A session on the v0.3 board.** Whatever the board held and whenever the crystal ticks
between the pins: after a session of either driver it plays the settings of the last calls,
whatever `ref` and `mode` are. What the driver has no call for is what the session found. -/
theorem latched_law {hc153 : BitVec 2 → BitVec 4 → Bool} (selects : Channels.Selects hc153)
    {s : V03} (ran : s.Ran) :
    (∀ calls es, Top.Serves (Psg.session calls) (Top.pins es) →
      (s.run hc153 es).Plays hc153
        (Psg.settings ⟨3, 0, 0⟩ s.latches.found (Psg.initAudio ++ calls))) ∧
    (∀ calls es, Top.Serves (NoisePsg.session calls) (Top.pins es) →
      (s.run hc153 es).Plays hc153 (calls.foldl NoisePsg.set s.latches.found)) := by
  have latches (cmds : List Cmd) (es : List Top.Event) (serves : Top.Serves cmds (Top.pins es)) :
      (s.run hc153 es).latches = cmds.foldl Latches.command s.latches :=
    (V03.run_latches s es).trans (Latches.serves_command serves)
  constructor
  · intro calls es serves
    apply stands_plays selects (V03.run_ran ran es)
    rw [latches _ es serves]
    exact Latches.song_session s.latches calls
  · intro calls es serves
    apply stands_plays selects (V03.run_ran ran es)
    rw [latches _ es serves]
    exact Latches.noise_session s.latches calls

/-- The board as it powers up, with some levels on the pins. -/
def V03.powerUp (d c : Byte) : V03 :=
  ⟨⟨d, c, if Latches.le d then c else 0, 0, 0, fun high => if_pos high⟩,
    ⟨Ch0.reset, 0, Lfsr.powerUp⟩⟩

/-- Period 200, volume 9 and a pulse of an eighth, with `ref` and `mode` set. -/
def eighthCalls : List Psg.Call03 := [.tone 2 1 1, .setPeriod 200, .reset, .writeCtrl 9]

/-- Noise at volume 15 on the slowest clock, then bound to a square of period 200. -/
def boundCalls : List NoisePsg.Call03 :=
  [.writeSquarePeriod 200, .writeNoiseCtrl 15 3 0, .writeNoiseCtrl 7 3 1]

/-- With 0x35 on the data lines, the first driver leaves the noise at volume 5 on the clock of
code 3. The second one has no duty to set. -/
theorem latched_law_eighth :
    let hc153 : BitVec 2 → BitVec 4 → Bool := fun sel c => c.getLsbD sel.toNat
    let song := (V03.powerUp 0 0x35).run hc153 (Top.interleaved (Psg.session eighthCalls))
    let noise := (V03.powerUp 0 0x35).run hc153 (Top.interleaved (NoisePsg.session boundCalls))
    (∃ first, ∀ n, first ≤ n → (song.rest hc153 n).sqAudio =
      if (n - first) % (56 * 8) < 56 * 1 then 144 else 0) ∧
    Repeats (255 * 16) (fun n => (song.rest hc153 n).nzAudio) ∧
    Repeats (255 * 56) (fun n => (noise.rest hc153 n).nzAudio) ∧
    ¬ Repeats (255 * 16) (fun n => (noise.rest hc153 n).nzAudio) := by
  intro hc153 song noise
  have selects : Channels.Selects hc153 := fun _ _ => rfl
  have ran : (V03.powerUp 0 0x35).Ran := ⟨0, rfl⟩
  have law := latched_law selects ran
  obtain ⟨wave, -, left⟩ := law.1 eighthCalls _ (Top.interleaved_serves _)
  obtain ⟨-, -, bound⟩ := law.2 boundCalls _ (Top.interleaved_serves _)
  refine ⟨wave (by decide), (left _).mpr (by decide), (bound _).mpr (by decide), ?_⟩
  exact fun repeats => absurd ((bound _).mp repeats) (by decide)

end Chiptune.Psg3
