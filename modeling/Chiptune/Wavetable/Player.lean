import Chiptune.Wavetable.NoteOn
import Chiptune.Wavetable.Pass

/-!
# What the chip plays

The abstract instrument has four voices that tick together, and commands that start or
release one of them. In a run whose triggers are safe `wt_ram` is that instrument: the
channel records at rest are the voices after the ticks and commands carried out, and the
commands are those of the host, in order, but for one that may still wait.
-/

namespace Chiptune.Wavetable

/-! ## The instrument -/

deriving instance DecidableEq for Voice

abbrev Voices := BitVec 2 → Voice

inductive Act where
  | tick
  | on (ch : BitVec 2) (v : Voice)
  | off (ch : BitVec 2)
deriving DecidableEq

def Act.play (vs : Voices) : Act → Voices
  | .tick => fun ch => (vs ch).next
  | .on ch v => Function.update vs ch v
  | .off ch => Function.update vs ch { vs ch with env := 3 }

def Act.isCommand : Act → Bool
  | .tick => false
  | _ => true

/-! ## The records as voices -/

def voices (sram : Ram) : Voices := fun ch => (block sram ch).voice

theorem next_params (v : Voice) : v.next.step = v.step ∧ v.next.vol = v.vol ∧
    v.next.wave = v.wave ∧ v.next.rate = v.rate := by
  simp only [Voice.next, Voice.envelope]
  split_ifs <;> exact ⟨rfl, rfl, rfl, rfl⟩

theorem tick_voice (rom : Rom) (b : Block) : (b.tick rom).voice = b.voice.next := by
  have env (x : BitVec 3) : (x.setWidth 8).setWidth 3 = x := by revert x; decide
  have level (x : BitVec 4) : (x.setWidth 8).setWidth 4 = x := by revert x; decide
  obtain ⟨step, vol, wave, rate⟩ := next_params b.voice
  have fields : (b.tick rom).voice =
      { b.voice.next with
        step := b.voice.step
        vol := b.voice.vol
        wave := b.voice.wave
        rate := b.voice.rate } := by
    rw [Block.voice]
    simp only [Block.tick, oPhaseLo, oPhaseHi, oStepLo, oStepHi, oLevel, oEnvState, oEnvCnt, oVol,
      oDacOut, oWaveIdx, oEnvRate]
    simp only [BitVec.reduceEq, ↓reduceIte, append_bytes, env, level]
    rfl
  rw [fields, ← step, ← vol, ← wave, ← rate]

theorem voices_sample (rom : Rom) (sram : Ram) :
    voices (sample rom sram) = Act.play (voices sram) .tick := by
  funext ch
  have inside (o : BitVec 4) : (chAddr ch o).toNat / 16 = ch.toNat := by
    have ho := o.isLt
    rw [chAddr_toNat]
    omega
  have ticked : block (sample rom sram) ch = (block sram ch).tick rom := by
    funext o
    rw [block, sample, sampleFirst, if_pos (by rw [inside]; exact ch.isLt), inside, chAddr_low,
      BitVec.ofNat_toNat, BitVec.setWidth_eq]
  rw [voices, ticked, tick_voice]
  rfl

theorem voices_setBlock (sram : Ram) (ch : BitVec 2) (b : Block) :
    voices (setBlock sram ch b) = Function.update (voices sram) ch b.voice := by
  funext k
  rw [voices, block_setBlock, Function.update_apply]
  split <;> rfl

theorem release_voice (b : Block) :
    Block.voice (Function.update b oEnvState 3) = { b.voice with env := 3 } := by
  simp only [Block.voice, Function.update_apply, oPhaseLo, oPhaseHi, oStepLo, oStepHi, oLevel,
    oEnvState, oEnvCnt, oVol, oWaveIdx, oEnvRate, BitVec.reduceEq, ↓reduceIte]
  rfl

theorem voices_release (sram : Ram) (ch : BitVec 2) :
    voices (Function.update sram (chAddr ch oEnvState) 3) = Act.play (voices sram) (.off ch) := by
  have stored : Function.update sram (chAddr ch oEnvState) 3 =
      setBlock sram ch (Function.update (block sram ch) oEnvState 3) := by
    rw [← setBlock_update, setBlock_block]
  rw [stored, voices_setBlock, release_voice]
  rfl

/-- The byte that the DAC takes for the four voices. -/
def dac (rom : Rom) (vs : Voices) : Byte :=
  (vs 0).sound rom + (vs 1).sound rom + (vs 2).sound rom + (vs 3).sound rom

theorem dac_mix (rom : Rom) (sram : Ram) : BitVec.ofNat 8 (mix rom sram) = dac rom (voices sram) := by
  apply BitVec.eq_of_toNat_eq
  simp only [mix, mixFirst, List.range, List.range.loop, List.map_cons, List.map_nil, List.sum_cons,
    List.sum_nil, BitVec.toNat_ofNat, dac, BitVec.toNat_add, voices, BitVec.ofNat_eq_ofNat]
  change (_ + (_ + (_ + (_ + 0)))) % 256 = (((_ + _) % 256 + _) % 256 + _) % 256
  omega

/-! ## Commands -/

/-- The voice that a note_on starts. -/
def Host.noteVoice (h : Host) (ch : BitVec 2) : Voice where
  phase := 0
  step := h.step ch
  level := 0
  env := 1
  envCnt := 0
  vol := h.vol ch
  wave := h.waveIdx ch
  rate := h.envRate ch

/-- The voice depends on the bytes of the note only. -/
theorem noteVoice_congr {h k : Host} {ch : BitVec 2} (same : h.note ch = k.note ch) :
    h.noteVoice ch = k.noteVoice ch := by
  have record (b : Block) (n : Nat) : h.recordFirst ch b n = k.recordFirst ch b n := by
    induction n with
    | zero => rfl
    | succ n ih => rw [Host.recordFirst, Host.recordFirst, same, ih]
  have left := record_voice h ch fun _ => 0
  have right := record_voice k ch fun _ => 0
  rw [Host.record, record, ← Host.record, right] at left
  exact left.symm

section
variable (c : Chip)

/-- What the chip carries out in a clock. -/
def Chip.acts : List Act :=
  if c.time.sampleStart then [.tick]
  else match c.noteStored with
    | some (ch, 9) => [.on ch (c.host.noteVoice ch)]
    | _ => (c.released.map Act.off).toList

/-- What the host orders in a clock. -/
def Chip.ordered : List Act :=
  if c.noteOn then [.on c.host.hostCh (c.host.noteVoice c.host.hostCh)]
  else if c.noteOff then [.off c.host.hostCh]
  else []

/-- What was carried out, and ordered, in the first `N` clocks. -/
def Chip.played (board : Board) (inputs : Nat → Cycle) (N : Nat) : List Act :=
  (List.range N).flatMap fun n => (c.run board inputs n).acts

def Chip.orders (board : Board) (inputs : Nat → Cycle) (N : Nat) : List Act :=
  (List.range N).flatMap fun n => (c.run board inputs n).ordered

/-- No trigger is lost and no note torn. -/
structure Chip.Safe : Prop where
  on : c.OnSafe
  off : c.OffSafe

/-! ## One clock -/

variable {c}

theorem ordered_calm (calm : c.triggers = false) : c.ordered = [] := by
  rw [triggers_cases, Bool.or_eq_false_iff] at calm
  rw [Chip.ordered, calm.1, calm.2]
  rfl

theorem start_busy (start : c.time.sampleStart = true) : c.time.idle = false := by
  rw [Timer.idle, start]
  rfl

theorem acts_start (start : c.time.sampleStart = true) : c.acts = [.tick] := by
  rw [Chip.acts, if_pos start]

theorem acts_busy (start : c.time.sampleStart = false) (busy : c.time.idle = false) :
    c.acts = [] := by
  have none : c.released = none := by
    rw [Chip.released, busy]
    rfl
  rw [Chip.acts, start, noteStored_busy busy, none]
  rfl

theorem acts_other (idle : c.time.idle = true) (other : c.slot.onWaiting = false) :
    c.acts = (c.released.map Act.off).toList := by
  have start : c.time.sampleStart = false := by
    rw [Bool.eq_false_iff]
    intro start
    exact Bool.false_ne_true ((start_busy start).symm.trans idle)
  rw [Chip.acts, start, noteStored_other other]
  rfl

theorem acts_note (idle : c.time.idle = true) (waiting : c.slot.onWaiting = true) :
    c.acts = if c.slot.phase = 9 then [.on c.slot.ch (c.host.noteVoice c.slot.ch)] else [] := by
  have start : c.time.sampleStart = false := by
    rw [Bool.eq_false_iff]
    intro start
    exact Bool.false_ne_true ((start_busy start).symm.trans idle)
  have none : c.released = none := by
    rw [Chip.released, ((onWaiting_iff _).mp waiting).2]
    exact if_neg (by simp)
  rw [Chip.acts, start, noteStored_waiting idle waiting, none]
  by_cases last : c.slot.phase = 9
  · rw [if_pos last, last]
    rfl
  · have apart : c.slot.phase.toNat ≠ 9 := fun nine => last (BitVec.eq_of_toNat_eq nine)
    rw [if_neg last]
    simp only [Bool.false_eq_true, ↓reduceIte]
    split
    · rename_i ch here
      exact absurd (congrArg Prod.snd (Option.some_inj.mp here)) apart
    · rfl

/-- A command in the slot keeps triggers away. -/
theorem safe_calm (safe : c.Safe) (pending : c.slot.pending = true) : c.triggers = false := by
  rw [Bool.eq_false_iff]
  intro trig
  obtain free | ⟨on, idle, -⟩ := safe.off trig
  · exact Bool.false_ne_true (free.symm.trans pending)
  · obtain free | ⟨busy, -⟩ := safe.on.slot on
    · exact Bool.false_ne_true (free.symm.trans pending)
    · exact Bool.false_ne_true (busy.symm.trans idle)

theorem stored_none (board : Board) (idle : c.time.idle = true)
    (none : c.slot.store c.host = none) : (c.engStep board).stored c.sram = c.sram := by
  simp only [Chip.engStep, Chip.engNext, idle, ↓reduceIte, Engine.idle, none]
  split <;> rfl

end

/-! ## Runs -/

section
variable (board : Board) (inputs : Nat → Cycle) (c : Chip)

/-- The command that waits in the slot at clock `N`, with no byte of it stored yet. A note
has the parameters of the clock that ordered it. -/
inductive Chip.Awaits (N : Nat) : List Act → Prop where
  | none (free : (c.run board inputs N).slot.pending = false) : Chip.Awaits N []
  | off (pending : (c.run board inputs N).slot.pending = true)
      (op : (c.run board inputs N).slot.op = 2) :
      Chip.Awaits N [.off (c.run board inputs N).slot.ch]
  | on (n : Nat) (before : n < N) (on : (c.run board inputs n).noteOn = true)
      (slot : (c.run board inputs N).slot =
        { pending := true, op := 1, ch := (c.run board inputs n).host.hostCh, phase := 0 })
      (busy : ∀ k, n < k → k < N → (c.run board inputs k).time.idle = false) :
      Chip.Awaits N [.on (c.run board inputs n).host.hostCh
        ((c.run board inputs n).host.noteVoice (c.run board inputs n).host.hostCh)]

/-- What was ordered is what was carried out, but for the command that waits. -/
def Chip.Linked (N : Nat) : Prop := ∃ w, c.Awaits board inputs N w ∧
  c.orders board inputs N = (c.played board inputs N).filter Act.isCommand ++ w

/-- Neither a pass nor a note is under way. -/
def Chip.Rests (N : Nat) : Prop := (∃ m, (c.run board inputs N).time.Waits m) ∧
  ¬ ((c.run board inputs N).slot.onWaiting = true ∧ (c.run board inputs N).slot.phase ≠ 0)

/-- The clocks between two commands: the rests, and all starts of a pass. -/
def Chip.Stands (N : Nat) : Prop :=
  c.Rests board inputs N ∨ (c.run board inputs N).time.sampleStart = true

/-- The records are the voices after all that was carried out. -/
structure Chip.Plain (N : Nat) : Prop where
  rests : c.Rests board inputs N
  linked : c.Linked board inputs N
  voices : voices (c.run board inputs N).sram =
    (c.played board inputs N).foldl Act.play (voices c.sram)

variable {board inputs c}

theorem played_succ (N : Nat) : c.played board inputs (N + 1) =
    c.played board inputs N ++ (c.run board inputs N).acts := by
  rw [Chip.played, List.range_succ, List.flatMap_append]
  simp [Chip.played]

theorem orders_succ (N : Nat) : c.orders board inputs (N + 1) =
    c.orders board inputs N ++ (c.run board inputs N).ordered := by
  rw [Chip.orders, List.range_succ, List.flatMap_append]
  simp [Chip.orders]

theorem Chip.Awaits.fresh {N : Nat} {w : List Act} (awaits : c.Awaits board inputs N w) :
    ¬ ((c.run board inputs N).slot.onWaiting = true ∧ (c.run board inputs N).slot.phase ≠ 0) := by
  rintro ⟨waiting, phase⟩
  obtain ⟨pending, op⟩ := (onWaiting_iff _).mp waiting
  cases awaits with
  | none free => exact Bool.false_ne_true (free.symm.trans pending)
  | off _ two =>
    rw [op] at two
    exact absurd two (by decide)
  | on n _ _ slot _ =>
    rw [slot] at phase
    exact phase rfl

section
variable (live : ∀ n, (inputs n).Live) (safe : ∀ n, (c.run board inputs n).Safe)
include live

/-- A free slot takes what is ordered. -/
theorem awaits_free {N : Nat} (free : (c.run board inputs N).slot.pending = false) :
    c.Awaits board inputs (N + 1) (c.run board inputs N).ordered := by
  have next : (c.run board inputs (N + 1)).slot = (c.run board inputs N).slotNext :=
    (run_succ c live N).2.1
  rw [slotNext_free free] at next
  cases on : (c.run board inputs N).noteOn with
  | true =>
    rw [trigger_on on] at next
    rw [Chip.ordered, on, if_pos rfl]
    exact .on N (Nat.lt_succ_self N) on next fun k _ _ => by omega
  | false =>
    cases off : (c.run board inputs N).noteOff with
    | true =>
      rw [trigger_off off] at next
      have waits : c.Awaits board inputs (N + 1)
          [.off (c.run board inputs (N + 1)).slot.ch] := .off (by rw [next]) (by rw [next])
      rw [next] at waits
      rw [Chip.ordered, on, off]
      exact waits
    | false =>
      have calm : (c.run board inputs N).triggers = false := by
        rw [triggers_cases, on, off]
        rfl
      rw [trigger_calm calm] at next
      rw [ordered_calm calm]
      exact .none (by rw [next, free])

include safe

/-- While no command can be carried out the slot keeps the one it has. -/
theorem awaits_busy {N : Nat} {w : List Act} (busy : (c.run board inputs N).time.idle = false)
    (awaits : c.Awaits board inputs N w) :
    c.Awaits board inputs (N + 1) (w ++ (c.run board inputs N).ordered) := by
  have kept (pending : (c.run board inputs N).slot.pending = true) :
      (c.run board inputs (N + 1)).slot = (c.run board inputs N).slot ∧
        (c.run board inputs N).ordered = [] := by
    have calm := safe_calm (safe N) pending
    rw [(run_succ c live N).2.1, slotNext_calm calm, busy]
    exact ⟨rfl, ordered_calm calm⟩
  cases awaits with
  | none free => exact awaits_free live free
  | off pending op =>
    obtain ⟨slot, none⟩ := kept pending
    rw [none, List.append_nil, ← slot]
    rw [← slot] at pending op
    exact .off pending op
  | on n before on slot still =>
    obtain ⟨same, none⟩ := kept (by rw [slot])
    rw [none, List.append_nil]
    refine .on n (by omega) on (same.trans slot) fun k after hk => ?_
    obtain rfl | earlier : k = N ∨ k < N := by omega
    · exact busy
    · exact still k after earlier

theorem linked_busy {N : Nat} (busy : (c.run board inputs N).time.idle = false)
    (linked : c.Linked board inputs N) : c.Linked board inputs (N + 1) := by
  obtain ⟨w, awaits, orders⟩ := linked
  have ticks : (c.run board inputs N).acts.filter Act.isCommand = [] := by
    cases start : (c.run board inputs N).time.sampleStart with
    | true =>
      rw [acts_start start]
      rfl
    | false =>
      rw [acts_busy start busy]
      rfl
  refine ⟨_, awaits_busy live safe busy awaits, ?_⟩
  rw [orders_succ, orders, played_succ, List.filter_append, ticks, List.append_nil,
    List.append_assoc]

/-! ## From one rest to the next -/

/-- Through a pass. -/
theorem plain_pass {N : Nat} (plain : c.Plain board inputs N)
    (waits : (c.run board inputs N).time.Waits 0) :
    c.Plain board inputs (N + 129) ∧ (∀ k, N < k → k < N + 129 → ¬ c.Stands board inputs k) ∧
      (c.run board inputs (N + 129)).eng.dacOut =
        BitVec.ofNat 8 (mix board.rom (c.run board inputs N).sram) := by
  have start : (c.run board inputs N).time.sampleCnt = 0 := BitVec.eq_of_toNat_eq waits.cnt
  have starts : (c.run board inputs N).time.sampleStart = true := by
    rw [Timer.sampleStart, start]
    rfl
  have time (d : Nat) (hd : d ≤ 128) : (c.run board inputs (N + 1 + d)).time.At d := by
    rw [Nat.add_assoc, Nat.add_comm 1, Chip.run, Clocked.run_add]
    exact time_since start d (by omega) fun k _ => live (N + k)
  have played (d : Nat) (hd : d ≤ 128) :
      c.played board inputs (N + 1 + d) = c.played board inputs N ++ [.tick] := by
    induction d with
    | zero => rw [Nat.add_zero, played_succ, acts_start starts]
    | succ d ih =>
      obtain ⟨later, idle, -⟩ := Timer.at_next _ d (by omega) (time d (by omega))
      have busy : (c.run board inputs (N + 1 + d)).time.idle = false := by
        rw [Bool.eq_false_iff]
        exact fun now => absurd (idle.mp now) (by omega)
      rw [← Nat.add_assoc, played_succ, ih (by omega), acts_busy later busy, List.append_nil]
  have linked (d : Nat) (hd : d ≤ 129) : c.Linked board inputs (N + d) := by
    induction d with
    | zero => exact plain.linked
    | succ d ih =>
      have busy : (c.run board inputs (N + d)).time.idle = false := by
        rw [run_after c live]
        exact Timer.pass_busy _ starts d (by omega)
      exact linked_busy live safe busy (ih (by omega))
  have passes : (c.run board inputs N).Passes fun k => inputs (N + k) :=
    ⟨start, fun k _ => live (N + k)⟩
  have ends := @pass_end board _ _ passes
  have shift : c.run board inputs (N + 129) =
      (c.run board inputs N).run board (fun k => inputs (N + k)) 129 := Clocked.run_add _ _ _ _ _
  rw [← shift] at ends
  refine ⟨⟨⟨⟨183, ?_⟩, ?_⟩, linked 129 (Nat.le_refl _), ?_⟩, fun k after before rests => ?_, ends.2⟩
  · exact Timer.at_waits _ 128 (time 128 (Nat.le_refl _)) (Nat.le_refl _)
  · obtain ⟨w, awaits, -⟩ := linked 129 (Nat.le_refl _)
    exact awaits.fresh
  · rw [ends.1, voices_sample, plain.voices, played 128 (Nat.le_refl _), List.foldl_append]
    rfl
  · obtain ⟨d, rfl⟩ := Nat.exists_eq_add_of_le (show N + 1 ≤ k by omega)
    obtain ⟨⟨m, rest⟩, -⟩ | starts := rests
    · have step := (time d (by omega)).step
      rw [rest.step] at step
      have total : totalSteps.toNat = 128 := rfl
      omega
    · obtain ⟨later, -⟩ := Timer.at_next _ d (by omega) (time d (by omega))
      exact Bool.false_ne_true (later.symm.trans starts)

/-- Through an idle clock without a note. -/
theorem plain_idle {N m : Nat} (plain : c.Plain board inputs N)
    (waits : (c.run board inputs N).time.Waits (m + 1))
    (other : (c.run board inputs N).slot.onWaiting = false) : c.Plain board inputs (N + 1) := by
  obtain ⟨-, idle, next⟩ := Timer.waits_next _ m waits
  obtain ⟨time, slot, -, sram⟩ := @run_succ board _ c live N
  obtain ⟨w, awaits, orders⟩ := plain.linked
  have acts := acts_other idle other
  have commands : (c.run board inputs N).acts.filter Act.isCommand = (c.run board inputs N).acts := by
    rw [acts]
    cases (c.run board inputs N).released <;> rfl
  -- what the clock carries out and what waits then
  obtain ⟨v, later, same⟩ : ∃ v, c.Awaits board inputs (N + 1) v ∧
      w ++ (c.run board inputs N).ordered = (c.run board inputs N).acts ++ v := by
    cases awaits with
    | none free =>
      have none : (c.run board inputs N).released = none := by
        rw [Chip.released, free]
        simp
      refine ⟨_, awaits_free live free, ?_⟩
      rw [acts, none]
      rfl
    | off pending op =>
      have released : (c.run board inputs N).released = some (c.run board inputs N).slot.ch := by
        rw [Chip.released, idle, pending, op]
        rfl
      have calm := safe_calm (safe N) pending
      refine ⟨[], .none ?_, ?_⟩
      · rw [slot, slotNext_calm calm, idle, if_pos rfl, advance_off _ _ pending op]
      · rw [acts, released, ordered_calm calm]
        rfl
    | on n _ _ here _ =>
      rw [here] at other
      cases other
  have stored : voices (c.run board inputs (N + 1)).sram =
      (c.run board inputs N).acts.foldl Act.play (voices (c.run board inputs N).sram) := by
    rw [sram, acts]
    cases released : (c.run board inputs N).released with
    | some ch =>
      rw [released_stored board ch released, voices_release]
      rfl
    | none =>
      have quiet : (c.run board inputs N).slot.store (c.run board inputs N).host = none := by
        have away : ¬ ((c.run board inputs N).slot.pending = true ∧
            (c.run board inputs N).slot.op = 1) := by
          rw [← onWaiting_iff, other]
          exact Bool.false_ne_true
        rw [Chip.released, idle] at released
        rw [Slot.store]
        split_ifs with pending op two
        · exact absurd ⟨pending, op⟩ away
        · simp [pending, two] at released
        · rfl
        · rfl
      rw [stored_none board idle quiet]
      rfl
  refine ⟨⟨⟨m, by rw [time]; exact next⟩, later.fresh⟩, ⟨v, later, ?_⟩, ?_⟩
  · rw [orders_succ, orders, played_succ, List.filter_append, commands, List.append_assoc, same,
      List.append_assoc]
  · rw [stored, plain.voices, played_succ, List.foldl_append]

/-- The first idle clock of a note is the first of ten that are its own. -/
theorem note_clocks {n N : Nat} (ok : ∀ n, (c.run board inputs n).time.Ok)
    (steady : c.Steady board inputs) (before : n < N) (on : (c.run board inputs n).noteOn = true)
    (slot : (c.run board inputs N).slot =
      { pending := true, op := 1, ch := (c.run board inputs n).host.hostCh, phase := 0 })
    (busy : ∀ k, n < k → k < N → (c.run board inputs k).time.idle = false)
    (idle : (c.run board inputs N).time.idle = true) (k : Nat) (hk : k < 10) :
    (c.run board inputs (N + k)).time.idle = true ∧
      (c.run board inputs (N + k)).slot = { (c.run board inputs N).slot with
        phase := BitVec.ofNat 4 k } ∧
      (c.run board inputs (N + k)).host.note (c.run board inputs N).slot.ch =
        (c.run board inputs n).host.note (c.run board inputs N).slot.ch := by
  obtain ⟨e, rfl⟩ : ∃ e, N = n + 1 + e := Nat.exists_eq_add_of_le before
  have time (d : Nat) : (c.run board inputs (n + 1 + d)).time =
      (c.run board inputs n).time.next.after d := by
    rw [run_after c live, (run_succ c live n).1]
  -- the note is as old as a pass at most
  have recent : e < 130 := by
    obtain ⟨d, hd, now, -⟩ := Timer.first_idle _ (ok (n + 1))
    rw [← run_after c live] at now
    by_contra late
    exact Bool.false_ne_true ((busy (n + 1 + d) (by omega) (by omega)).symm.trans now)
  have ten (k : Nat) (hk : k < 10) : (c.run board inputs (n + 1 + e + k)).time.idle = true := by
    rw [time] at idle
    rw [Nat.add_assoc, time]
    refine Timer.ten_idle _ (ok n) ((safe n).on.room on) e idle (fun f hf => ?_) k hk
    rw [← time]
    exact busy (n + 1 + f) (by omega) (by omega)
  have issued : (c.run board inputs n).onIssued = some (c.run board inputs n).host.hostCh := by
    rw [Chip.onIssued, on, if_pos rfl]
  have since : n + 1 + e + k = n + (1 + e + k) := by omega
  have params := steady n _ issued (1 + e + k) (by omega)
  rw [← since] at params
  have phases := note_phases live (fun n => (safe n).on) (n + 1 + e) _ slot ten k hk
  rw [slot]
  exact ⟨ten k hk, phases, params⟩

/-- Through the ten bytes of a note. -/
theorem plain_note {N : Nat} (ok : ∀ n, (c.run board inputs n).time.Ok)
    (steady : c.Steady board inputs) (plain : c.Plain board inputs N)
    (idle : (c.run board inputs N).time.idle = true)
    (waiting : (c.run board inputs N).slot.onWaiting = true) :
    c.Plain board inputs (N + 10) ∧ ∀ k, N < k → k < N + 10 → ¬ c.Stands board inputs k := by
  obtain ⟨w, awaits, orders⟩ := plain.linked
  cases awaits with
  | none free =>
    rw [Slot.onWaiting, free] at waiting
    cases waiting
  | off _ op =>
    rw [Slot.onWaiting, op, Bool.and_comm] at waiting
    cases waiting
  | on n before on slot busy =>
    have clocks := note_clocks live safe ok steady before on slot busy idle
    rw [slot] at clocks
    generalize (c.run board inputs n).host.hostCh = ch at slot orders clocks
    have calm (k : Nat) (hk : k < 10) : (c.run board inputs (N + k)).triggers = false :=
      safe_calm (safe _) (by rw [(clocks k hk).2.1])
    have acts (k : Nat) (hk : k < 10) : (c.run board inputs (N + k)).acts =
        if k = 9 then [.on ch ((c.run board inputs n).host.noteVoice ch)] else [] := by
      obtain ⟨now, phase, params⟩ := clocks k hk
      have last : (BitVec.ofNat 4 k = 9) ↔ k = 9 := by
        rw [← BitVec.toNat_inj, BitVec.toNat_ofNat]
        change k % 16 = 9 ↔ k = 9
        omega
      rw [acts_note now (by rw [phase]; rfl), phase, noteVoice_congr params]
      simp only [last]
    have log (k : Nat) (hk : k < 10) : c.played board inputs (N + k) = c.played board inputs N ∧
        c.orders board inputs (N + k) = c.orders board inputs N := by
      induction k with
      | zero => exact ⟨rfl, rfl⟩
      | succ k ih =>
        obtain ⟨played, orders⟩ := ih (by omega)
        rw [← Nat.add_assoc, played_succ, orders_succ, acts k (by omega), if_neg (by omega),
          ordered_calm (calm k (by omega)), List.append_nil, List.append_nil]
        exact ⟨played, orders⟩
    obtain ⟨same, order⟩ := log 9 (by omega)
    have played : c.played board inputs (N + 10) = c.played board inputs N ++
        [.on ch ((c.run board inputs n).host.noteVoice ch)] := by
      rw [show N + 10 = N + 9 + 1 from rfl, played_succ, same, acts 9 (by omega), if_pos rfl]
    have order : c.orders board inputs (N + 10) = c.orders board inputs N := by
      rw [show N + 10 = N + 9 + 1 from rfl, orders_succ, order, ordered_calm (calm 9 (by omega)),
        List.append_nil]
    obtain ⟨ninth, phase, -⟩ := clocks 9 (by omega)
    obtain ⟨nextTime, nextSlot, -⟩ := @run_succ board _ c live (N + 9)
    have free : (c.run board inputs (N + 10)).slot.pending = false := by
      change (c.run board inputs (N + 9 + 1)).slot.pending = false
      rw [nextSlot, slotNext_calm (calm 9 (by omega)), ninth, if_pos rfl, phase]
      rfl
    obtain ⟨m, waits⟩ := Timer.idle_waits _ (ok _) ninth
    have stored := note_record live N ch (c.run board inputs n).host
      (fun k hk => (clocks k hk).2.2) (fun k hk => (clocks k hk).1) (fun k hk => (clocks k hk).2.1)
      10 (Nat.le_refl 10)
    refine ⟨⟨⟨⟨m, ?_⟩, (Chip.Awaits.none free).fresh⟩, ⟨[], .none free, ?_⟩, ?_⟩,
      fun k after early rests => ?_⟩
    · change (c.run board inputs (N + 9 + 1)).time.Waits m
      rw [nextTime]
      exact (Timer.waits_next _ m waits).2.2
    · rw [order, orders, played, List.filter_append, List.append_nil]
      rfl
    · rw [stored, voices_setBlock, ← Host.record, record_voice, plain.voices, played,
        List.foldl_append]
      rfl
    · obtain ⟨d, rfl⟩ := Nat.exists_eq_add_of_le (Nat.le_of_lt after)
      obtain ⟨-, between⟩ | starts := rests
      · refine between ?_
        rw [(clocks d (by omega)).2.1]
        refine ⟨rfl, fun zero => ?_⟩
        rw [← BitVec.toNat_inj, BitVec.toNat_ofNat] at zero
        change d % 16 = 0 at zero
        omega
      · exact Bool.false_ne_true ((start_busy starts).symm.trans (clocks d (by omega)).1)

/-- From every rest to the next. -/
theorem plain_next {N : Nat} (ok : ∀ n, (c.run board inputs n).time.Ok)
    (steady : c.Steady board inputs) (plain : c.Plain board inputs N) :
    ∃ m, N < m ∧ c.Plain board inputs m ∧
      ∀ k, N < k → k < m → ¬ c.Stands board inputs k := by
  obtain ⟨⟨m, waits⟩, -⟩ := plain.rests
  cases m with
  | zero =>
    obtain ⟨later, between, -⟩ := plain_pass live safe plain waits
    exact ⟨N + 129, by omega, later, between⟩
  | succ m =>
    cases waiting : (c.run board inputs N).slot.onWaiting with
    | false =>
      exact ⟨N + 1, by omega, plain_idle live safe plain waits waiting, fun k _ _ => by omega⟩
    | true =>
      have idle := (Timer.waits_next _ m waits).2.1
      obtain ⟨later, between⟩ := plain_note live safe ok steady plain idle waiting
      exact ⟨N + 10, by omega, later, between⟩

end

theorem Chip.Awaits.short {N : Nat} {w : List Act} (awaits : c.Awaits board inputs N w) :
    w.length ≤ 1 := by
  cases awaits with
  | none => exact Nat.zero_le 1
  | off => exact Nat.le_refl 1
  | on => exact Nat.le_refl 1

end

theorem plain_run {board : Board} {inputs : Nat → Cycle} {dLatch : Byte} {sram : Ram}
    (live : ∀ n, (inputs n).Live)
    (safe : ∀ n, ((Chip.initial dLatch sram).run board inputs n).Safe)
    (steady : (Chip.initial dLatch sram).Steady board inputs) (N : Nat)
    (stands : (Chip.initial dLatch sram).Stands board inputs N) :
    (Chip.initial dLatch sram).Plain board inputs N := by
  have start : (Chip.initial dLatch sram).Plain board inputs 0 :=
    ⟨⟨⟨311, rfl, rfl⟩, by simp [Chip.run, Chip.initial, Slot.onWaiting]⟩, ⟨[], .none rfl, rfl⟩, rfl⟩
  have rests (n : Nat) (plain : (Chip.initial dLatch sram).Plain board inputs n) :
      (Chip.initial dLatch sram).Stands board inputs n := .inl plain.rests
  exact Clocked.jumps start rests
    (fun n plain => plain_next live safe (run_ok live dLatch sram) steady plain) N stands

/-- **The chip plays what it is told.** In a run from reset whose triggers are all safe, and
whose host leaves the parameters of a new note alone, the records at rest are the four
voices after the ticks and commands carried out so far. Those commands are the ones that
the host ordered, in order, but for one at most that still waits. And the DAC takes at the
end of each pass the mix of the voices as they stood at its start. -/
theorem plays_law (board : Board) (inputs : Nat → Cycle) (dLatch : Byte) (sram : Ram)
    (live : ∀ n, (inputs n).Live)
    (safe : ∀ n, ((Chip.initial dLatch sram).run board inputs n).Safe)
    (steady : (Chip.initial dLatch sram).Steady board inputs) (N : Nat) :
    let c := Chip.initial dLatch sram
    (c.Rests board inputs N →
      voices (c.run board inputs N).sram =
          (c.played board inputs N).foldl Act.play (voices sram) ∧
        ∃ w, w.length ≤ 1 ∧ c.orders board inputs N =
          (c.played board inputs N).filter Act.isCommand ++ w) ∧
      ((c.run board inputs N).time.sampleStart = true →
        (c.run board inputs (N + 129)).eng.dacOut =
          dac board.rom ((c.played board inputs N).foldl Act.play (voices sram))) := by
  intro c
  have plain := plain_run live safe steady N
  refine ⟨fun rests => ?_, fun starts => ?_⟩
  · obtain ⟨-, ⟨w, awaits, orders⟩, voices⟩ := plain (.inl rests)
    exact ⟨voices, w, awaits.short, orders⟩
  · have plain := plain (.inr starts)
    obtain ⟨m, waits⟩ := plain.rests.1
    cases m with
    | succ m =>
      rw [(Timer.waits_next _ m waits).1] at starts
      cases starts
    | zero =>
      rw [(plain_pass live safe plain waits).2.2, dac_mix, plain.voices]
      rfl

/-! ## A short note -/

/-- A board whose ROM holds fives. -/
def fives : Board := { rom := fun _ => 5, float := 0, clash := fun a _ => a }

/-- A note_on and a note_off. -/
def briefly : List Cycle := spfmWrite 6 0 ++ spfmWrite 7 0

def brief (n : Nat) : Chip := (Chip.initial 0 fun _ => 0).run fives (traffic 0 briefly) n

theorem brief_live : ∀ i ∈ briefly, i.Live := by
  intro i hi
  obtain on | off := List.mem_append.mp hi
  · exact spfmWrite_live 6 0 i on
  · exact spfmWrite_live 7 0 i off

/-- What is played of it. -/
def briefPlayed (N : Nat) : List Act :=
  (Chip.initial 0 fun _ => 0).played fives (traffic 0 briefly) N

set_option maxRecDepth 20000 in
/-- The run as far as it is looked at: the two writes, the first pass, and its end. -/
theorem brief_run : ((∀ n, n < 24 →
        ((brief n).triggers = true → n = 9 ∨ n = 21) ∧
        (9 ≤ n → (brief n).bus.dataReqPulse = true → (brief n).triggers = true)) ∧
      (brief 21).noteOn = false ∧
      ((brief 9).slot.pending = false ∧ (brief 21).slot.pending = false) ∧
      (brief 9).time.sampleCnt.toNat = 302 ∧ (brief 24).bus.Clear) ∧
    ((brief 311).time.sampleStart = true ∧
      briefPlayed 311 = [Act.on 0 ((brief 9).host.noteVoice 0), .off 0] ∧
      dac fives.rom ([Act.on 0 ((brief 9).host.noteVoice 0), .off 0].foldl Act.play
        (voices fun _ => 0)) = 5) ∧
    (Chip.initial 0 fun _ => 0).Rests fives (traffic 0 briefly) 440 ∧
      briefPlayed 440 = [Act.on 0 ((brief 9).host.noteVoice 0), .off 0, .tick] :=
  ⟨⟨by decide +kernel, by decide +kernel, by decide +kernel, by decide +kernel,
      ⟨by decide +kernel, by decide +kernel, by decide +kernel⟩⟩,
    ⟨by decide +kernel, by decide +kernel, by decide +kernel⟩,
    ⟨⟨183, by decide +kernel, by decide +kernel⟩, by decide +kernel⟩, by decide +kernel⟩

theorem brief_clear (n : Nat) (late : 24 ≤ n) : (brief n).bus.Clear :=
  traffic_clear fives _ 0 briefly 24 (Nat.le_refl 24) brief_run.1.2.2.2.2 n late

theorem brief_trigger (n : Nat) (trig : (brief n).triggers = true) : n = 9 ∨ n = 21 := by
  by_cases late : 24 ≤ n
  · rw [Chip.triggers, (brief_clear n late).pulse] at trig
    cases trig
  · exact (brief_run.1.1 n (by omega)).1 trig

theorem brief_on (n : Nat) (on : (brief n).noteOn = true) : n = 9 := by
  have second := brief_run.1.2.1
  obtain rfl | rfl := brief_trigger n (by rw [triggers_cases, on, Bool.true_or])
  · rfl
  · cases second.symm.trans on

theorem brief_free (n : Nat) (trig : (brief n).triggers = true) :
    (brief n).slot.pending = false := by
  have both := brief_run.1.2.2.1
  obtain rfl | rfl := brief_trigger n trig
  · exact both.1
  · exact both.2

theorem brief_safe (n : Nat) : (brief n).Safe := by
  have cnt := brief_run.1.2.2.2.1
  refine ⟨⟨fun on => .inl ?_, fun on => ?_, fun off => .inl ?_⟩, fun trig => .inl ?_⟩
  · exact brief_free n (by rw [triggers_cases, on, Bool.true_or])
  · obtain rfl := brief_on n on
    rw [cnt]
    omega
  · rw [Slot.onWaiting, brief_free n (by rw [triggers_cases, off, Bool.or_true])]
    rfl
  · exact brief_free n trig

theorem brief_note (k : Nat) : (brief (9 + k)).host.note = (brief 9).host.note := by
  induction k with
  | zero => rfl
  | succ k ih =>
    refine (note_params fives _ _ (traffic_live 0 _ brief_live (9 + k)) fun pulse => ?_).trans ih
    by_cases late : 24 ≤ 9 + k
    · cases pulse.symm.trans (brief_clear _ late).pulse
    · exact (brief_run.1.1 (9 + k) (by omega)).2 (by omega) pulse

theorem brief_steady : (Chip.initial 0 fun _ => 0).Steady fives (traffic 0 briefly) := by
  intro n ch issued k _
  rw [Chip.onIssued, Option.ite_none_right_eq_some] at issued
  obtain rfl := brief_on n issued.1
  exact congrFun (brief_note k) ch

/-- Its voice is heard in the first pass. -/
theorem plays_law_brief : (brief 440).eng.dacOut =
    dac fives.rom ([Act.on 0 ((brief 9).host.noteVoice 0), .off 0].foldl Act.play
      (voices fun _ => 0)) ∧ (brief 440).eng.dacOut = 5 := by
  have live := traffic_live 0 _ brief_live
  have law := (plays_law fives (traffic 0 briefly) 0 (fun _ => 0) live brief_safe brief_steady
    311).2 brief_run.2.1.1
  have played : (Chip.initial 0 fun _ => 0).played fives (traffic 0 briefly) 311 =
      [Act.on 0 ((brief 9).host.noteVoice 0), .off 0] := brief_run.2.1.2.1
  rw [played] at law
  exact ⟨law, law.trans brief_run.2.1.2.2⟩

end Chiptune.Wavetable
