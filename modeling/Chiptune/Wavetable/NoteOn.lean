import Chiptune.Wavetable.NoteOff
import Chiptune.Wavetable.Voice

/-!
# note_on through the pending slot

note_on stores ten bytes in ten idle clocks. It is atomic for the passes unless it
comes two to ten clocks before one, and it is whole unless another trigger meets
it in the slot.
-/

namespace Chiptune.Wavetable

section
variable (c : Chip)

/-- The channel of a note_on that the host issues in this clock. -/
def Chip.onIssued : Option (BitVec 2) := if c.noteOn then some c.host.hostCh else none

/-- The byte of a note_on that this clock stores. -/
def Chip.noteStored : Option (BitVec 2 × Nat) :=
  if c.time.idle && c.slot.pending && c.slot.op == 1 then some (c.slot.ch, c.slot.phase.toNat)
  else none

/-- A note_on is in the slot. -/
def Slot.onWaiting (s : Slot) : Bool := s.pending && s.op == 1

/-- The bytes that a note_on in the slot has still to store. -/
def Slot.notesLeft (s : Slot) : List (BitVec 2 × Nat) :=
  if s.onWaiting then (List.range' s.phase.toNat (10 - s.phase.toNat)).map (Prod.mk s.ch) else []

/-- The ten bytes of a note_on. -/
def wholeNote (ch : BitVec 2) : List (BitVec 2 × Nat) := (List.range' 0 10).map (Prod.mk ch)

/-- A note_on meets an empty slot, or one that is not served in the same clock, and
either comes during a pass or leaves ten idle clocks before the next one. Nothing
but the clock of its last byte lets a note_off meet a note_on. -/
structure Chip.OnSafe : Prop where
  slot : c.noteOn = true →
    c.slot.pending = false ∨ c.time.idle = false ∧ c.slot.onWaiting = false
  room : c.noteOn = true → ¬(2 ≤ c.time.sampleCnt.toNat ∧ c.time.sampleCnt.toNat ≤ 10)
  off : c.noteOff = true →
    c.slot.onWaiting = false ∨ c.time.idle = true ∧ c.slot.phase = 9

end

/-! ## One clock of the slot -/

theorem onWaiting_iff (s : Slot) : s.onWaiting = true ↔ s.pending = true ∧ s.op = 1 := by
  rw [Slot.onWaiting, Bool.and_eq_true, beq_iff_eq]

theorem advance_note (s t : Slot) (waiting : s.onWaiting = true) (phase : s.phase.toNat < 9) :
    s.advance t = { t with phase := s.phase + 1 } := by
  obtain ⟨pending, op⟩ := (onWaiting_iff s).mp waiting
  rw [Slot.advance, if_pos pending, if_pos op, if_pos phase]

theorem advance_last (s t : Slot) (waiting : s.onWaiting = true) (phase : ¬s.phase.toNat < 9) :
    s.advance t = { t with pending := false } := by
  obtain ⟨pending, op⟩ := (onWaiting_iff s).mp waiting
  rw [Slot.advance, if_pos pending, if_pos op, if_neg phase]

theorem advance_other (s t : Slot) (other : s.onWaiting = false) (quiet : t.onWaiting = false) :
    (s.advance t).onWaiting = false := by
  unfold Slot.advance
  split_ifs with pending op
  · simp [Slot.onWaiting, pending, op] at other
  · simp [Slot.onWaiting, pending, op] at other
  · rfl
  · exact quiet

theorem phase_succ (p : BitVec 4) (h : p.toNat < 9) : (p + 1).toNat = p.toNat + 1 := by
  rw [BitVec.toNat_add]
  exact Nat.mod_eq_of_lt (show p.toNat + 1 < 16 by omega)

theorem advance_phase (s t : Slot) (h : t.phase.toNat ≤ 9) : (s.advance t).phase.toNat ≤ 9 := by
  unfold Slot.advance
  split_ifs with _ _ phase
  · rw [phase_succ _ phase]
    exact phase
  all_goals exact h

/-- The phase stays one of ten. -/
theorem slotNext_phase (c : Chip) (h : c.slot.phase.toNat ≤ 9) : c.slotNext.phase.toNat ≤ 9 := by
  have trigger : (c.slot.trigger c.host).phase.toNat ≤ 9 := by
    unfold Slot.trigger
    split
    · exact Nat.zero_le 9
    · exact h
    · exact h
  have command : (if c.bus.dataReqPulse then c.slot.trigger c.host else c.slot).phase.toNat ≤ 9 := by
    split
    · exact trigger
    · exact h
  rw [Chip.slotNext]
  split
  · exact advance_phase _ _ command
  · exact command

section
variable {c : Chip}

theorem noteStored_waiting (idle : c.time.idle = true) (waiting : c.slot.onWaiting = true) :
    c.noteStored = some (c.slot.ch, c.slot.phase.toNat) := by
  obtain ⟨pending, op⟩ := (onWaiting_iff _).mp waiting
  simp [Chip.noteStored, idle, pending, op]

theorem noteStored_other (other : c.slot.onWaiting = false) : c.noteStored = none := by
  rw [Chip.noteStored, Bool.and_assoc]
  change (if (c.time.idle && c.slot.onWaiting) = true then _ else _) = _
  rw [other, Bool.and_false]
  rfl

theorem noteStored_busy (busy : c.time.idle = false) : c.noteStored = none := by
  simp [Chip.noteStored, busy]

theorem onIssued_none (silent : c.noteOn = false) : c.onIssued = none := by
  simp [Chip.onIssued, silent]

theorem notesLeft_other {s : Slot} (other : s.onWaiting = false) : s.notesLeft = [] := by
  simp [Slot.notesLeft, other]

/-- A slot outside an idle clock takes the trigger as it is. -/
theorem slotNext_busy (busy : c.time.idle = false) :
    c.slotNext = if c.bus.dataReqPulse then c.slot.trigger c.host else c.slot := by
  simp [Chip.slotNext, busy]

/-- A note_on stores its first byte left, and the others stay left. -/
theorem left_advance (s : Slot) (waiting : s.onWaiting = true) (bound : s.phase.toNat ≤ 9) :
    s.notesLeft = (s.ch, s.phase.toNat) :: (s.advance s).notesLeft := by
  by_cases phase : s.phase.toNat < 9
  · have count : 10 - s.phase.toNat = 10 - (s.phase.toNat + 1) + 1 := by omega
    have still : Slot.onWaiting { s with phase := s.phase + 1 } = true := waiting
    rw [advance_note s s waiting phase, Slot.notesLeft, if_pos waiting, count, List.range'_succ,
      Slot.notesLeft, if_pos still, phase_succ _ phase]
    rfl
  · have last : s.phase.toNat = 9 := by omega
    rw [advance_last s s waiting phase, Slot.notesLeft, if_pos waiting, last]
    rfl

/-- Without a note_on none comes into the slot. -/
theorem slotNext_other (silent : c.noteOn = false) (other : c.slot.onWaiting = false) :
    c.slotNext.onWaiting = false := by
  rw [Chip.slotNext]
  have command :
      (if c.bus.dataReqPulse then c.slot.trigger c.host else c.slot).onWaiting = false := by
    cases off : c.noteOff with
    | true => rw [trigger_off off]; rfl
    | false => rw [trigger_calm (by rw [triggers_cases, silent, off]; rfl), other]
  generalize (if c.bus.dataReqPulse then c.slot.trigger c.host else c.slot) = t at command
  cases c.time.idle with
  | true => exact advance_other _ _ other command
  | false => exact command

/-- The bytes left and those of a new note are the byte stored and those left then. -/
theorem note_step (safe : c.OnSafe) (bound : c.slot.phase.toNat ≤ 9) :
    c.slot.notesLeft ++ c.onIssued.toList.flatMap wholeNote =
      c.noteStored.toList ++ c.slotNext.notesLeft := by
  cases on : c.noteOn with
  | true =>
    have empty : c.slot.onWaiting = false := by
      obtain free | ⟨-, other⟩ := safe.slot on
      · simp [Slot.onWaiting, free]
      · exact other
    have next : c.slotNext =
        { pending := true, op := 1, ch := c.host.hostCh, phase := 0 } := by
      obtain free | ⟨busy, -⟩ := safe.slot on
      · rw [slotNext_free free, trigger_on on]
      · rw [slotNext_busy busy, trigger_on on]
    rw [notesLeft_other empty, noteStored_other empty, next]
    simp [Chip.onIssued, on, Slot.notesLeft, Slot.onWaiting, wholeNote]
  | false =>
    rw [onIssued_none on, Option.toList_none, List.flatMap_nil, List.append_nil]
    cases waiting : c.slot.onWaiting with
    | false =>
      rw [notesLeft_other waiting, noteStored_other waiting,
        notesLeft_other (slotNext_other on waiting)]
      rfl
    | true =>
      cases off : c.noteOff with
      | true =>
        obtain other | ⟨idle, phase⟩ := safe.off off
        · rw [waiting] at other
          cases other
        · have last : ¬c.slot.phase.toNat < 9 := by rw [phase]; decide
          rw [Chip.slotNext, if_pos idle, left_advance _ waiting bound,
            noteStored_waiting idle waiting, advance_last _ _ waiting last,
            advance_last _ _ waiting last]
          rfl
      | false =>
        have calm : c.triggers = false := by rw [triggers_cases, on, off]; rfl
        rw [slotNext_calm calm]
        cases idle : c.time.idle with
        | false =>
          rw [noteStored_busy idle]
          rfl
        | true =>
          rw [left_advance _ waiting bound, noteStored_waiting idle waiting]
          rfl

end

/-! ## The record of a note -/

/-- A channel record after the first `n` bytes of a note. -/
def Host.recordFirst (h : Host) (ch : BitVec 2) (b : Block) : Nat → Block
  | 0 => b
  | n + 1 =>
    match h.note ch n with
    | some (o, v) => Function.update (h.recordFirst ch b n) o v
    | none => h.recordFirst ch b n

/-- A channel record after a note. -/
def Host.record (h : Host) (ch : BitVec 2) (b : Block) : Block := h.recordFirst ch b 10

/-- The voice of a new note starts its attack at level 0 with the host's parameters. -/
theorem record_voice (h : Host) (ch : BitVec 2) (b : Block) : (h.record ch b).voice =
    { phase := 0, step := h.step ch, level := 0, env := 1, envCnt := 0, vol := h.vol ch,
      wave := h.waveIdx ch, rate := h.envRate ch } := by
  simp only [Block.voice, Host.record, Host.recordFirst, Host.note]
  simp [oPhaseLo, oPhaseHi, oStepLo, oStepHi, oLevel, oEnvState, oEnvCnt,
    oVol, oWaveIdx, oEnvRate, append_bytes]

theorem setBlock_block (sram : Ram) (ch : BitVec 2) : setBlock sram ch (block sram ch) = sram := by
  funext a
  rw [setBlock]
  split
  · next h => rw [block, ← chAddr_split a ch h]
  · rfl

theorem setBlock_update (sram : Ram) (ch : BitVec 2) (b : Block) (o : BitVec 4) (v : Byte) :
    Function.update (setBlock sram ch b) (chAddr ch o) v =
      setBlock sram ch (Function.update b o v) := by
  funext a
  by_cases h : a.toNat / 16 = ch.toNat
  · rw [chAddr_split a ch h]
    have inside : (chAddr ch (a.setWidth 4)).toNat / 16 = ch.toNat := by
      rw [← chAddr_split a ch h, h]
    simp only [Function.update_apply, chAddr_inj, true_and, setBlock, inside, ↓reduceIte,
      chAddr_low]
  · rw [update_outside _ _ _ _ _ h, setBlock, setBlock, if_neg h, if_neg h]

/-! ## Runs -/

section
variable {board : Board} {inputs : Nat → Cycle} {c : Chip}

theorem run_phase (live : ∀ n, (inputs n).Live) (h : c.slot.phase.toNat ≤ 9) (n : Nat) :
    (c.run board inputs n).slot.phase.toNat ≤ 9 := by
  induction n with
  | zero => exact h
  | succ n ih =>
    rw [(run_succ c live n).2.1]
    exact slotNext_phase _ ih

theorem note_log (live : ∀ n, (inputs n).Live) (safe : ∀ n, (c.run board inputs n).OnSafe)
    (free : c.slot.pending = false) (phase : c.slot.phase.toNat ≤ 9) (N : Nat) :
    (c.log Chip.onIssued board inputs N).flatMap wholeNote =
      c.log Chip.noteStored board inputs N ++ (c.run board inputs N).slot.notesLeft := by
  induction N with
  | zero => simp [Chip.log, Slot.notesLeft, Slot.onWaiting, Chip.run, free]
  | succ N ih =>
    rw [log_succ, log_succ, List.flatMap_append, ih, List.append_assoc,
      note_step (safe N) (run_phase live phase N), (run_succ c live N).2.1, List.append_assoc]

/-- Nothing is triggered while a note_on waits or stores its first nine bytes. -/
theorem note_calm (safe : c.OnSafe) (waiting : c.slot.onWaiting = true)
    (early : c.time.idle = false ∨ c.slot.phase.toNat < 9) : c.triggers = false := by
  have silent : c.noteOn = false := by
    rw [Bool.eq_false_iff]
    intro on
    obtain free | ⟨-, other⟩ := safe.slot on
    · rw [((onWaiting_iff _).mp waiting).1] at free
      cases free
    · rw [waiting] at other
      cases other
  have still : c.noteOff = false := by
    rw [Bool.eq_false_iff]
    intro off
    obtain other | ⟨idle, phase⟩ := safe.off off
    · rw [waiting] at other
      cases other
    · rw [idle, phase] at early
      revert early
      decide
  rw [triggers_cases, silent, still]
  rfl

/-- A note_on stays in the slot until the first idle clock. -/
theorem note_stays (live : ∀ n, (inputs n).Live) (safe : ∀ n, (c.run board inputs n).OnSafe)
    (n : Nat) (waiting : (c.run board inputs n).slot.onWaiting = true) (d : Nat)
    (busy : ∀ e, e < d → (c.run board inputs (n + e)).time.idle = false) :
    (c.run board inputs (n + d)).slot = (c.run board inputs n).slot := by
  induction d with
  | zero => rfl
  | succ d ih =>
    have same := ih fun e he => busy e (by omega)
    have idle := busy d (by omega)
    have calm := note_calm (safe (n + d)) (by rw [same]; exact waiting) (.inl idle)
    rw [← Nat.add_assoc, (run_succ c live (n + d)).2.1, slotNext_calm calm, idle, same]
    rfl

/-- From its first idle clock on a note_on stores a byte in every clock. -/
theorem note_phases (live : ∀ n, (inputs n).Live) (safe : ∀ n, (c.run board inputs n).OnSafe)
    (m : Nat) (ch : BitVec 2)
    (slot : (c.run board inputs m).slot = { pending := true, op := 1, ch := ch, phase := 0 })
    (idle : ∀ k, k < 10 → (c.run board inputs (m + k)).time.idle = true) (k : Nat) (hk : k < 10) :
    (c.run board inputs (m + k)).slot =
      { pending := true, op := 1, ch := ch, phase := BitVec.ofNat 4 k } := by
  induction k with
  | zero => exact slot
  | succ k ih =>
    have now := ih (by omega)
    have waiting : (c.run board inputs (m + k)).slot.onWaiting = true := by rw [now]; rfl
    have phase : (c.run board inputs (m + k)).slot.phase.toNat < 9 := by
      rw [now, BitVec.toNat_ofNat]
      omega
    have calm := note_calm (safe (m + k)) waiting (.inr phase)
    rw [← Nat.add_assoc, (run_succ c live (m + k)).2.1, slotNext_calm calm, idle k (by omega),
      if_pos rfl, advance_note _ _ waiting phase, now]
    congr 1
    apply BitVec.eq_of_toNat_eq
    rw [phase_succ _ (by rw [BitVec.toNat_ofNat]; omega), BitVec.toNat_ofNat, BitVec.toNat_ofNat]
    omega

/-- The host leaves the parameters of a new note alone for a sample period. -/
def Chip.Steady (board : Board) (inputs : Nat → Cycle) (c : Chip) : Prop :=
  ∀ n ch, (c.run board inputs n).onIssued = some ch → ∀ k, k ≤ 312 →
    (c.run board inputs (n + k)).host.note ch = (c.run board inputs n).host.note ch

/-- What a note_on that is issued at clock `n` comes to. -/
structure Chip.Plays (board : Board) (inputs : Nat → Cycle) (c : Chip) (n : Nat) (ch : BitVec 2)
    (m : Nat) : Prop where
  later : n < m
  waits : ∀ k, n < k → k < m → (c.run board inputs k).noteStored = none
  writes : ∀ k, k < 10 → (c.run board inputs (m + k)).noteStored = some (ch, k)
  stored : (c.run board inputs (m + 10)).sram = setBlock (c.run board inputs m).sram ch
    ((c.run board inputs n).host.record ch (block (c.run board inputs m).sram ch))
  atomic : ∀ s, (c.run board inputs s).time.sampleStart = true → s + 128 < m ∨ m + 10 ≤ s

/-- An idle clock on a note_on stores a byte of its record. -/
theorem note_stored (board : Board) (c : Chip) (idle : c.time.idle = true)
    (waiting : c.slot.onWaiting = true) (h : Host) (b : Block) (sram : Ram) (k : Nat)
    (phase : c.slot.phase.toNat = k) (params : c.host.note c.slot.ch = h.note c.slot.ch)
    (before : c.sram = setBlock sram c.slot.ch (h.recordFirst c.slot.ch b k)) :
    (c.engStep board).stored c.sram = setBlock sram c.slot.ch (h.recordFirst c.slot.ch b (k + 1)) := by
  obtain ⟨pending, op⟩ := (onWaiting_iff _).mp waiting
  have store : c.slot.store c.host =
      (h.note c.slot.ch k).map fun w => (chAddr c.slot.ch w.1, w.2) := by
    rw [Slot.store, if_pos pending, if_pos op, params, phase]
  cases byte : h.note c.slot.ch k with
  | none =>
    rw [Host.recordFirst, byte, ← before]
    simp only [Chip.engStep, Chip.engNext, idle, ↓reduceIte, Engine.idle, store, byte,
      Option.map_none]
    split <;> rfl
  | some w =>
    rw [Host.recordFirst, byte, ← setBlock_update, ← before]
    simp only [Chip.engStep, Chip.engNext, idle, ↓reduceIte, Engine.idle, store, byte,
      Option.map_some]
    rfl

theorem note_record (live : ∀ n, (inputs n).Live) (m : Nat) (ch : BitVec 2) (h : Host)
    (params : ∀ k, k < 10 → (c.run board inputs (m + k)).host.note ch = h.note ch)
    (idle : ∀ k, k < 10 → (c.run board inputs (m + k)).time.idle = true)
    (slot : ∀ k, k < 10 → (c.run board inputs (m + k)).slot =
      { pending := true, op := 1, ch := ch, phase := BitVec.ofNat 4 k }) (k : Nat) (hk : k ≤ 10) :
    (c.run board inputs (m + k)).sram = setBlock (c.run board inputs m).sram ch
      (h.recordFirst ch (block (c.run board inputs m).sram ch) k) := by
  induction k with
  | zero => exact (setBlock_block _ ch).symm
  | succ k ih =>
    have now := slot k (by omega)
    have waiting : (c.run board inputs (m + k)).slot.onWaiting = true := by rw [now]; rfl
    have phase : (c.run board inputs (m + k)).slot.phase.toNat = k := by
      rw [now, BitVec.toNat_ofNat]
      omega
    have chan : (c.run board inputs (m + k)).slot.ch = ch := by rw [now]
    have step := note_stored board _ (idle k (by omega)) waiting h
      (block (c.run board inputs m).sram ch) (c.run board inputs m).sram k phase
    rw [chan] at step
    rw [← Nat.add_assoc, (run_succ c live (m + k)).2.2.2]
    exact step (params k (by omega)) (ih (by omega))

theorem on_plays (live : ∀ n, (inputs n).Live) (safe : ∀ n, (c.run board inputs n).OnSafe)
    (steady : c.Steady board inputs) (ok : ∀ n, (c.run board inputs n).time.Ok) (n : Nat)
    (ch : BitVec 2) (issued : (c.run board inputs n).onIssued = some ch) :
    ∃ m, c.Plays board inputs n ch m := by
  have hold := steady n ch issued
  rw [Chip.onIssued, Option.ite_none_right_eq_some, Option.some_inj] at issued
  obtain ⟨on, rfl⟩ := issued
  have slot : (c.run board inputs (n + 1)).slot =
      { pending := true, op := 1, ch := (c.run board inputs n).host.hostCh, phase := 0 } := by
    rw [(run_succ c live n).2.1]
    obtain free | ⟨busy, -⟩ := (safe n).slot on
    · rw [slotNext_free free, trigger_on on]
    · rw [slotNext_busy busy, trigger_on on]
  obtain ⟨d, hd, idle, busy, -⟩ := Timer.first_idle _ (ok (n + 1))
  have time (e : Nat) : (c.run board inputs (n + 1 + e)).time =
      (c.run board inputs n).time.next.after e := by
    rw [run_after c live, (run_succ c live n).1]
  rw [(run_succ c live n).1] at idle busy
  have stays (e : Nat) (he : e ≤ d) : (c.run board inputs (n + 1 + e)).slot =
      (c.run board inputs (n + 1)).slot := by
    refine note_stays live safe (n + 1) (by rw [slot]; rfl) e fun f hf => ?_
    rw [time]
    exact busy f (by omega)
  have ten (k : Nat) (hk : k < 10) : (c.run board inputs (n + 1 + d + k)).time.idle = true := by
    rw [Nat.add_assoc, time]
    exact Timer.ten_idle _ (ok n) ((safe n).room on) d idle busy k hk
  have phases := note_phases live safe (n + 1 + d) (c.run board inputs n).host.hostCh
    ((stays d (Nat.le_refl d)).trans slot) ten
  refine ⟨n + 1 + d, by omega, fun k hk hm => ?_, fun k hk => ?_, ?_, fun s start => ?_⟩
  · obtain ⟨e, rfl⟩ : ∃ e, k = n + 1 + e := ⟨k - (n + 1), by omega⟩
    exact noteStored_busy (by rw [time]; exact busy e (by omega))
  · have phase : (BitVec.ofNat 4 k).toNat = k := by
      rw [BitVec.toNat_ofNat]
      omega
    rw [noteStored_waiting (ten k hk) (by rw [phases k hk]; rfl), phases k hk, phase]
  · refine note_record live _ _ _ (fun k hk => ?_) ten phases 10 (Nat.le_refl 10)
    have e : n + 1 + d + k = n + (1 + d + k) := by omega
    rw [e]
    exact hold (1 + d + k) (by omega)
  · by_contra overlap
    have first : s < n + 1 + d := by
      by_contra inside
      obtain ⟨k, rfl⟩ : ∃ k, s = n + 1 + d + k := ⟨s - (n + 1 + d), by omega⟩
      have now := ten k (by omega)
      rw [Timer.idle, start] at now
      cases now
    obtain ⟨e, he⟩ : ∃ e, n + 1 + d = s + e := ⟨n + 1 + d - s, by omega⟩
    have now := ten 0 (by omega)
    rw [Nat.add_zero, he, run_after c live, Timer.pass_busy _ start e (by omega)] at now
    cases now

end

/-- **Every note_on is whole and atomic.** In a run from reset in which every trigger
is safe and the host leaves the parameters of a new note alone, the bytes stored are
the ten of each note_on issued, in order and once each, and every pass ends before
the first or starts after the last of them. -/
theorem note_on_whole (board : Board) (inputs : Nat → Cycle) (dLatch : Byte) (sram : Ram)
    (live : ∀ n, (inputs n).Live)
    (safe : ∀ n, ((Chip.initial dLatch sram).run board inputs n).OnSafe)
    (steady : (Chip.initial dLatch sram).Steady board inputs) :
    let c := Chip.initial dLatch sram
    (∀ N, (c.log Chip.onIssued board inputs N).flatMap wholeNote =
      c.log Chip.noteStored board inputs N ++ (c.run board inputs N).slot.notesLeft) ∧
      ∀ n ch, (c.run board inputs n).onIssued = some ch → ∃ m, c.Plays board inputs n ch m :=
  ⟨note_log live safe rfl (Nat.zero_le 9),
    on_plays live safe steady (run_ok live dLatch sram)⟩

/-- Without a write to a parameter register the parameters stay. -/
theorem hostNext_note (c : Chip) (p : Pins) (quiet : c.bus.dataReqPulse = true → c.triggers = true) :
    (c.hostNext p).note = c.host.note := by
  have write : c.triggers = true → c.host.write c.bus.dLatch = c.host := by
    intro trig
    rw [Chip.triggers, Bool.and_eq_true, Bool.or_eq_true, beq_iff_eq, beq_iff_eq] at trig
    obtain ⟨-, reg | reg⟩ := trig
    all_goals rw [Host.write, reg]; rfl
  cases pulse : c.bus.dataReqPulse with
  | false => cases addr : c.bus.addrReqPulse <;> simp [Chip.hostNext, pulse, addr] <;> rfl
  | true => simp only [Chip.hostNext, pulse, write (quiet pulse)]; rfl

theorem note_params (board : Board) (c : Chip) (i : Cycle) (live : i.Live)
    (quiet : c.bus.dataReqPulse = true → c.triggers = true) :
    (c.cycle board i).host.note = c.host.note := by
  obtain ⟨x, y, h⟩ := c.cycle_live board i live
  rw [h, Chip.posedge, Chip.posedgeWith, if_pos live.2.1]
  exact hostNext_note (c.relatch x) i.edge quiet

/-- The parameters of a channel. -/
def Host.params (h : Host) (ch : BitVec 2) : BitVec 16 × BitVec 5 × BitVec 3 × Byte :=
  (h.step ch, h.vol ch, h.waveIdx ch, h.envRate ch)

theorem note_of_params {h h' : Host} {ch : BitVec 2} (same : h.params ch = h'.params ch) :
    h.note ch = h'.note ch := by
  simp only [Host.params, Prod.mk.injEq] at same
  obtain ⟨step, vol, wave, rate⟩ := same
  funext k
  unfold Host.note
  rw [step, vol, wave, rate]

set_option maxRecDepth 20000 in
/-- When its note_ons come, on which channel and how long before a pass. -/
theorem medley_notes :
    ((List.range 84).filter fun n => (medleyRun n).noteOn).map (fun n =>
      (n, (medleyRun n).host.hostCh, (medleyRun n).time.sampleCnt.toNat)) =
        [(9, 0, 302), (45, 2, 266)] := by
  decide +kernel

set_option maxRecDepth 20000 in
set_option synthInstance.maxSize 512 in
/-- The step of channel 2 is set before its note. -/
theorem medley_params : ∀ k, k < 85 →
    (9 ≤ k → (medleyRun k).host.params 0 = (medleyRun 9).host.params 0) ∧
      (45 ≤ k → (medleyRun k).host.params 2 = (medleyRun 45).host.params 2) := by
  decide +kernel

theorem medley_on (n : Nat) : (medleyRun n).noteOn = true ↔ n = 9 ∨ n = 45 := by
  have times := congrArg (List.map Prod.fst) medley_notes
  rw [List.map_map, show Prod.fst ∘ _ = fun n : Nat => n from rfl, List.map_id'] at times
  have early : n < 84 ∧ (medleyRun n).noteOn = true ↔ n = 9 ∨ n = 45 := by
    have filtered : n ∈ (List.range 84).filter (fun n => (medleyRun n).noteOn) ↔ _ := List.mem_filter
    rw [← List.mem_range, ← filtered, times]
    simp
  refine ⟨fun on => early.mp ⟨?_, on⟩, fun two => (early.mpr two).2⟩
  by_contra late
  have trig : (medleyRun n).triggers = true := by rw [triggers_cases, on, Bool.true_or]
  rw [(medley_clear n (by omega)).calm] at trig
  cases trig

theorem medley_at (n : Nat) (on : (medleyRun n).noteOn = true) :
    (n, (medleyRun n).host.hostCh, (medleyRun n).time.sampleCnt.toNat) ∈
      [(9, 0, 302), (45, (2 : BitVec 2), 266)] := by
  rw [← medley_notes]
  refine List.mem_map_of_mem (List.mem_filter.mpr ⟨List.mem_range.mpr ?_, on⟩)
  have two := (medley_on n).mp on
  omega

theorem medley_late (k : Nat) : (medleyRun (84 + k)).host.note = (medleyRun 84).host.note := by
  induction k with
  | zero => rfl
  | succ k ih =>
    refine (note_params medleyBoard _ _ (medley_live (84 + k)) fun pulse => ?_).trans ih
    cases pulse.symm.trans (medley_clear (84 + k) (by omega)).pulse

theorem medley_note {n : Nat} {ch : BitVec 2} (early : n ≤ 84)
    (same : ∀ k, k < 85 → n ≤ k → (medleyRun k).host.note ch = (medleyRun n).host.note ch)
    (k : Nat) : (medleyRun (n + k)).host.note ch = (medleyRun n).host.note ch := by
  by_cases late : n + k ≤ 84
  · exact same (n + k) (by omega) (by omega)
  · obtain ⟨d, hd⟩ : ∃ d, n + k = 84 + d := ⟨n + k - 84, by omega⟩
    rw [hd, medley_late]
    exact same 84 (by omega) early

theorem medley_steady : (Chip.initial 0 fun _ => 0).Steady medleyBoard (traffic 0 medley) := by
  intro n ch issued k _
  rw [Chip.onIssued, Option.ite_none_right_eq_some, Option.some_inj] at issued
  obtain ⟨on, rfl⟩ := issued
  have when := medley_at n on
  simp only [List.mem_cons, List.not_mem_nil, Prod.mk.injEq, or_false] at when
  obtain ⟨rfl, ch, -⟩ | ⟨rfl, ch, -⟩ := when
  · exact ch ▸ medley_note (by omega) (fun k hk later => note_of_params ((medley_params k hk).1 later)) k
  · exact ch ▸ medley_note (by omega) (fun k hk later => note_of_params ((medley_params k hk).2 later)) k

theorem medley_safe (n : Nat) : (medleyRun n).OnSafe := by
  have free (trig : (medleyRun n).triggers = true) := (medley_free n trig).1
  refine ⟨fun on => .inl (free ?_), fun on => ?_, fun off => .inl ?_⟩
  · rw [triggers_cases, on, Bool.true_or]
  · have when := medley_at n on
    simp only [List.mem_cons, List.not_mem_nil, Prod.mk.injEq, or_false] at when
    omega
  · rw [Slot.onWaiting, free (by rw [triggers_cases, off, Bool.or_true])]
    rfl

/-- Both notes of the medley. -/
theorem note_on_medley :
    (∃ m, (Chip.initial 0 fun _ => 0).Plays medleyBoard (traffic 0 medley) 9 0 m) ∧
      ∃ m, (Chip.initial 0 fun _ => 0).Plays medleyBoard (traffic 0 medley) 45 2 m := by
  have law := note_on_whole medleyBoard (traffic 0 medley) 0 (fun _ => 0) medley_live medley_safe
    medley_steady
  have issued (n : Nat) (two : n = 9 ∨ n = 45) :
      (medleyRun n).onIssued = some (medleyRun n).host.hostCh := by
    rw [Chip.onIssued, if_pos ((medley_on n).mpr two)]
  have channels : (medleyRun 9).host.hostCh = 0 ∧ (medleyRun 45).host.hostCh = 2 := by
    have first := medley_at 9 ((medley_on 9).mpr (.inl rfl))
    have second := medley_at 45 ((medley_on 45).mpr (.inr rfl))
    simp at first second
    exact ⟨first.1, second.1⟩
  refine ⟨law.2 9 0 ?_, law.2 45 2 ?_⟩
  · exact (issued 9 (.inl rfl)).trans (congrArg some channels.1)
  · exact (issued 45 (.inr rfl)).trans (congrArg some channels.2)

set_option maxRecDepth 50000 in
/-- A note_on five clocks before a pass: four of its bytes are stored when the pass
starts, and the other six come after it. -/
theorem note_on_torn :
    let board : Board := { rom := fun _ => 0, float := 0, clash := fun a _ => a }
    let c := Chip.initial 0 fun _ => 0
    let inputs := traffic 297 (spfmWrite 6 0)
    c.log Chip.onIssued board inputs 623 = [0] ∧
      (c.run board inputs 306).onIssued = some 0 ∧
      ((List.range 623).filter fun n => (c.run board inputs n).time.sampleStart) = [311] ∧
      c.log Chip.noteStored board inputs 311 = [(0, 0), (0, 1), (0, 2), (0, 3)] ∧
      c.log Chip.noteStored board inputs 440 = c.log Chip.noteStored board inputs 311 ∧
      c.log Chip.noteStored board inputs 623 = wholeNote 0 := by
  decide +kernel

end Chiptune.Wavetable
