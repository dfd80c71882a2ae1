import Chiptune.Wavetable.Schedule

/-!
# note_off through the pending slot

The slot holds one command. A trigger on a busy slot overwrites the command that
waits there, or is cleared together with the one that executes in the same clock.
While no trigger meets a note_off in the slot, the note_offs issued are the ones
released, in order, with at most the last one still waiting.
-/

namespace Chiptune.Wavetable

section
variable (c : Chip)

/-- The channel of a note_off that the host issues in this clock. -/
def Chip.offIssued : Option (BitVec 2) := if c.noteOff then some c.host.hostCh else none

/-- The channel whose env_state this clock sets to release. -/
def Chip.released : Option (BitVec 2) :=
  if c.time.idle && c.slot.pending && c.slot.op == 2 then some c.slot.ch else none

/-- The channel of a note_off in the slot. -/
def Slot.offWaiting (s : Slot) : Option (BitVec 2) :=
  if s.pending && s.op == 2 then some s.ch else none

/-- A trigger meets an empty slot, or it is a note_on that meets a note_off in the
clock that executes it. -/
def Chip.OffSafe : Prop :=
  c.triggers = true → c.slot.pending = false ∨
    c.noteOn = true ∧ c.time.idle = true ∧ c.slot.op = 2

end

/-! ## One clock of the slot -/

section
variable {c : Chip}

/-- A note_off leaves the slot with its clock, whatever is triggered then. -/
theorem advance_off (s t : Slot) (pending : s.pending = true) (op : s.op = 2) :
    s.advance t = { t with pending := false } := by
  rw [Slot.advance, if_pos pending, op]
  rfl

theorem advance_op (s : Slot) : (s.advance s).op = s.op := by
  unfold Slot.advance
  split_ifs <;> rfl

/-- What waits and what is issued is what is released and what waits then. -/
theorem off_step (safe : c.OffSafe) :
    c.slot.offWaiting.toList ++ c.offIssued.toList =
      c.released.toList ++ c.slotNext.offWaiting.toList := by
  cases trig : c.triggers with
  | true =>
    obtain free | ⟨on, idle, op⟩ := safe trig
    · rw [triggers_cases, Bool.or_eq_true] at trig
      obtain on | off := trig
      · rw [slotNext_free free, trigger_on on]
        simp [Slot.offWaiting, Chip.offIssued, Chip.released, free, on_not_off on]
      · rw [slotNext_free free, trigger_off off]
        simp [Slot.offWaiting, Chip.offIssued, Chip.released, free, off]
    · cases pending : c.slot.pending with
      | false =>
        rw [slotNext_free pending, trigger_on on]
        simp [Slot.offWaiting, Chip.offIssued, Chip.released, pending, on_not_off on]
      | true =>
        rw [Chip.slotNext, if_pos idle, advance_off _ _ pending op]
        simp [Slot.offWaiting, Chip.offIssued, Chip.released, pending, op, idle, on_not_off on]
  | false =>
    have none : c.noteOff = false := by
      rw [triggers_cases, Bool.or_eq_false_iff] at trig
      exact trig.2
    rw [slotNext_calm trig]
    cases idle : c.time.idle with
    | false => simp [Slot.offWaiting, Chip.offIssued, Chip.released, none, idle]
    | true =>
      cases pending : c.slot.pending with
      | false => 
        simp [Slot.offWaiting, Chip.offIssued, Chip.released, Slot.advance, none, pending]
      | true =>
        by_cases op : c.slot.op = 2#4
        · simp [Slot.offWaiting, Chip.offIssued, Chip.released, advance_off, none, pending, op, idle]
        · simp [Slot.offWaiting, Chip.offIssued, Chip.released, advance_op, none, op]

/-- A release stores 3 in the channel's env_state. -/
theorem released_stored (board : Board) (ch : BitVec 2) (h : c.released = some ch) :
    (c.engStep board).stored c.sram = Function.update c.sram (chAddr ch oEnvState) 3 := by
  rw [Chip.released, Option.ite_none_right_eq_some, Bool.and_eq_true, Bool.and_eq_true,
    beq_iff_eq, Option.some_inj] at h
  obtain ⟨⟨⟨idle, pending⟩, op⟩, rfl⟩ := h
  have last : c.slot.lastNote = false := by simp [Slot.lastNote, op]
  have store : c.slot.store c.host = some (chAddr c.slot.ch oEnvState, 3) := by
    simp [Slot.store, pending, op]
  simp only [Chip.engStep, Chip.engNext, idle, ↓reduceIte, Engine.idle, last, store]
  rfl

end

/-! ## Runs -/

/-- What `f` sees in the first `N` clocks. -/
def Chip.log {α : Type} (f : Chip → Option α) (board : Board) (inputs : Nat → Cycle) (c : Chip)
    (N : Nat) : List α :=
  (List.range N).filterMap fun n => f (c.run board inputs n)

theorem log_succ {α : Type} (f : Chip → Option α) (board : Board) (inputs : Nat → Cycle) (c : Chip)
    (N : Nat) : c.log f board inputs (N + 1) =
      c.log f board inputs N ++ (f (c.run board inputs N)).toList := by
  cases h : f (c.run board inputs N) <;> simp [Chip.log, List.range_succ, h]

section
variable {board : Board} {inputs : Nat → Cycle} {c : Chip}

theorem off_log (live : ∀ n, (inputs n).Live) (safe : ∀ n, (c.run board inputs n).OffSafe)
    (free : c.slot.pending = false) (N : Nat) : c.log Chip.offIssued board inputs N =
      c.log Chip.released board inputs N ++ (c.run board inputs N).slot.offWaiting.toList := by
  induction N with
  | zero => simp [Chip.log, Slot.offWaiting, Chip.run, free]
  | succ N ih =>
    rw [log_succ, log_succ, ih, List.append_assoc, off_step (safe N), (run_succ c live N).2.1,
      List.append_assoc]

/-- A note_off stays in the slot until the first idle clock. -/
theorem off_stays (live : ∀ n, (inputs n).Live) (safe : ∀ n, (c.run board inputs n).OffSafe)
    (n : Nat) (pending : (c.run board inputs n).slot.pending = true) (d : Nat)
    (busy : ∀ e, e < d → (c.run board inputs (n + e)).time.idle = false) :
    (c.run board inputs (n + d)).slot = (c.run board inputs n).slot := by
  induction d with
  | zero => rfl
  | succ d ih =>
    have same := ih fun e he => busy e (by omega)
    have idle := busy d (by omega)
    have calm : (c.run board inputs (n + d)).triggers = false := by
      rw [Bool.eq_false_iff]
      intro trig
      obtain free | ⟨-, now, -⟩ := safe (n + d) trig
      · rw [same, pending] at free
        cases free
      · rw [idle] at now
        cases now
    rw [← Nat.add_assoc, (run_succ c live (n + d)).2.1, slotNext_calm calm, idle, same]
    rfl

/-- What a note_off that is issued at clock `n` comes to. -/
structure Chip.Releases (board : Board) (inputs : Nat → Cycle) (c : Chip) (n : Nat)
    (ch : BitVec 2) (m : Nat) : Prop where
  later : n < m
  done : (c.run board inputs m).released = some ch
  stored : (c.run board inputs (m + 1)).sram =
    Function.update (c.run board inputs m).sram (chAddr ch oEnvState) 3
  first : ∀ k, n < k → k < m → (c.run board inputs k).released = none
  onePass : ∀ k l, n < k → k ≤ m → n < l → l ≤ m →
    (c.run board inputs k).time.sampleStart = true →
    (c.run board inputs l).time.sampleStart = true → k = l

theorem off_releases (live : ∀ n, (inputs n).Live) (safe : ∀ n, (c.run board inputs n).OffSafe)
    (ok : ∀ n, (c.run board inputs n).time.Ok) (n : Nat) (ch : BitVec 2)
    (issued : (c.run board inputs n).offIssued = some ch) :
    ∃ m, c.Releases board inputs n ch m := by
  rw [Chip.offIssued, Option.ite_none_right_eq_some, Option.some_inj] at issued
  obtain ⟨off, rfl⟩ := issued
  have free : (c.run board inputs n).slot.pending = false := by
    have trig : (c.run board inputs n).triggers = true := by
      rw [triggers_cases, off, Bool.or_true]
    obtain free | ⟨on, -, -⟩ := safe n trig
    · exact free
    · rw [on_not_off on] at off
      cases off
  have slot : (c.run board inputs (n + 1)).slot = { (c.run board inputs n).slot with
      pending := true, op := 2, ch := (c.run board inputs n).host.hostCh } := by
    rw [(run_succ c live n).2.1, slotNext_free free, trigger_off off]
  obtain ⟨d, hd, idle, busy, quiet⟩ := Timer.first_idle _ (ok (n + 1))
  have stays (e : Nat) (he : e ≤ d) : (c.run board inputs (n + 1 + e)).slot =
      (c.run board inputs (n + 1)).slot := by
    refine off_stays live safe (n + 1) (by rw [slot]) e fun f hf => ?_
    rw [run_after c live]
    exact busy f (by omega)
  have done : (c.run board inputs (n + 1 + d)).released =
      some (c.run board inputs n).host.hostCh := by
    rw [Chip.released, run_after c live, idle, stays d (Nat.le_refl d), slot]
    rfl
  refine ⟨n + 1 + d, by omega, done, ?_, fun k hk hm => ?_, fun k l hk hkm hl hlm sk sl => ?_⟩
  · rw [(run_succ c live (n + 1 + d)).2.2.2, released_stored board _ done]
  · obtain ⟨e, rfl⟩ : ∃ e, k = n + 1 + e := ⟨k - (n + 1), by omega⟩
    rw [Chip.released, run_after c live, busy e (by omega)]
    rfl
  · have atStart (k : Nat) (hk : n < k) (hkm : k ≤ n + 1 + d)
        (sk : (c.run board inputs k).time.sampleStart = true) : k = n + 1 := by
      obtain ⟨e, rfl⟩ : ∃ e, k = n + 1 + e := ⟨k - (n + 1), by omega⟩
      by_contra ne
      rw [run_after c live, quiet e (by omega) (by omega)] at sk
      cases sk
    rw [atStart k hk hkm sk, atStart l hl hlm sl]

end

/-- **Every note_off is executed.** In a run from reset in which no trigger meets a
note_off in the slot, the channels released are the channels of the note_offs
issued, in order, and each of them is released before the next but one pass. -/
theorem note_off_executed (board : Board) (inputs : Nat → Cycle) (dLatch : Byte) (sram : Ram)
    (live : ∀ n, (inputs n).Live)
    (safe : ∀ n, ((Chip.initial dLatch sram).run board inputs n).OffSafe) :
    let c := Chip.initial dLatch sram
    (∀ N, c.log Chip.offIssued board inputs N =
      c.log Chip.released board inputs N ++ (c.run board inputs N).slot.offWaiting.toList) ∧
      ∀ n ch, (c.run board inputs n).offIssued = some ch → ∃ m, c.Releases board inputs n ch m :=
  ⟨off_log live safe rfl, off_releases live safe (run_ok live dLatch sram)⟩

/-- A note on channel 0 and one with a step on channel 2, then their ends on 2 and on 1. -/
def medley : List Cycle :=
  spfmWrite 6 0 ++ spfmWrite 0 2 ++ spfmWrite 4 0x40 ++ spfmWrite 6 0 ++ spfmWrite 7 0 ++
    spfmWrite 0 1 ++ spfmWrite 7 0

def medleyBoard : Board := { rom := fun _ => 0, float := 0, clash := fun a _ => a }

def medleyRun (n : Nat) : Chip :=
  (Chip.initial 0 fun _ => 0).run medleyBoard (traffic 0 medley) n

theorem medley_live (n : Nat) : (traffic 0 medley n).Live := by
  refine traffic_live 0 _ (fun i hi => ?_) n
  simp only [medley, List.mem_append, or_assoc] at hi
  obtain h | h | h | h | h | h | h := hi <;> exact spfmWrite_live _ _ i h

set_option maxRecDepth 20000 in
/-- Each of its four triggers finds the slot free, and the last clock of the writes a calm bus. -/
theorem medley_triggers :
    (∀ n, n < 84 → (medleyRun n).triggers = true → (medleyRun n).slot.pending = false ∧
      (n = 9 ∨ n = 45 ∨ n = 57 ∨ n = 81)) ∧
    ((medleyRun 57).offIssued, (medleyRun 81).offIssued) = (some 2, some 1) ∧
    (medleyRun 84).bus.dataReqMeta = false ∧ (medleyRun 84).bus.dataReqSync = false ∧
      (medleyRun 84).bus.dataReqPulse = false := by
  decide +kernel

theorem medley_clear (n : Nat) (late : 84 ≤ n) : (medleyRun n).bus.Clear := by
  obtain ⟨-, -, first, sync, pulse⟩ := medley_triggers
  exact traffic_clear medleyBoard _ 0 medley 84 (Nat.le_refl 84) ⟨first, sync, pulse⟩ n late

theorem medley_free (n : Nat) (trig : (medleyRun n).triggers = true) :
    (medleyRun n).slot.pending = false ∧ (n = 9 ∨ n = 45 ∨ n = 57 ∨ n = 81) := by
  by_cases late : 84 ≤ n
  · rw [(medley_clear n late).calm] at trig
    cases trig
  · exact medley_triggers.1 n (by omega) trig

/-- Both of its note_offs. -/
theorem note_off_medley :
    (∃ m, (Chip.initial 0 fun _ => 0).Releases medleyBoard (traffic 0 medley) 57 2 m) ∧
      ∃ m, (Chip.initial 0 fun _ => 0).Releases medleyBoard (traffic 0 medley) 81 1 m := by
  have law := note_off_executed medleyBoard (traffic 0 medley) 0 (fun _ => 0) medley_live
    fun n trig => .inl (medley_free n trig).1
  have issued := medley_triggers.2.1
  rw [Prod.mk.injEq] at issued
  exact ⟨law.2 57 2 issued.1, law.2 81 1 issued.2⟩

set_option maxRecDepth 50000 in
/-- Two note_offs in one pass: that of channel 0 is overwritten in the slot, and the
second pass after it starts without its release. -/
theorem note_off_lost :
    let board : Board := { rom := fun _ => 0, float := 0, clash := fun a _ => a }
    let c := Chip.initial 0 fun _ => 0
    let inputs := traffic 311 (spfmWrite 7 0 ++ spfmWrite 0 1 ++ spfmWrite 7 0)
    ((List.range 936).filter fun n => (c.run board inputs n).time.sampleStart) = [311, 623, 935] ∧
      (c.run board inputs 320).offIssued = some 0 ∧ (c.run board inputs 344).offIssued = some 1 ∧
      c.log Chip.released board inputs 936 = [1] := by
  decide +kernel

end Chiptune.Wavetable
