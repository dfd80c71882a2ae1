import Mathlib.Data.List.GetD
import Chiptune.Wavetable.Ram

/-!
# The sample schedule

From a reset on the two counters follow one schedule: a pass of 128 clocks after
each start, then idle clocks until the next start. A command that waits in the
slot meets its first idle clock before a second pass can start.
-/

namespace Chiptune.Wavetable

/-- The counters `n` clocks after the clock that starts a pass. -/
structure Timer.At (t : Timer) (n : Nat) : Prop where
  cnt : t.sampleCnt.toNat = 311 - n
  step : t.ustep.toNat = min n 128

theorem Timer.at_start (t : Timer) (start : t.sampleCnt = 0) : t.next.At 0 := by
  have hs : t.sampleStart = true := by simp [sampleStart, start]
  constructor
  · simp [next, start, sampleDiv]
  · simp [next, hs]

theorem Timer.at_next (t : Timer) (n : Nat) (hn : n < 311) (h : t.At n) :
    t.sampleStart = false ∧ (t.idle = true ↔ 128 ≤ n) ∧ t.next.At (n + 1) := by
  obtain ⟨cnt, step⟩ := h
  have ne : t.sampleCnt ≠ 0 := by
    intro e
    rw [e] at cnt
    simp at cnt
    omega
  have hs : t.sampleStart = false := by simpa [sampleStart] using ne
  have lt : t.ustep < totalSteps ↔ n < 128 := by
    have total : totalSteps.toNat = 128 := rfl
    rw [BitVec.lt_def, step, total]
    omega
  refine ⟨hs, ?_, ?_, ?_⟩
  · simp only [idle, hs, Bool.not_false, Bool.true_and, decide_eq_true_eq]
    rw [← BitVec.not_lt, lt]
    omega
  · rw [next, if_neg ne]
    simp only [BitVec.toNat_sub]
    simp
    omega
  · simp only [next, hs, Bool.false_eq_true, ↓reduceIte]
    by_cases h : n < 128
    · rw [if_pos (lt.mpr h), BitVec.toNat_add, step]
      simp
      omega
    · rw [if_neg (mt lt.mp h), step]
      omega

/-- No pass runs, and the next one starts in `m` clocks. -/
structure Timer.Waits (t : Timer) (m : Nat) : Prop where
  cnt : t.sampleCnt.toNat = m
  step : t.ustep = totalSteps

theorem Timer.waits_start (t : Timer) (h : t.Waits 0) : t.idle = false ∧ t.next.At 0 := by
  have start : t.sampleCnt = 0 := BitVec.eq_of_toNat_eq h.cnt
  exact ⟨by simp [idle, sampleStart, start], t.at_start start⟩

theorem Timer.waits_next (t : Timer) (m : Nat) (h : t.Waits (m + 1)) :
    t.sampleStart = false ∧ t.idle = true ∧ t.next.Waits m := by
  obtain ⟨cnt, step⟩ := h
  have ne : t.sampleCnt ≠ 0 := by
    intro e
    rw [e] at cnt
    simp at cnt
  have hs : t.sampleStart = false := by simpa [sampleStart] using ne
  have bound := t.sampleCnt.isLt
  refine ⟨hs, by simp [idle, hs, step], ?_, by simp [next, hs, step]⟩
  rw [next, if_neg ne]
  simp only [BitVec.toNat_sub]
  simp
  omega

/-- After its last clock a pass is followed by a wait. -/
theorem Timer.at_waits (t : Timer) (n : Nat) (h : t.At n) (hn : 128 ≤ n) : t.Waits (311 - n) :=
  ⟨h.cnt, BitVec.eq_of_toNat_eq (by rw [h.step, Nat.min_eq_right hn]; rfl)⟩

/-- On the schedule: in a pass or waiting for one. -/
def Timer.Ok (t : Timer) : Prop := (∃ m, m ≤ 311 ∧ t.Waits m) ∨ ∃ n, n < 128 ∧ t.At n

theorem Timer.ok_next (t : Timer) (h : t.Ok) : t.next.Ok := by
  obtain ⟨m, hm, wait⟩ | ⟨n, hn, pos⟩ := h
  · cases m with
    | zero => exact .inr ⟨0, by omega, (t.waits_start wait).2⟩
    | succ m => exact .inl ⟨m, by omega, (t.waits_next m wait).2.2⟩
  · have next := (t.at_next n (by omega) pos).2.2
    by_cases last : n < 127
    · exact .inr ⟨n + 1, by omega, next⟩
    · exact .inl ⟨311 - (n + 1), by omega, t.next.at_waits (n + 1) next (by omega)⟩

/-- `n` clocks later. -/
def Timer.after (t : Timer) : Nat → Timer
  | 0 => t
  | n + 1 => (t.after n).next

theorem Timer.after_add (t : Timer) (m n : Nat) : t.after (m + n) = (t.after m).after n := by
  induction n with
  | zero => rfl
  | succ n ih => rw [← Nat.add_assoc, after, ih, after]

/-- The rest of a pass has no start in it and is followed by an idle clock. -/
theorem Timer.pass_rest (t : Timer) (n : Nat) (hn : n ≤ 128) (h : t.At n) (d : Nat)
    (hd : d ≤ 128 - n) : (t.after d).sampleStart = false ∧
      ((t.after d).idle = true ↔ d = 128 - n) ∧ (t.after d).At (n + d) := by
  have pos : ∀ d, d ≤ 128 - n → (t.after d).At (n + d) := by
    intro d
    induction d with
    | zero => exact fun _ => h
    | succ d ih =>
      intro hd
      exact (Timer.at_next _ (n + d) (by omega) (ih (by omega))).2.2
  obtain ⟨start, idle, -⟩ := Timer.at_next _ (n + d) (by omega) (pos d hd)
  refine ⟨start, idle.trans ?_, pos d hd⟩
  omega

/-- **The first idle clock** comes within 130 clocks, and no pass starts on the way
there after the present clock. -/
theorem Timer.first_idle (t : Timer) (h : t.Ok) : ∃ d, d < 130 ∧ (t.after d).idle = true ∧
    (∀ e, e < d → (t.after e).idle = false) ∧
    ∀ e, 0 < e → e ≤ d → (t.after e).sampleStart = false := by
  have rest (t : Timer) (n : Nat) (hn : n ≤ 128) (h : t.At n) :
      (t.after (128 - n)).idle = true ∧
        (∀ e, e < 128 - n → (t.after e).idle = false) ∧
        ∀ e, e ≤ 128 - n → (t.after e).sampleStart = false := by
    refine ⟨(t.pass_rest n hn h _ (Nat.le_refl _)).2.1.mpr rfl, fun e he => ?_, fun e he => ?_⟩
    · rw [Bool.eq_false_iff, Ne, (t.pass_rest n hn h e (by omega)).2.1]
      omega
    · exact (t.pass_rest n hn h e he).1
  obtain ⟨m, hm, wait⟩ | ⟨n, hn, pos⟩ := h
  · cases m with
    | zero =>
      obtain ⟨busy, pos⟩ := t.waits_start wait
      obtain ⟨idle, before, quiet⟩ := rest t.next 0 (by omega) pos
      have shift (e : Nat) : t.after (1 + e) = t.next.after e := t.after_add 1 e
      refine ⟨1 + 128, by omega, ?_, fun e he => ?_, fun e h0 he => ?_⟩
      · rw [shift]
        exact idle
      · cases e with
        | zero => exact busy
        | succ e =>
          rw [Nat.add_comm, shift]
          exact before e (by omega)
      · obtain ⟨e, rfl⟩ : ∃ f, e = 1 + f := ⟨e - 1, by omega⟩
        rw [shift]
        exact quiet e (by omega)
    | succ m =>
      have idle := (t.waits_next m wait).2.1
      exact ⟨0, by omega, idle, fun e he => absurd he (by omega), fun e h0 he => absurd he (by omega)⟩
  · obtain ⟨idle, before, quiet⟩ := rest t n (by omega) pos
    exact ⟨128 - n, by omega, idle, before, fun e _ he => quiet e he⟩

/-- A pass leaves no idle clock from its start to its last step. -/
theorem Timer.pass_busy (t : Timer) (start : t.sampleStart = true) (e : Nat) (he : e ≤ 128) :
    (t.after e).idle = false := by
  cases e with
  | zero => simp [after, idle, start]
  | succ e =>
    have pos : t.next.At 0 := t.at_start (by simpa [sampleStart] using start)
    have busy := (t.next.pass_rest 0 (by omega) pos e (by omega)).2.1
    rw [Nat.add_comm, after_add, Bool.eq_false_iff]
    exact fun idle => absurd (busy.mp idle) (by omega)

theorem Timer.ok_after (t : Timer) (h : t.Ok) (n : Nat) : (t.after n).Ok := by
  induction n with
  | zero => exact h
  | succ n ih => exact Timer.ok_next _ ih

theorem Timer.waits_after (t : Timer) (m : Nat) (h : t.Waits m) (k : Nat) (hk : k ≤ m) :
    (t.after k).Waits (m - k) := by
  induction k with
  | zero => exact h
  | succ k ih =>
    obtain ⟨j, hj⟩ : ∃ j, m - k = j + 1 := ⟨m - k - 1, by omega⟩
    have wait := ih (by omega)
    rw [hj] at wait
    have e : m - (k + 1) = j := by omega
    rw [after, e]
    exact (Timer.waits_next _ j wait).2.2

theorem Timer.idle_waits (t : Timer) (h : t.Ok) (idle : t.idle = true) : ∃ m, t.Waits (m + 1) := by
  obtain ⟨m, -, wait⟩ | ⟨n, hn, pos⟩ := h
  · cases m with
    | zero =>
      rw [(t.waits_start wait).1] at idle
      cases idle
    | succ m => exact ⟨m, wait⟩
  · exact absurd ((t.at_next n (by omega) pos).2.1.mp idle) (by omega)

/-- The wait after a pass begins at 183. -/
theorem Timer.busy_waits (t : Timer) (h : t.Ok) (busy : t.idle = false)
    (idle : t.next.idle = true) : t.next.Waits 183 := by
  have next (n : Nat) (hn : n ≤ 127) (pos : t.next.At (n + 1)) : t.next.Waits 183 := by
    have full : 128 ≤ n + 1 := (t.next.at_next (n + 1) (by omega) pos).2.1.mp idle
    have last : 311 - (n + 1) = 183 := by omega
    rw [← last]
    exact t.next.at_waits (n + 1) pos full
  obtain ⟨m, -, wait⟩ | ⟨n, hn, pos⟩ := h
  · cases m with
    | zero =>
      have start := (t.next.at_next 0 (by omega) (t.waits_start wait).2).2.1.mp idle
      exact absurd start (by omega)
    | succ m =>
      rw [(t.waits_next m wait).2.1] at busy
      cases busy
  · exact next n (by omega) (t.at_next n (by omega) pos).2.2

/-- **Room for ten.** Unless the counter stands between 2 and 10, the next idle clock
is the first of ten. -/
theorem Timer.ten_idle (t : Timer) (h : t.Ok)
    (room : ¬(2 ≤ t.sampleCnt.toNat ∧ t.sampleCnt.toNat ≤ 10)) (d : Nat)
    (idle : (t.next.after d).idle = true) (busy : ∀ e, e < d → (t.next.after e).idle = false)
    (k : Nat) (hk : k < 10) : (t.next.after (d + k)).idle = true := by
  have long (m : Nat) (hm : 10 ≤ m) (wait : (t.next.after d).Waits m) :
      (t.next.after (d + k)).idle = true := by
    obtain ⟨j, hj⟩ : ∃ j, m - k = j + 1 := ⟨m - k - 1, by omega⟩
    have later := Timer.waits_after _ m wait k (by omega)
    rw [hj] at later
    rw [after_add]
    exact (Timer.waits_next _ j later).2.1
  cases d with
  | zero =>
    cases now : t.idle with
    | false => exact long 183 (by omega) (t.busy_waits h now idle)
    | true =>
      obtain ⟨m, wait⟩ := t.idle_waits h now
      have wait' := (t.waits_next m wait).2.2
      have cnt := wait.cnt
      cases m with
      | zero =>
        have stop := (t.next.waits_start wait').1
        change t.next.idle = true at idle
        rw [stop] at idle
        cases idle
      | succ m => exact long (m + 1) (by omega) wait'
  | succ d =>
    refine long 183 (by omega) ?_
    exact Timer.busy_waits _ (Timer.ok_after _ (t.ok_next h) d) (busy d (by omega)) idle

/-! ## One clock of the slot -/

section
variable (c : Chip)

def Chip.noteOn : Bool := c.bus.dataReqPulse && c.host.regAddr == 0x06

def Chip.noteOff : Bool := c.bus.dataReqPulse && c.host.regAddr == 0x07

variable {c}

theorem trigger_calm (calm : c.triggers = false) :
    (if c.bus.dataReqPulse then c.slot.trigger c.host else c.slot) = c.slot := by
  cases pulse : c.bus.dataReqPulse with
  | false => rfl
  | true =>
    simp only [Chip.triggers, pulse, Bool.true_and, Bool.or_eq_false_iff,
      beq_eq_false_iff_ne] at calm
    rw [if_pos rfl, Slot.trigger]
    split
    · next h => exact absurd (BitVec.eq_of_toNat_eq h) calm.1
    · next h => exact absurd (BitVec.eq_of_toNat_eq h) calm.2
    · rfl

theorem triggers_cases : c.triggers = (c.noteOn || c.noteOff) := by
  rw [Chip.triggers, Chip.noteOn, Chip.noteOff, Bool.and_or_distrib_left]

theorem trigger_off (off : c.noteOff = true) :
    (if c.bus.dataReqPulse then c.slot.trigger c.host else c.slot) =
      { c.slot with pending := true, op := 2, ch := c.host.hostCh } := by
  rw [Chip.noteOff, Bool.and_eq_true, beq_iff_eq] at off
  rw [if_pos off.1, Slot.trigger, off.2]
  rfl

theorem trigger_on (on : c.noteOn = true) :
    (if c.bus.dataReqPulse then c.slot.trigger c.host else c.slot) =
      { pending := true, op := 1, ch := c.host.hostCh, phase := 0 } := by
  rw [Chip.noteOn, Bool.and_eq_true, beq_iff_eq] at on
  rw [if_pos on.1, Slot.trigger, on.2]
  rfl

theorem on_not_off (on : c.noteOn = true) : c.noteOff = false := by
  rw [Chip.noteOn, Bool.and_eq_true, beq_iff_eq] at on
  rw [Chip.noteOff, on.2]
  exact Bool.and_false _

/-- Without a trigger the slot changes on an idle clock only. -/
theorem slotNext_calm (calm : c.triggers = false) :
    c.slotNext = if c.time.idle then c.slot.advance c.slot else c.slot := by
  rw [Chip.slotNext, trigger_calm calm]

/-- An empty slot takes the trigger as it is. -/
theorem slotNext_free (free : c.slot.pending = false) :
    c.slotNext = if c.bus.dataReqPulse then c.slot.trigger c.host else c.slot := by
  rw [Chip.slotNext, Slot.advance, free]
  simp

end

/-! ## Runs out of reset -/

section
variable {board : Board} {inputs : Nat → Cycle} (c : Chip)

theorem run_succ (live : ∀ n, (inputs n).Live) (n : Nat) :
    (c.run board inputs (n + 1)).time = (c.run board inputs n).time.next ∧
      (c.run board inputs (n + 1)).slot = (c.run board inputs n).slotNext ∧
      (c.run board inputs (n + 1)).eng = (c.run board inputs n).engStep board ∧
      (c.run board inputs (n + 1)).sram =
        ((c.run board inputs n).engStep board).stored (c.run board inputs n).sram :=
  Chip.cycle_spec board (c.run board inputs n) (inputs n) (live n)

theorem run_after (live : ∀ n, (inputs n).Live) (n d : Nat) :
    (c.run board inputs (n + d)).time = (c.run board inputs n).time.after d := by
  induction d with
  | zero => rfl
  | succ d ih => rw [← Nat.add_assoc, (run_succ c live (n + d)).1, ih, Timer.after]

/-- A chip that comes out of reset is on the schedule ever after. -/
theorem run_ok (live : ∀ n, (inputs n).Live) (dLatch : Byte) (sram : Ram) (n : Nat) :
    ((Chip.initial dLatch sram).run board inputs n).time.Ok := by
  induction n with
  | zero => exact .inl ⟨311, Nat.le_refl _, rfl, rfl⟩
  | succ n ih =>
    rw [(run_succ _ live n).1]
    exact Timer.ok_next _ ih

end

/-! ## Bus traffic -/

/-- A clock of a write strobe. -/
def Cycle.strobe (a0 : Bool) (d : Byte) : Cycle where
  low := []
  edge := { d := some d, csN := false, a0 := a0, wrN := false, rdN := true, rstN := true }
  high := []

/-- `spfm_write` of the testbench: the address and then the data, each strobed for
four clocks. -/
def spfmWrite (addr data : Byte) : List Cycle :=
  List.replicate 4 (Cycle.strobe false addr) ++ List.replicate 2 Cycle.idle ++
    List.replicate 4 (Cycle.strobe true data) ++ List.replicate 2 Cycle.idle

/-- The writes `ws` after `wait` idle clocks, and an idle bus from then on. -/
def traffic (wait : Nat) (ws : List Cycle) (n : Nat) : Cycle :=
  if n < wait then Cycle.idle else ws.getD (n - wait) Cycle.idle

theorem idle_live : Cycle.idle.Live := ⟨nofun, rfl, nofun⟩

theorem spfmWrite_live (addr data : Byte) : ∀ i ∈ spfmWrite addr data, i.Live := by
  have strobe (a0 : Bool) (d : Byte) : (Cycle.strobe a0 d).Live := ⟨nofun, rfl, nofun⟩
  intro i hi
  simp only [spfmWrite, List.mem_append, List.mem_replicate] at hi
  obtain ((⟨-, rfl⟩ | ⟨-, rfl⟩) | ⟨-, rfl⟩) | ⟨-, rfl⟩ := hi
  exacts [strobe _ _, idle_live, strobe _ _, idle_live]

theorem traffic_live (wait : Nat) (ws : List Cycle) (h : ∀ i ∈ ws, i.Live) (n : Nat) :
    (traffic wait ws n).Live := by
  rw [traffic]
  split
  · exact idle_live
  · by_cases hn : n - wait < ws.length
    · rw [List.getD_eq_getElem _ _ hn]
      exact h _ (List.getElem_mem hn)
    · rw [List.getD_eq_default _ _ (by omega)]
      exact idle_live

/-- After the traffic the chip stays clear. -/
theorem traffic_clear (board : Board) (c : Chip) (wait : Nat) (ws : List Cycle) (N : Nat)
    (hN : wait + ws.length ≤ N) (clear : (c.run board (traffic wait ws) N).bus.Clear) (n : Nat)
    (hn : N ≤ n) : (c.run board (traffic wait ws) n).bus.Clear := by
  obtain ⟨k, rfl⟩ : ∃ k, n = N + k := ⟨n - N, by omega⟩
  have idle (k : Nat) : traffic wait ws (N + k) = Cycle.idle := by
    rw [traffic, if_neg (by omega), List.getD_eq_default _ _ (by omega)]
  rw [Chip.run, Clocked.run_add]
  refine Chip.run_clear board _ _ (fun k => ?_) clear k
  rw [idle]
  exact ⟨idle_live, rfl⟩

end Chiptune.Wavetable
