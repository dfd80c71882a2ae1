import Mathlib.Logic.Function.Iterate
import Chiptune.Wt3.Step

/-!
# Rounds of a core that the host leaves alone

A round of 64 steps adds to every channel's accumulator its step, and gives the
DAC four wave bytes. Sixteen steps of the engine are a channel's slot.
-/

namespace Chiptune.Wt3

/-! ## What a round is for -/

section
variable (mem : Ram) (ch : BitVec 2)

/-- The phase accumulator of a channel. -/
def acc : BitVec 16 := mem (paramAddr ch 1) ++ mem (paramAddr ch 0)

/-- The phase step of a channel. -/
def phaseStep : BitVec 16 := mem (paramAddr ch 3) ++ mem (paramAddr ch 2)

def setAcc (v : BitVec 16) : Ram :=
  Function.update (Function.update mem (paramAddr ch 0) (v.setWidth 8)) (paramAddr ch 1)
    (v.extractLsb' 8 8)

/-- A channel's slot on the RAM. -/
def slotMem : Ram := setAcc mem ch (acc mem ch + phaseStep mem ch)

/-- The wave byte at `{vol[3:0], acc[15:9]}`. -/
def sound (rom : Rom) : Byte :=
  rom (0#8 ++ (mem (paramAddr ch 4)).setWidth 4 ++ (acc mem ch).extractLsb' 9 7)

end

/-- The accumulators of the first `n` channels take their step. -/
def roundFirst (mem : Ram) (n : Nat) : Ram := fun a =>
  let ch := BitVec.ofNat 2 (a.toNat / 8)
  let v := acc mem ch + phaseStep mem ch
  if a.toNat / 8 < n then
    if a.toNat % 8 = 0 then v.setWidth 8
    else if a.toNat % 8 = 1 then v.extractLsb' 8 8
    else mem a
  else mem a

/-- A round: every accumulator takes its step, and nothing else moves. -/
def round (mem : Ram) : Ram := roundFirst mem 4

/-- The wave bytes of a round, in channel order. -/
def roundSound (rom : Rom) (mem : Ram) : List Byte :=
  (List.range 4).map fun ch => sound mem (BitVec.ofNat 2 ch) rom

/-! ## Addresses -/

theorem setAcc_apply (mem : Ram) (ch ch' : BitVec 2) (v : BitVec 16) (o : BitVec 3) :
    setAcc mem ch v (paramAddr ch' o) =
      if ch' = ch ∧ o = 1 then v.extractLsb' 8 8
      else if ch' = ch ∧ o = 0 then v.setWidth 8
      else mem (paramAddr ch' o) := by
  simp only [setAcc, Function.update_apply, paramAddr_inj]

theorem setAcc_outside (mem : Ram) (ch : BitVec 2) (v : BitVec 16) (a : BitVec 15)
    (h : a.toNat / 8 ≠ ch.toNat) : setAcc mem ch v a = mem a := by
  have apart (o : BitVec 3) : a ≠ paramAddr ch o := by
    rintro rfl
    have ho := o.isLt
    rw [paramAddr_toNat] at h
    omega
  simp only [setAcc, Function.update_apply, if_neg (apart _)]

theorem roundFirst_own (mem : Ram) (n : Nat) (hn : n < 4) (o : BitVec 3) :
    roundFirst mem n (paramAddr (BitVec.ofNat 2 n) o) = mem (paramAddr (BitVec.ofNat 2 n) o) := by
  have ho := o.isLt
  have block : (paramAddr (BitVec.ofNat 2 n) o).toNat / 8 = n := by
    rw [paramAddr_toNat, BitVec.toNat_ofNat]
    omega
  simp only [roundFirst, block, Nat.lt_irrefl, ↓reduceIte]

/-- A channel's slot comes after the earlier ones as before them. -/
theorem roundFirst_succ (mem : Ram) (n : Nat) (hn : n < 4) :
    roundFirst mem (n + 1) = slotMem (roundFirst mem n) (BitVec.ofNat 2 n) := by
  have hc : (BitVec.ofNat 2 n).toNat = n := by
    rw [BitVec.toNat_ofNat]
    omega
  have own := roundFirst_own mem n hn
  have sum : acc (roundFirst mem n) (BitVec.ofNat 2 n) + phaseStep (roundFirst mem n)
      (BitVec.ofNat 2 n) = acc mem (BitVec.ofNat 2 n) + phaseStep mem (BitVec.ofNat 2 n) := by
    simp only [acc, phaseStep, own]
  funext a
  rw [slotMem, sum]
  by_cases inside : a.toNat / 8 = n
  · obtain ⟨o, rfl⟩ : ∃ o, a = paramAddr (BitVec.ofNat 2 n) o := by
      refine ⟨a.setWidth 3, BitVec.eq_of_toNat_eq ?_⟩
      rw [paramAddr_toNat, hc, BitVec.toNat_setWidth]
      omega
    have ho := o.isLt
    have low : (paramAddr (BitVec.ofNat 2 n) o).toNat % 8 = o.toNat := by
      rw [paramAddr_toNat]
      omega
    have zero : o.toNat = 0 ↔ o = 0 := @BitVec.toNat_inj _ o 0
    have one : o.toNat = 1 ↔ o = 1 := @BitVec.toNat_inj _ o 1
    rw [setAcc_apply, own]
    simp only [roundFirst, inside, low, zero, one, Nat.lt_succ_self, ↓reduceIte, true_and]
    by_cases h0 : o = 0
    · subst h0
      rfl
    · simp only [h0, ↓reduceIte]
  · rw [setAcc_outside _ _ _ _ (by rw [hc]; exact inside)]
    have same : a.toNat / 8 < n + 1 ↔ a.toNat / 8 < n := by omega
    simp only [roundFirst, same]

theorem acc_round (mem : Ram) (ch : BitVec 2) :
    acc (round mem) ch = acc mem ch + phaseStep mem ch := by
  have own (o : BitVec 3) : (paramAddr ch o).toNat / 8 = ch.toNat ∧
      (paramAddr ch o).toNat % 8 = o.toNat := by
    have ho := o.isLt
    rw [paramAddr_toNat]
    omega
  have hc := ch.isLt
  rw [acc, round, roundFirst, roundFirst]
  simp only [own, hc, BitVec.ofNat_toNat, BitVec.setWidth_eq, ↓reduceIte]
  exact append_bytes _

/-- A round stores nothing but accumulators. -/
theorem round_other (mem : Ram) (a : BitVec 15) (h : ¬(a.toNat < 32 ∧ a.toNat % 8 < 2)) :
    round mem a = mem a := by
  simp only [round, roundFirst]
  split_ifs
  · omega
  · omega
  · rfl
  · rfl

/-! ## The slot of a channel -/

theorem append_upper (hi lo : Byte) : (hi ++ lo).extractLsb' 9 7 = hi.extractLsb' 1 7 := by
  apply BitVec.eq_of_toNat_eq
  have l := lo.isLt
  simp only [toNat_append, BitVec.extractLsb'_toNat, Nat.shiftRight_eq_div_pow]
  omega

section
variable (rom : Rom) (e : Engine)

theorem next_reads (start : e.stepLo = 0) : (Engine.next rom)^[9] e = { e with
    stepLo := 9
    aLo := e.byte 0
    aHi := e.byte 1
    bLo := e.byte 2
    bHi := e.byte 3 } := by
  obtain ⟨_, hi, aLo, aHi, bLo, bHi, c, dac, mem⟩ := e
  cases start
  rfl

theorem next_writes (now : e.stepLo = 9) : (Engine.next rom)^[3] e = { e with
    stepLo := 12
    c := e.byte 4
    mem := Function.update (Function.update e.mem (paramAddr e.curChannel 0) e.adderLo)
      (paramAddr e.curChannel 1) e.adderHi } := by
  obtain ⟨_, hi, aLo, aHi, bLo, bHi, c, dac, mem⟩ := e
  cases now
  rfl

theorem next_dac (now : e.stepLo = 12) : (Engine.next rom)^[3] e = { e with
    stepLo := 15
    dac := e.waveDo rom } := by
  obtain ⟨_, hi, aLo, aHi, bLo, bHi, c, dac, mem⟩ := e
  cases now
  rfl

theorem next_last (now : e.stepLo = 15) : e.next rom = { e with
    stepLo := 0
    stepHi := e.stepHi + 1 } := by
  simp [Engine.next, now]

/-- Step 12 of a slot: the sum is back in the RAM, and the wave byte of the old
accumulator is at the DAC. -/
theorem next_twelve (start : e.stepLo = 0) :
    ((Engine.next rom)^[12] e).stepLo = 12 ∧ ((Engine.next rom)^[12] e).stepHi = e.stepHi ∧
      ((Engine.next rom)^[12] e).mem = slotMem e.mem e.curChannel ∧
      ((Engine.next rom)^[12] e).waveDo rom = sound e.mem e.curChannel rom := by
  have split := Function.iterate_add_apply (Engine.next rom) 3 9 e
  have reads := next_reads rom e start
  have writes := next_writes rom _ (congrArg Engine.stepLo reads)
  rw [split, writes, reads]
  refine ⟨rfl, rfl, ?_, ?_⟩
  · have sum := Engine.adder_eq { e with
      stepLo := 9, aLo := e.byte 0, aHi := e.byte 1, bLo := e.byte 2, bHi := e.byte 3 }
    have lo := congrArg (fun v : BitVec 16 => v.setWidth 8) sum
    have hi := congrArg (fun v : BitVec 16 => v.extractLsb' 8 8) sum
    simp only [append_low, append_high] at lo hi
    rw [slotMem, setAcc, lo, hi]
    rfl
  · rw [sound, acc, append_upper]
    rfl

theorem next_slot (start : e.stepLo = 0) :
    ((Engine.next rom)^[16] e).stepLo = 0 ∧ ((Engine.next rom)^[16] e).stepHi = e.stepHi + 1 ∧
      ((Engine.next rom)^[16] e).mem = slotMem e.mem e.curChannel := by
  have split := Function.iterate_add_apply (Engine.next rom) 4 12 e
  obtain ⟨step, hi, mem, -⟩ := next_twelve rom e start
  rw [split, ← mem, ← hi]
  generalize (Engine.next rom)^[12] e = twelve at step
  have rest := next_dac rom twelve step
  have last := next_last rom _ (congrArg Engine.stepLo rest)
  rw [Function.iterate_succ_apply', last, rest]
  exact ⟨rfl, rfl, rfl⟩

end

/-! ## Rounds of the engine -/

/-- What a step clocks into the DAC register. -/
def Engine.dacStep (rom : Rom) (e : Engine) : List Byte :=
  if e.stepLo = 12 then [e.waveDo rom] else []

/-- What the first `n` steps clock into it. -/
def Engine.dacSteps (rom : Rom) (e : Engine) (n : Nat) : List Byte :=
  (List.range n).flatMap fun k => ((Engine.next rom)^[k] e).dacStep rom

section
variable (rom : Rom)

theorem dacSteps_add (e : Engine) (m n : Nat) : e.dacSteps rom (m + n) =
    e.dacSteps rom m ++ ((Engine.next rom)^[m] e).dacSteps rom n := by
  have later (k : Nat) : (Engine.next rom)^[m + k] e =
      (Engine.next rom)^[k] ((Engine.next rom)^[m] e) := by
    rw [Nat.add_comm, Function.iterate_add_apply]
  simp only [Engine.dacSteps, List.range_add, List.flatMap_append, List.flatMap_map, later]

theorem stepLo_iterate (e : Engine) (k : Nat) :
    ((Engine.next rom)^[k] e).stepLo = e.stepLo + BitVec.ofNat 4 k := by
  induction k with
  | zero => exact (BitVec.add_zero _).symm
  | succ k ih =>
    rw [Function.iterate_succ_apply', BitVec.ofNat_add, ← BitVec.add_assoc, ← ih]
    rfl

theorem dacSteps_slot (e : Engine) (start : e.stepLo = 0) :
    e.dacSteps rom 16 = [sound e.mem e.curChannel rom] := by
  have silent (ks : List Nat) (other : ∀ k ∈ ks, k < 16 ∧ k ≠ 12) :
      ks.flatMap (fun k => ((Engine.next rom)^[k] e).dacStep rom) = [] := by
    rw [List.flatMap_eq_nil_iff]
    intro k hk
    apply if_neg
    rw [stepLo_iterate, start]
    intro now
    have now := congrArg BitVec.toNat now
    rw [BitVec.toNat_add, BitVec.toNat_ofNat] at now
    change (0 + k % 16) % 16 = 12 at now
    have := other k hk
    omega
  obtain ⟨step, -, -, wave⟩ := next_twelve rom e start
  have loud : ((Engine.next rom)^[12] e).dacStep rom = [sound e.mem e.curChannel rom] := by
    rw [Engine.dacStep, if_pos step, wave]
  have parts : List.range 16 = List.range 12 ++ 12 :: [13, 14, 15] := rfl
  rw [Engine.dacSteps, parts, List.flatMap_append, List.flatMap_cons, loud,
    silent (List.range 12) (by simp only [List.mem_range]; omega), silent [13, 14, 15] (by decide)]
  rfl

/-- The sounds of the first `n` channels. -/
def soundFirst (mem : Ram) (n : Nat) : List Byte :=
  (List.range n).map fun ch => sound mem (BitVec.ofNat 2 ch) rom

theorem sound_own (mem : Ram) (n : Nat) (hn : n < 4) :
    sound (roundFirst mem n) (BitVec.ofNat 2 n) rom = sound mem (BitVec.ofNat 2 n) rom := by
  simp only [sound, acc, roundFirst_own mem n hn]

/-- The slots of a round, one channel after the other. -/
theorem next_slots (e : Engine) (start : e.stepLo = 0) (first : e.curChannel = 0) (n : Nat)
    (hn : n ≤ 4) : ((Engine.next rom)^[16 * n] e).stepLo = 0 ∧
      ((Engine.next rom)^[16 * n] e).stepHi = e.stepHi + BitVec.ofNat 4 n ∧
      ((Engine.next rom)^[16 * n] e).mem = roundFirst e.mem n ∧
      e.dacSteps rom (16 * n) = soundFirst rom e.mem n := by
  induction n with
  | zero => exact ⟨start, (BitVec.add_zero _).symm, rfl, rfl⟩
  | succ n ih =>
    obtain ⟨step, hi, mem, log⟩ := ih (by omega)
    have split := Function.iterate_add_apply (Engine.next rom) 16 (16 * n) e
    have count : 16 + 16 * n = 16 * (n + 1) := by omega
    have logged := dacSteps_add rom e (16 * n) 16
    have count' : 16 * n + 16 = 16 * (n + 1) := by omega
    rw [count] at split
    rw [count'] at logged
    generalize (Engine.next rom)^[16 * n] e = t at step hi mem split logged
    obtain ⟨step', hi', mem'⟩ := next_slot rom t step
    have channel : t.curChannel = BitVec.ofNat 2 n := by
      have zero := congrArg BitVec.toNat first
      apply BitVec.eq_of_toNat_eq
      simp only [Engine.curChannel, hi, BitVec.extractLsb'_toNat, BitVec.toNat_add,
        BitVec.toNat_ofNat] at zero ⊢
      simp at zero ⊢
      omega
    rw [split, logged, log, dacSteps_slot rom t step, step', hi', mem', channel, mem, hi,
      sound_own rom e.mem n (by omega), roundFirst_succ e.mem n (by omega), BitVec.ofNat_add,
      ← BitVec.add_assoc]
    refine ⟨rfl, rfl, rfl, ?_⟩
    rw [soundFirst, soundFirst, List.range_succ, List.map_append]
    rfl

/-- A round brings the engine back to its first step. -/
theorem next_round (e : Engine) (start : e.stepLo = 0) (first : e.curChannel = 0) :
    ((Engine.next rom)^[64] e).stepLo = 0 ∧ ((Engine.next rom)^[64] e).curChannel = 0 ∧
      ((Engine.next rom)^[64] e).mem = round e.mem ∧
      e.dacSteps rom 64 = roundSound rom e.mem := by
  obtain ⟨step, hi, mem, log⟩ := next_slots rom e start first 4 (Nat.le_refl 4)
  refine ⟨step, ?_, mem, log⟩
  have turn (k : BitVec 4) : (k + 4).extractLsb' 0 2 = k.extractLsb' 0 2 := by
    revert k
    decide
  rw [← first]
  exact (congrArg (fun k : BitVec 4 => k.extractLsb' 0 2) hi).trans (turn e.stepHi)

end

/-! ## Rounds of the core -/

section
variable (rom : Rom) (float : Byte)

/-- What an event that took the core from `old` to `c` clocks into the DAC register. -/
def Core.dacByte (old c : Core) : List Byte := if c.dacCp old then [c.eng.waveDo rom] else []

def Core.hostsDac (c : Core) : List HostEvent → List Byte
  | [] => []
  | h :: hs => Core.dacByte rom c { c with bus := c.bus.host h } ++ (c.host rom h).hostsDac hs

/-- What the first `n` step periods clock into the DAC register. -/
def Core.dacLog (hs : Nat → List HostEvent) (c : Core) : Nat → List Byte
  | 0 => []
  | n + 1 =>
    let old := c.run rom float hs n
    let late := old.hosts rom (hs n)
    c.dacLog hs n ++ old.hostsDac rom (hs n) ++ Core.dacByte rom late (late.stepClk float)

end

section
variable {rom : Rom} {float : Byte} {c : Core}

theorem hosts_deselected (off : c.bus.pins.Deselected) (hs : List HostEvent)
    (quiet : ∀ h ∈ hs, h.Deselected) : (c.hosts rom hs).eng = c.eng ∧
      (c.hosts rom hs).bus.pins.Deselected ∧ c.hostsDac rom hs = [] := by
  induction hs generalizing c with
  | nil => exact ⟨rfl, off, rfl⟩
  | cons h hs ih =>
    obtain ⟨eng, silent⟩ := @host_deselected rom _ off _ (quiet h (by simp))
    obtain ⟨same, pins, none⟩ := ih (c := c.host rom h) (host_pins off (quiet h (by simp)))
      fun k hk => quiet k (by simp [hk])
    refine ⟨same.trans eng, pins, ?_⟩
    rw [Core.hostsDac, none, Core.dacByte, if_neg silent]
    rfl

theorem dacByte_next (off : c.bus.pins.Deselected) :
    Core.dacByte rom c (c.stepClk float) = c.eng.dacStep rom := by
  rw [Core.dacByte, dacCp_next off, Engine.dacStep]
  by_cases now : c.eng.stepLo = 12
  · rw [stepClk_late off 12 now (by decide) (by decide), now]
    rfl
  · rw [if_neg now, beq_eq_false_iff_ne.mpr now]
    rfl

theorem run_deselected (hs : Nat → List HostEvent) (off : c.bus.pins.Deselected)
    (quiet : ∀ n, ∀ h ∈ hs n, h.Deselected) (n : Nat) :
    (c.run rom float hs n).eng = (Engine.next rom)^[n] c.eng ∧
      (c.run rom float hs n).bus.pins.Deselected ∧
      c.dacLog rom float hs n = c.eng.dacSteps rom n := by
  induction n with
  | zero => exact ⟨rfl, off, rfl⟩
  | succ n ih =>
    obtain ⟨eng, pins, log⟩ := ih
    obtain ⟨same, pins', none⟩ := @hosts_deselected rom _ pins (hs n) (quiet n)
    refine ⟨?_, pins', ?_⟩
    · rw [Core.run, tick_next pins', same, eng, Function.iterate_succ_apply']
    · have later := dacSteps_add rom c.eng n 1
      rw [Core.dacLog, log, none, dacByte_next pins', same, eng, List.append_nil, later]
      simp [Engine.dacSteps]

end

/-- **A round of an undisturbed core.** Whatever the latches hold and however
often the bus clock ticks, `R` rounds add to every accumulator its step `R` times,
leave the rest of the RAM alone and clock four wave bytes each into the DAC
register. -/
theorem run_rounds (rom : Rom) (float : Byte) (hs : Nat → List HostEvent) (c : Core)
    (off : c.bus.pins.Deselected) (quiet : ∀ n, ∀ h ∈ hs n, h.Deselected)
    (start : c.eng.step = 0) (R : Nat) :
    (c.run rom float hs (64 * R)).eng.mem = round^[R] c.eng.mem ∧
      c.dacLog rom float hs (64 * R) =
        (List.range R).flatMap fun r => roundSound rom (round^[r] c.eng.mem) := by
  have split (ch : BitVec 2) (k : BitVec 4) (h : ch ++ k = 0) : k = 0 ∧ ch = 0 := by
    revert ch k
    decide
  obtain ⟨lo, ch⟩ := split _ _ start
  suffices ((Engine.next rom)^[64 * R] c.eng).stepLo = 0 ∧
      ((Engine.next rom)^[64 * R] c.eng).curChannel = 0 ∧
      ((Engine.next rom)^[64 * R] c.eng).mem = round^[R] c.eng.mem ∧
      c.eng.dacSteps rom (64 * R) =
        (List.range R).flatMap fun r => roundSound rom (round^[r] c.eng.mem) by
    obtain ⟨eng, -, log⟩ := @run_deselected rom float _ hs off quiet (64 * R)
    rw [eng, log]
    exact this.2.2
  induction R with
  | zero => exact ⟨lo, ch, rfl, rfl⟩
  | succ R ih =>
    obtain ⟨step, first, mem, log⟩ := ih
    have turn := Function.iterate_add_apply (Engine.next rom) 64 (64 * R) c.eng
    have logged := dacSteps_add rom c.eng (64 * R) 64
    have count : 64 + 64 * R = 64 * (R + 1) := by omega
    rw [count] at turn
    rw [Nat.add_comm, count] at logged
    obtain ⟨step', first', mem', log'⟩ := next_round rom _ step first
    refine ⟨?_, ?_, ?_, ?_⟩
    · rw [turn, step']
    · rw [turn, first']
    · rw [turn, mem', mem, Function.iterate_succ_apply']
    · rw [logged, log, log', mem, List.range_succ, List.flatMap_append]
      simp only [List.flatMap_cons, List.flatMap_nil, List.append_nil]

/-- Two rounds at the step 0x65 in channel 1, with the bus clock running. -/
theorem two_rounds :
    let c := Core.powerUp (Function.update (fun _ => 0) (paramAddr 1 2) 0x65)
    (c.run (fun _ => 7) 0 (fun _ => [.clock]) 128).eng.mem (paramAddr 1 0) = 0xCA ∧
      c.dacLog (fun _ => 7) 0 (fun _ => [.clock]) 128 = List.replicate 8 7 := by
  intro c
  have clocks : ∀ n, ∀ h ∈ (fun _ => [.clock] : Nat → List HostEvent) n, h.Deselected := by
    intro _ h hh
    rw [List.mem_singleton.mp hh]
    trivial
  obtain ⟨mem, log⟩ := run_rounds (fun _ => 7) 0 (fun _ => [.clock]) c ⟨rfl, rfl⟩ clocks
    (by decide) 2
  exact ⟨(congrFun mem _).trans (by decide), log.trans (by decide)⟩

end Chiptune.Wt3
