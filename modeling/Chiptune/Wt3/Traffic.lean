import Chiptune.Wt3.Delays

/-!
# The host and the engine's stores

What the host does is known from its side of the core and `STEP_CLK` alone: where `CS_n` is
high, where `WE_n` falls for the engine, and which latches it lets through. The control word
of a sub-step reaches the RAM 55 ns late, so the engine stores in the sub-steps 10 and 12, a
little late.
-/

namespace Chiptune.Wt3

open Delay

/-! ## The host's side -/

def HostEvent.Live : HostEvent → Prop
  | .clock => True
  | .drive p => p.rstN = true

/-- A step or a volume byte. -/
def ParamByte (a : Byte) : Prop := a.toNat < 32 ∧ 2 ≤ a.toNat % 8 ∧ a.toNat % 8 ≤ 4

instance (a : Byte) : Decidable (ParamByte a) := inferInstanceAs (Decidable (_ ∧ _))

section
variable (ns : Nat) (is : Nat → Instant) (port : Nat → Port) (edge : Nat → Nat)

/-- `STEP_CLK` rises at the times `edge`, from the second on, and at most once in 70 ns. -/
structure StepClk : Prop where
  unit : 0 < ns
  first : edge 0 = 0
  spaced : ∀ k, edge k + 70 * ns ≤ edge (k + 1)
  rises : ∀ t, (is t).step = true ↔ ∃ k, edge (k + 1) = t

def csN (t : Nat) : Bool := (port t).bus.pins.csN

def pulseN (t : Nat) : Bool := (port t).bus.dataWrPulseN

/-- The host leaves the reset alone. Its strobes and the gaps between them are longer than
55 ns. When `WE_n` falls for it, it holds `CS_n` for the 55 ns of the store, and the address is
then one of a step or a volume byte. -/
structure Traffic : Prop where
  live : (port 0).bus.pins.rstN = true
  stays : ∀ t, ∀ h ∈ (is t).host, h.Live
  apart : ∀ s t, s < t → csN port s ≠ csN port (s + 1) → csN port t ≠ csN port (t + 1) →
    s + 55 * ns < t
  held : ∀ s, csN port (s + 1) = false → pulseN port (s + 1) = false →
    (csN port s = true ∨ pulseN port s = true) →
    (∀ t, s < t → t ≤ s + 1 + 55 * ns → csN port t = false) ∧
      ∀ t, s + 55 * ns ≤ t → t ≤ s + 1 + 55 * ns → ParamByte (port t).bus.regAddr

/-- `WE_n` falls for the engine at `s`, in the period `k`, which reaches the RAM 55 ns late. -/
def Falls (k s : Nat) : Prop :=
  edge k + 55 * ns ≤ s ∧ s < edge (k + 1) + 55 * ns ∧ csN port s = true ∧
    (if csN port (s - 1) = true then s = edge k + 55 * ns else pulseN port (s - 1) = true)

/-- `CS_n` stays high for the 55 ns of the store. -/
def Uncut (s : Nat) : Prop := ∀ t, s ≤ t → t ≤ s + 55 * ns → csN port t = true

/-- The fall at `s`, in the slot from the period `n` on, stores byte `o` of the accumulator. -/
def StoresAt (n : Nat) (o : BitVec 3) (s : Nat) : Prop :=
  if o = 0 then Falls ns port edge (n + 10) s ∨ Falls ns port edge (n + 12) s ∧ edge (n + 13) < s
  else Falls ns port edge (n + 12) s ∧ s < edge (n + 13)

def Stores (n : Nat) (o : BitVec 3) : Prop := ∃ s, StoresAt ns port edge n o s

/-- `CS_n` is high 40 and 15 ns before the `STEP_CLK` that ends the period `k`. -/
def Latches (k : Nat) : Prop :=
  csN port (edge (k + 1) - (40 * ns + 1)) = true ∧ csN port (edge (k + 1) - 15 * ns) = true

end

/-- The host's side of a run. -/
def ports (s : Nat → DelayedCore) (t : Nat) : Port := (s t).port

/-! ## A run -/

section
variable {ns : Nat} {rom : Rom} {float : Byte} {is : Nat → Instant} {edge : Nat → Nat}
  {s : Nat → DelayedCore} {n : Nat}

theorem edge_lt (clocked : StepClk ns is edge) {j k : Nat} (less : j < k) :
    edge j + 70 * ns ≤ edge k := by
  induction k, less using Nat.le_induction with
  | base => exact clocked.spaced j
  | succ k less ih => exact Nat.le_trans ih (Nat.le_of_add_right_le (clocked.spaced k))

theorem edge_le (clocked : StepClk ns is edge) {j k : Nat} (le : j ≤ k) : edge j ≤ edge k := by
  obtain less | rfl := Nat.lt_or_eq_of_le le
  · exact Nat.le_of_add_right_le (edge_lt clocked less)
  · exact Nat.le_refl _

/-- A time that is not more than a period behind a `STEP_CLK`. -/
theorem period_of (clocked : StepClk ns is edge) (d t : Nat) :
    ∃ k, (k = 0 ∨ edge k + d ≤ t) ∧ t < edge (k + 1) + d := by
  induction t with
  | zero =>
    have := clocked.spaced 0
    have := clocked.unit
    exact ⟨0, .inl rfl, by omega⟩
  | succ t ih =>
    have := clocked.unit
    obtain ⟨k, low, high⟩ := ih
    by_cases inside : t + 1 < edge (k + 1) + d
    · exact ⟨k, by omega, inside⟩
    · have spaced := clocked.spaced (k + 1)
      exact ⟨k + 1, .inr (by omega), by omega⟩

/-- A net whose input moves with `STEP_CLK` shows it one delay late. -/
theorem period_net {α : Type} [DecidableEq α] (clocked : StepClk ns is edge) {d : Nat}
    (wait : 0 < d) (short : d < 70 * ns) (net : Nat → Net α) (x v : Nat → α)
    (moves : ∀ t, net (t + 1) = (net t).step d (x t) (x (t + 1)))
    (follows : (net 0).Follows d (x 0)) (settled : (net 0).left = 0)
    (steady : ∀ k u, edge k ≤ u → u < edge (k + 1) → x u = v k) {k t : Nat}
    (low : k = 0 ∨ edge k + d ≤ t) (high : t < edge (k + 1) + d) : (net t).out = v k := by
  have spaced := clocked.spaced k
  by_cases late : edge k + d ≤ t
  · exact Net.window net x moves follows wait (a := edge k) (b := edge (k + 1) - 1)
      (fun u from_k to_end => steady k u from_k (by omega)) (by omega) late (by omega)
  · obtain rfl | low := low
    · have start := clocked.first
      have shows := (Net.lags net x moves follows wait settled t (by omega)).1
      rw [Nat.zero_add] at shows
      exact shows.trans (steady 0 0 (by omega) (by omega))
    · exact absurd low late

/-- No `STEP_CLK` rises inside a period. -/
theorem no_step (clocked : StepClk ns is edge) {k t : Nat} (low : edge k < t)
    (high : t < edge (k + 1)) : (is t).step = false := by
  rw [← Bool.not_eq_true, clocked.rises]
  rintro ⟨j, rfl⟩
  by_cases before : j < k
  · have := edge_le clocked (show j + 1 ≤ k by omega)
    omega
  · have := edge_le clocked (show k + 1 ≤ j + 1 by omega)
    omega

section
variable (moves : ∀ t, s (t + 1) = (s t).tick ns rom float (is (t + 1)))

include moves

/-- What the host keeps of its pins. -/
theorem pins_run (P : Pins → Prop) (here : P (s 0).port.bus.pins)
    (keeps : ∀ t p, (is t).host = some (.drive p) → P p) (t : Nat) : P (s t).port.bus.pins := by
  induction t with
  | zero => exact here
  | succ t ih =>
    rw [moves]
    change P ((s t).port.tick ns (is (t + 1)).host).bus.pins
    rw [Port.tick]
    cases event : (is (t + 1)).host with
    | none => exact ih
    | some h =>
      cases h with
      | clock => exact ih
      | drive p => exact keeps (t + 1) p event

theorem live_run (traffic : Traffic ns is (ports s)) (t : Nat) :
    (s t).port.bus.pins.rstN = true :=
  pins_run moves (fun p => p.rstN = true) traffic.live
    (fun t p event => traffic.stays t (.drive p) event) t

/-- The counters move with `STEP_CLK` alone. -/
theorem counters_next (traffic : Traffic ns is (ports s)) (t : Nat) :
    (s (t + 1)).eng.stepLo = (if (is (t + 1)).step then (s t).eng.stepLo + 1
      else (s t).eng.stepLo) ∧
    (s (t + 1)).eng.stepHi = (if (is (t + 1)).step = true ∧ (s t).eng.stepLo = 15
      then (s t).eng.stepHi + 1 else (s t).eng.stepHi) := by
  have live := live_run moves traffic t
  rw [moves]
  change ((s t).nextEng ns float (is (t + 1))).stepLo = _ ∧
    ((s t).nextEng ns float (is (t + 1))).stepHi = _
  simp only [DelayedCore.nextEng, live, hc161, hc161Tc]
  cases (is (t + 1)).step <;> simp

theorem counters_hold (traffic : Traffic ns is (ports s)) (clocked : StepClk ns is edge)
    {k t : Nat} (low : edge k ≤ t) (high : t < edge (k + 1)) :
    (s t).eng.stepLo = (s (edge k)).eng.stepLo ∧ (s t).eng.stepHi = (s (edge k)).eng.stepHi := by
  induction t, low using Nat.le_induction with
  | base => exact ⟨rfl, rfl⟩
  | succ t low ih =>
    obtain ⟨lo, hi⟩ := ih (by omega)
    have next := counters_next moves traffic t
    rw [no_step clocked (k := k) (by omega) high] at next
    simp only [Bool.false_eq_true, ↓reduceIte, false_and] at next
    exact ⟨next.1.trans lo, next.2.trans hi⟩

theorem counters_edge (traffic : Traffic ns is (ports s)) (clocked : StepClk ns is edge)
    (k : Nat) : (s (edge (k + 1))).eng.stepLo = (s (edge k)).eng.stepLo + 1 ∧
    (s (edge (k + 1))).eng.stepHi = (if (s (edge k)).eng.stepLo = 15
      then (s (edge k)).eng.stepHi + 1 else (s (edge k)).eng.stepHi) := by
  have spaced := clocked.spaced k
  have unit := clocked.unit
  obtain ⟨t, eq⟩ : ∃ t, edge (k + 1) = t + 1 := ⟨edge (k + 1) - 1, by omega⟩
  obtain ⟨lo, hi⟩ := counters_hold moves traffic clocked (k := k) (t := t) (by omega) (by omega)
  obtain ⟨nextLo, nextHi⟩ := counters_next moves traffic t
  have rises : (is (t + 1)).step = true := (clocked.rises _).mpr ⟨k, eq⟩
  rw [rises] at nextLo nextHi
  rw [eq, nextLo, nextHi, lo, hi]
  simp only [true_and, if_true, and_self]

theorem stepLo_add (traffic : Traffic ns is (ports s)) (clocked : StepClk ns is edge)
    (k m : Nat) : (s (edge (k + m))).eng.stepLo = (s (edge k)).eng.stepLo + BitVec.ofNat 4 m := by
  induction m with
  | zero => exact (BitVec.add_zero _).symm
  | succ m ih =>
    rw [← Nat.add_assoc, (counters_edge moves traffic clocked (k + m)).1, ih, BitVec.add_assoc]
    exact congrArg _ (BitVec.ofNat_add m 1).symm

/-- Where the counters are in a slot. -/
theorem slot_counters (traffic : Traffic ns is (ports s)) (clocked : StepClk ns is edge)
    (start : (s (edge n)).eng.stepLo = 0) {j : Nat} (hj : j < 16) {t : Nat}
    (low : edge (n + j) ≤ t) (high : t < edge (n + j + 1)) :
    (s t).eng.stepLo = BitVec.ofNat 4 j ∧
      (s t).eng.curChannel = (s (edge n)).eng.curChannel := by
  obtain ⟨lo, hi⟩ := counters_hold moves traffic clocked low high
  have step := stepLo_add moves traffic clocked n
  have upper : (s (edge (n + j))).eng.stepHi = (s (edge n)).eng.stepHi := by
    clear lo hi low high
    induction j with
    | zero => rfl
    | succ j ih =>
      refine ((counters_edge moves traffic clocked (n + j)).2.trans (if_neg ?_)).trans
        (ih (by omega))
      rw [step, start]
      intro full
      have full := congrArg BitVec.toNat full
      rw [BitVec.toNat_add, BitVec.toNat_ofNat] at full
      change (0 + j % 16) % 16 = 15 at full
      omega
  refine ⟨?_, ?_⟩
  · rw [lo, step, start]
    exact BitVec.zero_add _
  · rw [Engine.curChannel, hi, upper]
    rfl

end

end

/-! ## `CS_n` -/

section
variable {ns : Nat} {is : Nat → Instant} {port : Nat → Port}

theorem csN_steady {a b : Nat}
    (same : ∀ u, a ≤ u → u < b → csN port u = csN port (u + 1)) {u : Nat} (low : a ≤ u)
    (high : u ≤ b) : csN port u = csN port a := by
  induction u, low using Nat.le_induction with
  | base => rfl
  | succ u low ih => exact (same u low (by omega)).symm.trans (ih (by omega))

/-- Behind a change of `CS_n` it is steady. -/
theorem csN_after (traffic : Traffic ns is port) {c : Nat}
    (change : csN port c ≠ csN port (c + 1)) {u : Nat} (low : c < u) (high : u ≤ c + 55 * ns + 1) :
    csN port u = csN port (c + 1) := by
  refine csN_steady (b := c + 55 * ns + 1) (fun v from_c to_end => ?_) low high
  by_contra other
  have := traffic.apart c v from_c change other
  omega

/-- Two times that are close and have the same level have it in between. -/
theorem csN_between (traffic : Traffic ns is port) {a b : Nat} (close : b ≤ a + 55 * ns)
    (same : csN port b = csN port a) {u : Nat} (low : a ≤ u) (high : u ≤ b) :
    csN port u = csN port a := by
  by_cases change : ∃ c, a ≤ c ∧ c < u ∧ csN port c ≠ csN port (c + 1)
  · by_contra other
    obtain ⟨c, from_a, to_u, change⟩ := change
    have later : ∀ v, c < v → v ≤ b → csN port v = csN port u := fun v from_c to_b =>
      (csN_after traffic change from_c (by omega)).trans
        (csN_after traffic change to_u (by omega)).symm
    exact other ((later b (by omega) (Nat.le_refl b)).symm.trans same)
  · refine csN_steady (b := u) (fun v from_a to_u => ?_) low (Nat.le_refl u)
    by_contra other
    exact change ⟨v, from_a, to_u, other⟩

/-- Near any time `CS_n` is steady for 15 ns. -/
theorem csN_near (traffic : Traffic ns is port) (a : Nat) : ∃ b, a ≤ b ∧ b ≤ a + 15 * ns ∧
    ∀ u, b ≤ u → u ≤ b + 15 * ns → csN port u = csN port b := by
  by_cases change : ∃ c, a ≤ c ∧ c < a + 15 * ns ∧ csN port c ≠ csN port (c + 1)
  · obtain ⟨c, low, high, change⟩ := change
    exact ⟨c + 1, by omega, by omega, fun u from_c to_end =>
      csN_after traffic change from_c (by omega)⟩
  · refine ⟨a, Nat.le_refl a, by omega, fun u low high =>
      csN_steady (b := a + 15 * ns) (fun v from_a to_b => ?_) low high⟩
    by_contra other
    exact change ⟨v, from_a, to_b, other⟩

/-- If `CS_n` is high 40 and 15 ns before a time, it is high for 55 ns that begin not more than
30 ns before the first of the two. -/
theorem csN_long (traffic : Traffic ns is port) (unit : 0 < ns) {a : Nat}
    (first : csN port (a + 30 * ns) = true) (last : csN port (a + 55 * ns + 1) = true) :
    ∃ b, a ≤ b ∧ b ≤ a + 30 * ns ∧ ∀ u, b ≤ u → u ≤ b + 55 * ns → csN port u = true := by
  have middle (u : Nat) (low : a + 30 * ns ≤ u) (high : u ≤ a + 55 * ns) : csN port u = true :=
    (csN_between traffic (by omega) (last.trans first.symm) low (by omega)).trans first
  by_cases change : ∃ c, a ≤ c ∧ c < a + 30 * ns ∧ csN port c ≠ csN port (c + 1)
  · obtain ⟨c, low, high, change⟩ := change
    refine ⟨c + 1, by omega, by omega, fun u from_c to_end => ?_⟩
    have here := csN_after traffic change (u := u) from_c (by omega)
    have there := csN_after traffic change (u := a + 30 * ns) (by omega) (by omega)
    exact here.trans (there.symm.trans first)
  · refine ⟨a, Nat.le_refl a, by omega, fun u low high => ?_⟩
    by_cases early : u < a + 30 * ns
    · have steady (v : Nat) (from_a : a ≤ v) (to_b : v < a + 30 * ns) :
          csN port v = csN port (v + 1) := by
        by_contra other
        exact change ⟨v, from_a, to_b, other⟩
      have start := csN_steady (b := a + 30 * ns) steady (u := a + 30 * ns) (by omega)
        (Nat.le_refl _)
      exact (csN_steady (b := a + 30 * ns) steady low (by omega)).trans (start.symm.trans first)
    · exact middle u (by omega) high

end

section
variable {ns : Nat} {rom : Rom} {float : Byte} {is : Nat → Instant} {edge : Nat → Nat}
  {s : Nat → DelayedCore} {n : Nat}
  (moves : ∀ t, s (t + 1) = (s t).tick ns rom float (is (t + 1))) (first : (s 0).Settled rom)
  (traffic : Traffic ns is (ports s)) (clocked : StepClk ns is edge)

include moves first traffic clocked

/-! ## The microcode -/

/-- What the microcode ROM shows in the period `k`, which it does 55 ns late. -/
theorem ucode_window {k t : Nat} (low : k = 0 ∨ edge k + 55 * ns ≤ t)
    (high : t < edge (k + 1) + 55 * ns) : (s t).ucode.out = (s (edge k)).eng.ucode := by
  have net (t : Nat) : (s (t + 1)).ucode =
      (s t).ucode.step (55 * ns) (s t).eng.ucode (s (t + 1)).eng.ucode := by
    rw [moves]
    rfl
  have unit := clocked.unit
  refine period_net clocked (by omega) (by omega) (fun t => (s t).ucode)
    (fun t => (s t).eng.ucode) (fun k => (s (edge k)).eng.ucode) net (Net.follows_rest first.ucode)
    (by rw [first.ucode])
    (fun k u from_k to_end => ?_) low high
  obtain ⟨lo, hi⟩ := counters_hold moves traffic clocked from_k to_end
  rw [Engine.ucode, Engine.ucode, Engine.step, Engine.step, Engine.curChannel, Engine.curChannel,
    lo, hi]

/-- The control word. -/
theorem control_window {k t : Nat} (low : k = 0 ∨ edge k + 55 * ns ≤ t)
    (high : t < edge (k + 1) + 55 * ns) :
    let lo := (s (edge k)).eng.stepLo
    (s t).levels.mcWeN = !(lo == 10 || lo == 12) ∧
      (s t).levels.ramOeNMc = !decide (lo.toNat < 10) ∧
      (s t).levels.mcRamSubAddr = subAddr lo := by
  intro lo
  have shows := ucode_window moves first traffic clocked low high
  refine ⟨?_, ?_, ?_⟩
  · rw [← Engine.mcWeN_eq]
    exact congrArg (BitVec.getLsbD · 6) shows
  · rw [← Engine.ramOeNMc_eq]
    exact congrArg (BitVec.getLsbD · 7) shows
  · rw [← Engine.mcRamSubAddr_eq]
    exact congrArg (BitVec.extractLsb' 0 3) shows

variable (start : (s (edge n)).eng.stepLo = 0)

include start

omit first in
/-- The sub-step of a period near the slot. -/
theorem slot_stepLo {j : Nat} (hj : j < 16) :
    (s (edge (n + j))).eng.stepLo = BitVec.ofNat 4 j := by
  have spaced := clocked.spaced (n + j)
  have := clocked.unit
  exact (slot_counters moves traffic clocked start hj (Nat.le_refl _) (by omega)).1

/-- Around the slot the engine's write enable is low in the sub-steps 10 and 12 alone. -/
theorem write_period {t : Nat} (low : edge n < t + 55 * ns) (high : t < edge (n + 16))
    (writes : (s t).levels.mcWeN = false) : ∃ k, (k = n + 10 ∨ k = n + 12) ∧
      edge k + 55 * ns ≤ t ∧ t < edge (k + 1) + 55 * ns := by
  have unit := clocked.unit
  obtain ⟨k, after, before⟩ := period_of clocked (55 * ns) t
  have we := (control_window moves first traffic clocked after before).1
  rw [writes] at we
  have write : (s (edge k)).eng.stepLo = 10 ∨ (s (edge k)).eng.stepLo = 12 := by
    rw [eq_comm, Bool.not_eq_false', Bool.or_eq_true, beq_iff_eq, beq_iff_eq] at we
    exact we
  have from_n : n ≤ k := by
    by_contra early
    have next : n = k + 1 ∨ n = k + 2 := by
      by_contra far
      have := edge_lt clocked (show k + 1 < n - 1 by omega)
      have := edge_lt clocked (show n - 1 < n by omega)
      omega
    have last : (s (edge n)).eng.stepLo = (s (edge k)).eng.stepLo + 1 ∨
        (s (edge n)).eng.stepLo = (s (edge k)).eng.stepLo + 2 := by
      obtain rfl | rfl := next
      · exact .inl (stepLo_add moves traffic clocked k 1)
      · exact .inr (stepLo_add moves traffic clocked k 2)
    rw [start] at last
    revert write last
    generalize (s (edge k)).eng.stepLo = lo
    revert lo
    decide
  have to_n : k < n + 16 := by
    by_contra late
    have := edge_le clocked (show n + 16 ≤ k by omega)
    omega
  obtain ⟨j, rfl⟩ : ∃ j, k = n + j := ⟨k - n, by omega⟩
  have j10 : j = 10 ∨ j = 12 := by
    rw [slot_stepLo moves traffic clocked start (show j < 16 by omega)] at write
    have small : j < 16 := by omega
    obtain write | write := write
    all_goals
      have write := congrArg BitVec.toNat write
      rw [BitVec.toNat_ofNat, Nat.mod_eq_of_lt small] at write
    · exact .inl write
    · exact .inr write
  have far : edge n < edge (n + j) := by
    have := edge_lt clocked (show n < n + j by omega)
    omega
  exact ⟨n + j, by omega, by omega, before⟩

end

/-! ## Stores -/

section
variable {ns : Nat} {rom : Rom} {float : Byte} {is : Nat → Instant} {edge : Nat → Nat}
  {s : Nat → DelayedCore} {n : Nat}

/-- `WE_n` falls between `t` and the tick after it. -/
def weFalls (s : Nat → DelayedCore) (t : Nat) : Bool :=
  (s t).levels.ramWeN && !(s (t + 1)).levels.ramWeN

theorem weFalls_iff {t : Nat} : weFalls s t = true ↔
    (s t).levels.ramWeN = true ∧ (s (t + 1)).levels.ramWeN = false := by
  rw [weFalls, Bool.and_eq_true, Bool.not_eq_true']

theorem falls_bounds (clocked : StepClk ns is edge) {k u : Nat} (own : k = n + 10 ∨ k = n + 12)
    (late : edge k + 55 * ns ≤ u) (soon : u < edge (k + 1) + 55 * ns) :
    edge (n + 10) + 55 * ns ≤ u ∧ u < edge (n + 13) + 55 * ns := by
  obtain rfl | rfl := own
  · have next := edge_lt clocked (show n + 11 < n + 13 by omega)
    have soon : u < edge (n + 11) + 55 * ns := soon
    exact ⟨late, by omega⟩
  · have before := edge_lt clocked (show n + 10 < n + 12 by omega)
    exact ⟨by omega, soon⟩

theorem falls_late (clocked : StepClk ns is edge) {port : Nat → Port} {u : Nat}
    (falls : Falls ns port edge (n + 10) u ∨ Falls ns port edge (n + 12) u) :
    edge (n + 10) + 55 * ns ≤ u := by
  obtain ⟨late, soon, -⟩ | ⟨late, soon, -⟩ := falls
  · exact (falls_bounds clocked (.inl rfl) late soon).1
  · exact (falls_bounds clocked (.inr rfl) late soon).1

section
variable (moves : ∀ t, s (t + 1) = (s t).tick ns rom float (is (t + 1))) (first : (s 0).Settled rom)
  (traffic : Traffic ns is (ports s)) (clocked : StepClk ns is edge)
  (start : (s (edge n)).eng.stepLo = 0)

include moves

theorem ramWait_next (t : Nat) : (s (t + 1)).ramWait =
    timer (55 * ns) (s t).ramWait (weFalls s (t + 1 - 1)) := by
  rw [weFalls, Nat.add_sub_cancel, moves]
  rfl

theorem mem_next (t : Nat) : (s (t + 1)).eng.mem = if (s t).ramWait = 1 then
    Function.update (s t).eng.mem (0#7 ++ (s t).levels.ramAddr) (s t).levels.ramDi
    else (s t).eng.mem := by
  rw [moves]
  rfl

include first traffic clocked start

/-- `WE_n` falls for the engine in the sub-steps 10 and 12 alone. -/
theorem fall_engine {t : Nat} (falls : weFalls s t = true)
    (select : (s (t + 1)).port.bus.pins.csN = true) (low : edge n < t + 1 + 55 * ns)
    (high : t + 1 < edge (n + 16)) : ∃ k, (k = n + 10 ∨ k = n + 12) ∧
      Falls ns (ports s) edge k (t + 1) := by
  obtain ⟨before, after⟩ := weFalls_iff.mp falls
  rw [Levels.ramWeN_engine (l := (s (t + 1)).levels) select] at after
  obtain ⟨k, own, late, soon⟩ :=
    write_period moves first traffic clocked start low high after
  refine ⟨k, own, late, soon, select, ?_⟩
  cases old : (s t).port.bus.pins.csN with
  | false =>
    rw [Levels.ramWeN_host (l := (s t).levels) old] at before
    exact (if_neg (Bool.eq_false_iff.mp old)).mpr before
  | true =>
    rw [Levels.ramWeN_engine (l := (s t).levels) old] at before
    refine (if_pos (by exact old)).mpr ?_
    by_contra inside
    have here := (control_window moves first traffic clocked (k := k) (t := t) (.inr (by omega))
      (by omega)).1
    have there := (control_window moves first traffic clocked (k := k) (.inr late) soon).1
    rw [before] at here
    rw [after, ← here] at there
    cases there

omit moves first clocked start in
theorem fall_host {t : Nat} (falls : weFalls s t = true)
    (select : (s (t + 1)).port.bus.pins.csN = false) :
    (∀ u, t < u → u ≤ t + 1 + 55 * ns → (s u).port.bus.pins.csN = false) ∧
      ∀ u, t + 55 * ns ≤ u → u ≤ t + 1 + 55 * ns → ParamByte (s u).port.bus.regAddr := by
  obtain ⟨before, after⟩ := weFalls_iff.mp falls
  rw [Levels.ramWeN_host (l := (s (t + 1)).levels) select] at after
  refine traffic.held t select after ?_
  cases old : (s t).port.bus.pins.csN with
  | true => exact .inl old
  | false =>
    rw [Levels.ramWeN_host (l := (s t).levels) old] at before
    exact .inr before

theorem falls_fall {k t : Nat} (own : k = n + 10 ∨ k = n + 12)
    (falls : Falls ns (ports s) edge k (t + 1)) : weFalls s t = true := by
  obtain ⟨late, soon, select, before⟩ := falls
  have unit := clocked.unit
  have ten := slot_stepLo moves traffic clocked start (show 10 < 16 by decide)
  have twelve := slot_stepLo moves traffic clocked start (show 12 < 16 by decide)
  have nine := slot_stepLo moves traffic clocked start (show 9 < 16 by decide)
  have eleven := slot_stepLo moves traffic clocked start (show 11 < 16 by decide)
  have spaced9 : edge (n + 9) + 70 * ns ≤ edge (n + 10) := clocked.spaced (n + 9)
  have spaced11 : edge (n + 11) + 70 * ns ≤ edge (n + 12) := clocked.spaced (n + 11)
  have there := (control_window moves first traffic clocked (k := k) (.inr late) soon).1
  rw [weFalls_iff, Levels.ramWeN_engine (l := (s (t + 1)).levels) select, there]
  cases old : (s t).port.bus.pins.csN with
  | false =>
    rw [Levels.ramWeN_host (l := (s t).levels) old]
    refine ⟨(if_neg (Bool.eq_false_iff.mp old)).mp before, ?_⟩
    obtain rfl | rfl := own
    · rw [ten]
      rfl
    · rw [twelve]
      rfl
  | true =>
    have now : t + 1 = edge k + 55 * ns := (if_pos (by exact old)).mp before
    rw [Levels.ramWeN_engine (l := (s t).levels) old]
    obtain rfl | rfl := own
    · have here := (control_window moves first traffic clocked (k := n + 9) (t := t)
        (.inr (by omega)) (show t < edge (n + 10) + 55 * ns by omega)).1
      rw [here, nine, ten]
      exact ⟨rfl, rfl⟩
    · have here := (control_window moves first traffic clocked (k := n + 11) (t := t)
        (.inr (by omega)) (show t < edge (n + 12) + 55 * ns by omega)).1
      rw [here, eleven, twelve]
      exact ⟨rfl, rfl⟩

/-- A store in a slot is one of the host, to a step or a volume byte, or one of the two of the
engine. -/
theorem store_cases {t : Nat} (low : edge n ≤ t) (high : t < edge (n + 16))
    (due : (s t).ramWait = 1) :
    ((∀ u, u ≤ t → t < u + 55 * ns → (s u).port.bus.pins.csN = false) ∧
      ParamByte (s t).port.bus.regAddr) ∨
    ∃ u, t + 1 = u + 55 * ns ∧ (Falls ns (ports s) edge (n + 10) u ∨
      Falls ns (ports s) edge (n + 12) u) := by
  have unit := clocked.unit
  obtain ⟨b, -, calls, -, sum⟩ := timer_origin (fun t => (s t).ramWait)
    (fun t => weFalls s (t - 1)) (ramWait_next moves) first.ramWait (t := t) (by omega)
  have eq : t = b + 55 * ns := by omega
  change weFalls s b = true at calls
  cases select : (s (b + 1)).port.bus.pins.csN with
  | false =>
    obtain ⟨holds, param⟩ := fall_host traffic calls select
    exact .inl ⟨fun u le lt => holds u (by omega) (by omega), param t (by omega) (by omega)⟩
  | true =>
    obtain ⟨k, own, falls⟩ := fall_engine moves first traffic clocked start calls select
      (by omega) (by omega)
    refine .inr ⟨b + 1, by omega, ?_⟩
    obtain rfl | rfl := own
    · exact .inl falls
    · exact .inr falls

variable (uncut : ∀ t, Falls ns (ports s) edge (n + 10) t ∨
  Falls ns (ports s) edge (n + 12) t →
    Uncut ns (ports s) t ∧ t ≠ edge (n + 13))

include uncut

/-- A fall of `WE_n` for the engine finds the RAM free. -/
theorem falls_store {u t : Nat} (falls : Falls ns (ports s) edge (n + 10) u ∨
    Falls ns (ports s) edge (n + 12) u) (late : t + 1 = u + 55 * ns) :
    (s t).ramWait = 1 := by
  have unit := clocked.unit
  obtain ⟨k, own, falls⟩ : ∃ k, (k = n + 10 ∨ k = n + 12) ∧
      Falls ns (ports s) edge k u := by
    obtain falls | falls := falls
    · exact ⟨_, .inl rfl, falls⟩
    · exact ⟨_, .inr rfl, falls⟩
  have before := edge_lt clocked (show n < n + 10 by omega)
  have between := edge_lt clocked (show n + 11 < n + 12 by omega)
  have after := edge_lt clocked (show n + 13 < n + 16 by omega)
  obtain ⟨a, rfl⟩ : ∃ a, u = a + 1 := by
    have := falls.1
    exact ⟨u - 1, by omega⟩
  have calls := falls_fall moves first traffic clocked start own falls
  obtain ⟨from_k, soon, select, level⟩ := falls
  have bounds := falls_bounds clocked own from_k soon
  have free : (s a).ramWait ≤ 1 := by
    by_contra busy
    obtain ⟨b, less, called, -, sum⟩ := timer_origin (fun t => (s t).ramWait)
      (fun t => weFalls s (t - 1)) (ramWait_next moves) first.ramWait (t := a) (by omega)
    change weFalls s b = true at called
    cases other : (s (b + 1)).port.bus.pins.csN with
    | false =>
      have holds := (fall_host traffic called other).1 (a + 1) (by omega) (by omega)
      cases select.symm.trans holds
    | true =>
      obtain ⟨k', own', falls'⟩ := fall_engine moves first traffic clocked start called other
        (by omega) (by omega)
      have high : csN (ports s) a = true := by
        refine (uncut (b + 1) ?_).1 a (by omega) (by omega)
        obtain rfl | rfl := own'
        · exact .inl falls'
        · exact .inr falls'
      have now : a + 1 = edge k + 55 * ns := (if_pos (by exact high)).mp level
      obtain ⟨late', soon', -, -⟩ := falls'
      have bounds' := falls_bounds clocked own' late' soon'
      obtain rfl | rfl := own
      · obtain rfl | rfl := own' <;> omega
      · obtain rfl | rfl := own'
        · have soon' : b + 1 < edge (n + 11) + 55 * ns := soon'
          omega
        · omega
  have due := timer_started (fun t => (s t).ramWait) (fun t => weFalls s (t - 1))
    (ramWait_next moves) free calls (55 * ns - 1) (by omega)
  rw [show a + 1 + (55 * ns - 1) = t by omega] at due
  omega

end

end

end Chiptune.Wt3
