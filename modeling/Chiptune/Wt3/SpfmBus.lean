import Mathlib.Logic.Function.Iterate
import Chiptune.Trace
import Chiptune.Wt3.Core

/-!
# Strobes on the SPFM bus of wt3

The 373 and the 174 of `rtl/wt3_spfm_bus.v` have no delays, and here the address register
has none either: it takes its byte at the edge that enables it, and a store is ordered when
`WE_n` falls. An address strobe goes through three stages and holds the address register open
for as long as it was; a data strobe goes through two. `strobe_law` says what a strobe orders
and what it leaves, whatever its length.
-/

namespace Chiptune.Wt3

/-- `WE_n` falls with the event. -/
def Bus.falls (b : Bus) (h : HostEvent) : Bool :=
  b.dataWrPulseN && !(b.host h).dataWrPulseN

/-! ## Transactions -/

def HostEvent.isClock : HostEvent → Bool
  | .clock => true
  | .drive _ => false

/-- `CS_n` or `WR_n` is high after the event. -/
def HostEvent.Inactive : HostEvent → Prop
  | .clock => True
  | .drive p => p.le = false ∧ p.rstN = true

/-- An event and when it is, in picoseconds. -/
structure Timed where
  time : Nat
  event : HostEvent

/-- A strobe with its levels on `A0` and `D` from `start` on, the clock edges in it, and what
the host does from its end to the next. -/
structure Strobe where
  a0 : Bool
  d : Byte
  start : Nat
  edges : List Nat
  stop : Nat
  release : Pins
  gap : List Timed
  two_edges : 2 ≤ edges.length
  released : release.le = false ∧ release.rstN = true
  inactive : ∀ e ∈ gap, e.event.Inactive

namespace Strobe
variable (s : Strobe)

/-- `CS_n` and `WR_n` low. -/
def pins : Pins := ⟨s.d, s.a0, false, false, true⟩

/-- What comes after its beginning. -/
def rest : List Timed :=
  s.edges.map (⟨·, .clock⟩) ++ ⟨s.stop, .drive s.release⟩ :: s.gap

def events : List Timed := ⟨s.start, .drive s.pins⟩ :: s.rest

/-- The clock edge at which a data strobe reaches `WE_n`. -/
def second : Nat := s.edges.getD 1 0

/-- The clock edges in the gap. -/
def clocks : List Nat := (s.gap.filter (·.event.isClock)).map Timed.time

/-- The last clock edge at which an address strobe enables the address register. -/
def third : Nat := s.clocks.getD 2 0

/-- The write of a strobe, if it is a data strobe. -/
def writes (addr : Byte) : List (Byte × Byte) := if s.a0 then [(addr, s.d)] else []

end Strobe

/-- There are three clocks between a strobe and the next. -/
def Spaced (strobes : List Strobe) : Prop := ∀ s ∈ strobes.dropLast, 3 ≤ s.clocks.length

/-- The data writes of the strobes, each with the address that was written last. -/
def dataWrites (addr : Byte) : List Strobe → List (Byte × Byte)
  | [] => []
  | s :: rest => if s.a0 then (addr, s.d) :: dataWrites addr rest else dataWrites s.d rest

theorem dataWrites_cons (addr : Byte) (s : Strobe) (rest : List Strobe) :
    dataWrites addr (s :: rest) =
      s.writes addr ++ dataWrites (if s.a0 then addr else s.d) rest := by
  rw [dataWrites, Strobe.writes]
  cases s.a0 <;> rfl

/-- No strobe is on, and none is in the synchroniser. -/
structure Bus.Quiet (b : Bus) : Prop where
  le : b.pins.le = false
  rstN : b.pins.rstN = true
  addrQ1 : b.addrQ1 = false
  addrQ2 : b.addrQ2 = false
  addrQ3 : b.addrQ3 = false
  dataQ1 : b.dataQ1 = false
  dataQ2 : b.dataQ2 = false

/-! ## Stores -/

/-- What the RAM is told to store with an event. -/
def Bus.stored (b : Bus) (h : HostEvent) : List (Byte × Byte) :=
  if b.falls h then [((b.host h).regAddr, (b.host h).dLatch)] else []

def Bus.stores (b : Bus) (hs : List HostEvent) : List (Byte × Byte) :=
  Trace.outputs Bus.host Bus.stored b hs

section
variable {b : Bus}

theorem hosts_append (front back : List HostEvent) :
    b.hosts (front ++ back) = (b.hosts front).hosts back := List.foldl_append

theorem stores_append (front back : List HostEvent) :
    b.stores (front ++ back) = b.stores front ++ (b.hosts front).stores back :=
  Trace.outputs_append b front back

theorem stores_cons (h : HostEvent) (rest : List HostEvent) :
    b.stores (h :: rest) = b.stored h ++ (b.host h).stores rest := rfl

theorem stored_none {h : HostEvent} (still : b.falls h = false) : b.stored h = [] := by
  rw [Bus.stored, still]
  rfl

/-! ## Clocks without a strobe -/

def Bus.drain (b : Bus) : Bus :=
  { b with
    addrQ1 := false
    addrQ2 := b.addrQ1
    addrQ3 := b.addrQ2
    dataQ1 := false
    dataQ2 := b.dataQ1
    regAddr := if b.addrQ3 then b.dLatch else b.regAddr }

theorem clock_drain (le : b.pins.le = false) (rstN : b.pins.rstN = true) : b.clock = b.drain := by
  have active : b.pins.writeActive = false := by
    rw [Pins.writeActive, rstN, Bool.and_true, ← Bool.not_or]
    exact le
  simp [Bus.clock, Bus.drain, Pins.addrWrComb, Pins.dataWrComb, active, rstN]

theorem drain_pins (p : Pins) (n : Nat) :
    Bus.drain^[n] { b with pins := p } = { Bus.drain^[n] b with pins := p } := by
  induction n generalizing b with
  | zero => rfl
  | succ n ih => exact @ih b.drain

/-- Three clocks empty the synchroniser, and an address that was in it is in the register. -/
theorem drained (n : Nat) (three : 3 ≤ n) : Bus.drain^[n] b =
    { b with
      addrQ1 := false
      addrQ2 := false
      addrQ3 := false
      dataQ1 := false
      dataQ2 := false
      regAddr := if b.addrQ1 || b.addrQ2 || b.addrQ3 then b.dLatch else b.regAddr } := by
  induction n, three using Nat.le_induction with
  | base =>
    simp only [Function.iterate_succ_apply, Function.iterate_zero_apply, Bus.drain]
    cases b.addrQ1 <;> cases b.addrQ2 <;> cases b.addrQ3 <;> rfl
  | succ n three ih =>
    rw [Function.iterate_succ_apply', ih]
    rfl

theorem drive_falls {p : Pins} (rstN : b.pins.rstN = true) (on : p.rstN = true) :
    b.falls (.drive p) = false := by
  have kept : (b.host (.drive p)).dataWrPulseN = b.dataWrPulseN := by
    simp [Bus.host, Bus.drive, Bus.dataWrPulseN, rstN, on]
  rw [Bus.falls, kept]
  exact Bool.and_not_self _

theorem drive_inactive {p : Pins} (rstN : b.pins.rstN = true) (le : p.le = false)
    (on : p.rstN = true) : b.host (.drive p) = { b with pins := p } := by
  simp [Bus.host, Bus.drive, rstN, le, on]

theorem drain_falls (tail : b.dataQ1 = true → b.dataQ2 = true) (le : b.pins.le = false)
    (rstN : b.pins.rstN = true) : b.falls .clock = false := by
  rw [Bus.falls, Bus.host, clock_drain le rstN, Bus.drain, Bus.dataWrPulseN, Bus.dataWrPulseN]
  cases q1 : b.dataQ1
  · simp
  · simp [tail q1]

/-- Between the strobes only the clocks count. -/
theorem gap_law (hs : List HostEvent) (inactive : ∀ h ∈ hs, h.Inactive)
    (le : b.pins.le = false) (rstN : b.pins.rstN = true)
    (tail : b.dataQ1 = true → b.dataQ2 = true) :
    b.stores hs = [] ∧ ∃ p : Pins, p.le = false ∧ p.rstN = true ∧
      b.hosts hs = { Bus.drain^[hs.countP HostEvent.isClock] b with pins := p } := by
  induction hs generalizing b with
  | nil => exact ⟨rfl, b.pins, le, rstN, rfl⟩
  | cons h rest ih =>
    have others : ∀ k ∈ rest, k.Inactive := fun k mem => inactive k (List.mem_cons_of_mem h mem)
    cases h with
    | clock =>
      have first : b.host .clock = b.drain := clock_drain le rstN
      obtain ⟨none, p, low, on, run⟩ := @ih b.drain others le rstN (fun h => nomatch h)
      rw [stores_cons, stored_none (drain_falls tail le rstN), first, none]
      refine ⟨rfl, p, low, on, ?_⟩
      rw [List.countP_cons_of_pos rfl, Function.iterate_succ_apply, ← run, Bus.hosts,
        List.foldl_cons, first]
      rfl
    | drive q =>
      obtain ⟨qle, qon⟩ := inactive (.drive q) List.mem_cons_self
      have first := drive_inactive rstN qle qon
      obtain ⟨none, p, low, on, run⟩ := @ih { b with pins := q } others qle qon tail
      rw [stores_cons, stored_none (drive_falls rstN qon), first, none]
      refine ⟨rfl, p, low, on, ?_⟩
      rw [List.countP_cons_of_neg Bool.false_ne_true, Bus.hosts, List.foldl_cons, first]
      exact run.trans (by rw [drain_pins])

/-! ## A strobe -/

/-- The pins of a strobe have been on for two clocks or more. -/
structure Bus.Strobed (b c : Bus) (s : Strobe) : Prop where
  pins : c.pins = s.pins
  dLatch : c.dLatch = s.d
  addrQ1 : c.addrQ1 = !s.a0
  addrQ2 : c.addrQ2 = !s.a0
  addrQ3 : s.a0 = true → c.addrQ3 = false
  dataQ1 : c.dataQ1 = s.a0
  dataQ2 : c.dataQ2 = s.a0
  regAddr : s.a0 = true → c.regAddr = b.regAddr

variable {s : Strobe}

theorem strobed_clock {c : Bus} (on : b.Strobed c s) : b.Strobed c.clock s := by
  obtain ⟨pins, dLatch, a1, a2, a3, d1, d2, reg⟩ := on
  refine ⟨pins, dLatch, ?_, ?_, ?_, ?_, ?_, ?_⟩
  · simp [Bus.clock, pins, Strobe.pins, Pins.addrWrComb, Pins.writeActive]
  · simp [Bus.clock, pins, Strobe.pins, a1]
  · intro data
    simp [Bus.clock, a2, data]
  · simp [Bus.clock, pins, Strobe.pins, Pins.dataWrComb, Pins.writeActive]
  · simp [Bus.clock, pins, Strobe.pins, d1]
  · intro data
    simp [Bus.clock, a3 data, reg data]

theorem strobed_falls {c : Bus} (on : b.Strobed c s) : c.falls .clock = false := by
  have same : (c.host .clock).dataWrPulseN = c.dataWrPulseN := by
    rw [Bus.dataWrPulseN, Bus.dataWrPulseN, on.dataQ2]
    exact congrArg _ (strobed_clock on).dataQ2
  rw [Bus.falls, same]
  exact Bool.and_not_self _

theorem strobed_clocks {c : Bus} (on : b.Strobed c s) (n : Nat) :
    b.Strobed (c.hosts (List.replicate n .clock)) s ∧ c.stores (List.replicate n .clock) = [] := by
  induction n generalizing c with
  | zero => exact ⟨on, rfl⟩
  | succ n ih =>
    obtain ⟨later, none⟩ := ih (strobed_clock on)
    rw [List.replicate_succ, stores_cons, stored_none (strobed_falls on)]
    exact ⟨later, none⟩

/-- Its beginning and its first two clocks. -/
theorem strobe_low (quiet : b.Quiet) (s : Strobe) :
    b.Strobed (b.hosts [.drive s.pins, .clock, .clock]) s ∧
      b.stores [.drive s.pins, .clock, .clock] = s.writes b.regAddr := by
  -- The levels after the strobe's beginning and after its first clock.
  let c : Bus := { b with pins := s.pins, dLatch := s.d }
  let d : Bus := { c with addrQ1 := !s.a0, dataQ1 := s.a0 }
  have first : b.host (.drive s.pins) = c := by
    simp [Bus.host, Bus.drive, quiet.rstN, Strobe.pins, Pins.le, c]
  have second : c.host .clock = d := by
    simp [Bus.host, Bus.clock, c, d, Strobe.pins, Pins.addrWrComb, Pins.dataWrComb,
      Pins.writeActive, quiet.addrQ1, quiet.addrQ2, quiet.addrQ3, quiet.dataQ1, quiet.dataQ2]
  have third : d.host .clock = { d with addrQ2 := !s.a0, dataQ2 := s.a0 } := by
    simp [Bus.host, Bus.clock, c, d, Strobe.pins, Pins.addrWrComb, Pins.dataWrComb,
      Pins.writeActive, quiet.addrQ2, quiet.addrQ3]
  have quiet1 : b.falls (.drive s.pins) = false := drive_falls quiet.rstN rfl
  have quiet2 : c.falls .clock = false := by
    rw [Bus.falls, second]
    exact Bool.and_not_self _
  have stores : d.falls .clock = s.a0 := by
    rw [Bus.falls, third]
    simp [Bus.dataWrPulseN, c, d, quiet.dataQ2]
  constructor
  · simp only [Bus.hosts, List.foldl_cons, List.foldl_nil, first, second, third]
    exact ⟨rfl, rfl, rfl, rfl, fun _ => quiet.addrQ3, rfl, rfl, fun _ => rfl⟩
  · rw [stores_cons, stored_none quiet1, first, stores_cons, stored_none quiet2, second,
      stores_cons, Bus.stored, stores, third, Strobe.writes]
    cases s.a0 <;> rfl

/-- The rest of a strobe, from its third clock to some point behind it. -/
theorem strobe_high {c : Bus} (on : b.Strobed c s) (n : Nat) {gap : List HostEvent}
    (inactive : ∀ h ∈ gap, h.Inactive) :
    let es := List.replicate n .clock ++ .drive s.release :: gap
    c.stores es = [] ∧ (3 ≤ gap.countP HostEvent.isClock → (c.hosts es).Quiet ∧
      (c.hosts es).regAddr = if s.a0 then b.regAddr else s.d) := by
  intro es
  obtain ⟨low, silent⟩ := strobed_clocks on n
  generalize hd : c.hosts (List.replicate n .clock) = d at low
  have live : d.pins.rstN = true := by
    rw [low.pins]
    rfl
  have off := drive_inactive live s.released.1 s.released.2
  have still : d.falls (.drive s.release) = false := drive_falls live s.released.2
  obtain ⟨none, p, le, rstN, run⟩ := @gap_law { d with pins := s.release } gap inactive
    s.released.1 s.released.2 (by intro h; exact low.dataQ2.trans (low.dataQ1.symm.trans h))
  have all : c.hosts es = Bus.hosts { d with pins := s.release } gap := by
    rw [hosts_append, hd, Bus.hosts, List.foldl_cons, off]
    rfl
  constructor
  · rw [stores_append, silent, hd, stores_cons, stored_none still, off, none]
    rfl
  · intro three
    rw [all, run, drained _ three]
    refine ⟨⟨le, rstN, rfl, rfl, rfl, rfl, rfl⟩, ?_⟩
    simp only [low.addrQ1, low.dLatch]
    cases data : s.a0 with
    | true => simp [low.addrQ2, low.addrQ3 data, low.regAddr data, data]
    | false => simp

/-- **A strobe orders its write with its second clock, and nothing else.** With three clocks
behind it the bus is quiet again, and the address is in the register. -/
theorem strobe_law (quiet : b.Quiet) (s : Strobe) (n : Nat) {gap : List HostEvent}
    (inactive : ∀ h ∈ gap, h.Inactive) :
    let low : List HostEvent := [.drive s.pins, .clock, .clock]
    let high := List.replicate n .clock ++ .drive s.release :: gap
    b.stores low = s.writes b.regAddr ∧ (b.hosts low).stores high = [] ∧
      (3 ≤ gap.countP HostEvent.isClock → (b.hosts (low ++ high)).Quiet ∧
        (b.hosts (low ++ high)).regAddr = if s.a0 then b.regAddr else s.d) := by
  intro low high
  obtain ⟨on, wrote⟩ := strobe_low quiet s
  obtain ⟨none, after⟩ := strobe_high on n inactive
  rw [hosts_append]
  exact ⟨wrote, none, after⟩

end

end Chiptune.Wt3
