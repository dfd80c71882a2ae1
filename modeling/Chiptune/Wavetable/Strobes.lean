import Chiptune.Synchroniser
import Chiptune.Trace
import Chiptune.Wavetable.Ram

/-!
# Host strobes on wt_ram

A strobe is sampled by the synchroniser of its type, and the edge detector behind it
fires four clocks later, when the pins may already be idle again. `strobes_delivered`
says that each strobe fires once with its own byte, and that the host registers are
those of a register file that the strobes act on one after the other.
-/

namespace Chiptune.Wavetable

/-! ## Events -/

/-- New levels on the pins, or an edge of the clock. -/
inductive Event where
  | level (p : Pins)
  | rise
  | fall

def Event.isRise : Event → Bool
  | .rise => true
  | _ => false

def Event.isLevel : Event → Bool
  | .level _ => true
  | _ => false

/-- The chip and the levels on its pins. -/
structure Driven where
  pins : Pins
  chip : Chip

section
variable (board : Board)

def Driven.event (s : Driven) : Event → Driven
  | .level p => ⟨p, s.chip.settle board p⟩
  | .rise => ⟨s.pins, (s.chip.posedge board s.pins).settle board s.pins⟩
  | .fall => ⟨s.pins, s.chip.negedge⟩

def Driven.events (s : Driven) (es : List Event) : Driven := es.foldl (Driven.event board) s

def Cycle.events (i : Cycle) : List Event :=
  i.low.map .level ++ .level i.edge :: .rise :: i.high.map .level ++ [.fall]

theorem Driven.levels (s : Driven) (ps : List Pins) :
    (s.events board (ps.map .level)).chip = s.chip.settleAll board ps := by
  induction ps generalizing s with
  | nil => rfl
  | cons p rest ih => exact ih (s.event board (.level p))

/-- A cycle of the chip is its events one after the other. -/
theorem Driven.cycle_events (s : Driven) (i : Cycle) :
    (s.events board i.events).chip = s.chip.cycle board i := by
  have low := s.levels board i.low
  simp only [Cycle.events, Driven.events, List.foldl_append, List.foldl_cons, List.foldl_nil]
  change Chip.negedge _ = Chip.negedge _
  exact congrArg Chip.negedge ((Driven.levels board _ i.high).trans (by
    simp only [Driven.event, ← low]
    rfl))

end

/-! ## The register file -/

/-- The host registers of `wt_ram`; the two halves of a step are written apart. -/
inductive Reg where
  | hostCh
  | waveIdx (ch : BitVec 2)
  | vol (ch : BitVec 2)
  | envRate (ch : BitVec 2)
  | stepLo (ch : BitVec 2)
  | stepHi (ch : BitVec 2)
  deriving DecidableEq

/-- The bits of a byte that the register has. -/
def Reg.fit : Reg → Byte → Byte
  | hostCh, d => (d.setWidth 2).setWidth 8
  | waveIdx _, d => (d.setWidth 3).setWidth 8
  | vol _, d => (d.setWidth 5).setWidth 8
  | _, d => d

/-- The register that an address names, with a channel selected. -/
def Reg.named (addr : Byte) (ch : BitVec 2) : Option Reg :=
  match addr.toNat with
  | 0x00 => some .hostCh
  | 0x01 => some (.waveIdx ch)
  | 0x02 => some (.vol ch)
  | 0x03 => some (.envRate ch)
  | 0x04 => some (.stepLo ch)
  | 0x05 => some (.stepHi ch)
  | _ => none

@[ext] structure File where
  addr : Byte
  reg : Reg → Byte

/-- A write of `d`, to the address register or to the register that it names. -/
def File.strobe (f : File) (a0 : Bool) (d : Byte) : File :=
  if a0 then
    match Reg.named f.addr ((f.reg .hostCh).setWidth 2) with
    | some r => { f with reg := Function.update f.reg r (r.fit d) }
    | none => f
  else { f with addr := d }

def Host.file (h : Host) : File where
  addr := h.regAddr
  reg
    | .hostCh => h.hostCh.setWidth 8
    | .waveIdx ch => (h.waveIdx ch).setWidth 8
    | .vol ch => (h.vol ch).setWidth 8
    | .envRate ch => h.envRate ch
    | .stepLo ch => (h.step ch).setWidth 8
    | .stepHi ch => (h.step ch).extractLsb' 8 8

theorem Host.file_hostCh (h : Host) : (h.file.reg .hostCh).setWidth 2 = h.hostCh := by
  change (h.hostCh.setWidth 8).setWidth 2 = h.hostCh
  simp

theorem Host.write_addr (h : Host) (d : Byte) : (h.write d).regAddr = h.regAddr := by
  unfold Host.write
  simp only
  split <;> rfl

/-- `h'` is `h` with `d` in the register `r`. -/
structure Host.Sets (h h' : Host) (r : Reg) (d : Byte) : Prop where
  addr : h'.regAddr = h.regAddr
  here : h'.file.reg r = r.fit d
  others : ∀ q, q ≠ r → h'.file.reg q = h.file.reg q

theorem Host.Sets.file {h h' : Host} {r : Reg} {d : Byte} (sets : h.Sets h' r d) :
    h'.file = { h.file with reg := Function.update h.file.reg r (r.fit d) } := by
  apply File.ext
  · exact sets.addr
  · funext q
    by_cases same : q = r
    · subst same
      exact sets.here.trans (Function.update_self q (q.fit d) h.file.reg).symm
    · exact (sets.others q same).trans (Function.update_of_ne same (r.fit d) h.file.reg).symm

/-- The code's register decode writes the named register. -/
theorem Host.write_sets (h : Host) (d : Byte) :
    match Reg.named h.regAddr h.hostCh with
    | some r => h.Sets (h.write d) r d
    | none => h.write d = h := by
  have update : ∀ {n : Nat} (f : BitVec 2 → BitVec n) (x : BitVec n) {ch : BitVec 2},
      ch ≠ h.hostCh → Function.update f h.hostCh x ch = f ch :=
    fun f x _ other => Function.update_of_ne other x f
  rcases n : h.regAddr.toNat with _ | _ | _ | _ | _ | _ | n <;> simp only [Host.write, Reg.named, n]
  case zero =>
    refine ⟨rfl, rfl, ?_⟩
    intro q other
    cases q <;> first | rfl | exact absurd rfl other
  case succ.zero =>
    refine ⟨rfl, by simp [file, Reg.fit], ?_⟩
    intro q other
    cases q with
    | waveIdx ch => simp only [file, update h.waveIdx _ fun same => other (congrArg _ same)]
    | _ => rfl
  case succ.succ.zero =>
    refine ⟨rfl, by simp [file, Reg.fit], ?_⟩
    intro q other
    cases q with
    | vol ch => simp only [file, update h.vol _ fun same => other (congrArg _ same)]
    | _ => rfl
  case succ.succ.succ.zero =>
    refine ⟨rfl, by simp [file, Reg.fit], ?_⟩
    intro q other
    cases q with
    | envRate ch => simp only [file, update h.envRate _ fun same => other (congrArg _ same)]
    | _ => rfl
  case succ.succ.succ.succ.zero =>
    refine ⟨rfl, by simp [file, Reg.fit, append_low], ?_⟩
    intro q other
    cases q with
    | stepLo ch => simp only [file, update h.step _ fun same => other (congrArg _ same)]
    | stepHi ch =>
      by_cases same : ch = h.hostCh
      · simp [file, same, append_high]
      · simp only [file, update h.step _ same]
    | _ => rfl
  case succ.succ.succ.succ.succ.zero =>
    refine ⟨rfl, by simp [file, Reg.fit, append_high], ?_⟩
    intro q other
    cases q with
    | stepHi ch => simp only [file, update h.step _ fun same => other (congrArg _ same)]
    | stepLo ch =>
      by_cases same : ch = h.hostCh
      · simp [file, same, append_low]
      · simp only [file, update h.step _ same]
    | _ => rfl

theorem Host.write_file (h : Host) (d : Byte) : (h.write d).file = h.file.strobe true d := by
  have sets := h.write_sets d
  have addr : h.file.addr = h.regAddr := rfl
  rw [File.strobe, if_pos rfl, Host.file_hostCh, addr]
  cases named : Reg.named h.regAddr h.hostCh with
  | none =>
    rw [named] at sets
    exact congrArg Host.file sets
  | some r =>
    rw [named] at sets
    exact sets.file

/-! ## Strobes -/

/-- `cs_n` and `wr_n` low. -/
def Pins.strobe (p : Pins) : Bool := !p.csN && !p.wrN

/-- Edges of the clock, and levels that are no strobe. -/
def Event.Inactive : Event → Prop
  | .level p => p.strobe = false ∧ p.rstN = true
  | _ => True

/-- A strobe with its levels on `a0` and `d`, over the clocks of `held`, and what the host
does from its end to the next. -/
structure Strobe where
  a0 : Bool
  d : Byte
  held : List Event
  release : Pins
  gap : List Event
  steady : ∀ e ∈ held, e.isLevel = false
  three_clocks : 3 ≤ held.countP Event.isRise
  released : release.strobe = false ∧ release.rstN = true
  inactive : ∀ e ∈ gap, e.Inactive
  two_clocks : 2 ≤ gap.countP Event.isRise

def Strobe.pins (s : Strobe) : Pins where
  d := some s.d
  csN := false
  a0 := s.a0
  wrN := false
  rdN := true
  rstN := true

/-- The events after the beginning of the strobe. -/
def Strobe.later (s : Strobe) : List Event := s.held ++ .level s.release :: s.gap

def Strobe.events (s : Strobe) : List Event := .level s.pins :: s.later

/-- The writes that a rising clock takes from the synchroniser, with `a0`. -/
def BusSync.fires (b : BusSync) : List (Bool × Byte) :=
  (if b.dataReqPulse then [(true, b.dLatch)] else []) ++
    if b.addrReqPulse then [(false, b.dLatch)] else []

section
variable (board : Board)

/-- The writes that the clocks among the events take. -/
def Driven.delivered (s : Driven) : List Event → List (Bool × Byte)
  | [] => []
  | e :: rest => (if e.isRise then s.chip.bus.fires else []) ++ (s.event board e).delivered rest

/-- The request of one type, and the chain that samples it. -/
def Pins.req (p : Pins) (a0 : Bool) : Bool := if a0 then p.dataReqAsync else p.addrReqAsync

def BusSync.chain (b : BusSync) (a0 : Bool) : Synchroniser.Detector :=
  if a0 then ⟨b.dataReqMeta, b.dataReqSync, b.dataReqPrev, b.dataReqPulse⟩
  else ⟨b.addrReqMeta, b.addrReqSync, b.addrReqPrev, b.addrReqPulse⟩

/-- No strobe is on, and none is under way. -/
structure Driven.Quiet (s : Driven) : Prop where
  strobe : s.pins.strobe = false
  rstN : s.pins.rstN = true
  chain : ∀ a0, (s.chip.bus.chain a0).Quiet

/-! ## Writes reach the register file -/

/-- `rst_n` stays high. -/
def Event.Live : Event → Prop
  | .level p => p.rstN = true
  | _ => True

theorem Chip.settle_eq (c : Chip) {p : Pins} (live : p.rstN = true) : c.settle board p =
    c.relatch (if p.strobe then board.dBus p c.host.dataOut else c.bus.dLatch) := by
  rw [settle, if_pos live, Pins.strobe]
  split <;> rfl

theorem Chip.posedge_eq (c : Chip) {p : Pins} (live : p.rstN = true) :
    (c.posedge board p).bus = c.bus.next p ∧ (c.posedge board p).host = c.hostNext p := by
  rw [posedge, posedgeWith, if_pos live]
  exact ⟨rfl, rfl⟩

theorem Driven.event_live {s : Driven} (live : s.pins.rstN = true) {e : Event} (stays : e.Live) :
    (s.event board e).pins.rstN = true := by
  cases e with
  | level p => exact stays
  | rise => exact live
  | fall => exact live

theorem Chip.hostNext_file (c : Chip) (p : Pins) : (c.hostNext p).file =
    c.bus.fires.foldl (fun f w => f.strobe w.1 w.2) c.host.file := by
  have out : ∀ (h : Host) (x : Byte), { h with dataOut := x : Host }.file = h.file := fun _ _ => rfl
  have addr : ∀ (h : Host) (x : Byte),
      { h with regAddr := x : Host }.file = h.file.strobe false x := fun _ _ => rfl
  rw [hostNext, out, BusSync.fires]
  cases c.bus.dataReqPulse <;> cases c.bus.addrReqPulse
  · rfl
  · exact addr c.host c.bus.dLatch
  · have same : { c.host.write c.bus.dLatch with regAddr := c.host.regAddr : Host } =
        c.host.write c.bus.dLatch := by rw [← Host.write_addr c.host c.bus.dLatch]
    exact (congrArg Host.file same).trans (Host.write_file _ _)
  · change _ = (c.host.file.strobe true c.bus.dLatch).strobe false c.bus.dLatch
    rw [← Host.write_file, ← addr]
    rfl

theorem Driven.delivered_eq (s : Driven) (es : List Event) : s.delivered board es =
    Trace.outputs (Driven.event board) (fun s e => if e.isRise then s.chip.bus.fires else []) s es := by
  induction es generalizing s with
  | nil => rfl
  | cons e rest ih => rw [delivered, Trace.outputs, ih]

/-- One event moves the host registers by what it delivers. -/
theorem Driven.event_file {s : Driven} (live : s.pins.rstN = true) {e : Event} (stays : e.Live) :
    (s.event board e).chip.host.file =
      (if e.isRise then s.chip.bus.fires else []).foldl (fun f w => f.strobe w.1 w.2)
        s.chip.host.file := by
  cases e with
  | level p =>
    rw [event, Chip.settle_eq board _ stays]
    rfl
  | rise =>
    rw [event, Chip.settle_eq board _ live]
    change (s.chip.posedge board s.pins).host.file = _
    rw [(s.chip.posedge_eq board live).2, Chip.hostNext_file]
    rfl
  | fall => rfl

/-- The host registers are the fold of what was delivered. -/
theorem Driven.events_file {s : Driven} (live : s.pins.rstN = true) (es : List Event)
    (stays : ∀ e ∈ es, e.Live) : (s.events board es).chip.host.file =
      (s.delivered board es).foldl (fun f w => f.strobe w.1 w.2) s.chip.host.file := by
  rw [delivered_eq]
  exact Trace.view_run (fun s : Driven => s.chip.host.file)
    (fun _ _ live fine => event_live board live fine)
    (fun _ _ live fine => event_file board live fine) live es stays

/-! ## One strobe -/

/-- The levels of one request that the clocks among the events sample. -/
def sampled (a0 : Bool) (p : Pins) : List Event → List Bool
  | [] => []
  | .level q :: rest => sampled a0 q rest
  | .rise :: rest => p.req a0 :: sampled a0 p rest
  | .fall :: rest => sampled a0 p rest

theorem sampled_held (a0 : Bool) (p : Pins) {es : List Event}
    (steady : ∀ e ∈ es, e.isLevel = false) (rest : List Event) : sampled a0 p (es ++ rest) =
      List.replicate (es.countP Event.isRise) (p.req a0) ++ sampled a0 p rest := by
  induction es with
  | nil => rfl
  | cons e es ih =>
    have others := ih fun k mem => steady k (List.mem_cons_of_mem e mem)
    cases e with
    | level q => exact absurd (steady (.level q) List.mem_cons_self) (by simp [Event.isLevel])
    | rise =>
      rw [List.cons_append, sampled, others, List.countP_cons_of_pos rfl, List.replicate_succ,
        List.cons_append]
    | fall => rw [List.cons_append, sampled, others, List.countP_cons_of_neg Bool.false_ne_true]

theorem req_inactive {p : Pins} (none : p.strobe = false) (a0 : Bool) : p.req a0 = false := by
  have low : (!p.csN && !p.wrN) = false := none
  unfold Pins.req Pins.addrReqAsync Pins.dataReqAsync
  cases a0 <;> simp [low]

theorem sampled_gap (a0 : Bool) {p : Pins} (none : p.strobe = false) {es : List Event}
    (inactive : ∀ e ∈ es, e.Inactive) :
    sampled a0 p es = List.replicate (es.countP Event.isRise) false := by
  induction es generalizing p with
  | nil => rfl
  | cons e es ih =>
    have others : ∀ k ∈ es, k.Inactive := fun k mem => inactive k (List.mem_cons_of_mem e mem)
    cases e with
    | level q =>
      rw [sampled, ih (inactive (.level q) List.mem_cons_self).1 others,
        List.countP_cons_of_neg Bool.false_ne_true]
    | rise =>
      rw [sampled, ih none others, req_inactive none, List.countP_cons_of_pos rfl,
        List.replicate_succ]
    | fall => rw [sampled, ih none others, List.countP_cons_of_neg Bool.false_ne_true]

/-- A level that leaves `d` in `d_latch`. -/
def Pins.Keeps (d : Byte) (p : Pins) : Prop := p.strobe = true → p.busRd = false ∧ p.d = some d

theorem settle_keeps {c : Chip} {d : Byte} {p : Pins} (live : p.rstN = true) (keeps : p.Keeps d)
    (latch : c.bus.dLatch = d) : c.settle board p = c := by
  rw [Chip.settle_eq board c live]
  have same : (if p.strobe then board.dBus p c.host.dataOut else c.bus.dLatch) = c.bus.dLatch := by
    cases on : p.strobe with
    | false => rfl
    | true =>
      obtain ⟨read, drives⟩ := keeps on
      rw [if_pos rfl, Board.dBus, read, drives, latch]
  rw [same]
  rfl

theorem chain_next (b : BusSync) (p : Pins) (a0 : Bool) :
    (b.next p).chain a0 = (b.chain a0).next (p.req a0) := by
  cases a0 <;> rfl

theorem fires_eq (b : BusSync) (a0 : Bool) (other : (b.chain !a0).pulse = false) :
    b.fires = List.replicate (b.chain a0).pulse.toNat (a0, b.dLatch) := by
  unfold BusSync.fires
  cases a0 with
  | false =>
    have none : b.dataReqPulse = false := other
    rw [none]
    change _ = List.replicate b.addrReqPulse.toNat (false, b.dLatch)
    cases b.addrReqPulse <;> rfl
  | true =>
    have none : b.addrReqPulse = false := other
    rw [none]
    change _ = List.replicate b.dataReqPulse.toNat (true, b.dLatch)
    cases b.dataReqPulse <;> rfl

/-- While `d_latch` keeps a byte, the clocks take it as often as the detector of its type
has a pulse, if the other detector has none. -/
theorem latched {s : Driven} {d : Byte} (a0 : Bool) (live : s.pins.rstN = true)
    (keeps : s.pins.Keeps d) (latch : s.chip.bus.dLatch = d) {es : List Event}
    (inactive : ∀ e ∈ es, e.Inactive)
    (other : (s.chip.bus.chain !a0).pulses (sampled (!a0) s.pins es) = 0) :
    s.delivered board es =
        List.replicate ((s.chip.bus.chain a0).pulses (sampled a0 s.pins es)) (a0, d) ∧
      ∀ t, (s.events board es).chip.bus.chain t =
        (s.chip.bus.chain t).after (sampled t s.pins es) := by
  induction es generalizing s with
  | nil => exact ⟨rfl, fun _ => rfl⟩
  | cons e es ih =>
    have here := inactive e List.mem_cons_self
    have others : ∀ k ∈ es, k.Inactive := fun k mem => inactive k (List.mem_cons_of_mem e mem)
    cases e with
    | level q =>
      have none : q.Keeps d := fun on => absurd on (by rw [here.1]; decide)
      have same : s.event board (.level q) = ⟨q, s.chip⟩ := by
        rw [Driven.event, settle_keeps board here.2 none latch]
      have rest := @ih ⟨q, s.chip⟩ here.2 none latch others other
      rw [Driven.delivered, same]
      refine ⟨rest.1, ?_⟩
      intro t
      exact (congrArg (fun u : Driven => (u.events board es).chip.bus.chain t) same).trans
        (rest.2 t)
    | rise =>
      obtain ⟨bus, -⟩ := s.chip.posedge_eq board live
      have kept : (s.chip.posedge board s.pins).bus.dLatch = d := by rw [bus]; exact latch
      have same : s.event board .rise = ⟨s.pins, s.chip.posedge board s.pins⟩ := by
        rw [Driven.event, settle_keeps board live keeps kept]
      have step : ∀ t, (s.chip.posedge board s.pins).bus.chain t =
          (s.chip.bus.chain t).next (s.pins.req t) := by
        intro t
        rw [bus, chain_next]
      rw [sampled, Synchroniser.Detector.pulses] at other
      have silent : (s.chip.bus.chain !a0).pulse = false := by
        cases pulse : (s.chip.bus.chain !a0).pulse with
        | false => rfl
        | true => rw [pulse, Bool.toNat_true] at other; omega
      have rest := @ih ⟨s.pins, s.chip.posedge board s.pins⟩ live keeps kept others (by
        simp only [step]
        omega)
      simp only [step] at rest
      rw [Driven.delivered, same, rest.1, fires_eq _ a0 silent, latch, sampled,
        Synchroniser.Detector.pulses, List.replicate_add]
      refine ⟨rfl, ?_⟩
      intro t
      exact (congrArg (fun u : Driven => (u.events board es).chip.bus.chain t) same).trans
        (rest.2 t)
    | fall => exact @ih ⟨s.pins, s.chip.negedge⟩ live keeps latch others other

theorem Strobe.pins_req (t : Strobe) (a0 : Bool) : t.pins.req a0 = (a0 == t.a0) := by
  unfold Pins.req Pins.addrReqAsync Pins.dataReqAsync Strobe.pins
  cases a0 <;> cases t.a0 <;> rfl

theorem Strobe.later_inactive (t : Strobe) : ∀ e ∈ t.later, e.Inactive := by
  intro e mem
  rcases List.mem_append.mp mem with held | rest
  · cases e with
    | level p => exact absurd (t.steady _ held) (by simp [Event.isLevel])
    | rise => trivial
    | fall => trivial
  · rcases List.mem_cons.mp rest with rfl | gap
    · exact t.released
    · exact t.inactive e gap

theorem Strobe.sampled_later (t : Strobe) (a0 : Bool) : sampled a0 t.pins t.later =
    List.replicate (t.held.countP Event.isRise) (a0 == t.a0) ++
      List.replicate (t.gap.countP Event.isRise) false := by
  rw [later, sampled_held a0 t.pins t.steady, t.pins_req, sampled,
    sampled_gap a0 t.released.1 t.inactive]

theorem events_inactive {s : Driven} (none : s.pins.strobe = false) (live : s.pins.rstN = true)
    {es : List Event} (inactive : ∀ e ∈ es, e.Inactive) :
    (s.events board es).pins.strobe = false ∧ (s.events board es).pins.rstN = true := by
  induction es generalizing s with
  | nil => exact ⟨none, live⟩
  | cons e es ih =>
    have others : ∀ k ∈ es, k.Inactive := fun k mem => inactive k (List.mem_cons_of_mem e mem)
    cases e with
    | level q =>
      have here := inactive (.level q) List.mem_cons_self
      exact @ih (s.event board (.level q)) here.1 here.2 others
    | rise => exact @ih (s.event board .rise) none live others
    | fall => exact @ih (s.event board .fall) none live others

theorem events_append (s : Driven) (front back : List Event) :
    s.events board (front ++ back) = (s.events board front).events board back := List.foldl_append

theorem delivered_append (s : Driven) (front back : List Event) :
    s.delivered board (front ++ back) =
      s.delivered board front ++ (s.events board front).delivered board back := by
  simp only [Driven.delivered_eq]
  exact Trace.outputs_append s front back

/-- **A strobe is delivered once**, with its byte, and the synchroniser is quiet again. -/
theorem strobe_delivered {s : Driven} (quiet : s.Quiet) (t : Strobe) :
    s.delivered board t.events = [(t.a0, t.d)] ∧ (s.events board t.events).Quiet := by
  let u : Driven := ⟨t.pins, s.chip.relatch t.d⟩
  have first : s.event board (.level t.pins) = u := by
    have latch : s.chip.settle board t.pins = s.chip.relatch t.d :=
      Chip.settle_eq board s.chip rfl
    rw [Driven.event, latch]
  have chain : ∀ a0, (u.chip.bus.chain a0).Quiet := quiet.chain
  have own := Synchroniser.Detector.once (chain t.a0) t.three_clocks t.two_clocks
  have other := Synchroniser.Detector.low (chain !t.a0)
    (t.held.countP Event.isRise + t.gap.countP Event.isRise)
  have samples : sampled t.a0 u.pins t.later =
      List.replicate (t.held.countP Event.isRise) true ++
        List.replicate (t.gap.countP Event.isRise) false := by
    rw [t.sampled_later, beq_self_eq_true]
  have nothing : sampled (!t.a0) u.pins t.later =
      List.replicate (t.held.countP Event.isRise + t.gap.countP Event.isRise) false := by
    rw [t.sampled_later, List.replicate_add]
    cases t.a0 <;> rfl
  obtain ⟨takes, chains⟩ := latched board t.a0 (s := u) rfl (fun _ => ⟨rfl, rfl⟩) rfl
    t.later_inactive (by rw [nothing]; exact other.2)
  have run : s.events board t.events = u.events board t.later :=
    congrArg (fun v : Driven => v.events board t.later) first
  constructor
  · rw [Strobe.events, Driven.delivered, first, takes, samples, own.2]
    rfl
  · rw [run]
    have pins : u.events board t.later =
        ((u.events board t.held).event board (.level t.release)).events board t.gap := by
      rw [Strobe.later, events_append]
      rfl
    obtain ⟨off, live⟩ := events_inactive board (s := (u.events board t.held).event board
      (.level t.release)) t.released.1 t.released.2 t.inactive
    rw [← pins] at off live
    refine ⟨off, live, ?_⟩
    intro a0
    rw [chains]
    by_cases kind : a0 = t.a0
    · rw [kind, samples]
      exact own.1
    · have flip : a0 = !t.a0 := by cases a0 <;> cases h : t.a0 <;> simp_all
      rw [flip, nothing]
      exact other.1

/-! ## A sequence of strobes -/

theorem strobes_quiet {s : Driven} (quiet : s.Quiet) (strobes : List Strobe) :
    s.delivered board (strobes.flatMap Strobe.events) = strobes.map (fun t => (t.a0, t.d)) ∧
      (s.events board (strobes.flatMap Strobe.events)).Quiet := by
  induction strobes generalizing s with
  | nil => exact ⟨rfl, quiet⟩
  | cons t rest ih =>
    obtain ⟨one, quiet'⟩ := strobe_delivered board quiet t
    obtain ⟨others, last⟩ := ih quiet'
    rw [List.flatMap_cons, delivered_append, one, others, events_append]
    exact ⟨rfl, last⟩

theorem Event.Inactive.live {e : Event} (inactive : e.Inactive) : e.Live := by
  cases e with
  | level p => exact inactive.2
  | rise => trivial
  | fall => trivial

theorem strobes_live (strobes : List Strobe) : ∀ e ∈ strobes.flatMap Strobe.events, e.Live := by
  intro e mem
  obtain ⟨t, -, mem⟩ := List.mem_flatMap.mp mem
  rcases List.mem_cons.mp mem with rfl | mem
  · rfl
  · exact (t.later_inactive e mem).live

/-- **Each strobe is delivered exactly once**, and the host registers are at all times the
fold of the strobes that have been delivered. -/
theorem strobes_delivered {s : Driven} (quiet : s.Quiet) (strobes : List Strobe) :
    s.delivered board (strobes.flatMap Strobe.events) = strobes.map (fun t => (t.a0, t.d)) ∧
      (s.events board (strobes.flatMap Strobe.events)).chip.host.file =
        strobes.foldl (fun f t => f.strobe t.a0 t.d) s.chip.host.file ∧
      ∀ n, ∃ m, (s.events board ((strobes.flatMap Strobe.events).take n)).chip.host.file =
        (strobes.take m).foldl (fun f t => f.strobe t.a0 t.d) s.chip.host.file := by
  have all := (strobes_quiet board quiet strobes).1
  refine ⟨all, ?_, ?_⟩
  · rw [Driven.events_file board quiet.rstN _ (strobes_live strobes), all, List.foldl_map]
  · intro n
    have told := all
    rw [Driven.delivered_eq] at told
    obtain ⟨m, file⟩ := Trace.view_prefix (fun s : Driven => s.chip.host.file)
      (fun _ _ live fine => Driven.event_live board live fine)
      (fun _ _ live fine => Driven.event_file board live fine)
      quiet.rstN (strobes_live strobes) told n
    refine ⟨m, file.trans ?_⟩
    rw [← List.map_take, List.foldl_map]

end

/-- The shortest strobe with the shortest gap behind it. -/
def Strobe.short (a0 : Bool) (d : Byte) : Strobe where
  a0 := a0
  d := d
  held := [.rise, .fall, .rise, .fall, .rise]
  release := Pins.idle
  gap := [.fall, .rise, .fall, .rise, .fall]
  steady := by decide
  three_clocks := by decide
  released := ⟨rfl, rfl⟩
  inactive e mem := by
    simp only [List.mem_cons, List.not_mem_nil, or_false] at mem
    rcases mem with rfl | rfl | rfl | rfl | rfl <;> trivial
  two_clocks := by decide

/-- The volume of channel 0, after a reset. -/
theorem strobes_delivered_short :
    let board : Board := { rom := fun _ => 0, float := 0, clash := fun a _ => a }
    let reset : Driven := ⟨Pins.idle, Chip.initial 0 fun _ => 0⟩
    (reset.events board
        ([Strobe.short false 2, .short true 0x1F].flatMap Strobe.events)).chip.host.file =
      (reset.chip.host.file.strobe false 2).strobe true 0x1F := by
  intro board reset
  have quiet : reset.Quiet := by
    refine ⟨rfl, rfl, ?_⟩
    intro a0
    cases a0 <;> exact ⟨rfl, rfl, rfl⟩
  exact (strobes_delivered board quiet [.short false 2, .short true 0x1F]).2.1

/-! ## Runs of the chip -/

section
variable (board : Board)

theorem lead_quiet {s : Driven} (quiet : s.Quiet) {lead : List Event}
    (inactive : ∀ e ∈ lead, e.Inactive) :
    s.delivered board lead = [] ∧ (s.events board lead).Quiet := by
  have nothing : ∀ a0, sampled a0 s.pins lead =
      List.replicate (lead.countP Event.isRise) false := fun a0 =>
    sampled_gap a0 quiet.strobe inactive
  have none : ∀ a0, ((s.chip.bus.chain a0).after (sampled a0 s.pins lead)).Quiet ∧
      (s.chip.bus.chain a0).pulses (sampled a0 s.pins lead) = 0 := by
    intro a0
    rw [nothing a0]
    exact Synchroniser.Detector.low (quiet.chain a0) _
  have keeps : s.pins.Keeps s.chip.bus.dLatch := fun on => absurd on (by rw [quiet.strobe]; decide)
  obtain ⟨takes, chains⟩ := latched board true quiet.rstN keeps rfl inactive (none false).2
  obtain ⟨off, live⟩ := events_inactive board quiet.strobe quiet.rstN inactive
  rw [(none true).2] at takes
  refine ⟨takes, off, live, ?_⟩
  intro a0
  rw [chains]
  exact (none a0).1

/-- The events of the first cycles of a run. -/
theorem Driven.run_events (s : Driven) (inputs : Nat → Cycle) (n : Nat) :
    (s.events board ((List.range n).flatMap fun k => (inputs k).events)).chip =
      s.chip.run board inputs n := by
  induction n with
  | zero => rfl
  | succ n ih =>
    rw [List.range_succ, List.flatMap_append, events_append, List.flatMap_singleton, cycle_events,
      ih]
    rfl

/-- A run of the chip whose events are strobes, behind a time without one. -/
theorem run_strobes {p : Pins} {c : Chip} (quiet : Driven.Quiet ⟨p, c⟩) (inputs : Nat → Cycle)
    (n : Nat) {lead : List Event} (inactive : ∀ e ∈ lead, e.Inactive) (strobes : List Strobe)
    (same : ((List.range n).flatMap fun k => (inputs k).events) =
      lead ++ strobes.flatMap Strobe.events) :
    (c.run board inputs n).host.file =
      strobes.foldl (fun f t => f.strobe t.a0 t.d) c.host.file := by
  obtain ⟨none, quiet'⟩ := lead_quiet board quiet inactive
  have all := (strobes_quiet board quiet' strobes).1
  have live : ∀ e ∈ lead ++ strobes.flatMap Strobe.events, e.Live := by
    intro e mem
    rcases List.mem_append.mp mem with first | later
    · exact (inactive e first).live
    · exact strobes_live strobes e later
  have run := Driven.run_events board ⟨p, c⟩ inputs n
  rw [← run, same, Driven.events_file board quiet.rstN _ live, delivered_append, none, all,
    List.nil_append, List.foldl_map]

end

end Chiptune.Wavetable
