import Chiptune.Wt3.SpfmBus

/-!
# wt3_spfm_ram

`rtl/wt3_spfm_ram.v` with the delays of its chips. The 377 of `rtl/hc377.v` waits 15 ns at an
edge that enables it and takes its inputs then, and the RAM of `rtl/hc62256.v` waits 55 ns when
`WE_n` falls and stores what is at its pins then; while they wait they miss other edges.
`spfm_fold` says that the stores are the data writes, each at the address before it, if no
strobe begins while one of them still waits for the levels of the strobe before.
-/

namespace Chiptune.Wt3

/-- `sample` is when the 377 takes its inputs, and `write` when the RAM stores. -/
structure SpfmRam where
  bus : Bus
  mem : Ram
  sample : Option Nat
  write : Option Nat

namespace SpfmRam
variable (r : SpfmRam)

/-- `q_reg <= D` -/
def take : SpfmRam :=
  { r with bus := { r.bus with regAddr := r.bus.dLatch }, sample := none }

/-- `mem[addr] <= DI` -/
def put : SpfmRam :=
  { r with
    mem := Function.update r.mem (0#7 ++ r.bus.regAddr) r.bus.dLatch
    write := none }

/-- `q_reg <= D` is due by `t`. -/
def sampled (t : Nat) : SpfmRam := if r.sample.any (decide <| · ≤ t) then r.take else r

/-- `mem[addr] <= DI` is due by `t`. -/
def stored (t : Nat) : SpfmRam := if r.write.any (decide <| · ≤ t) then r.put else r

/-- The 377 if it is through before the RAM, which otherwise still sees the old address. -/
def early (t : Nat) : SpfmRam :=
  if r.write.all fun w => r.sample.all (decide <| · < w) then r.sampled t else r

/-- The time comes to `t`. -/
def wake (t : Nat) : SpfmRam := ((r.early t).stored t).sampled t

/-- An edge that the 377 acts on. -/
def enables (b : Bus) : HostEvent → Bool
  | .clock => b.addrQ3
  | .drive _ => false

/-- What is due by the time of an event comes before it. -/
def host (e : Timed) : SpfmRam :=
  let now := r.wake e.time
  { now with
    bus := { now.bus.host e.event with regAddr := now.bus.regAddr }
    sample := if enables now.bus e.event && now.sample.isNone then some (e.time + 15000)
      else now.sample
    write := if now.bus.falls e.event && now.write.isNone then some (e.time + 55000)
      else now.write }

def hosts (es : List Timed) : SpfmRam := es.foldl host r

/-- What the RAM stores by the time `t`. -/
def puts (t : Nat) : List (Byte × Byte) :=
  if r.write.any (decide <| · ≤ t) then [((r.early t).bus.regAddr, r.bus.dLatch)] else []

/-- What it stores in a run. -/
def stores (es : List Timed) : List (Byte × Byte) :=
  Trace.outputs host (fun r e => r.puts e.time) r es

end SpfmRam

/-- Nothing is on its way. -/
structure SpfmRam.Rests (r : SpfmRam) : Prop where
  quiet : r.bus.Quiet
  sample : r.sample = none
  write : r.write = none

/-- The events of strobes, in the order of their times. -/
def Ordered (strobes : List Strobe) : Prop :=
  (strobes.flatMap Strobe.events).Pairwise (·.time ≤ ·.time)

/-- `t` begins when what `s` has started is over: the store of a data strobe, and before a data
strobe the sampling of an address. -/
def Strobe.Clears (s t : Strobe) : Prop :=
  if s.a0 then s.second + 55000 < t.start else t.a0 = true → s.third + 15000 < t.start

namespace SpfmRam

/-! ## What will be -/

section
variable (r : SpfmRam)

/-- The address, once the 377 is through. -/
def addr : Byte := if r.sample.isSome then r.bus.dLatch else r.bus.regAddr

/-- The bus without the delay. -/
def ideal : Bus := { r.bus with regAddr := r.addr }

/-- The store that the RAM waits to make. -/
def owed : List (Byte × Byte) := if r.write.isSome then [(r.addr, r.bus.dLatch)] else []

/-- A store and a sampling do not wait together. -/
def Apart : Prop := r.write = none ∨ r.sample = none

/-- The event starts the store that the bus without delay makes with it. -/
def Keeps (e : Timed) : Prop :=
  r.puts e.time ++ (r.host e).owed = r.owed ++ r.ideal.stored e.event

def Kept (r : SpfmRam) : List Timed → Prop
  | [] => r.Apart
  | e :: rest => r.Apart ∧ r.Keeps e ∧ (r.host e).Kept rest

/-- The stores that the bus without delay makes. -/
def orders (es : List Timed) : List (Byte × Byte) :=
  Trace.outputs host (fun r e => r.ideal.stored e.event) r es

end

section
variable {r : SpfmRam} {t : Nat}

theorem late_cases (o : Option Nat) (t : Nat) :
    (o.any (decide <| · ≤ t) = true ∧ o.isSome = true ∧ o.filter (decide <| t < ·) = none) ∨
      (o.any (decide <| · ≤ t) = false ∧ o.filter (decide <| t < ·) = o) := by
  cases o with
  | none => exact .inr ⟨rfl, rfl⟩
  | some x =>
    by_cases late : x ≤ t
    · exact .inl ⟨by simpa using late, rfl, by simpa [Option.filter] using late⟩
    · exact .inr ⟨by simpa using late, by simpa [Option.filter] using late⟩

/-- A 377 that is through: the address that will be has come. -/
theorem sampled_spec (r : SpfmRam) (t : Nat) : (r.sampled t).ideal = r.ideal ∧
    (r.sampled t).mem = r.mem ∧ (r.sampled t).write = r.write ∧
    (r.sampled t).sample = r.sample.filter (decide <| t < ·) := by
  rw [sampled]
  obtain ⟨late, waits, left⟩ | ⟨soon, left⟩ := late_cases r.sample t
  · rw [if_pos late, left]
    refine ⟨?_, rfl, rfl, rfl⟩
    simp [take, ideal, addr, waits]
  · rw [soon, left]
    exact ⟨rfl, rfl, rfl, rfl⟩

theorem stored_spec (r : SpfmRam) (t : Nat) : (r.stored t).ideal = r.ideal ∧
    (r.stored t).sample = r.sample ∧ (r.stored t).write = r.write.filter (decide <| t < ·) ∧
    (r.stored t).mem = if r.write.any (decide <| · ≤ t) then
      Function.update r.mem (0#7 ++ r.bus.regAddr) r.bus.dLatch else r.mem := by
  rw [stored]
  obtain ⟨late, waits, left⟩ | ⟨soon, left⟩ := late_cases r.write t
  · rw [if_pos late, if_pos late, left]
    exact ⟨rfl, rfl, rfl, rfl⟩
  · rw [soon, left]
    exact ⟨rfl, rfl, rfl, rfl⟩

theorem early_spec (r : SpfmRam) (t : Nat) : (r.early t).ideal = r.ideal ∧
    (r.early t).mem = r.mem ∧ (r.early t).write = r.write ∧
    ((r.early t).sample).filter (decide <| t < ·) = r.sample.filter (decide <| t < ·) := by
  rw [early]
  split
  · obtain ⟨ideal, mem, write, sample⟩ := r.sampled_spec t
    refine ⟨ideal, mem, write, ?_⟩
    rw [sample, Option.filter_filter]
    simp only [Bool.and_self]
  · exact ⟨rfl, rfl, rfl, rfl⟩

/-- Time that passes changes nothing but what is late. -/
theorem wake_ideal : (r.wake t).ideal = r.ideal := by
  rw [wake, (sampled_spec _ t).1, (stored_spec _ t).1, (early_spec r t).1]

theorem wake_write : (r.wake t).write = r.write.filter (decide <| t < ·) := by
  rw [wake, (sampled_spec _ t).2.2.1, (stored_spec _ t).2.2.1, (early_spec r t).2.2.1]

theorem wake_sample : (r.wake t).sample = r.sample.filter (decide <| t < ·) := by
  rw [wake, (sampled_spec _ t).2.2.2, (stored_spec _ t).2.1, (early_spec r t).2.2.2]

theorem early_latch : (r.early t).bus.dLatch = r.bus.dLatch := by
  have same := congrArg Bus.dLatch (early_spec r t).1
  exact same

theorem wake_mem : (r.wake t).mem = (r.puts t).foldl
    (fun mem w => Function.update mem (0#7 ++ w.1) w.2) r.mem := by
  rw [wake, (sampled_spec _ t).2.1, (stored_spec _ t).2.2.2, (early_spec r t).2.1,
    (early_spec r t).2.2.1, early_latch, puts]
  split <;> rfl

/-- All of the bus but the address. -/
theorem wake_bus (r : SpfmRam) (t : Nat) :
    (r.wake t).bus = { r.bus with regAddr := (r.wake t).bus.regAddr } := by
  have ideal := congrArg (fun b : Bus => { b with regAddr := (r.wake t).bus.regAddr })
    (@wake_ideal r t)
  exact ideal

/-- The store that was owed is made or is owed still. -/
theorem wake_owed (apart : r.Apart) : r.puts t ++ (r.wake t).owed = r.owed := by
  have addr : (r.wake t).addr = r.addr := congrArg Bus.regAddr (@wake_ideal r t)
  have latch : (r.wake t).bus.dLatch = r.bus.dLatch := by rw [wake_bus]
  rw [owed, owed, addr, latch, wake_write, puts]
  obtain idle | idle := apart
  · rw [idle]
    rfl
  · have through : (r.early t).bus.regAddr = r.addr := by
      rw [early, sampled, idle, SpfmRam.addr, idle]
      simp
    rw [through]
    obtain ⟨late, waits, left⟩ | ⟨soon, left⟩ := late_cases r.write t
    · rw [if_pos late, if_pos waits, left]
      rfl
    · rw [soon, left]
      rfl

end

/-! ## Events with the data lines held -/

section
variable {r : SpfmRam} {e : Timed}

theorem wake_falls : (r.wake e.time).bus.falls e.event = r.ideal.falls e.event := by
  rw [← @wake_ideal r e.time]
  cases e.event <;> rfl

theorem host_ideal (inactive : e.event.Inactive) : (r.host e).ideal = r.ideal.host e.event := by
  rw [← @wake_ideal r e.time, host]
  generalize r.wake e.time = now
  obtain ⟨t, event⟩ := e
  cases event with
  | clock =>
    cases h : now.bus.addrQ3 <;> cases s : now.sample <;>
      simp [ideal, addr, enables, Bus.host, Bus.clock, h, s]
  | drive p =>
    have le : p.le = false := inactive.1
    simp [ideal, addr, enables, Bus.host, Bus.drive, le]

theorem host_mem : (r.host e).mem = (r.puts e.time).foldl
    (fun mem w => Function.update mem (0#7 ++ w.1) w.2) r.mem := wake_mem

theorem hosts_append (front back : List Timed) :
    r.hosts (front ++ back) = (r.hosts front).hosts back := List.foldl_append

theorem hosts_ideal (es : List Timed) (inactive : ∀ e ∈ es, e.event.Inactive) :
    (r.hosts es).ideal = r.ideal.hosts (es.map Timed.event) ∧
      r.orders es = r.ideal.stores (es.map Timed.event) := by
  induction es generalizing r with
  | nil => exact ⟨rfl, rfl⟩
  | cons e rest ih =>
    obtain ⟨later, told⟩ := @ih (r.host e) fun k mem => inactive k (List.mem_cons_of_mem e mem)
    have here := host_ideal (r := r) (inactive e List.mem_cons_self)
    rw [here] at later told
    exact ⟨later, congrArg (r.ideal.stored e.event ++ ·) told⟩

theorem kept_append {front back : List Timed} (before : r.Kept front)
    (after : (r.hosts front).Kept back) : r.Kept (front ++ back) := by
  induction front generalizing r with
  | nil => exact after
  | cons e rest ih => exact ⟨before.1, before.2.1, ih before.2.2 after⟩

theorem kept_apart {es : List Timed} (kept : r.Kept es) : (r.hosts es).Apart := by
  induction es generalizing r with
  | nil => exact kept
  | cons e rest ih => exact ih kept.2.2

theorem kept_take {es : List Timed} (kept : r.Kept es) (n : Nat) : r.Kept (es.take n) := by
  induction es generalizing r n with
  | nil =>
    rw [List.take_nil]
    exact kept
  | cons e rest ih =>
    cases n with
    | zero => exact kept.1
    | succ n => exact ⟨kept.1, kept.2.1, ih kept.2.2 n⟩

/-- What was stored and what is owed is what was ordered. -/
theorem kept_total {es : List Timed} (kept : r.Kept es) :
    r.stores es ++ (r.hosts es).owed = r.owed ++ r.orders es := by
  induction es generalizing r with
  | nil => exact (List.append_nil _).symm
  | cons e rest ih =>
    obtain ⟨-, here, later⟩ := kept
    have after := ih later
    calc r.stores (e :: rest) ++ (r.hosts (e :: rest)).owed
        = r.puts e.time ++ ((r.host e).stores rest ++ ((r.host e).hosts rest).owed) :=
          List.append_assoc _ _ _
      _ = r.puts e.time ++ (r.host e).owed ++ (r.host e).orders rest := by
          rw [after, List.append_assoc]
      _ = r.owed ++ r.orders (e :: rest) := by
          rw [here, List.append_assoc]
          rfl

/-- An event that does not let `WE_n` fall and finds no store waiting. -/
theorem keeps_idle (idle : (r.wake e.time).write = none) (apart : r.Apart)
    (still : r.ideal.falls e.event = false) : r.Keeps e ∧ (r.host e).write = none := by
  have none : (r.host e).write = none := by
    rw [host]
    simp only [wake_falls, still, idle, Bool.false_and, Bool.false_eq_true, ↓reduceIte]
  refine ⟨?_, none⟩
  have before := wake_owed (t := e.time) apart
  rw [owed, idle] at before
  rw [Keeps, stored_none still, owed, none, ← before]
  simp

/-- Between the clocks of an address strobe nothing is stored. -/
theorem kept_address {es : List Timed} (idle : r.write = none)
    (inactive : ∀ e ∈ es, e.event.Inactive)
    (still : r.ideal.stores (es.map Timed.event) = []) :
    r.Kept es ∧ (r.hosts es).write = none := by
  induction es generalizing r with
  | nil => exact ⟨.inl idle, idle⟩
  | cons e rest ih =>
    rw [List.map_cons, stores_cons, List.append_eq_nil_iff] at still
    have falls : r.ideal.falls e.event = false := by
      have first := still.1
      rw [Bus.stored] at first
      split at first
      · cases first
      · rename_i not
        exact Bool.eq_false_iff.mpr not
    have woken : (r.wake e.time).write = none := by
      rw [wake_write, idle]
      rfl
    obtain ⟨keeps, next⟩ := keeps_idle woken (.inl idle) falls
    have later := host_ideal (r := r) (inactive e List.mem_cons_self)
    obtain ⟨kept, last⟩ := @ih (r.host e) next (fun k mem => inactive k (List.mem_cons_of_mem e mem))
      (later ▸ still.2)
    exact ⟨⟨.inl idle, keeps, kept⟩, last⟩

/-- No address is in the synchroniser, and none waits to be taken. -/
structure Still (r : SpfmRam) : Prop where
  sample : r.sample = none
  comb : r.bus.pins.addrWrComb = false
  addrQ1 : r.bus.addrQ1 = false
  addrQ2 : r.bus.addrQ2 = false
  addrQ3 : r.bus.addrQ3 = false

theorem still_wake (still : r.Still) (t : Nat) : (r.wake t).Still := by
  obtain ⟨sample, comb, q1, q2, q3⟩ := still
  have same := wake_bus r t
  constructor
  · rw [wake_sample, sample]
    rfl
  all_goals rw [same]; assumption

theorem still_host (still : r.Still) (inactive : e.event.Inactive) : (r.host e).Still := by
  have woken := still_wake still e.time
  rw [host]
  generalize r.wake e.time = now at woken
  obtain ⟨sample, comb, q1, q2, q3⟩ := woken
  obtain ⟨t, event⟩ := e
  cases event with
  | clock => constructor <;> simp [enables, Bus.host, Bus.clock, sample, comb, q1, q2, q3]
  | drive p =>
    have off : p.writeActive = false := by
      have le : p.le = false := inactive.1
      rw [Pins.writeActive, ← Bool.not_or]
      exact (congrArg (· && p.rstN) le).trans (Bool.false_and _)
    constructor <;>
      simp [enables, Bus.host, Bus.drive, sample, q1, q2, q3, Pins.addrWrComb, off]

/-- One store is kept through such events. -/
theorem kept_data {es : List Timed} (still : r.Still) (inactive : ∀ e ∈ es, e.event.Inactive)
    (one : r.owed.length + (r.ideal.stores (es.map Timed.event)).length ≤ 1) :
    r.Kept es ∧ (r.hosts es).Still := by
  induction es generalizing r with
  | nil => exact ⟨.inr still.sample, still⟩
  | cons e rest ih =>
    have held := inactive e List.mem_cons_self
    have apart : r.Apart := .inr still.sample
    have next := still_host still held
    have woken := still_wake still e.time
    have before := wake_owed (t := e.time) apart
    have ideal := host_ideal (r := r) held
    rw [List.map_cons, stores_cons, List.length_append] at one
    have keeps : r.Keeps e := by
      cases falls : r.ideal.falls e.event with
      | true =>
        have free : r.owed = [] := by
          rw [Bus.stored, if_pos falls, List.length_singleton] at one
          exact List.length_eq_zero_iff.mp (by omega)
        have none : (r.wake e.time).write = none := by
          rw [free, List.append_eq_nil_iff, owed] at before
          cases h : (r.wake e.time).write with
          | none => rfl
          | some w => simp [h] at before
        have starts : (r.host e).write = some (e.time + 55000) := by
          rw [host]
          simp only [wake_falls, falls, none, Option.isNone_none, Bool.and_self, ↓reduceIte]
        rw [Keeps, Bus.stored, if_pos falls, ← ideal, ← before]
        simp [owed, starts, none, SpfmRam.ideal]
      | false =>
        have same : (r.host e).owed = (r.wake e.time).owed := by
          have write : (r.host e).write = (r.wake e.time).write := by
            rw [host]
            simp only [wake_falls, falls, Bool.false_and, Bool.false_eq_true, ↓reduceIte]
          have latch : (r.host e).bus.dLatch = (r.wake e.time).bus.dLatch := by
            rw [host]
            generalize r.wake e.time = now
            obtain ⟨t, event⟩ := e
            cases event with
            | clock => rfl
            | drive p =>
              have le : p.le = false := held.1
              simp [Bus.host, Bus.drive, le]
          have addr : (r.host e).addr = (r.wake e.time).addr := by
            rw [SpfmRam.addr, SpfmRam.addr, next.sample, woken.sample]
            rfl
          rw [owed, owed, write, latch, addr]
        rw [Keeps, stored_none falls, same, before, List.append_nil]
    have length : (r.host e).owed.length ≤ r.owed.length + (r.ideal.stored e.event).length := by
      rw [← List.length_append, ← keeps, List.length_append]
      omega
    obtain ⟨kept, last⟩ := @ih (r.host e) next
      (fun k mem => inactive k (List.mem_cons_of_mem e mem)) (by
        rw [ideal]
        omega)
    exact ⟨⟨apart, keeps, kept⟩, last⟩

/-! ## When they are through -/

theorem sample_due {es : List Timed} {τ : Nat} (from_before : ∀ s ∈ r.sample, s ≤ τ + 15000)
    (times : ∀ e ∈ es, e.time ≤ τ) : ∀ s ∈ (r.hosts es).sample, s ≤ τ + 15000 := by
  induction es generalizing r with
  | nil => exact from_before
  | cons e rest ih =>
    refine ih (r := r.host e) ?_ fun k mem => times k (List.mem_cons_of_mem e mem)
    intro s mem
    rw [host] at mem
    dsimp only at mem
    split at mem
    · have now := times e List.mem_cons_self
      obtain rfl : e.time + 15000 = s := Option.some.inj mem
      omega
    · rw [wake_sample, Option.mem_filter_iff] at mem
      exact from_before s mem.1

theorem write_due {es : List Timed} {τ : Nat} (from_before : ∀ w ∈ r.write, w ≤ τ + 55000)
    (times : ∀ e ∈ es, e.time ≤ τ) : ∀ w ∈ (r.hosts es).write, w ≤ τ + 55000 := by
  induction es generalizing r with
  | nil => exact from_before
  | cons e rest ih =>
    refine ih (r := r.host e) ?_ fun k mem => times k (List.mem_cons_of_mem e mem)
    intro w mem
    rw [host] at mem
    dsimp only at mem
    split at mem
    · have now := times e List.mem_cons_self
      obtain rfl : e.time + 55000 = w := Option.some.inj mem
      omega
    · rw [wake_write, Option.mem_filter_iff] at mem
      exact from_before w mem.1

/-- Without a falling `WE_n` no store starts. -/
theorem write_stays {es : List Timed} (inactive : ∀ e ∈ es, e.event.Inactive)
    (none : r.ideal.stores (es.map Timed.event) = []) :
    ∀ w ∈ (r.hosts es).write, w ∈ r.write := by
  induction es generalizing r with
  | nil => exact fun _ mem => mem
  | cons e rest ih =>
    rw [List.map_cons, stores_cons, List.append_eq_nil_iff, ← host_ideal (inactive e
      List.mem_cons_self)] at none
    intro w mem
    have here := @ih (r.host e) (fun k mem => inactive k (List.mem_cons_of_mem e mem)) none.2 w mem
    have falls : (r.wake e.time).bus.falls e.event = false := by
      rw [wake_falls]
      have first := none.1
      rw [Bus.stored] at first
      split at first
      · cases first
      · rename_i not
        exact Bool.eq_false_iff.mpr not
    rw [host] at here
    simp only [falls, Bool.false_and, Bool.false_eq_true, ↓reduceIte] at here
    rw [wake_write, Option.mem_filter_iff] at here
    exact here.1

/-- Without an address in the synchroniser no sampling starts. -/
theorem sample_stays {es : List Timed} (quiet : r.bus.Quiet)
    (inactive : ∀ e ∈ es, e.event.Inactive) : ∀ s ∈ (r.hosts es).sample, s ∈ r.sample := by
  have idle (p : Pins) (le : p.le = false) : p.writeActive = false := by
    rw [Pins.writeActive, ← Bool.not_or]
    exact (congrArg (· && p.rstN) le).trans (Bool.false_and _)
  induction es generalizing r with
  | nil => exact fun _ mem => mem
  | cons e rest ih =>
    have held := inactive e List.mem_cons_self
    have next : (r.host e).bus.Quiet ∧ ∀ s ∈ (r.host e).sample, s ∈ r.sample := by
      have woken : (r.wake e.time).bus.Quiet := by
        obtain ⟨le, rstN, a1, a2, a3, d1, d2⟩ := quiet
        rw [wake_bus]
        exact ⟨le, rstN, a1, a2, a3, d1, d2⟩
      have waits (s : Nat) (mem : s ∈ (r.wake e.time).sample) : s ∈ r.sample := by
        rw [wake_sample, Option.mem_filter_iff] at mem
        exact mem.1
      rw [host]
      generalize r.wake e.time = now at woken waits
      obtain ⟨t, event⟩ := e
      obtain ⟨le, rstN, a1, a2, a3, d1, d2⟩ := woken
      cases event with
      | clock =>
        have off := idle _ le
        refine ⟨⟨le, rstN, ?_, ?_, ?_, ?_, ?_⟩, ?_⟩
        · simp [Bus.host, Bus.clock, Pins.addrWrComb, off]
        · simp [Bus.host, Bus.clock, a1]
        · simp [Bus.host, Bus.clock, a2]
        · simp [Bus.host, Bus.clock, Pins.dataWrComb, off]
        · simp [Bus.host, Bus.clock, d1]
        · simpa [enables, a3] using waits
      | drive p =>
        refine ⟨⟨held.1, held.2, ?_, ?_, ?_, ?_, ?_⟩, ?_⟩
        · simp [Bus.host, Bus.drive, a1]
        · simp [Bus.host, Bus.drive, a2]
        · simp [Bus.host, Bus.drive, a3]
        · simp [Bus.host, Bus.drive, d1]
        · simp [Bus.host, Bus.drive, d2]
        · simpa [enables] using waits
    intro s mem
    exact next.2 s (ih next.1 (fun k mem => inactive k (List.mem_cons_of_mem e mem)) s mem)

end

/-! ## A strobe -/

/-- A strobe may begin. -/
structure Before (r : SpfmRam) (s : Strobe) : Prop where
  quiet : r.bus.Quiet
  apart : r.Apart
  write : ∀ w ∈ r.write, w < s.start
  taken : s.a0 = true → ∀ t ∈ r.sample, t < s.start
  sample : ∀ t ∈ r.sample, t ≤ s.start + 15000

/-- What a strobe leaves. -/
structure After (r : SpfmRam) (s : Strobe) : Prop where
  quiet : r.bus.Quiet
  idle : if s.a0 then r.sample = none else r.write = none
  write : ∀ w ∈ r.write, w ≤ s.second + 55000
  sample : ∀ t ∈ r.sample, t ≤ s.third + 15000

section
variable {r : SpfmRam} {s : Strobe}

theorem quiet_ideal : r.ideal.Quiet ↔ r.bus.Quiet :=
  ⟨fun ⟨le, rstN, a1, a2, a3, d1, d2⟩ => ⟨le, rstN, a1, a2, a3, d1, d2⟩,
    fun ⟨le, rstN, a1, a2, a3, d1, d2⟩ => ⟨le, rstN, a1, a2, a3, d1, d2⟩⟩

theorem filter_late {o : Option Nat} {t : Nat} (late : ∀ x ∈ o, x < t) :
    o.filter (decide <| t < ·) = none := by
  cases o with
  | none => rfl
  | some x =>
    have before := late x rfl
    simp [Option.filter, Nat.le_of_lt before]

/-- The state as a strobe begins. -/
def begun (r : SpfmRam) (s : Strobe) : SpfmRam := r.host ⟨s.start, .drive s.pins⟩

theorem begun_write (before : r.Before s) : (r.begun s).write = none := by
  have quiet : (r.wake s.start).bus.falls (.drive s.pins) = false := by
    rw [show _ = r.ideal.falls (.drive s.pins) from wake_falls (e := ⟨s.start, .drive s.pins⟩)]
    exact drive_falls before.quiet.rstN rfl
  rw [begun, host]
  simp only [quiet, Bool.false_and, Bool.false_eq_true, ↓reduceIte]
  rw [wake_write, filter_late before.write]

theorem begun_sample (r : SpfmRam) (s : Strobe) :
    (r.begun s).sample = r.sample.filter (decide <| s.start < ·) := by
  rw [begun, host]
  simp only [enables, Bool.false_and, Bool.false_eq_true, ↓reduceIte]
  exact wake_sample

/-- A 377 that still waits takes the new byte. -/
theorem begun_ideal (quiet : r.bus.Quiet) : (r.begun s).ideal =
    { r.ideal with regAddr := (r.begun s).addr }.host (.drive s.pins) := by
  have bus : (r.begun s).bus = { (r.wake s.start).bus.host (.drive s.pins) with
      regAddr := (r.wake s.start).bus.regAddr } := rfl
  rw [ideal, bus, wake_bus]
  simp [SpfmRam.ideal, Bus.host, Bus.drive, quiet.rstN, Strobe.pins]

theorem begun_addr (before : r.Before s) (data : s.a0 = true) :
    (r.begun s).sample = none ∧ (r.begun s).addr = r.addr := by
  have none : (r.begun s).sample = none := by rw [begun_sample, filter_late (before.taken data)]
  refine ⟨none, ?_⟩
  have woken : (r.wake s.start).sample = .none := by
    rw [wake_sample, filter_late (before.taken data)]
  calc (r.begun s).addr = (r.wake s.start).bus.regAddr := by rw [addr, none]; rfl
    _ = (r.wake s.start).addr := by rw [addr, woken]; rfl
    _ = r.addr := congrArg Bus.regAddr (@wake_ideal r s.start)

theorem begun_still (before : r.Before s) (data : s.a0 = true) : (r.begun s).Still := by
  have ideal := begun_ideal (s := s) before.quiet
  obtain ⟨-, rstN, a1, a2, a3, -, -⟩ := before.quiet
  refine ⟨(begun_addr before data).1, ?_, ?_, ?_, ?_⟩
  · rw [show (r.begun s).bus.pins = (r.begun s).ideal.pins from rfl, ideal]
    simp [Bus.host, Bus.drive, Strobe.pins, Pins.addrWrComb, data]
  · rw [show (r.begun s).bus.addrQ1 = (r.begun s).ideal.addrQ1 from rfl, ideal]
    simp [Bus.host, Bus.drive, SpfmRam.ideal, a1]
  · rw [show (r.begun s).bus.addrQ2 = (r.begun s).ideal.addrQ2 from rfl, ideal]
    simp [Bus.host, Bus.drive, SpfmRam.ideal, a2]
  · rw [show (r.begun s).bus.addrQ3 = (r.begun s).ideal.addrQ3 from rfl, ideal]
    simp [Bus.host, Bus.drive, SpfmRam.ideal, a3]

theorem begun_keeps (before : r.Before s) : r.Keeps ⟨s.start, .drive s.pins⟩ := by
  have still : r.ideal.falls (.drive s.pins) = false :=
    drive_falls (quiet_ideal.mpr before.quiet).rstN rfl
  refine (keeps_idle (e := ⟨s.start, .drive s.pins⟩) ?_ before.apart still).1
  rw [wake_write, filter_late before.write]

theorem rest_inactive (s : Strobe) : ∀ e ∈ s.rest, e.event.Inactive := by
  intro e mem
  rw [Strobe.rest, List.mem_append, List.mem_map, List.mem_cons] at mem
  obtain ⟨_, -, rfl⟩ | rfl | mem := mem
  · exact trivial
  · exact s.released
  · exact s.inactive e mem

/-- The gap up to its clock number `n`. -/
theorem clocks_split {gap : List Timed} (sorted : gap.Pairwise (·.time ≤ ·.time)) {n : Nat}
    (enough : n < ((gap.filter (·.event.isClock)).map Timed.time).length) :
    ∃ front back, gap = front ++ back ∧ n < (front.map Timed.event).countP HostEvent.isClock ∧
      ∃ x ∈ front, x.time = ((gap.filter (·.event.isClock)).map Timed.time).getD n 0 ∧
        ∀ e ∈ front, e.time ≤ x.time := by
  induction gap generalizing n with
  | nil => exact absurd enough (Nat.not_lt_zero n)
  | cons e rest ih =>
    obtain ⟨first, later⟩ := List.pairwise_cons.mp sorted
    have longer {n m : Nat} (front back : List Timed) (split : rest = front ++ back)
        (count : m < ((e :: front).map Timed.event).countP HostEvent.isClock)
        (last : ∃ x ∈ front, x.time = ((rest.filter (·.event.isClock)).map Timed.time).getD n 0 ∧
          ∀ e ∈ front, e.time ≤ x.time) :
        ∃ front back, e :: rest = front ++ back ∧
          m < (front.map Timed.event).countP HostEvent.isClock ∧ ∃ x ∈ front,
            x.time = ((rest.filter (·.event.isClock)).map Timed.time).getD n 0 ∧
              ∀ e ∈ front, e.time ≤ x.time := by
      obtain ⟨x, mem, time, bound⟩ := last
      refine ⟨e :: front, back, by rw [split]; rfl, count, x, List.mem_cons_of_mem e mem, time, ?_⟩
      intro y inside
      obtain rfl | inside := List.mem_cons.mp inside
      · exact first x (split ▸ List.mem_append_left back mem)
      · exact bound y inside
    cases clock : e.event.isClock with
    | true =>
      rw [List.filter_cons_of_pos (by exact clock), List.map_cons] at enough ⊢
      cases n with
      | zero =>
        refine ⟨[e], rest, rfl, by simp [clock], e, List.mem_singleton_self e, rfl, ?_⟩
        intro y inside
        rw [List.mem_singleton.mp inside]
      | succ n =>
        obtain ⟨front, back, split, count, last⟩ := ih later (Nat.lt_of_succ_lt_succ enough)
        exact longer front back split (by simpa [clock] using count) last
    | false =>
      rw [List.filter_cons_of_neg (by simp [clock])] at enough ⊢
      obtain ⟨front, back, split, count, last⟩ := ih later enough
      exact longer front back split (by simpa [clock] using count) last

/-- A strobe's events behind its second clock, with the first part of its gap. -/
def high (s : Strobe) (gap : List Timed) : List Timed :=
  (s.edges.drop 2).map (⟨·, .clock⟩) ++ ⟨s.stop, .drive s.release⟩ :: gap

/-- Its first two clocks. -/
def low (s : Strobe) : List Timed := (s.edges.take 2).map (⟨·, .clock⟩)

theorem rest_split (s : Strobe) : s.rest = low s ++ high s s.gap := by
  rw [low, high, ← List.append_assoc, ← List.map_append, List.take_append_drop]
  rfl

theorem low_events (s : Strobe) : (low s).map Timed.event = [.clock, .clock] := by
  obtain ⟨x, y, more, edges⟩ : ∃ x y more, s.edges = x :: y :: more := by
    have two := s.two_edges
    match h : s.edges, two with
    | x :: y :: more, _ => exact ⟨x, y, more, rfl⟩
  rw [low, edges]
  rfl

theorem high_events (s : Strobe) (gap : List Timed) : (high s gap).map Timed.event =
    List.replicate (s.edges.length - 2) .clock ++ .drive s.release :: gap.map Timed.event := by
  rw [high, List.map_append, List.map_map, List.map_cons, ← List.length_drop]
  congr 1
  exact List.map_const'

/-- The stores of a strobe without delays, and its end. -/
theorem begun_law (before : r.Before s) {g : List Timed} (part : ∀ e ∈ g, e ∈ s.gap) :
    let c := r.begun s
    c.ideal.stores ((low s).map Timed.event) = s.writes c.addr ∧
      ((c.hosts (low s)).ideal).stores ((high s g).map Timed.event) = [] ∧
      (3 ≤ (g.map Timed.event).countP HostEvent.isClock →
        (c.hosts (low s ++ high s g)).bus.Quiet ∧
        (c.hosts (low s ++ high s g)).addr = if s.a0 then c.addr else s.d) := by
  intro c
  have inactive : ∀ e ∈ s.rest, e.event.Inactive := rest_inactive s
  have front : ∀ e ∈ low s, e.event.Inactive := fun e mem =>
    inactive e (rest_split s ▸ List.mem_append_left _ mem)
  have all : ∀ e ∈ low s ++ high s g, e.event.Inactive := by
    intro e mem
    rw [List.mem_append, high, List.mem_append, List.mem_cons] at mem
    obtain mem | mem | rfl | mem := mem
    · exact front e mem
    · obtain ⟨_, -, rfl⟩ := List.mem_map.mp mem
      exact trivial
    · exact s.released
    · exact s.inactive e (part e mem)
  have events : ∀ h ∈ g.map Timed.event, h.Inactive := by
    intro h mem
    obtain ⟨e, inside, rfl⟩ := List.mem_map.mp mem
    exact s.inactive e (part e inside)
  let b : Bus := { r.ideal with regAddr := c.addr }
  have quiet : b.Quiet := by
    obtain ⟨le, rstN, a1, a2, a3, d1, d2⟩ := before.quiet
    exact ⟨le, rstN, a1, a2, a3, d1, d2⟩
  have ideal : c.ideal = b.host (.drive s.pins) := begun_ideal before.quiet
  obtain ⟨wrote, none, after⟩ := strobe_law quiet s (s.edges.length - 2) events
  have first : b.stored (.drive s.pins) = [] := stored_none (drive_falls quiet.rstN rfl)
  refine ⟨?_, ?_, fun three => ?_⟩
  · rw [stores_cons, first, ← ideal] at wrote
    rw [low_events]
    exact wrote
  · rw [(hosts_ideal _ front).1, low_events, high_events, ideal]
    exact none
  · have last := (hosts_ideal (r := c) _ all).1
    rw [List.map_append, low_events, high_events, ideal] at last
    obtain ⟨calm, addr⟩ := after three
    rw [← quiet_ideal, last]
    refine ⟨calm, ?_⟩
    exact (congrArg Bus.regAddr last).trans addr

theorem clocks_count (s : Strobe) :
    s.clocks.length = (s.gap.map Timed.event).countP HostEvent.isClock := by
  rw [Strobe.clocks, List.length_map, List.countP_map, List.countP_eq_length_filter]
  rfl

/-- The store of a data strobe starts at its second clock. -/
theorem strobe_write (before : r.Before s) (sorted : s.events.Pairwise (·.time ≤ ·.time)) :
    ∀ w ∈ (r.hosts s.events).write, w ≤ s.second + 55000 := by
  obtain ⟨-, none, -⟩ := begun_law before (g := s.gap) fun _ mem => mem
  have split : r.hosts s.events = ((r.begun s).hosts (low s)).hosts (high s s.gap) := by
    rw [← hosts_append, ← rest_split]
    rfl
  have times : ∀ e ∈ low s, e.time ≤ s.second := by
    have inner := (List.pairwise_cons.mp sorted).2
    rw [rest_split] at inner
    have front := (List.pairwise_append.mp inner).1
    rw [low] at front ⊢
    rw [Strobe.second]
    match h : s.edges, s.two_edges with
    | x :: y :: more, _ =>
      rw [h] at front
      have le : x ≤ y := (List.pairwise_cons.mp front).1 ⟨y, .clock⟩ (by simp)
      intro e mem
      simp only [List.take_succ_cons, List.take_zero, List.map_cons, List.map_nil, List.mem_cons,
        List.not_mem_nil, or_false] at mem
      obtain rfl | rfl := mem
      · exact le
      · exact Nat.le_refl y
  intro w mem
  rw [split] at mem
  have waits := write_stays (fun e inside => rest_inactive s e
    (rest_split s ▸ List.mem_append_right _ inside)) none w mem
  refine write_due (r := r.begun s) (fun w mem => ?_) times w waits
  rw [begun_write before] at mem
  cases mem

/-- The last sampling of an address strobe starts at the third clock behind it. -/
theorem strobe_sample (before : r.Before s) (sorted : s.events.Pairwise (·.time ≤ ·.time))
    (three : 3 ≤ s.clocks.length) : ∀ t ∈ (r.hosts s.events).sample, t ≤ s.third + 15000 := by
  have inner := (List.pairwise_cons.mp sorted).2
  rw [Strobe.rest] at inner
  obtain ⟨-, late, across⟩ := List.pairwise_append.mp inner
  obtain ⟨front, back, gap, count, x, mem, third, bound⟩ :=
    clocks_split (List.pairwise_cons.mp late).2 (n := 2) three
  have inside : ∀ e ∈ front, e ∈ s.gap := fun e mem => gap ▸ List.mem_append_left back mem
  obtain ⟨-, -, quiet⟩ := begun_law before inside
  have whole : r.hosts s.events =
      ((r.begun s).hosts (low s ++ high s front)).hosts back := by
    rw [← hosts_append, List.append_assoc]
    have parts : high s front ++ back = high s s.gap := by
      rw [high, high, gap]
      simp
    rw [parts, ← rest_split]
    rfl
  have third_le {n : Nat} (h : n ≤ x.time) : n ≤ s.third := by rwa [Strobe.third, Strobe.clocks, ← third]
  have times : ∀ e ∈ low s ++ high s front, e.time ≤ s.third := by
    have edges : low s ++ high s front =
        s.edges.map (⟨·, .clock⟩) ++ ⟨s.stop, .drive s.release⟩ :: front := by
      rw [low, high, ← List.append_assoc, ← List.map_append, List.take_append_drop]
    intro e here
    rw [edges, List.mem_append, List.mem_cons] at here
    refine third_le ?_
    obtain here | rfl | here := here
    · exact across e here x (List.mem_cons_of_mem _ (inside x mem))
    · exact (List.pairwise_cons.mp late).1 x (inside x mem)
    · exact bound e here
  have start : s.start ≤ s.third := by
    refine third_le ((List.pairwise_cons.mp sorted).1 x ?_)
    rw [Strobe.rest]
    exact List.mem_append_right _ (List.mem_cons_of_mem _ (inside x mem))
  intro t waits
  rw [whole] at waits
  have mid := sample_stays (quiet count).1
    (fun e mem => s.inactive e (gap ▸ List.mem_append_right front mem)) t waits
  refine sample_due (r := r.begun s) (fun t mem => ?_) times t mid
  rw [begun_sample, Option.mem_filter_iff] at mem
  have := before.sample t mem.1
  omega

/-- **A strobe** starts its store and nothing else. -/
theorem strobe_kept (before : r.Before s) (sorted : s.events.Pairwise (·.time ≤ ·.time)) :
    r.Kept s.events ∧ r.orders s.events = s.writes r.addr ∧
      (3 ≤ s.clocks.length → (r.hosts s.events).After s ∧
        (r.hosts s.events).addr = if s.a0 then r.addr else s.d) := by
  obtain ⟨wrote, none, after⟩ := begun_law before (g := s.gap) fun _ mem => mem
  rw [← rest_split] at after
  have inactive := rest_inactive s
  have stores : (r.begun s).ideal.stores (s.rest.map Timed.event) =
      s.writes (r.begun s).addr := by
    have front : ∀ e ∈ low s, e.event.Inactive := fun e mem =>
      inactive e (rest_split s ▸ List.mem_append_left _ mem)
    rw [rest_split, List.map_append, stores_append, wrote, ← (hosts_ideal _ front).1, none,
      List.append_nil]
  have first : r.ideal.stored (.drive s.pins) = [] :=
    stored_none (drive_falls (quiet_ideal.mpr before.quiet).rstN rfl)
  have orders : r.orders s.events = s.writes (r.begun s).addr := by
    change r.ideal.stored (.drive s.pins) ++ (r.begun s).orders s.rest = _
    rw [first, (hosts_ideal _ inactive).2, stores]
    rfl
  have begins := begun_keeps before
  have left (three : 3 ≤ s.clocks.length) (idle : if s.a0 then (r.hosts s.events).sample = .none
      else (r.hosts s.events).write = .none) : (r.hosts s.events).After s :=
    ⟨(after (clocks_count s ▸ three)).1, idle, strobe_write before sorted,
      strobe_sample before sorted three⟩
  cases data : s.a0 with
  | true =>
    obtain ⟨-, addr⟩ := begun_addr before data
    have one : (r.begun s).owed.length +
        ((r.begun s).ideal.stores (s.rest.map Timed.event)).length ≤ 1 := by
      rw [stores, owed, begun_write before, Strobe.writes, data]
      exact Nat.le_refl 1
    obtain ⟨kept, still⟩ := kept_data (begun_still before data) inactive one
    refine ⟨⟨before.apart, begins, kept⟩, ?_, fun three => ⟨left three ?_, ?_⟩⟩
    · rw [orders, addr]
    · rw [data]
      exact still.sample
    · have last := (after (clocks_count s ▸ three)).2
      rw [data, addr] at last
      exact last
  | false =>
    have silent : (r.begun s).ideal.stores (s.rest.map Timed.event) = [] := by
      rw [stores, Strobe.writes, data]
      rfl
    obtain ⟨kept, idle⟩ := kept_address (begun_write before) inactive silent
    refine ⟨⟨before.apart, begins, kept⟩, ?_, fun three => ⟨left three ?_, ?_⟩⟩
    · rw [orders, Strobe.writes, Strobe.writes, data]
      rfl
    · rw [data]
      exact idle
    · have last := (after (clocks_count s ▸ three)).2
      rw [data] at last
      exact last

/-! ## A sequence of strobes -/

theorem after_before {t : Strobe} (after : r.After s) (clears : s.Clears t)
    (order : s.third ≤ t.start) : r.Before t := by
  obtain ⟨quiet, idle, write, sample⟩ := after
  rw [Strobe.Clears] at clears
  cases data : s.a0 with
  | true =>
    rw [data] at idle clears
    refine ⟨quiet, .inr idle, fun w mem => ?_, fun _ u mem => ?_, fun u mem => ?_⟩
    · exact Nat.lt_of_le_of_lt (write w mem) clears
    · rw [show r.sample = none from idle] at mem
      cases mem
    · rw [show r.sample = none from idle] at mem
      cases mem
  | false =>
    rw [data] at idle clears
    refine ⟨quiet, .inl idle, fun w mem => ?_, fun again u mem => ?_, fun u mem => ?_⟩
    · rw [show r.write = none from idle] at mem
      cases mem
    · exact Nat.lt_of_le_of_lt (sample u mem) (clears again)
    · have := sample u mem
      omega

theorem strobes_kept (strobes : List Strobe) (apart : r.Apart)
    (before : ∀ s ∈ strobes.head?, r.Before s) (ordered : Ordered strobes)
    (spaced : Spaced strobes) (clears : strobes.IsChain Strobe.Clears) :
    r.Kept (strobes.flatMap Strobe.events) ∧
      r.orders (strobes.flatMap Strobe.events) = dataWrites r.addr strobes := by
  induction strobes generalizing r with
  | nil => exact ⟨apart, rfl⟩
  | cons s rest ih =>
    rw [Ordered, List.flatMap_cons] at ordered
    obtain ⟨sorted, later, across⟩ := List.pairwise_append.mp ordered
    obtain ⟨kept, wrote, after⟩ := strobe_kept (before s rfl) sorted
    rw [List.flatMap_cons, orders, Trace.outputs_append, dataWrites_cons]
    change _ ∧ r.orders s.events ++ (r.hosts s.events).orders _ = _
    rw [wrote]
    cases rest with
    | nil => exact ⟨by rwa [List.flatMap_nil, List.append_nil], rfl⟩
    | cons t more =>
      have three : 3 ≤ s.clocks.length := spaced s (by simp)
      obtain ⟨left, addr⟩ := after three
      obtain ⟨next, chain⟩ := List.isChain_cons_cons.mp clears
      have order : s.third ≤ t.start := by
        have inner := (List.pairwise_cons.mp sorted).2
        rw [Strobe.rest] at inner
        obtain ⟨-, late, -⟩ := List.pairwise_append.mp inner
        obtain ⟨front, back, gap, -, x, mem, third, -⟩ :=
          clocks_split (List.pairwise_cons.mp late).2 (n := 2) three
        have last := across x ?_ ⟨t.start, .drive t.pins⟩ (by simp [Strobe.events])
        · rwa [third] at last
        · rw [Strobe.events, Strobe.rest, gap]
          simp [mem]
      have ready := after_before left next order
      obtain ⟨keeps, told⟩ := ih (r := r.hosts s.events) ready.apart
        (fun u mem => Option.some.inj mem ▸ ready) later
        (fun u mem => spaced u (by simp [mem])) chain
      refine ⟨kept_append kept keeps, ?_⟩
      rw [told, addr]

/-- The RAM takes what it stores. -/
theorem hosts_mem (es : List Timed) : (r.hosts es).mem = (r.stores es).foldl
    (fun mem w => Function.update mem (0#7 ++ w.1) w.2) r.mem := by
  have moved (r : SpfmRam) (e : Timed) : True → True → (r.host e).mem = (r.puts e.time).foldl
      (fun mem w => Function.update mem (0#7 ++ w.1) w.2) r.mem := fun _ _ => host_mem
  exact Trace.view_run SpfmRam.mem (fun _ _ _ _ => trivial) moved trivial es fun _ _ => trivial

end

end SpfmRam

/-- **The RAM is the fold of the data writes** when all of them are through, and at any time it
is the fold of the first of them, so no other cell has changed. -/
theorem spfm_fold {r : SpfmRam} (rests : r.Rests) (strobes : List Strobe)
    (ordered : Ordered strobes) (spaced : Spaced strobes)
    (clears : strobes.IsChain Strobe.Clears) :
    let es := strobes.flatMap Strobe.events
    let writes := dataWrites r.bus.regAddr strobes
    (∀ t, (∀ e ∈ es, e.time + 55000 ≤ t) → r.stores es ++ (r.hosts es).puts t = writes ∧
      ((r.hosts es).wake t).mem =
        writes.foldl (fun mem w => Function.update mem (0#7 ++ w.1) w.2) r.mem) ∧
    ∀ n t, ∃ m, ((r.hosts (es.take n)).wake t).mem =
      (writes.take m).foldl (fun mem w => Function.update mem (0#7 ++ w.1) w.2) r.mem := by
  intro es writes
  obtain ⟨quiet, sample, write⟩ := rests
  have before (s : Strobe) : r.Before s := by
    refine ⟨quiet, .inl write, ?_, ?_, ?_⟩
    · rw [write]
      nofun
    · rw [sample]
      nofun
    · rw [sample]
      nofun
  obtain ⟨kept, told⟩ := SpfmRam.strobes_kept strobes (.inl write) (fun s _ => before s) ordered
    spaced clears
  have addr : r.addr = r.bus.regAddr := by
    rw [SpfmRam.addr, sample]
    rfl
  rw [addr] at told
  have free : r.owed = [] := by
    rw [SpfmRam.owed, write]
    rfl
  -- what is stored by a time, and what is owed then
  have total (n t : Nat) : r.stores (es.take n) ++ (r.hosts (es.take n)).puts t ++
      ((r.hosts (es.take n)).wake t).owed = r.orders (es.take n) := by
    have part := SpfmRam.kept_take kept n
    rw [List.append_assoc, SpfmRam.wake_owed (SpfmRam.kept_apart part), SpfmRam.kept_total part,
      free, List.nil_append]
  have mem (n t : Nat) : ((r.hosts (es.take n)).wake t).mem =
      (r.stores (es.take n) ++ (r.hosts (es.take n)).puts t).foldl
        (fun mem w => Function.update mem (0#7 ++ w.1) w.2) r.mem := by
    rw [SpfmRam.wake_mem, SpfmRam.hosts_mem, List.foldl_append]
  constructor
  · intro t late
    have through : ((r.hosts es).wake t).owed = [] := by
      have none : ((r.hosts es).wake t).write = none := by
        rw [SpfmRam.wake_write, Option.filter_eq_none_iff]
        intro w waits
        have due : w ≤ t := by
          by_cases soon : t < 55000
          · have empty : es = [] := by
              by_contra some
              obtain ⟨e, inside⟩ := List.exists_mem_of_ne_nil es some
              have := late e inside
              omega
            rw [empty, SpfmRam.hosts, List.foldl_nil, write] at waits
            cases waits
          · have times : ∀ e ∈ es, e.time ≤ t - 55000 := by
              intro e inside
              have := late e inside
              omega
            have bound := SpfmRam.write_due (by rw [write]; nofun) times w waits
            omega
        simpa using due
      rw [SpfmRam.owed, none]
      rfl
    have all := total es.length t
    have whole := mem es.length t
    rw [List.take_length] at all whole
    rw [through, List.append_nil] at all
    exact ⟨all.trans told, whole.trans (by rw [all.trans told])⟩
  · intro n t
    have pre : r.stores (es.take n) ++ (r.hosts (es.take n)).puts t <+: writes := by
      have first : r.orders (es.take n) <+: r.orders es := by
        have parts := @Trace.outputs_append _ _ _ SpfmRam.host
          (fun r e => r.ideal.stored e.event) r (es.take n) (es.drop n)
        rw [List.take_append_drop] at parts
        exact ⟨_, parts.symm⟩
      rw [told] at first
      exact List.IsPrefix.trans ⟨_, total n t⟩ first
    refine ⟨(r.stores (es.take n) ++ (r.hosts (es.take n)).puts t).length, ?_⟩
    rw [← List.prefix_iff_eq_take.mp pre]
    exact mem n t

/-- The registers as they power up. -/
def SpfmRam.powerUp (mem : Ram) : SpfmRam := ⟨(Core.powerUp mem).bus, mem, none, none⟩

/-- The shortest strobe with the shortest gap behind it. -/
def Strobe.short (start first period : Nat) (a0 : Bool) (d : Byte) : Strobe where
  a0 := a0
  d := d
  start := start
  edges := [first, first + period]
  stop := first + period
  release := Pins.idle
  gap := [2, 3, 4].map fun k => ⟨first + k * period, .clock⟩
  two_edges := Nat.le_refl 2
  released := ⟨rfl, rfl⟩
  inactive e mem := by
    obtain ⟨_, -, rfl⟩ := List.mem_map.mp mem
    trivial

/-- Strobes from falling edge to falling edge of a clock of 10 MHz. -/
def shortStrobes : List Strobe :=
  [.short 0 50000 100000 false 0x12, .short 500000 550000 100000 true 0x34,
    .short 1000000 1050000 100000 true 0x56, .short 1500000 1550000 100000 false 0x13,
    .short 2000000 2050000 100000 true 0x78]

instance (strobes : List Strobe) : Decidable (Ordered strobes) :=
  inferInstanceAs (Decidable (List.Pairwise _ _))

instance (strobes : List Strobe) : Decidable (Spaced strobes) :=
  inferInstanceAs (Decidable (∀ s ∈ _, 3 ≤ _))

instance (s t : Strobe) : Decidable (s.Clears t) := inferInstanceAs (Decidable (ite _ _ _))

theorem spfm_fold_short :
    (((SpfmRam.powerUp fun _ => 0).hosts (shortStrobes.flatMap Strobe.events)).wake 3000000).mem =
      [((0x12 : Byte), (0x34 : Byte)), (0x12, 0x56), (0x13, 0x78)].foldl
        (fun mem w => Function.update mem (0#7 ++ w.1) w.2) fun _ => 0 := by
  have rests : (SpfmRam.powerUp fun _ => 0).Rests := ⟨⟨rfl, rfl, rfl, rfl, rfl, rfl, rfl⟩, rfl, rfl⟩
  have law := spfm_fold rests shortStrobes (by decide) (by decide) (by decide)
  exact (law.1 3000000 (by decide)).2

/-- At 10 MHz, a data strobe 5 ns after the third clock: its byte is the address. At 62.5 MHz,
an address strobe 50 ns after the data's second clock: the address is the byte. -/
theorem spfm_misplaced :
    let late := [.short 0 50000 100000 false 0x12, .short 455000 550000 100000 true 0x34]
    let fast := [.short 0 8000 16000 false 0x12, .short 90000 104000 16000 true 0x34,
      .short 170000 184000 16000 false 0x13]
    let mem (strobes : List Strobe) : Ram :=
      (((SpfmRam.powerUp fun _ => 0).hosts (strobes.flatMap Strobe.events)).wake 2000000).mem
    (Ordered late ∧ Spaced late ∧ dataWrites 0 late = [(0x12, 0x34)] ∧
      (mem late 0x12, mem late 0x34) = (0, 0x34)) ∧
    Ordered fast ∧ Spaced fast ∧ dataWrites 0 fast = [(0x12, 0x34)] ∧ mem fast 0x12 = 0x13 := by
  decide +kernel

end Chiptune.Wt3
