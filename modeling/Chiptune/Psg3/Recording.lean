import Chiptune.Psg3.Song
import Chiptune.Replay

/-!
# The recorded square events

`Recorder` notes a call only if it changes the value, `dump_song` merges the notes of
the square with those of the noise by a stable sort, and `play_song` writes them as
they become due. `replay_told` says that the registers of the square never miss a call
that way, as long as the recorder's time does not go back.
-/

namespace Chiptune.Psg3

open Replay

/-- The calls of `Recorder`, and the assignments to its attributes. -/
inductive RecorderCall (F : Type) where
  | advance (ms : Int)
  | curMs (ms : Int)
  | setPeriod (p : Int)
  | writeCtrl (vol : Int)
  | freq (hz : F)
  | tone (duty ref mode : Int)

section
variable {F : Type} (f : SongFloats F)

def Recorder.freq (rec : Recorder) (hz : F) : Recorder :=
  if f.positive hz then rec.setPeriod (f.freqPeriod hz) else rec

def Recorder.call (rec : Recorder) : RecorderCall F → Recorder
  | .advance ms => rec.advance ms
  | .curMs ms => { rec with curMs := ms }
  | .setPeriod p => rec.setPeriod p
  | .writeCtrl vol => rec.writeCtrl vol
  | .freq hz => rec.freq f hz
  | .tone duty ref mode => { rec with psg := ⟨duty, ref, mode⟩ }

def Recorder.start (psg : Psg) : Recorder := ⟨[], 0, none, none, psg⟩

/-- What the calls write, repeated or not. -/
def writes (ms : Int) (psg : Psg) : List (RecorderCall F) → List Event
  | [] => []
  | .advance more :: calls => writes (ms + more) psg calls
  | .curMs ms' :: calls => writes ms' psg calls
  | .setPeriod p :: calls => ⟨ms, .sqPeriod, p⟩ :: writes ms psg calls
  | .writeCtrl vol :: calls => ⟨ms, .sqCtrl, (psg.ctrl vol).toNat⟩ :: writes ms psg calls
  | .freq hz :: calls =>
    if f.positive hz then ⟨ms, .sqPeriod, f.freqPeriod hz⟩ :: writes ms psg calls
    else writes ms psg calls
  | .tone duty ref mode :: calls => writes ms ⟨duty, ref, mode⟩ calls

/-- The time does not go back. -/
def Forward (ms : Int) : List (RecorderCall F) → Prop
  | [] => True
  | .advance more :: calls => 0 ≤ more ∧ Forward (ms + more) calls
  | .curMs ms' :: calls => ms ≤ ms' ∧ Forward ms' calls
  | .setPeriod _ :: calls => Forward ms calls
  | .writeCtrl _ :: calls => Forward ms calls
  | .freq _ :: calls => Forward ms calls
  | .tone _ _ _ :: calls => Forward ms calls

/-! ## The player -/

/-- The one-hot address. -/
def Event.addr (e : Event) : Byte :=
  match e.track with
  | .sqPeriod => 0x01
  | .sqCtrl => 0x02
  | .noise => 0x04

/-- `set_period` clamps, `_bus_write` takes the byte. -/
def Event.byte (e : Event) : Byte :=
  match e.track with
  | .sqPeriod => low (clamp 0 255 e.data)
  | .sqCtrl => low e.data
  | .noise => low e.data

def Event.time (e : Event) : ℚ := e.ms

/-- The list of `dump_song`. -/
def dumpSong (events : List Event) (totalMs : Int) : List Event :=
  byTime Event.time events ++ [⟨totalMs, .sqCtrl, 0⟩, ⟨totalMs, .noise, 0⟩]

/-! ## The recorder -/

def Recorder.last (rec : Recorder) : Track → Option Int
  | .sqPeriod => rec.sqPeriod
  | .sqCtrl => rec.sqCtrl.map fun b => (b.toNat : Int)
  | .noise => none

/-- The recorder's answer to the write `e`: it is the last value, or it is noted. -/
inductive Noted (rec rec' : Recorder) (e : Event) : Prop where
  | repeated (same : rec.last e.track = some e.data) (eq : rec' = rec)
  | noted (new : rec.last e.track ≠ some e.data) (events : rec'.events = rec.events ++ [e])
      (last : rec'.last = Function.update rec.last e.track (some e.data))
      (curMs : rec'.curMs = rec.curMs) (psg : rec'.psg = rec.psg)

theorem setPeriod_noted (rec : Recorder) (p : Int) :
    Noted rec (rec.setPeriod p) ⟨rec.curMs, .sqPeriod, p⟩ := by
  by_cases same : rec.sqPeriod = some p
  · exact .repeated same (if_pos same)
  · rw [Recorder.setPeriod, if_neg same]
    refine .noted same rfl ?_ rfl rfl
    funext track
    cases track <;> simp [Recorder.last]

theorem writeCtrl_noted (rec : Recorder) (vol : Int) :
    Noted rec (rec.writeCtrl vol) ⟨rec.curMs, .sqCtrl, (rec.psg.ctrl vol).toNat⟩ := by
  have ctrl : rec.last .sqCtrl = some ((rec.psg.ctrl vol).toNat : Int) ↔
      rec.sqCtrl = some (rec.psg.ctrl vol) := by
    cases h : rec.sqCtrl <;> simp [Recorder.last, h, BitVec.toNat_inj]
  by_cases same : rec.sqCtrl = some (rec.psg.ctrl vol)
  · exact .repeated (ctrl.mpr same) (if_pos same)
  · rw [Recorder.writeCtrl, if_neg same]
    refine .noted (fun h => same (ctrl.mp h)) rfl ?_ rfl rfl
    funext track
    cases track <;> simp [Recorder.last]

/-- The events are the writes that change something. -/
theorem record_events (rec : Recorder) (calls : List (RecorderCall F)) :
    (calls.foldl (Recorder.call f) rec).events =
      rec.events ++ suppress Event.track Event.data rec.last (writes f rec.curMs rec.psg calls) := by
  induction calls generalizing rec with
  | nil => simp [writes, suppress]
  | cons call calls ih =>
    have noted {rec' : Recorder} {e : Event} (h : Noted rec rec' e) :
        (calls.foldl (Recorder.call f) rec').events = rec.events ++
          suppress Event.track Event.data rec.last (e :: writes f rec.curMs rec.psg calls) := by
      rw [ih, suppress]
      cases h with
      | repeated same eq => rw [eq, if_pos same]
      | noted new events last curMs psg =>
        rw [if_neg new, events, last, curMs, psg, List.append_assoc, List.singleton_append]
    rw [List.foldl_cons]
    cases call with
    | advance | curMs | tone => exact ih _
    | setPeriod p => exact noted (setPeriod_noted rec p)
    | writeCtrl vol => exact noted (writeCtrl_noted rec vol)
    | freq hz =>
      simp only [Recorder.call, Recorder.freq, writes]
      split
      · exact noted (setPeriod_noted rec _)
      · exact ih rec

/-- What is written from `ms` on stands in order. -/
theorem writes_ordered {ms : Int} {psg : Psg} {calls : List (RecorderCall F)}
    (forward : Forward ms calls) :
    (∀ e ∈ writes f ms psg calls, ms ≤ e.ms) ∧
      (writes f ms psg calls).Pairwise fun a b => a.time ≤ b.time := by
  induction calls generalizing ms psg with
  | nil => simp [writes]
  | cons call calls ih =>
    have here {psg' : Psg} (e : Event) (now : e.ms = ms) (forward : Forward ms calls) :
        (∀ e' ∈ e :: writes f ms psg' calls, ms ≤ e'.ms) ∧
          (e :: writes f ms psg' calls).Pairwise fun a b => a.time ≤ b.time := by
      obtain ⟨after, ordered⟩ := @ih ms psg' forward
      refine ⟨List.forall_mem_cons.mpr ⟨now.ge, after⟩, List.pairwise_cons.mpr ⟨?_, ordered⟩⟩
      intro e' he'
      have := after e' he'
      simp only [Event.time, now]
      exact_mod_cast this
    have later {ms' : Int} (le : ms ≤ ms') (forward : Forward ms' calls) :
        (∀ e ∈ writes f ms' psg calls, ms ≤ e.ms) ∧
          (writes f ms' psg calls).Pairwise fun a b => a.time ≤ b.time := by
      obtain ⟨after, ordered⟩ := @ih ms' psg forward
      exact ⟨fun e he => le.trans (after e he), ordered⟩
    cases call with
    | advance more => exact later (by have := forward.1; omega) forward.2
    | curMs ms' => exact later forward.1 forward.2
    | setPeriod p => exact here _ rfl forward
    | writeCtrl vol => exact here _ rfl forward
    | freq hz =>
      rw [writes]
      split
      · exact here _ rfl forward
      · exact ih forward
    | tone => exact ih forward

/-- The byte at an address follows from the data of its track. -/
theorem leftAt_port {track : Track} {addr : Byte}
    (port : ∀ e : Event, e.addr = addr ↔ e.track = track) (T : ℚ) (events : List Event) :
    leftAt Event.time Event.addr Event.byte T addr events =
      (leftAt Event.time Event.track Event.data T track events).map
        fun data => Event.byte ⟨0, track, data⟩ := by
  have byte : ∀ e : Event, e.track = track → e.byte = Event.byte ⟨0, track, e.data⟩ := by
    rintro ⟨ms, _, data⟩ rfl
    rfl
  rw [← leftAt_map (g := fun data => Event.byte ⟨0, track, data⟩) byte]
  simp only [leftAt, port]

theorem leftAt_recorded {psg : Psg} {calls : List (RecorderCall F)} (forward : Forward 0 calls)
    {noise : List Event} (only : ∀ e ∈ noise, e.track = .noise) (T : ℚ) {track : Track}
    (square : track ≠ .noise) {addr : Byte}
    (port : ∀ e : Event, e.addr = addr ↔ e.track = track) :
    leftAt Event.time Event.addr Event.byte T addr
        (byTime Event.time ((calls.foldl (Recorder.call f) (.start psg)).events ++ noise)) =
      leftAt Event.time Event.addr Event.byte T addr (writes f 0 psg calls) := by
  obtain ⟨-, ordered⟩ := @writes_ordered _ f 0 psg calls forward
  have other : ∀ e ∈ noise, e.addr ≠ addr := fun e he h =>
    square (((port e).mp h).symm.trans (only e he))
  have recorded : (calls.foldl (Recorder.call f) (.start psg)).events =
      suppress Event.track Event.data (fun _ => none) (writes f 0 psg calls) := by
    have last : (Recorder.start psg).last = fun _ => none := by
      funext track
      cases track <;> rfl
    rw [record_events, last]
    rfl
  rw [leftAt_byTime, leftAt_append_of_forall _ other, leftAt_port port, leftAt_port port, recorded]
  · have same : (leftAt Event.time Event.track Event.data T track
        (suppress Event.track Event.data (fun _ => none) (writes f 0 psg calls))).or none =
          (leftAt Event.time Event.track Event.data T track (writes f 0 psg calls)).or none :=
      leftAt_suppress (fun _ => none) ordered T track
    rw [Option.or_none, Option.or_none] at same
    rw [same]
  · have none : (noise.filter fun e => e.addr = addr) = [] := by
      rw [List.filter_eq_nil_iff]
      intro e he
      simpa using other e he
    rw [List.filter_append, none, List.append_nil, recorded]
    exact ordered.sublist (List.filter_sublist.trans (suppress_sublist _ _))

/-- At every time at which `play_song` has written what is due, the registers hold what the
calls up to then wrote. The silence that `dump_song` puts behind the sorted events is not
due before the end of the song. -/
theorem replay_told (psg : Psg) (calls : List (RecorderCall F)) (forward : Forward 0 calls)
    (noise : List Event) (only : ∀ e ∈ noise, e.track = .noise) (tail : List Event) (T : ℚ)
    (later : ∀ e ∈ tail, T < e.time) (regs : Byte → Byte) (clock : List ℚ)
    (upTo : ∀ now ∈ clock, now ≤ T)
    (settled : Settled Event.time T (play Event.time Event.addr Event.byte
      ⟨byTime Event.time ((calls.foldl (Recorder.call f) (.start psg)).events ++ noise) ++ tail,
        regs⟩ clock)) :
    let s := play Event.time Event.addr Event.byte
      ⟨byTime Event.time ((calls.foldl (Recorder.call f) (.start psg)).events ++ noise) ++ tail,
        regs⟩ clock
    s.regs 0x01 = (leftAt Event.time Event.addr Event.byte T 0x01 (writes f 0 psg calls)).getD
        (regs 0x01) ∧
      s.regs 0x02 = (leftAt Event.time Event.addr Event.byte T 0x02 (writes f 0 psg calls)).getD
        (regs 0x02) := by
  have left := play_leftAt upTo (byTime_ordered _) later settled
  have period : ∀ e : Event, e.addr = 0x01 ↔ e.track = .sqPeriod := by
    rintro ⟨ms, track, data⟩
    cases track <;> simp [Event.addr]
  have ctrl : ∀ e : Event, e.addr = 0x02 ↔ e.track = .sqCtrl := by
    rintro ⟨ms, track, data⟩
    cases track <;> simp [Event.addr]
  constructor
  · rw [left, leftAt_recorded f forward only T (by decide) period]
  · rw [left, leftAt_recorded f forward only T (by decide) ctrl]

end

/-- A repeated period, which the player clamps, and a noise event at the time of a volume. -/
def repeatedCalls : List (RecorderCall Int) :=
  [.setPeriod 300, .writeCtrl 20, .advance 5, .setPeriod 300, .tone 0 1 0, .writeCtrl 3]

theorem replay_told_repeated :
    let s := play Event.time Event.addr Event.byte
      ⟨dumpSong ((repeatedCalls.foldl (Recorder.call songThousandths) (.start ⟨3, 0, 0⟩)).events ++
        [⟨5, .noise, 15⟩]) 9, fun _ => 0⟩ (List.replicate 6 5)
    s.regs 0x01 = 0xFF ∧ s.regs 0x02 = 0x43 := by
  have told := replay_told songThousandths ⟨3, 0, 0⟩ repeatedCalls (by simp [repeatedCalls, Forward])
    [⟨5, .noise, 15⟩] (by simp) [⟨9, .sqCtrl, 0⟩, ⟨9, .noise, 0⟩] 5
    (by simp [Event.time]; norm_num) (fun _ => 0) (List.replicate 6 5)
    (fun now h => (List.eq_of_mem_replicate h).le)
    (settles 5 _ (by simp [byTime, repeatedCalls, Recorder.start, Recorder.call]; decide))
  have period : leftAt Event.time Event.addr Event.byte (5 : ℚ) 0x01
      (writes songThousandths 0 ⟨3, 0, 0⟩ repeatedCalls) = some 0xFF := by
    decide
  have ctrl : leftAt Event.time Event.addr Event.byte (5 : ℚ) 0x02
      (writes songThousandths 0 ⟨3, 0, 0⟩ repeatedCalls) = some 0x43 := by
    decide
  rw [period, ctrl] at told
  exact told

end Chiptune.Psg3
