import Chiptune.Psg3.SongCalls
import Chiptune.Psg3.Top

/-!
# A song on the chip

`dump_song` records a song, `play_song` writes what is due over the bus, and the v0.4 chip
plays what its registers hold. At a time at which everything due is written, the ear has
the last period and the last control byte that were recorded up to then.
-/

namespace Chiptune.Psg3

open Replay

/-- The events that `play_song` has written after these looks at its clock. -/
def written (events : List Event) (clock : List ℚ) : List Event :=
  let s : Replay.Player Event Byte Byte :=
    play Event.time Event.addr Event.byte ⟨events, fun _ => 0⟩ clock
  events.take (events.length - s.rest.length)

/-- The commands of these writes. -/
def eventCommands (events : List Event) : List Cmd :=
  events.flatMap fun e => busWrite e.addr e.byte

/-- The register behind the address. -/
def Track.reg : Track → Fin 8
  | .sqPeriod => 0
  | .sqCtrl => 1
  | .noise => 2

theorem addr_reg (e : Event) : e.addr = (1 : Byte) <<< e.track.reg.val := by
  obtain ⟨ms, track, data⟩ := e
  cases track <;> rfl

theorem one_hot_inj {n k : Fin 8} : (1 : Byte) <<< n.val = (1 : Byte) <<< k.val ↔ n = k := by
  revert n k
  decide

theorem written_store {events : List Event} {T : ℚ} {clock : List ℚ}
    (upTo : ∀ now ∈ clock, now ≤ T) :
    (play Event.time Event.addr Event.byte ⟨events, fun _ => (0 : Byte)⟩ clock).regs =
      store Event.addr Event.byte (fun _ => 0) (written events clock) := by
  obtain ⟨front, all, -, (regs : (play Event.time Event.addr Event.byte _ clock).regs = _)⟩ := play_front upTo
    (⟨events, fun _ => (0 : Byte)⟩ : Replay.Player Event Byte Byte)
  have front_eq : written events clock = front := by
    simp only at all
    rw [written]
    generalize (play Event.time Event.addr Event.byte _ clock).rest = rest at all ⊢
    rw [all, List.length_append, Nat.add_sub_cancel, List.take_left]
  rw [front_eq]
  exact regs

/-- The registers of the chip are those of the player. -/
theorem run_events {events : List Event} {b t : Bus} {g : Byte → Byte} (ready : b.d = idle)
    (regs : ∀ n : Fin 8, b.regs n = g ((1 : Byte) <<< n.val)) (run : Bus.Runs (eventCommands events) b t) :
    t.d = idle ∧ ∀ n : Fin 8, t.regs n = store Event.addr Event.byte g events ((1 : Byte) <<< n.val) := by
  induction events generalizing b g with
  | nil =>
    rw [run.last]
    exact ⟨ready, regs⟩
  | cons e rest ih =>
    have oneHot : e.addr = 1 <<< e.track.reg.val := by
      obtain ⟨ms, track, data⟩ := e
      cases track <;> rfl
    obtain ⟨s, pins, wrote, later⟩ := sent_write e.track.reg oneHot ready run
    refine ih pins (fun n => ?_) later
    rw [wrote]
    simp only [Function.update_apply, addr_reg, regs]
    simp only [one_hot_inj]

/-- Nothing is written to register 6, which has the noise. -/
theorem store_noise (g : Byte → Byte) (events : List Event) :
    store Event.addr Event.byte g events 0x40 = g 0x40 := by
  induction events generalizing g with
  | nil => rfl
  | cons e rest ih =>
    have other : (0x40 : Byte) ≠ e.addr := by
      rw [addr_reg]
      cases e.track <;> decide
    exact (ih _).trans (Function.update_of_ne other _ _)

/-! ## What is due -/

section
variable {F : Type} (f : SongFloats F) (s : Score F)

theorem recorded_ordered {psg : Psg} {calls : List (RecorderCall F)} (forward : Forward 0 calls) :
    (calls.foldl (Recorder.call f) (.start psg)).events.Pairwise fun a b => a.time ≤ b.time := by
  rw [record_events]
  exact (writes_ordered f forward).2.sublist (suppress_sublist _ _)

/-- The registers that a song leaves at `T`. -/
theorem song_left {notesLines : List (List Item)}
    (nonneg : ∀ item ∈ notesLines.flatten, 0 ≤ wholeMs s.beatT item) {T : ℚ} {clock : List ℚ}
    {totalMs : Int} (early : T < totalMs) (upTo : ∀ now ∈ clock, now ≤ T)
    (settled : Settled Event.time T (play Event.time Event.addr Event.byte
      ⟨dumpSong (dumpTracks f s notesLines).1 totalMs, fun _ => (0 : Byte)⟩ clock))
    {track : Track} (square : track ≠ .noise) {data : Int}
    (last : leftAt Event.time Event.track Event.data T track (dumpTracks f s notesLines).1 =
      some data) :
    (play Event.time Event.addr Event.byte
      ⟨dumpSong (dumpTracks f s notesLines).1 totalMs, fun _ => (0 : Byte)⟩ clock).regs
        ((1 : Byte) <<< track.reg.val) = Event.byte ⟨0, track, data⟩ := by
  have port : ∀ e : Event, e.addr = (1 : Byte) <<< track.reg.val ↔ e.track = track := by
    intro e
    rw [addr_reg, one_hot_inj]
    cases track <;> cases e.track <;> decide
  obtain ⟨calls, noise, forward, only, events⟩ := dumpTracks_calls f s notesLines nonneg
  have later : ∀ e ∈ [(⟨totalMs, .sqCtrl, 0⟩ : Event), ⟨totalMs, .noise, 0⟩], T < e.time := by
    simpa [Event.time] using early
  have left := play_leftAt upTo (byTime_ordered _) later settled ((1 : Byte) <<< track.reg.val)
  rw [events] at last
  have inOrder : (((calls.foldl (Recorder.call f) (.start s.psg)).events ++ noise).filter
      fun e => e.track = track).Pairwise fun a b => a.time ≤ b.time := by
    have none : (noise.filter fun e => e.track = track) = [] := by
      rw [List.filter_eq_nil_iff]
      intro e he
      simpa [only e he] using square.symm
    rw [List.filter_append, none, List.append_nil]
    exact (recorded_ordered f forward).sublist List.filter_sublist
  rw [dumpSong, left, events, leftAt_port port, leftAt_byTime inOrder, last]
  rfl

/-- What `dump_song` makes of a song. -/
def song (notesLines : List (List Item)) : List Event :=
  dumpSong (dumpTracks f s notesLines).1 (dumpTracks f s notesLines).2

/-- The silence at the end is written last. -/
theorem song_over {notesLines : List (List Item)} {clock : List ℚ}
    (ended : (play Event.time Event.addr Event.byte
      ⟨song f s notesLines, fun _ => (0 : Byte)⟩ clock).rest = []) (g : Byte → Byte) :
    store Event.addr Event.byte g (written (song f s notesLines) clock) 2 = 0 := by
  rw [written, ended, List.length_nil, Nat.sub_zero, List.take_length, song, dumpSong, store,
    List.foldl_append]
  rfl

end

theorem sqVol_low {regs : Fin 8 → Byte} {v : Int} (sent : regs 1 = low v) :
    (sqVol regs).setWidth 8 <<< 4 = BitVec.ofInt 8 (16 * v) := by
  have field := low_nibble v
  rw [← sent] at field
  change ((sqVol regs).toNat : Int) = _ at field
  apply BitVec.eq_of_toNat_eq
  simp only [BitVec.toNat_ofInt, BitVec.toNat_shiftLeft, BitVec.toNat_setWidth, Nat.shiftLeft_eq]
  omega

theorem dutySel_low {regs : Fin 8 → Byte} {v : Int} (sent : regs 1 = low v) :
    dutySel regs = BitVec.ofInt 2 (v / 16) := by
  have whole := low_toNat v
  apply BitVec.eq_of_toNat_eq
  rw [dutySel, sent, BitVec.extractLsb'_toNat, BitVec.toNat_ofInt, Nat.shiftRight_eq_div_pow]
  omega

/-- **A song on the chip.** Between two events of a song without notes of negative length the
ear has the wave of the last period and the last control byte recorded; at the end of any song
nothing, and the noise never. -/
theorem song_law (hc153 : BitVec 2 → BitVec 4 → Bool) {F : Type} (f : SongFloats F)
    (s : Score F) (notesLines : List (List Item)) (clock : List ℚ) (c : Byte)
    (es : List Top.Event)
    (serves : Top.Serves (eventCommands (written (song f s notesLines) clock)) (Top.pins es)) :
    let player := play Event.time Event.addr Event.byte
      ⟨song f s notesLines, fun _ => (0 : Byte)⟩ clock
    let chip := (Top.powerUp idle c).run hc153 es
    ((∀ item ∈ notesLines.flatten, 0 ≤ wholeMs s.beatT item) →
      ∀ T : ℚ, (∀ now ∈ clock, now ≤ T) → T < (dumpTracks f s notesLines).2 →
      Settled Event.time T player → ∀ p v : Int,
      leftAt Event.time Event.track Event.data T .sqPeriod (dumpTracks f s notesLines).1 = some p →
      leftAt Event.time Event.track Event.data T .sqCtrl (dumpTracks f s notesLines).1 = some v →
      let period := (256 - clamp 0 255 p).toNat
      let duty := BitVec.ofInt 2 (v / 16)
      (p < 255 → ∃ first, ∀ n, first ≤ n → (chip.rest hc153 n).sqAudio =
        if (n - first) % (period * Ch0.dutyLen duty) < period * Ch0.dutyHigh duty then
          BitVec.ofInt 8 (16 * v) else 0) ∧
      (255 ≤ p → Period.Repeats 1 fun n => (chip.rest hc153 n).sqAudio)) ∧
    (player.rest = [] → ∀ n, (chip.rest hc153 n).sqAudio = 0) ∧
    ∀ n, (chip.rest hc153 n).nzAudio = 0 := by
  intro player chip
  have runs : Bus.Runs (eventCommands (written (song f s notesLines) clock))
      (Top.powerUp idle c).bus chip.bus := by
    rw [show chip.bus = _ from Top.run_bus (Top.powerUp idle c) es]
    exact serves.runs _
  obtain ⟨ready, regs⟩ := run_events (g := fun _ => 0) rfl (fun _ => rfl) runs
  have high : Top.rstN chip.bus.d = true := by
    rw [ready]
    decide
  obtain ⟨wave, still⟩ := Ch0.sq_audio_law chip.bus.regs chip.ch.ch0
  refine ⟨fun nonneg T upTo early settled p v period ctrl => ?_, fun ended n => ?_, fun n => ?_⟩
  · have first := song_left f s nonneg early upTo settled (by decide) period
    have second := song_left f s nonneg early upTo settled (by decide) ctrl
    rw [← song, written_store upTo] at first second
    have first := (regs 0).trans first
    have second := (regs 1).trans second
    obtain ⟨length, whole⟩ := Top.periodQ_clamp first
    simp only [Top.rest_sqAudio high]
    rw [length, dutySel_low second, sqVol_low second] at wave
    exact ⟨fun below => wave fun last => absurd (whole.mp last) (not_le.mpr below),
      fun above => still (whole.mpr above)⟩
  · have zero : chip.bus.regs 1 = 0 := (regs 1).trans (song_over f s ended _)
    rw [Top.rest_sqAudio high, Ch0.sqAudio, sqVol, zero]
    split <;> rfl
  · have zero : chip.bus.regs 6 = 0 := (regs 6).trans (store_noise _ _)
    refine Top.rest_zero high ?_ n
    rw [nzVol, zero]
    rfl

/-- The first note after 30 ms: period 134, duty 3, volume 14. -/
theorem song_law_first :
    let chip := (Top.powerUp idle 0).run (fun sel c => c.getLsbD sel.toNat) (Top.interleaved
      (eventCommands (written (song songThousandths defaultScore [[firstNote]])
        (List.replicate 12 30))))
    ∃ first, ∀ n, first ≤ n → (chip.rest (fun sel c => c.getLsbD sel.toNat) n).sqAudio =
      if (n - first) % (122 * Ch0.dutyLen 3) < 122 * Ch0.dutyHigh 3 then 0xE0 else 0 := by
  have total : (30 : ℚ) < (dumpTracks songThousandths defaultScore [[firstNote]]).2 := by
    have : (dumpTracks songThousandths defaultScore [[firstNote]]).2 = 65 := by decide +kernel
    rw [this]
    norm_num
  have length : (song songThousandths defaultScore [[firstNote]]).length ≤ 12 := by
    rw [song, dumpSong, List.length_append, byTime, List.length_mergeSort]
    decide +kernel
  have law := song_law (fun sel c => c.getLsbD sel.toNat) songThousandths defaultScore
    [[firstNote]] (List.replicate 12 30) 0 _ (Top.interleaved_serves _)
  exact (law.1 (by decide +kernel) 30 (fun now mem => (List.eq_of_mem_replicate mem).le) total
    (settles 30 _ length) 134 62 (by decide +kernel) (by decide +kernel)).1 (by decide)

end Chiptune.Psg3
