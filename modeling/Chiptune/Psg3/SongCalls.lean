import Chiptune.Psg3.Recording

/-!
# The calls of a song

`dump_tracks` makes its square events by calls of the recorder whose time does not go
back, as long as no note is of negative length (`dumpTracks_calls`).
-/

namespace Chiptune.Psg3

open Replay

section
variable {F : Type} (f : SongFloats F)

/-- `rec'` is `rec` after calls whose time does not go back. -/
def Ahead (rec rec' : Recorder) : Prop :=
  ∃ calls : List (RecorderCall F), Forward rec.curMs calls ∧
    calls.foldl (Recorder.call f) rec = rec'

theorem forward_append (rec : Recorder) (front back : List (RecorderCall F)) :
    Forward rec.curMs (front ++ back) ↔
      Forward rec.curMs front ∧ Forward (front.foldl (Recorder.call f) rec).curMs back := by
  induction front generalizing rec with
  | nil => simp [Forward]
  | cons call front ih =>
    rw [List.cons_append, List.foldl_cons]
    have later := ih (rec.call f call)
    cases call with
    | advance more => exact (and_congr_right fun _ => later).trans (and_assoc).symm
    | curMs ms => exact (and_congr_right fun _ => later).trans (and_assoc).symm
    | setPeriod p =>
      rw [Recorder.call, Recorder.setPeriod_curMs] at later
      exact later
    | writeCtrl vol =>
      rw [Recorder.call, Recorder.writeCtrl_curMs] at later
      exact later
    | freq hz =>
      have still : (rec.call f (.freq hz)).curMs = rec.curMs := by
        rw [Recorder.call, Recorder.freq]
        split
        · exact Recorder.setPeriod_curMs _ _
        · rfl
      rw [still] at later
      exact later
    | tone duty ref mode => exact later

namespace Ahead
variable {f} {a b c : Recorder}

theorem refl (a : Recorder) : Ahead f a a := ⟨[], trivial, rfl⟩

theorem trans (first : Ahead f a b) (second : Ahead f b c) : Ahead f a c := by
  obtain ⟨front, forward, rfl⟩ := first
  obtain ⟨back, forward', rfl⟩ := second
  exact ⟨front ++ back, (forward_append f a front back).mpr ⟨forward, forward'⟩,
    List.foldl_append⟩

theorem one (call : RecorderCall F) (forward : Forward a.curMs [call]) :
    Ahead f a (a.call f call) :=
  ⟨[call], forward, rfl⟩

theorem setPeriod (a : Recorder) (p : Int) : Ahead f a (a.setPeriod p) := one (.setPeriod p) trivial

theorem writeCtrl (a : Recorder) (vol : Int) : Ahead f a (a.writeCtrl vol) :=
  one (.writeCtrl vol) trivial

theorem jump {ms : Int} (le : a.curMs ≤ ms) : Ahead f a { a with curMs := ms } :=
  one (.curMs ms) ⟨le, trivial⟩

end Ahead

/-! ## The square loop -/

variable (s : Score F)

namespace Square
variable (t : Square F)

theorem silence_ahead : Ahead f t.recorder t.silence.recorder := Ahead.writeCtrl _ _

theorem keyOn_ahead (hz : F) : Ahead f t.recorder (t.keyOn f s hz).recorder := by
  unfold keyOn
  simp only
  split
  · exact Ahead.setPeriod _ _
  · exact Ahead.refl _

theorem keyOff_ahead : Ahead f t.recorder t.keyOff.recorder := by
  unfold keyOff
  simp only
  split
  · exact Ahead.setPeriod _ _
  · exact Ahead.refl _

theorem freq_ahead (hz : F) : Ahead f t.recorder (t.freq f hz).recorder := by
  unfold freq
  simp only
  split
  · exact Ahead.setPeriod _ _
  · exact Ahead.refl _

theorem tick_ahead : Ahead f t.recorder (t.tick f).recorder := by
  unfold tick
  simp only
  split
  · split
    · exact (Ahead.writeCtrl _ _).trans (Ahead.setPeriod _ _)
    · exact Ahead.setPeriod _ _
  · split
    · exact Ahead.writeCtrl _ _
    · exact Ahead.refl _

theorem ticks_ahead (n : Nat) : Ahead f t.recorder ((tick f)^[n] t).recorder := by
  induction n generalizing t with
  | zero => exact Ahead.refl _
  | succ n ih =>
    rw [Function.iterate_succ_apply]
    exact (tick_ahead f t).trans (ih _)

theorem turn_ahead : Ahead f t.recorder (t.turn f).recorder := by
  have ms : 0 ≤ tickMs := by
    rw [tickMs_eq]
    decide
  have later : Ahead f t.recorder (t.recorder.advance tickMs) :=
    Ahead.one (.advance tickMs) ⟨ms, trivial⟩
  exact later.trans
    (tick_ahead f { t with recorder := t.recorder.advance tickMs, sqMs := t.sqMs + tickMs })

theorem turns_ahead (n : Nat) : Ahead f t.recorder ((turn f)^[n] t).recorder := by
  induction n generalizing t with
  | zero => exact Ahead.refl _
  | succ n ih =>
    rw [Function.iterate_succ_apply]
    exact (turn_ahead f t).trans (ih _)

/-- The volumes from the `k`-th on. -/
theorem volumes_ahead (base : Int) {step : Int} (nonneg : 0 ≤ step) (volumes : List Int) (k : Nat)
    (rec : Recorder) (before : rec.curMs ≤ base + k * step) :
    Ahead f rec ((volumes.zipIdx k).foldl
        (fun rec vol => { rec with curMs := base + vol.2 * step : Recorder }.writeCtrl vol.1) rec) ∧
      ((volumes.zipIdx k).foldl
        (fun rec vol => { rec with curMs := base + vol.2 * step : Recorder }.writeCtrl vol.1)
          rec).curMs ≤ base + (k + volumes.length : Nat) * step := by
  induction volumes generalizing k rec with
  | nil => exact ⟨Ahead.refl _, by simpa using before⟩
  | cons vol volumes ih =>
    rw [List.zipIdx_cons, List.foldl_cons]
    obtain ⟨ahead, last⟩ := ih (k + 1)
      ({ rec with curMs := base + k * step : Recorder }.writeCtrl vol) (by
        rw [Recorder.writeCtrl_curMs]
        push_cast
        linarith)
    refine ⟨((Ahead.jump before).trans (Ahead.writeCtrl _ _)).trans ahead, ?_⟩
    have count : k + 1 + volumes.length = k + (vol :: volumes).length := by
      rw [List.length_cons]
      omega
    rw [← count]
    exact last

theorem manual_ahead (volumes : List Int) {durMs : Int} (nonneg : 0 ≤ durMs)
    (level : t.recorder.curMs = t.sqMs) : Ahead f t.recorder (t.manual volumes durMs).recorder := by
  have step_nonneg : 0 ≤ if volumes.length > 0 then durMs / volumes.length else durMs := by
    split
    · exact Int.ediv_nonneg nonneg (by omega)
    · exact nonneg
  have inside : (volumes.length : Int) *
      (if volumes.length > 0 then durMs / volumes.length else durMs) ≤ durMs := by
    split
    · exact Int.mul_ediv_self_le (by omega)
    · rename_i none
      have zero : volumes.length = 0 := by omega
      simpa [zero] using nonneg
  obtain ⟨ahead, last⟩ := volumes_ahead f t.sqMs step_nonneg volumes 0 t.recorder (by simp [level])
  refine (ahead.trans (Ahead.jump ?_)).trans (Ahead.writeCtrl _ _)
  rw [Nat.zero_add] at last
  linarith

theorem freq_manual_ahead (hz : F) (volumes : List Int) {durMs : Int} (nonneg : 0 ≤ durMs)
    (level : t.recorder.curMs = t.sqMs) :
    Ahead f t.recorder ((t.freq f hz).manual volumes durMs).recorder := by
  have still := freq_still f t hz
  refine (freq_ahead f t hz).trans (manual_ahead f _ volumes nonneg ?_)
  rw [still.curMs, still.sqMs, level]

theorem switch_ahead (sqIns : Option String) :
    Ahead f t.recorder (t.switch s sqIns).recorder := by
  unfold switch
  split
  · exact Ahead.one (.tone _ _ _) trivial
  · exact Ahead.refl _

end Square

theorem squareItem_ahead {t : Square F} (level : t.recorder.curMs = t.sqMs) {item : Item}
    (nonneg : 0 ≤ wholeMs s.beatT item) :
    Ahead f t.recorder (squareItem f s t item).recorder := by
  cases item with
  | noise beats rawTok noiseIns => exact Ahead.refl _
  | square degree beats octOverride accidental rawTok sqIns =>
    obtain ⟨cur, sq⟩ := t.switch_times s sqIns
    have here : (t.switch s sqIns).recorder.curMs = (t.switch s sqIns).sqMs := by
      rw [cur, sq, level]
    refine (Square.switch_ahead f s t sqIns).trans ?_
    simp only [squareItem]
    split
    · exact (Square.silence_ahead f _).trans (Square.turns_ahead f _ _)
    · split
      · exact Square.freq_manual_ahead f _ _ _ nonneg here
      · refine Ahead.trans ?_ (Square.ticks_ahead f _ _)
        refine Ahead.trans ?_ (Square.keyOff_ahead f _)
        exact (Square.keyOn_ahead f s _ _).trans (Square.turns_ahead f _ _)

theorem squareFold_ahead {items : List Item} (nonneg : ∀ item ∈ items, 0 ≤ wholeMs s.beatT item)
    {t : Square F} (level : t.recorder.curMs = t.sqMs) :
    Ahead f t.recorder (items.foldl (squareItem f s) t).recorder := by
  induction items generalizing t with
  | nil => exact Ahead.refl _
  | cons item rest ih =>
    rw [List.forall_mem_cons] at nonneg
    exact (squareItem_ahead f s level nonneg.1).trans
      (ih nonneg.2 (squareItem_time f s level item).1)

/-! ## The noise loop -/

theorem Noise.steps_track {t : Noise} (all : ∀ e ∈ t.events, e.track = .noise)
    (ins : NoiseInstrument) (endMs : Int) (volumes : List Int) (vi : Nat) :
    ∀ e ∈ (t.steps ins endMs volumes vi).events, e.track = .noise := by
  induction volumes generalizing t vi with
  | nil => exact all
  | cons vol rest ih =>
    rw [Noise.steps]
    split
    · exact all
    · split
      · exact ih all _
      · refine ih ?_ _
        intro e he
        rcases List.mem_append.mp he with old | new
        · exact all e old
        · rw [List.mem_singleton.mp new]

theorem noiseItem_track {t : Noise} (all : ∀ e ∈ t.events, e.track = .noise) (item : Item) :
    ∀ e ∈ (noiseItem s t item).events, e.track = .noise := by
  cases item with
  | square => exact all
  | noise beats rawTok noiseIns =>
    simp only [noiseItem]
    split
    · exact all
    · rename_i ins _
      have steps := Noise.steps_track all ins (t.nzMs + pyInt (beats * s.beatT * 1000)) ins.volumes 0
      split
      · exact steps
      · intro e he
        rcases List.mem_append.mp he with old | new
        · exact steps e old
        · rw [List.mem_singleton.mp new]

theorem noiseTrack_track (items : List Item) :
    ∀ e ∈ (noiseTrack s items).events, e.track = .noise := by
  have loop {t : Noise} (all : ∀ e ∈ t.events, e.track = .noise) :
      ∀ e ∈ (items.foldl (noiseItem s) t).events, e.track = .noise := by
    induction items generalizing t with
    | nil => exact all
    | cons item rest ih => exact ih (noiseItem_track s all item)
  exact loop (by simp)

/-- The events of a song without negative lengths are those of such calls, with the noise
behind them. -/
theorem dumpTracks_calls (notesLines : List (List Item))
    (nonneg : ∀ item ∈ notesLines.flatten, 0 ≤ wholeMs s.beatT item) :
    ∃ calls noise, Forward 0 calls ∧ (∀ e ∈ noise, e.track = .noise) ∧
      (dumpTracks f s notesLines).1 =
        (calls.foldl (Recorder.call f) (.start s.psg)).events ++ noise := by
  obtain ⟨calls, forward, recorder⟩ := squareFold_ahead f s nonneg (t := squareStart f s) rfl
  refine ⟨calls, _, forward, noiseTrack_track s notesLines.flatten, ?_⟩
  have same : calls.foldl (Recorder.call f) (.start s.psg) =
      (squareTrack f s notesLines.flatten).recorder := recorder
  rw [same]
  rfl

end

end Chiptune.Psg3
