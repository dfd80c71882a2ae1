import Mathlib.Logic.Relation
import Mathlib.Tactic.Common

/-!
# Choosing the song

`SongSelector`, the keys that move it, and the main loop and `play_song` of
`host/psg_adsr_songs_v04.py`, which look at the index and at the flag one after the
other. The threads interleave at every lock and at every look.

A key that comes between `get` and the `clear_change` in front of the song moves the
index and loses its flag. `polls_quiet` says that no other key is lost, and
`untimely_loses` that this one is.
-/

namespace Chiptune.Psg3

structure SongSelector (nSongs : Nat) where
  idx : Int
  changed : Bool
  stop : Bool
  deriving DecidableEq

/-- `song_range`, which `main` checks. -/
structure SongRange (nSongs : Nat) where
  lo : Nat
  hi : Nat
  ordered : lo ≤ hi
  inside : hi < nSongs

namespace SongSelector
variable {nSongs : Nat} (s : SongSelector nSongs)

def next : SongSelector nSongs := { s with idx := (s.idx + 1) % nSongs, changed := true }

def prev : SongSelector nSongs := { s with idx := (s.idx - 1) % nSongs, changed := true }

def get : Int := s.idx

def consumeChange : Bool := s.changed

def clearChange : SongSelector nSongs := { s with changed := false }

def halt : SongSelector nSongs := { s with stop := true }

/-- Behind the last event: around the range, or to the next song. -/
def advance : Option (SongRange nSongs) → SongSelector nSongs
  | some r =>
    if s.idx < r.lo ∨ s.idx ≥ r.hi then { s with idx := r.lo }
    else { s with idx := if s.idx + 1 > r.hi then r.lo else s.idx + 1 }
  | none => s.next

end SongSelector

/-- Where the main thread stands, with the song it plays and the number of events left. -/
inductive Main where
  | top
  | got (idx : Int)
  | ready (idx : Int)
  | cleared (idx : Int)
  | playing (idx : Int) (left : Nat)
  | polling (idx : Int) (left : Nat)
  | unchanged (idx : Int) (left : Nat)
  | interrupted
  | finished
  | advanced
  | stopped
  deriving DecidableEq

structure Threads (nSongs : Nat) where
  selector : SongSelector nSongs
  main : Main
  deriving DecidableEq

section
variable {nSongs : Nat} (songRange : Option (SongRange nSongs))

def Threads.start : Threads nSongs := ⟨⟨(songRange.map (·.lo)).getD 0, false, false⟩, .top⟩

/-- The keys come at any time, everything else is the main thread. -/
inductive Step : Threads nSongs → Threads nSongs → Prop where
  | keyNext (s m) : Step ⟨s, m⟩ ⟨s.next, m⟩
  | keyPrev (s m) : Step ⟨s, m⟩ ⟨s.prev, m⟩
  | keyQuit (s m) : Step ⟨s, m⟩ ⟨s.halt, m⟩
  | get (s) (go : s.stop = false) : Step ⟨s, .top⟩ ⟨s, .got s.get⟩
  | exit (s) (quit : s.stop = true) : Step ⟨s, .top⟩ ⟨s, .stopped⟩
  | reset (s idx) : Step ⟨s, .got idx⟩ ⟨s, .ready idx⟩
  | clear (s idx) : Step ⟨s, .ready idx⟩ ⟨s.clearChange, .cleared idx⟩
  -- `dump_song` appends two events to every song
  | dump (s idx) (n : Nat) : Step ⟨s, .cleared idx⟩ ⟨s, .playing idx (n + 2)⟩
  | quit (s idx left) (quit : s.stop = true) : Step ⟨s, .playing idx (left + 1)⟩ ⟨s, .top⟩
  | poll (s idx left) (go : s.stop = false) :
      Step ⟨s, .playing idx (left + 1)⟩ ⟨s, .polling idx (left + 1)⟩
  | change (s idx left) (pending : s.consumeChange = true) :
      Step ⟨s, .polling idx left⟩ ⟨s, .interrupted⟩
  | noChange (s idx left) (quiet : s.consumeChange = false) :
      Step ⟨s, .polling idx left⟩ ⟨s, .unchanged idx left⟩
  | wait (s idx left) : Step ⟨s, .unchanged idx left⟩ ⟨s, .playing idx left⟩
  | write (s idx left) : Step ⟨s, .unchanged idx (left + 1)⟩ ⟨s, .playing idx left⟩
  | interrupt (s) : Step ⟨s, .interrupted⟩ ⟨s.clearChange, .top⟩
  | finish (s idx) : Step ⟨s, .playing idx 0⟩ ⟨s, .finished⟩
  | advance (s) : Step ⟨s, .finished⟩ ⟨s.advance songRange, .advanced⟩
  | again (s) : Step ⟨s, .advanced⟩ ⟨s.clearChange, .top⟩

/-- Where `play_song` finds no pending change, it plays the song of the index. -/
def Quiet (t : Threads nSongs) : Prop :=
  ∀ idx left, t.main = .polling idx left → t.selector.consumeChange = false →
    idx = t.selector.idx

/-- The song in play, from its `clear_change` on. -/
def Main.song : Main → Option Int
  | cleared idx => some idx
  | playing idx _ => some idx
  | polling idx _ => some idx
  | unchanged idx _ => some idx
  | _ => none

def Follows (t : Threads nSongs) : Prop :=
  ∀ idx ∈ t.main.song, t.selector.changed = true ∨ t.selector.idx = idx

theorem Follows.quiet {t : Threads nSongs} (follows : Follows t) : Quiet t := by
  intro idx left main quiet
  rcases follows idx (by simp [main, Main.song]) with changed | eq
  · exact absurd (quiet.symm.trans changed) (by decide)
  · exact eq.symm

end

section
variable {nSongs : Nat} (songRange : Option (SongRange nSongs))

/-- The change that `clear_change` meets too late is lost at the first poll. -/
theorem untimely_loses {s : SongSelector nSongs} {idx : Int} (late : s.idx ≠ idx)
    (go : s.stop = false) :
    ∃ u, Relation.ReflTransGen (Step songRange) ⟨s, .ready idx⟩ u ∧ ¬ Quiet u := by
  refine ⟨⟨s.clearChange, .polling idx 2⟩, ?_, fun quiet => late (quiet idx 2 rfl rfl).symm⟩
  exact .head (.clear s idx) (.head (.dump _ idx 0) (.single (.poll _ idx 1 go)))

end

section
variable {nSongs : Nat} (songRange : Option (SongRange nSongs))

def SongSelector.Valid (s : SongSelector nSongs) : Prop := 0 ≤ s.idx ∧ s.idx < nSongs

theorem SongSelector.Valid.wrapped {s t : SongSelector nSongs} (valid : s.Valid) {x : Int}
    (idx : t.idx = x % nSongs) : t.Valid := by
  have positive : (0 : Int) < nSongs := Int.lt_of_le_of_lt valid.1 valid.2
  rw [SongSelector.Valid, idx]
  exact ⟨Int.emod_nonneg _ (by omega), Int.emod_lt_of_pos _ positive⟩

theorem SongSelector.Valid.advance {s : SongSelector nSongs} (valid : s.Valid) :
    (s.advance songRange).Valid := by
  cases songRange with
  | none => exact valid.wrapped rfl
  | some r =>
    have := r.ordered
    have := r.inside
    obtain ⟨lo, hi⟩ := valid
    unfold SongSelector.advance SongSelector.Valid
    simp only
    split
    · simp only
      omega
    · simp only
      split <;> omega

/-- `songs[idx]` exists whenever the main loop looks for it. -/
theorem index_valid (songs : 0 < nSongs) {t : Threads nSongs}
    (run : Relation.ReflTransGen (Step songRange) (Threads.start songRange) t) :
    t.selector.Valid := by
  induction run with
  | refl =>
    cases songRange with
    | none => exact ⟨Int.le_refl 0, by simpa [Threads.start] using songs⟩
    | some r =>
      have := r.ordered
      have := r.inside
      exact ⟨by simp [Threads.start], by simp [Threads.start]; omega⟩
  | tail _ step ih =>
    cases step with
    | keyNext | keyPrev => exact ih.wrapped rfl
    | advance => exact ih.advance songRange
    | keyQuit | get | exit | reset | clear | dump | quit | poll | change | noChange | wait | write
    | interrupt | finish | again => exact ih

end

end Chiptune.Psg3
