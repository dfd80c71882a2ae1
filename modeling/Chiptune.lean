import Chiptune.Clocked
import Chiptune.Chips
import Chiptune.Digits
import Chiptune.Cascade
import Chiptune.Miniglow.Rtl
import Chiptune.Miniglow.Sim
import Chiptune.Miniglow.Lockstep
import Chiptune.Miniglow.Inert
import Chiptune.Wavetable.Ram
import Chiptune.Wavetable.Voice
import Chiptune.Wavetable.Pass
import Chiptune.Wavetable.BitPerfect
import Chiptune.Wavetable.NoteOff
import Chiptune.Wavetable.NoteOn
import Chiptune.Wavetable.Strobes
import Chiptune.Wt3.Core
import Chiptune.Wt3.Pitch
import Chiptune.Wt3.Round
import Chiptune.Wt3.Access
import Chiptune.Wt3.Settling
import Chiptune.Wt3.SpfmRam
import Chiptune.Glowworm.Lockstep
import Chiptune.Glowworm.Countdown
import Chiptune.Cpu39040.Index
import Chiptune.Cpu39040.Demo
import Chiptune.Psg3.UniSteps
import Chiptune.Psg3.Host
import Chiptune.Psg3.Envelope
import Chiptune.Fm6.Core
import Chiptune.Psg3.Song
import Chiptune.Psg3.Cached
import Chiptune.Wavetable.Mix
import Chiptune.Psg3.Ch0
import Chiptune.Psg3.Folds
import Chiptune.Rounding
import Chiptune.Precision
import Chiptune.Psg3.Ramps
import Chiptune.Scan
import Chiptune.Miniglow.LoadProg
import Chiptune.Miniglow.TextProg
import Chiptune.Psg3.Notes
import Chiptune.Psg3.Grammar
import Chiptune.Psg3.NoteLines
import Chiptune.Psg3.Selector
import Chiptune.Replay
import Chiptune.Psg3.Recording
import Chiptune.Psg3.SongCalls
import Chiptune.PyData
import Chiptune.Psg3.Crossfade
import Chiptune.Psg3.LoadWav
import Chiptune.Period
import Chiptune.Phase
import Chiptune.Psg3.Noise
import Chiptune.Psg3.Channels
import Chiptune.Psg3.Top
import Chiptune.Psg3.TopV05
import Chiptune.Psg3.Latched
import Chiptune.Psg3.Generations
import Chiptune.Psg3.SongChip
import Chiptune.Wavetable.Player
import Chiptune.Wavetable.Life
import Chiptune.Glowworm.Emit
import Chiptune.Glowworm.Optimizer
import Chiptune.Glowworm.Program
import Chiptune.Glowworm.CodeSize
import Chiptune.Restoring
import Chiptune.Glowworm.Routine
import Chiptune.Glowworm.Division
