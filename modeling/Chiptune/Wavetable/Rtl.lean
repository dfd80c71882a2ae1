import Chiptune.Wavetable.Ram

/-!
# wt_rtl

`rtl/wt_rtl.v` copies `wt_ram` but puts the registers `step_lo_r` and `step_hi_r`
at the second input of the adder. They are latched in the same micro-steps as
`acc_lo` and `acc_hi`, when the RAM shows the phase byte.
-/

namespace Chiptune.Wavetable

/-- This clock is micro-step `k`. -/
def Timer.runs (t : Timer) (k : BitVec 5) : Bool :=
  !t.sampleStart && t.ustep < totalSteps && t.ums == k

structure Rtl where
  chip : Chip
  stepLoR : Byte
  stepHiR : Byte

namespace Rtl

section
variable (board : Board) (r : Rtl)

def reset : Rtl where
  chip := r.chip.reset
  stepLoR := 0
  stepHiR := 0

def settle (p : Pins) : Rtl :=
  let r' := if p.rstN then r else r.reset
  { r' with chip := r.chip.settle board p }

/-- The RAM byte if this clock is micro-step `k`, else what the register holds. -/
def latch (k : BitVec 5) (q : Byte) : Byte :=
  if r.chip.time.runs k then r.chip.eng.ramIo board.float r.chip.sram else q

def posedge (p : Pins) : Rtl :=
  if p.rstN then
    { chip := r.chip.posedgeWith board p r.stepLoR r.stepHiR
      stepLoR := r.latch board 1 r.stepLoR
      stepHiR := r.latch board 4 r.stepHiR }
  else r

def negedge : Rtl := { r with chip := r.chip.negedge }

def settleAll (ps : List Pins) : Rtl := ps.foldl (fun r p => r.settle board p) r

def cycle (i : Cycle) : Rtl :=
  let r := (r.settleAll board i.low).settle board i.edge
  let r := (r.posedge board i.edge).settle board i.edge
  (r.settleAll board i.high).negedge

end

def run (board : Board) (inputs : Nat → Cycle) (r : Rtl) : Nat → Rtl :=
  Clocked.run (fun i r => r.cycle board i) inputs r

end Rtl

end Chiptune.Wavetable
