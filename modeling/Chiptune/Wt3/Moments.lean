import Mathlib.Logic.Function.Iterate
import Chiptune.Wt3.Delays

/-!
# The delayed core by its events

Between two events nothing happens in the core but that its waits run down, so a run can be
taken from one event to the next: `moments_run`.
-/

namespace Chiptune.Wt3

open Delay

/-- Nothing comes from outside. -/
def Instant.quiet : Instant := ⟨false, none⟩

section
variable (c : DelayedCore)

/-- All that it waits for. -/
def DelayedCore.left : List Nat :=
  [c.port.wait, c.ucode.left, c.decodeY.left, c.ramDo.left, c.waveDo.left, c.waits.aLo,
    c.waits.aHi, c.waits.bLo, c.waits.bHi, c.waits.c, c.ramWait]

/-- It is `m` ticks later, and nothing was due. -/
def DelayedCore.sleep (m : Nat) : DelayedCore :=
  { c with
    port := { c.port with wait := c.port.wait - m }
    ucode := { c.ucode with left := c.ucode.left - m }
    decodeY := { c.decodeY with left := c.decodeY.left - m }
    ramDo := { c.ramDo with left := c.ramDo.left - m }
    waveDo := { c.waveDo with left := c.waveDo.left - m }
    waits :=
      { aLo := c.waits.aLo - m
        aHi := c.waits.aHi - m
        bLo := c.waits.bLo - m
        bHi := c.waits.bHi - m
        c := c.waits.c - m }
    ramWait := c.ramWait - m }

/-- How long it sleeps, `n` ticks at most. -/
def DelayedCore.until (n : Nat) : Nat := (c.left.filter (0 < ·)).foldl min n

end

section
variable {ns : Nat} {rom : Rom} {float : Byte} {is : Nat → Instant}

variable (ns rom float is) in
/-- From one event to the next, of the core or of the outside, whose next one is at `next`. -/
def moment (next : Nat → Nat) (now : Nat × DelayedCore) : Nat × DelayedCore :=
  let n := now.2.until (next now.1 - now.1)
  (now.1 + n, (now.2.sleep (n - 1)).tick ns rom float (is (now.1 + n)))

end

/-! ## The clocks of the testbench -/

/-- The two clocks of `tb/wt3_core_tb.v`, with periods of 325 ns and 100 ns from half a period on,
and the levels on the host's pins from the times when they change, in half nanoseconds. -/
def testbench (drives : List (Nat × Pins)) (t : Nat) : Instant where
  step := t % 650 == 325
  host :=
    match drives.lookup t with
    | some p => some (.drive p)
    | none => if t % 200 = 100 then some .clock else none

/-- Nothing happens before it. -/
def nextEvent (drives : List (Nat × Pins)) (t : Nat) : Nat :=
  ((drives.map Prod.fst).filter (t < ·)).foldl min
    (min ((t + 325) / 650 * 650 + 325) ((t + 100) / 200 * 200 + 100))

end Chiptune.Wt3
