import Chiptune.Chips
import Chiptune.Clocked

/-!
# The waveform channel of PSG3 v0.5

`rtl/psg3_top.v` (channel CH2) and `host/uni_sim.c` (`sim_step`, `wave_out`,
`audio_out`), with the registers held from reset on.
-/

namespace Chiptune.Psg3

/-- The fields of registers 3, 4 and 5. -/
structure Voice where
  period12 : BitVec 12
  waveSel : BitVec 2
  duty : BitVec 4
  modeSel : Bool
  vol : BitVec 4
  deriving DecidableEq

/-! ## The hardware -/

structure Uni where
  cnt : BitVec 12
  q : BitVec 4
  dirQ : Bool
  waveClean : BitVec 4

namespace Uni

/-- After reset, the CD4029 at its power-up value. -/
def reset : Uni where
  cnt := 0
  q := 0
  dirQ := false
  waveClean := 0

section
variable (v : Voice) (u : Uni)

def tcLo : Bool := hc161Tc true (nibble u.cnt 0)
def tcMid : Bool := hc161Tc u.tcLo (nibble u.cnt 1)
def freqTc : Bool := hc161Tc u.tcMid (nibble u.cnt 2)

/-- Three 161; the carry out of the last loads the period again. -/
def cntNext : BitVec 12 :=
  let peN := !(u.freqTc && u.freqTc)
  let stage (i : Nat) (ce : Bool) : BitVec 4 :=
    hc161 true peN ce ce (nibble v.period12 i) (nibble u.cnt i)
  stage 2 u.tcMid ++ stage 1 u.tcLo ++ stage 0 true

/-- `uni_ud`: folded for the triangle, down for the reverse sawtooth, else up. -/
def ud : Bool := if v.waveSel = 1 then !u.dirQ else if v.waveSel = 3 then false else true

def co : Bool := cd4029Co (!u.freqTc) true (u.ud v) u.q

def atExtreme : Bool := u.freqTc && !u.co v

/-- The counters and the waveform step on the rising clock. -/
def posedge : Uni :=
  { u with cnt := u.cntNext v, q := cd4029 false (!u.freqTc) true (u.ud v) 0 u.q }

/-- The direction and the filter latch on the falling clock. -/
def negedge : Uni :=
  { u with
    dirQ := hc112 true true (u.atExtreme v) (u.atExtreme v) u.dirQ
    waveClean := u.q }

/-- One period of `clk`. -/
def clock : Uni := (u.posedge v).negedge v

def altb : Bool := u.waveClean < v.duty

def cmpOut : BitVec 4 := if u.altb v then 0xF else 0

def andOut : BitVec 4 := u.waveClean &&& v.duty

def sel : BitVec 4 := hc157 false v.modeSel (u.andOut v) (u.cmpOut v)

def waveDb : Byte := u.sel v ++ 0#4

/-- `uni_atten[15:8]`, both factors 16 bits wide in the product. -/
def audio : Byte :=
  ((u.waveDb v).setWidth 16 * (v.vol ++ 0#4 : Byte).setWidth 16).extractLsb' 8 8

end

/-- The state after `n` clocks from reset. -/
def run (v : Voice) (n : Nat) : Uni :=
  Clocked.run (fun (_ : Unit) u => Uni.clock v u) (fun _ => ()) Uni.reset n

end Uni

/-! ## The simulator -/

/-- `hw_t`. -/
structure Hw where
  cnt12 : Nat
  period12 : Nat
  triQ : Nat
  triUd : Nat
  dirQ : Nat
  waveSel : Nat
  duty : Nat
  modeSel : Nat
  vol : Nat

namespace Hw

/-- `memset` to zero, then the fields that `main` sets. -/
def init (v : Voice) : Hw where
  cnt12 := 0
  period12 := v.period12.toNat
  triQ := 0
  triUd := 1
  dirQ := 0
  waveSel := v.waveSel.toNat
  duty := v.duty.toNat
  modeSel := v.modeSel.toNat
  vol := v.vol.toNat

section
variable (h : Hw)

def countUp : Nat := if 15 ≤ h.triQ then 0 else h.triQ + 1

def countDown : Nat := if h.triQ ≤ 0 then 15 else h.triQ - 1

def atExtreme : Bool := h.triUd ≠ 0 ∧ h.triQ = 15 ∨ h.triUd = 0 ∧ h.triQ = 0

def dirNext : Nat := if h.atExtreme then h.dirQ ^^^ 1 else h.dirQ

/-- The branch of `sim_step` for `WAVE_TRI`. -/
def stepTri : Hw :=
  { h with
    dirQ := h.dirNext
    triUd := 1 - h.dirNext
    triQ := if 1 - h.dirNext ≠ 0 then h.countUp else h.countDown }

/-- The other branch; wave 3 is `WAVE_RSAW`. -/
def stepSaw : Hw :=
  let ud : Nat := if h.waveSel = 3 then 0 else 1
  { h with triQ := if ud ≠ 0 then h.countUp else h.countDown }

def stepWave : Hw := if h.waveSel = 1 then h.stepTri else h.stepSaw

/-- What `sim_step` returns. -/
def freqTc : Bool := 4095 ≤ h.cnt12 + 1

/-- `cnt12++`, and the period again in its place when that makes 4095. -/
def simStep : Hw :=
  if h.freqTc then { h with cnt12 := h.period12 }.stepWave else { h with cnt12 := h.cnt12 + 1 }

def waveOut : Nat :=
  let cmp := if h.triQ < h.duty then 15 else 0
  let andOut := h.triQ &&& h.duty
  if h.modeSel ≠ 0 then cmp else andOut

def audioOut : Nat :=
  let waveDb := h.waveOut <<< 4
  let volDb := (h.vol &&& 15) <<< 4
  (waveDb * volDb) >>> 8

end

/-- The state after `n` calls of `sim_step`. -/
def run (v : Voice) (n : Nat) : Hw :=
  Clocked.run (fun (_ : Unit) h => Hw.simStep h) (fun _ => ()) (Hw.init v) n

end Hw

end Chiptune.Psg3
