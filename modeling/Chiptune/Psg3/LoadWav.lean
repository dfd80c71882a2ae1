import Chiptune.Chips
import Chiptune.Psg3.Crossfade

/-!
# The sample loader of PSG3 v0.5

`load_wav_pcm` in `host/gen_rev_e3_rom.py`, with its files as the `wave` module reads them.
`resample_ok` says that the interpolation stays inside the samples, with the positions
rounded as they are, and `loadWavPcm_ok` that nothing behind the decoding fails. The
decoding asks for the bytes of one channel and is given those of all: `loadWavPcm_iff`.
-/

namespace Chiptune.Psg3.LoadWav

open PyData Crossfade

def SLOT_SIZE : Nat := 8192
def TARGET_RATE : Nat := 8000

/-! ## Files -/

/-- A file that `wave.open` accepts, with the bytes of its data chunk. The length of a chunk
is a field of 32 bits. -/
structure Wav where
  framerate : Nat
  nchannels : Nat
  sampwidth : Nat
  data : List Byte
  nchannels_pos : 0 < nchannels
  sampwidth_pos : 0 < sampwidth
  data_lt : data.length < 2 ^ 32

namespace Wav
variable (w : Wav)

def framesize : Nat := w.nchannels * w.sampwidth
def nframes : Nat := w.data.length / w.framesize
def readframes (n : Nat) : List Byte := w.data.take (n * w.framesize)

end Wav

/-- `struct.unpack` of `n` values of a size. -/
def unpack (size : Nat) (values : List Byte → List Int) (n : Nat) (raw : List Byte) :
    Except Raised (List Int) :=
  if raw.length = n * size then .ok (values raw) else .error .struct

/-- The values of `<h`. -/
def words : List Byte → List Int
  | lo :: hi :: rest => (hi ++ lo).toInt :: words rest
  | _ => []

/-- The values of `<B`. -/
def bytes (raw : List Byte) : List Int := raw.map fun b => b.toNat

/-- The lines under `解码`. -/
def Wav.decode (w : Wav) : Except Raised (List Int) :=
  let raw := w.readframes w.nframes
  if w.sampwidth = 2 then unpack 2 words w.nframes raw
  else if w.sampwidth = 1 then (unpack 1 bytes w.nframes raw).map fun ss => ss.map (· - 128)
  else .ok (List.replicate w.nframes 0)

/-! ## Samples -/

/-- The lines under `重采样`. -/
def resample (targetRate rate : Nat) (samples : List Int) : Except Raised (List ℚ) := do
  let ratio ← div targetRate rate
  let newLen := trunc (double (samples.length * ratio))
  (List.range newLen.toNat).mapM fun (i : Nat) => do
    let srcPos ← div i ratio
    let idx0 := trunc srcPos
    let idx1 := min (idx0 + 1) ((samples.length : Int) - 1)
    let frac := double (srcPos - idx0)
    let a ← getItem samples idx0
    let b ← getItem samples idx1
    return double (double (a * double (1 - frac)) + double (b * frac))

def maxAbs : List ℚ → ℚ
  | [] => 1
  | v :: vs =>
    let most := vs.foldl (fun m v => max m |v|) |v|
    if most = 0 then 1 else most

/-- The lines under `归一化`. -/
def normalise (gain : ℚ) (resampled : List ℚ) : Except Raised (List Int) :=
  resampled.mapM fun v => do
    let level ← div (double (double (127 * gain) * v)) (maxAbs resampled)
    return Crossfade.clamp (double (128 + level))

def loadWavPcm (w : Wav) (targetRate targetLen : Nat) (gain : ℚ) : Except Raised (List Int) := do
  let samples ← w.decode
  let samples := if w.nchannels > 1 then every w.nchannels samples else samples
  let resampled ← resample targetRate w.framerate samples
  let pcm ← normalise gain resampled
  let pcm ← crossfade pcm
  return fit targetLen pcm

/-! ## Interpolation -/

def ratio (rate : Nat) : ℚ := double (TARGET_RATE / rate)

/-- For a number of samples. -/
def newLen (n : Nat) (rate : Nat) : Nat := (trunc (double (n * ratio rate))).toNat

def idx0 (rate i : Nat) : Int := trunc (double (i / ratio rate))
def idx1 (n rate i : Nat) : Int := min (idx0 rate i + 1) (n - 1)

/-- Of two neighbours. -/
def between (rate : Nat) (samples : List Int) (i : Nat) : ℚ :=
  let frac := double (double (i / ratio rate) - idx0 rate i)
  double (double (samples.getD (idx0 rate i).toNat 0 * double (1 - frac)) +
    double (samples.getD (idx1 samples.length rate i).toNat 0 * frac))

theorem ratio_bounds {rate : Nat} (pos : rate ≠ 0) : 0 < ratio rate ∧ ratio rate ≤ 8001 := by
  have one : (1 : ℚ) ≤ rate := by exact_mod_cast Nat.one_le_iff_ne_zero.mpr pos
  have target : (TARGET_RATE : ℚ) = 8000 := by norm_num [TARGET_RATE]
  have least : (0 : ℚ) < TARGET_RATE / rate := div_pos (by linarith) (by linarith)
  have most : (TARGET_RATE : ℚ) / rate ≤ 8000 := by
    rw [div_le_iff₀ (by linarith)]
    linarith
  obtain ⟨below, above⟩ := double_error least.le
  norm_num at below above
  unfold ratio
  constructor <;> linarith

/-- A position is below the end by more than the errors of the roundings. -/
theorem idx0_inside {n rate i : Nat} (pos : rate ≠ 0) (few : n < 2 ^ 32)
    (hi : i < newLen n rate) : 0 ≤ idx0 rate i ∧ idx0 rate i < n := by
  obtain ⟨low, high⟩ := ratio_bounds pos
  have count : (n : ℚ) ≤ 2 ^ 32 := by exact_mod_cast few.le
  have span_nonneg : 0 ≤ (n : ℚ) * ratio rate := by positivity
  have span_le : (n : ℚ) * ratio rate ≤ 2 ^ 32 * 8001 := by gcongr
  have place_nonneg : 0 ≤ double (i / ratio rate) :=
    double_nonneg (by positivity)
  have before : (i : ℚ) + 1 ≤ double (n * ratio rate) := by
    rw [newLen, trunc_nonneg (double_nonneg span_nonneg)] at hi
    have whole : ((i + 1 : Int) : ℚ) ≤ double (n * ratio rate) := Int.le_floor.mp (by omega)
    exact_mod_cast whole
  have span := (double_error span_nonneg).2
  have place := (double_error (show 0 ≤ (i : ℚ) / ratio rate by positivity)).2
  have scaled : double (i / ratio rate) * ratio rate ≤ i * (1 + 1 / 2 ^ 53) := by
    calc double (i / ratio rate) * ratio rate
        ≤ i / ratio rate * (1 + 1 / 2 ^ 53) * ratio rate := by gcongr
      _ = i * (1 + 1 / 2 ^ 53) := by field_simp
  have inside : double (i / ratio rate) * ratio rate < n * ratio rate := by
    norm_num at span scaled ⊢
    linarith
  have inside := lt_of_mul_lt_mul_right inside low.le
  rw [idx0, trunc_nonneg place_nonneg]
  exact ⟨Int.floor_nonneg.mpr place_nonneg, Int.floor_lt.mpr (by exact_mod_cast inside)⟩

/-- The neighbour is the next sample, or the last one again. -/
theorem idx1_inside {n rate i : Nat} (inside : 0 ≤ idx0 rate i ∧ idx0 rate i < n) :
    0 ≤ idx1 n rate i ∧ idx1 n rate i < n := by
  unfold idx1
  omega

theorem getItem_inside {samples : List Int} {i : Int} (inside : 0 ≤ i ∧ i < samples.length) :
    getItem samples i = .ok (samples.getD i.toNat 0) := by
  obtain ⟨k, rfl⟩ := Int.eq_ofNat_of_zero_le inside.1
  have bound : k < samples.length := by omega
  apply getItem_nat
  rw [Int.toNat_natCast, List.getD_eq_getElem _ _ bound, List.getElem?_eq_getElem bound]

theorem resample_ok {rate : Nat} (pos : rate ≠ 0) {samples : List Int}
    (few : samples.length < 2 ^ 32) : resample TARGET_RATE rate samples =
      .ok ((List.range (newLen samples.length rate)).map (between rate samples)) := by
  have divides : (rate : ℚ) ≠ 0 := by exact_mod_cast pos
  rw [resample, div_ok _ divides]
  apply mapM_ok
  intro i hi
  have inside := idx0_inside pos few (List.mem_range.mp hi)
  have nonzero : double ((TARGET_RATE : ℚ) / rate) ≠ 0 := (ratio_bounds pos).1.ne'
  rw [div_ok _ nonzero]
  change (getItem samples (idx0 rate i)).bind _ = _
  rw [getItem_inside inside]
  change (getItem samples (idx1 samples.length rate i)).bind _ = _
  rw [getItem_inside (idx1_inside inside)]
  rfl

theorem resample_zero (targetRate : Nat) (samples : List Int) :
    resample targetRate 0 samples = .error .zeroDivision := by
  rw [resample, Nat.cast_zero, div_zero]
  rfl

/-! ## Levels -/

theorem maxAbs_ne_zero (vs : List ℚ) : maxAbs vs ≠ 0 := by
  cases vs with
  | nil => exact one_ne_zero
  | cons v vs =>
    unfold maxAbs
    dsimp only
    split
    · exact one_ne_zero
    · assumption

def level (gain : ℚ) (resampled : List ℚ) (v : ℚ) : Int :=
  Crossfade.clamp (double (128 + double (double (double (127 * gain) * v) / maxAbs resampled)))

theorem normalise_ok (gain : ℚ) (resampled : List ℚ) :
    normalise gain resampled = .ok (resampled.map (level gain resampled)) := by
  apply mapM_ok
  intro v _
  rw [div_ok _ (maxAbs_ne_zero resampled)]
  rfl

/-- What the loader makes of the samples of a channel. -/
def rendered (rate targetLen : Nat) (gain : ℚ) (samples : List Int) : List Int :=
  let resampled := (List.range (newLen samples.length rate)).map (between rate samples)
  let pcm := resampled.map (level gain resampled)
  fit targetLen (looped (fadeOut (cfLen pcm)) (fadeIn (cfLen pcm)) pcm)

/-- Nothing behind the decoding fails. -/
theorem loadWavPcm_ok {w : Wav} (pos : w.framerate ≠ 0) {samples channel : List Int}
    (decodes : w.decode = .ok samples)
    (first : (if w.nchannels > 1 then every w.nchannels samples else samples) = channel)
    (few : channel.length < 2 ^ 32) (targetLen : Nat) (gain : ℚ) :
    loadWavPcm w TARGET_RATE targetLen gain =
      .ok (rendered w.framerate targetLen gain channel) := by
  rw [loadWavPcm, decodes]
  change (resample TARGET_RATE w.framerate (if w.nchannels > 1 then _ else samples)).bind _ = _
  rw [first, resample_ok pos few]
  change (normalise gain _).bind _ = _
  rw [normalise_ok]
  change (crossfade _).bind _ = _
  rw [crossfade_eq]
  rfl

theorem loadWavPcm_zero {w : Wav} (zero : w.framerate = 0) (targetRate targetLen : Nat)
    (gain : ℚ) : ∃ e, loadWavPcm w targetRate targetLen gain = .error e := by
  rw [loadWavPcm, zero]
  cases w.decode with
  | error e => exact ⟨e, rfl⟩
  | ok samples =>
    simp only [bind, Except.bind, resample_zero]
    exact ⟨_, rfl⟩

theorem mem_looped {head tail : Nat → ℚ} {pcm : List Int} {v : Int}
    (mem : v ∈ looped head tail pcm) : v ∈ pcm ∨ 0 ≤ v ∧ v ≤ 255 := by
  unfold looped at mem
  split at mem
  · obtain faded | kept := List.mem_append.mp (List.mem_of_mem_take mem)
    · obtain ⟨i, -, rfl⟩ := List.mem_map.mp faded
      exact .inr (clamp_bounds _)
    · exact .inl (List.mem_of_mem_drop kept)
  · exact .inl mem

theorem mem_fit {targetLen : Nat} {pcm : List Int} {v : Int} (mem : v ∈ fit targetLen pcm) :
    v ∈ pcm ∨ v = 128 := by
  unfold fit at mem
  split at mem
  · exact .inl (List.mem_of_mem_take mem)
  · obtain kept | padded := List.mem_append.mp mem
    · exact .inl kept
    · exact .inr (List.eq_of_mem_replicate padded)

theorem rendered_bounds {rate targetLen : Nat} {gain : ℚ} {samples : List Int} {v : Int}
    (mem : v ∈ rendered rate targetLen gain samples) : 0 ≤ v ∧ v ≤ 255 := by
  obtain inner | rfl := mem_fit mem
  · obtain inner | bounds := mem_looped inner
    · obtain ⟨x, -, rfl⟩ := List.mem_map.mp inner
      exact clamp_bounds _
    · exact bounds
  · decide

/-! ## Channel 0 -/

/-- The sample of channel 0 in frame `f`. -/
def Wav.sample (w : Wav) (f : Nat) : Int :=
  let start := f * w.framesize
  if w.sampwidth = 2 then (w.data.getD (start + 1) 0 ++ w.data.getD start 0).toInt
  else (w.data.getD start 0).toNat - 128

def Wav.channel0 (w : Wav) : List Int := (List.range w.nframes).map w.sample

theorem Wav.framesize_pos (w : Wav) : 0 < w.framesize :=
  Nat.mul_pos w.nchannels_pos w.sampwidth_pos

theorem Wav.frames_fit (w : Wav) : w.nframes * w.framesize ≤ w.data.length :=
  Nat.div_mul_le_self _ _

theorem Wav.readframes_length (w : Wav) :
    (w.readframes w.nframes).length = w.nframes * w.framesize := by
  rw [readframes, List.length_take, Nat.min_eq_left w.frames_fit]

theorem Wav.channel0_lt (w : Wav) : w.channel0.length < 2 ^ 32 := by
  have fit := w.frames_fit
  have pos := w.framesize_pos
  have most : w.nframes * 1 ≤ w.nframes * w.framesize := Nat.mul_le_mul_left _ pos
  have size := w.data_lt
  rw [channel0, List.length_map, List.length_range]
  omega

theorem words_take {data : List Byte} {n : Nat} (fits : 2 * n ≤ data.length) :
    words (data.take (2 * n)) = (List.range n).map fun f =>
      (data.getD (2 * f + 1) 0 ++ data.getD (2 * f) 0).toInt := by
  induction n generalizing data with
  | zero => rfl
  | succ n ih =>
    match data, fits with
    | lo :: hi :: rest, fits =>
      have more : 2 * n ≤ rest.length := by
        simp only [List.length_cons] at fits
        omega
      rw [List.range_succ_eq_map, List.map_cons, List.map_map]
      change (hi ++ lo).toInt :: words (rest.take (2 * n)) = _
      rw [ih more]
      rfl

theorem bytes_take {data : List Byte} {n : Nat} (fits : n ≤ data.length) :
    bytes (data.take n) = (List.range n).map fun f => ((data.getD f 0).toNat : Int) := by
  induction n generalizing data with
  | zero => rfl
  | succ n ih =>
    match data, fits with
    | b :: rest, fits =>
      rw [List.range_succ_eq_map, List.map_cons, List.map_map]
      change (b.toNat : Int) :: bytes (rest.take n) = _
      rw [ih (Nat.le_of_succ_le_succ fits)]
      rfl

section
variable {w : Wav} (width : w.sampwidth = 1 ∨ w.sampwidth = 2)
include width

/-- One channel is decoded. -/
theorem decode_mono (mono : w.nchannels = 1) : w.decode = .ok w.channel0 := by
  have count := w.readframes_length
  have fits := w.frames_fit
  unfold Wav.channel0 Wav.sample
  rw [Wav.decode]
  obtain one | two := width
  · have size : w.framesize = 1 := by rw [Wav.framesize, mono, one]
    rw [size] at count fits
    rw [one, if_neg (by decide), if_pos rfl, unpack, if_pos count, size, Wav.readframes, size,
      Nat.mul_one, bytes_take (by omega)]
    simp [Except.map]
  · have size : w.framesize = 2 := by rw [Wav.framesize, mono, two]
    rw [size] at count fits
    rw [two, if_pos rfl, unpack, if_pos count, size, Wav.readframes, size, Nat.mul_comm,
      words_take (by omega)]
    simp [Nat.mul_comm]

/-- No frames are decoded. -/
theorem decode_empty (empty : w.nframes = 0) : w.decode = .ok [] := by
  have none : w.readframes 0 = [] := by rw [Wav.readframes, Nat.zero_mul, List.take_zero]
  rw [Wav.decode, empty, none]
  obtain one | two := width
  · rw [one]
    rfl
  · rw [two]
    rfl

/-- Of several channels there are too many bytes. -/
theorem decode_several (several : 1 < w.nchannels) (frames : 0 < w.nframes) :
    w.decode = .error .struct := by
  have count := w.readframes_length
  have more : w.nframes * w.sampwidth < w.nframes * w.framesize := by
    apply Nat.mul_lt_mul_of_pos_left _ frames
    exact lt_mul_of_one_lt_left w.sampwidth_pos several
  rw [Wav.decode]
  obtain one | two := width
  · rw [one] at more ⊢
    rw [if_neg (by decide), if_pos rfl, unpack, if_neg (by omega)]
    rfl
  · rw [two] at more ⊢
    rw [if_pos rfl, unpack, if_neg (by omega)]

end

/-- A slot as it is to come out of a file: of its length, of bytes, and made of channel 0 by
an interpolation that stays inside it. -/
structure FromChannel0 (w : Wav) (targetLen : Nat) (gain : ℚ) (out : List Int) : Prop where
  length : out.length = targetLen
  range : ∀ v ∈ out, 0 ≤ v ∧ v ≤ 255
  inside : ∀ i, i < newLen w.channel0.length w.framerate →
    (0 ≤ idx0 w.framerate i ∧ idx0 w.framerate i < w.channel0.length) ∧
      0 ≤ idx1 w.channel0.length w.framerate i ∧
      idx1 w.channel0.length w.framerate i < w.channel0.length
  samples : out = rendered w.framerate targetLen gain w.channel0

theorem rendered_fromChannel0 {w : Wav} (pos : w.framerate ≠ 0) (targetLen : Nat) (gain : ℚ) :
    FromChannel0 w targetLen gain (rendered w.framerate targetLen gain w.channel0) where
  length := fit_length _ _
  range := fun _ mem => rendered_bounds mem
  inside := by
    intro i hi
    have inside := idx0_inside pos w.channel0_lt hi
    exact ⟨inside, idx1_inside inside⟩
  samples := rfl

/-- **The loader reads the files of one channel**, and those without a frame, at a rate. -/
theorem loadWavPcm_iff {w : Wav} (width : w.sampwidth = 1 ∨ w.sampwidth = 2) (targetLen : Nat)
    (gain : ℚ) :
    (∃ out, loadWavPcm w TARGET_RATE targetLen gain = .ok out ∧
      FromChannel0 w targetLen gain out) ↔
    w.framerate ≠ 0 ∧ (w.nchannels = 1 ∨ w.nframes = 0) := by
  constructor
  · rintro ⟨out, loads, -⟩
    have mono : w.nchannels = 1 ∨ w.nframes = 0 := by
      by_contra other
      have pos := w.nchannels_pos
      have several := decode_several width (show 1 < w.nchannels by omega) (by omega)
      rw [loadWavPcm, several] at loads
      cases loads
    refine ⟨?_, mono⟩
    intro zero
    obtain ⟨e, fails⟩ := loadWavPcm_zero zero TARGET_RATE targetLen gain
    rw [fails] at loads
    cases loads
  · rintro ⟨pos, mono | empty⟩
    · have loads := loadWavPcm_ok pos (decode_mono width mono)
        (if_neg (by omega)) w.channel0_lt targetLen gain
      exact ⟨_, loads, rendered_fromChannel0 pos targetLen gain⟩
    · have none : w.channel0 = [] := by rw [Wav.channel0, empty]; rfl
      have every_nil : (if w.nchannels > 1 then every w.nchannels [] else []) = w.channel0 := by
        rw [none]
        split <;> rfl
      have loads := loadWavPcm_ok pos (decode_empty width empty) every_nil w.channel0_lt
        targetLen gain
      exact ⟨_, loads, rendered_fromChannel0 pos targetLen gain⟩

/-- One channel of two frames. -/
theorem load_two_frames : ∃ out,
    loadWavPcm ⟨8000, 1, 1, [128, 255], by decide, by decide, by decide⟩ TARGET_RATE SLOT_SIZE 1 =
      .ok out ∧
    FromChannel0 ⟨8000, 1, 1, [128, 255], by decide, by decide, by decide⟩ SLOT_SIZE 1 out :=
  (loadWavPcm_iff (.inl rfl) SLOT_SIZE 1).mpr ⟨by decide, .inl rfl⟩

/-- Two channels of one frame. -/
theorem load_stereo : ¬ ∀ w : Wav, w.sampwidth = 1 ∨ w.sampwidth = 2 → ∀ targetLen gain,
    ∃ out, loadWavPcm w TARGET_RATE targetLen gain = .ok out ∧
      FromChannel0 w targetLen gain out := by
  intro claimed
  obtain ⟨out, loads, -⟩ := claimed
    ⟨8000, 2, 2, [0, 0, 0, 0], by decide, by decide, by decide⟩ (.inr rfl) SLOT_SIZE 1
  have fails : loadWavPcm ⟨8000, 2, 2, [0, 0, 0, 0], by decide, by decide, by decide⟩ TARGET_RATE
      SLOT_SIZE 1 = .error .struct := rfl
  rw [fails] at loads
  cases loads

end Chiptune.Psg3.LoadWav
