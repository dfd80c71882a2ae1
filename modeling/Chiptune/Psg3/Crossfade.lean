import Chiptune.PyData
import Mathlib.Data.List.GetD

/-!
# The crossfade of the sample loader

The end of `load_wav_pcm` in `host/gen_rev_e3_rom.py`: the last samples of a list are mixed
into its first ones and cut off, and the list is fitted to its slot.

`crossfade_eq` says what is left. The weights of the mix are a parameter there, since the
program has them the wrong way round: the loop is closed by the weights exchanged
(`exchanged_seamless`), and with those of the program it comes back to the sample it began
with (`crossfade_seam`).
-/

namespace Chiptune.Psg3.Crossfade

open PyData Rounding

/-- `clamp` with its defaults. -/
def clamp (v : ℚ) : Int := max 0 (min 255 (halfEven v))

def cfLen (pcm : List Int) : Nat := min 128 (pcm.length / 4)

/-- Step `i` of the loop under `crossfade 首尾`. -/
def fade (cf : Nat) (pcm : List Int) (i : Nat) : Except Raised (List Int) := do
  let fadeOut ← div (cf - i) cf
  let fadeIn ← div i cf
  let head ← getItem pcm i
  let tail ← getItem pcm (-cf + i)
  setItem pcm i (clamp (double (double (head * fadeOut) + double (tail * fadeIn))))

def crossfade (pcm : List Int) : Except Raised (List Int) :=
  if pcm.length > 200 then do
    let cf := cfLen pcm
    let pcm ← (List.range cf).foldlM (fade cf) pcm
    return upto pcm (-cf)
  else return pcm

/-- The lines under `截断/填充到 target_len`. -/
def fit (targetLen : Nat) (pcm : List Int) : List Int :=
  if pcm.length ≥ targetLen then upto pcm targetLen
  else pcm ++ List.replicate (targetLen - pcm.length) 128

/-! ## What is left -/

def fadeOut (cf i : Nat) : ℚ := double ((cf - i) / cf)
def fadeIn (cf i : Nat) : ℚ := double (i / cf)

/-- A sample of the head and one of the tail by their weights. -/
def mix (head tail : ℚ) (h t : Int) : Int := clamp (double (double (h * head) + double (t * tail)))

/-- What becomes of sample `i` of the head. -/
def mixed (head tail : Nat → ℚ) (pcm : List Int) (i : Nat) : Int :=
  mix (head i) (tail i) (pcm.getD i 0) (pcm.getD (pcm.length - cfLen pcm + i) 0)

/-- A crossfade by the weights `head` and `tail`. -/
def looped (head tail : Nat → ℚ) (pcm : List Int) : List Int :=
  if pcm.length > 200 then
    ((List.range (cfLen pcm)).map (mixed head tail pcm) ++ pcm.drop (cfLen pcm)).take
      (pcm.length - cfLen pcm)
  else pcm

section
variable {pcm : List Int}

theorem cfLen_bounds (long : 200 < pcm.length) :
    50 ≤ cfLen pcm ∧ cfLen pcm ≤ 128 ∧ 4 * cfLen pcm ≤ pcm.length := by
  unfold cfLen
  omega

/-- The list when the loop has done `i` steps. -/
def faded (head tail : Nat → ℚ) (pcm : List Int) (i : Nat) : List Int :=
  (List.range i).map (mixed head tail pcm) ++ pcm.drop i

theorem faded_length (head tail : Nat → ℚ) {i : Nat} (inside : i ≤ pcm.length) :
    (faded head tail pcm i).length = pcm.length := by
  rw [faded, List.length_append, List.length_map, List.length_range, List.length_drop]
  omega

/-- What the loop has not come to is as it was. -/
theorem faded_get (head tail : Nat → ℚ) {i j : Nat} (ahead : i ≤ j) (inside : j < pcm.length) :
    (faded head tail pcm i)[j]? = some (pcm.getD j 0) := by
  rw [faded, List.getElem?_append_right (by simpa using ahead), List.length_map,
    List.length_range, List.getElem?_drop, Nat.add_sub_cancel' ahead,
    List.getElem?_eq_getElem inside, List.getD_eq_getElem _ _ inside]

theorem faded_succ (head tail : Nat → ℚ) {i : Nat} (inside : i < pcm.length) :
    (faded head tail pcm i).set i (mixed head tail pcm i) = faded head tail pcm (i + 1) := by
  have front : ((List.range i).map (mixed head tail pcm)).length ≤ i := by simp
  rw [faded, List.set_append_right _ _ front, List.length_map, List.length_range, Nat.sub_self,
    List.drop_eq_getElem_cons inside, List.set_cons_zero, faded, List.range_succ,
    List.map_append, List.append_assoc]
  rfl

theorem fade_faded (long : 200 < pcm.length) {i : Nat} (hi : i < cfLen pcm) :
    fade (cfLen pcm) (faded (fadeOut (cfLen pcm)) (fadeIn (cfLen pcm)) pcm i) i =
      .ok (faded (fadeOut (cfLen pcm)) (fadeIn (cfLen pcm)) pcm (i + 1)) := by
  obtain ⟨least, -, quarter⟩ := cfLen_bounds long
  have count := faded_length (fadeOut (cfLen pcm)) (fadeIn (cfLen pcm))
    (show i ≤ pcm.length by omega)
  have weigh : (cfLen pcm : ℚ) ≠ 0 := by
    have : cfLen pcm ≠ 0 := by omega
    exact_mod_cast this
  have tail : getItem (faded (fadeOut (cfLen pcm)) (fadeIn (cfLen pcm)) pcm i)
      (-cfLen pcm + i) = .ok (pcm.getD (pcm.length - cfLen pcm + i) 0) := by
    apply getItem_neg (k := pcm.length - cfLen pcm + i) (by omega) (by omega)
    exact faded_get _ _ (by omega) (by omega)
  rw [fade, div_ok _ weigh, div_ok _ weigh,
    getItem_nat (faded_get _ _ (Nat.le_refl i) (by omega)), tail]
  change setItem _ _ _ = _
  rw [setItem_nat (by omega)]
  exact congrArg Except.ok (faded_succ _ _ (by omega))

theorem crossfade_eq (pcm : List Int) :
    crossfade pcm = .ok (looped (fadeOut (cfLen pcm)) (fadeIn (cfLen pcm)) pcm) := by
  unfold crossfade looped
  by_cases long : pcm.length > 200
  · obtain ⟨least, -, quarter⟩ := cfLen_bounds long
    have loop := foldlM_range_ok _ fun i hi => fade_faded long hi
    have count := faded_length (fadeOut (cfLen pcm)) (fadeIn (cfLen pcm))
      (show cfLen pcm ≤ pcm.length by omega)
    change (List.range (cfLen pcm)).foldlM (fade (cfLen pcm)) pcm = _ at loop
    rw [if_pos long, if_pos long]
    change ((List.range (cfLen pcm)).foldlM (fade (cfLen pcm)) pcm).bind _ = _
    rw [loop]
    change Except.ok (upto _ _) = _
    rw [upto_neg _ (by omega) (by omega), count]
    rfl
  · rw [if_neg long, if_neg long]
    rfl

/-! ## Loops -/

/-- A loop that closes: the sample cut off first follows the last one kept, the weights go
from the tail to the head, and behind them nothing is changed. -/
structure Seamless (head tail : Nat → ℚ) (pcm out : List Int) : Prop where
  restart : out[0]? = pcm[pcm.length - cfLen pcm]?
  blend : ∀ i, i < cfLen pcm → out[i]? = some (mixed head tail pcm i)
  rises : ∀ i j, i ≤ j → j < cfLen pcm → head i ≤ head j
  falls : ∀ i j, i ≤ j → j < cfLen pcm → tail j ≤ tail i
  kept : ∀ i, cfLen pcm ≤ i → i < pcm.length - cfLen pcm → out[i]? = pcm[i]?

theorem looped_length (head tail : Nat → ℚ) (long : 200 < pcm.length) :
    (looped head tail pcm).length = pcm.length - cfLen pcm := by
  obtain ⟨least, -, quarter⟩ := cfLen_bounds long
  rw [looped, if_pos long, List.length_take]
  have count := faded_length head tail (show cfLen pcm ≤ pcm.length by omega)
  rw [faded] at count
  omega

theorem looped_get (head tail : Nat → ℚ) (long : 200 < pcm.length) {i : Nat}
    (hi : i < pcm.length - cfLen pcm) : (looped head tail pcm)[i]? =
      if i < cfLen pcm then some (mixed head tail pcm i) else pcm[i]? := by
  rw [looped, if_pos long, List.getElem?_take_of_lt hi]
  by_cases front : i < cfLen pcm
  · rw [if_pos front, List.getElem?_append_left (by simpa using front)]
    simp [front]
  · rw [if_neg front, List.getElem?_append_right (by simpa using Nat.not_lt.mp front),
      List.length_map, List.length_range, List.getElem?_drop]
    congr 1
    omega

theorem fit_length (targetLen : Nat) (pcm : List Int) : (fit targetLen pcm).length = targetLen := by
  unfold fit
  by_cases full : pcm.length ≥ targetLen
  · rw [if_pos full, upto_nat, List.length_take]
    omega
  · rw [if_neg full, List.length_append, List.length_replicate]
    omega

theorem fit_get {targetLen : Nat} (fits : pcm.length ≤ targetLen) {i : Nat} (hi : i < pcm.length) :
    (fit targetLen pcm)[i]? = pcm[i]? := by
  unfold fit
  by_cases full : pcm.length ≥ targetLen
  · rw [if_pos full, upto_nat, List.getElem?_take_of_lt (by omega)]
  · rw [if_neg full, List.getElem?_append_left hi]

/-! ## Weights -/

theorem double_lt {x y : ℚ} (low : 0 ≤ x) (high : y ≤ 1) (apart : x + 1 / 128 ≤ y) :
    double x < double y := by
  have errX := (double_error low).2
  have errY := (double_error (show 0 ≤ y by linarith)).1
  norm_num at errX errY
  linarith

theorem weight_apart {cf i j : Nat} (short : cf ≤ 128) (hij : i < j) (hj : j < cf) :
    (i : ℚ) / cf + 1 / 128 ≤ j / cf := by
  have pos : (0 : ℚ) < cf := by exact_mod_cast show 0 < cf by omega
  have one : (i : ℚ) + 1 ≤ j := by exact_mod_cast hij
  have few : (cf : ℚ) ≤ 128 := by exact_mod_cast short
  have share : (1 : ℚ) / 128 ≤ 1 / cf := one_div_le_one_div_of_le pos few
  calc (i : ℚ) / cf + 1 / 128 ≤ i / cf + 1 / cf := by linarith
    _ = (i + 1) / cf := by ring
    _ ≤ j / cf := by gcongr

theorem fadeIn_lt {cf i j : Nat} (short : cf ≤ 128) (hij : i < j) (hj : j < cf) :
    fadeIn cf i < fadeIn cf j := by
  have pos : (0 : ℚ) < cf := by exact_mod_cast show 0 < cf by omega
  have most : (j : ℚ) ≤ cf := by exact_mod_cast hj.le
  exact double_lt (by positivity) ((div_le_one pos).mpr most) (weight_apart short hij hj)

theorem fadeOut_lt {cf i j : Nat} (short : cf ≤ 128) (hij : i < j) (hj : j < cf) :
    fadeOut cf j < fadeOut cf i := by
  have pos : (0 : ℚ) < cf := by exact_mod_cast show 0 < cf by omega
  have most : (j : ℚ) ≤ cf := by exact_mod_cast hj.le
  have apart := weight_apart short hij hj
  have whole : (cf : ℚ) / cf = 1 := div_self pos.ne'
  have some : (0 : ℚ) ≤ i / cf := by positivity
  have last : (j : ℚ) / cf ≤ 1 := (div_le_one pos).mpr most
  apply double_lt
  · rw [sub_div, whole]
    linarith
  · rw [sub_div, whole]
    linarith
  · rw [sub_div, sub_div, whole]
    linarith

theorem fadeIn_zero (cf : Nat) : fadeIn cf 0 = 0 := by
  rw [fadeIn, Nat.cast_zero, zero_div]
  exact double_int (z := 0) (by decide)

theorem fadeOut_zero {cf : Nat} (pos : 0 < cf) : fadeOut cf 0 = 1 := by
  have whole : (cf : ℚ) ≠ 0 := by exact_mod_cast pos.ne'
  rw [fadeOut, Nat.cast_zero, sub_zero, div_self whole]
  exact double_int (z := 1) (by decide)

theorem clamp_int {v : Int} (low : 0 ≤ v) (high : v ≤ 255) : clamp v = v := by
  rw [clamp, halfEven_int]
  omega

theorem clamp_bounds (v : ℚ) : 0 ≤ clamp v ∧ clamp v ≤ 255 := by
  unfold clamp
  omega

/-- At the weights of the ends one sample is left. -/
theorem mix_one_zero {h t : Int} (low : 0 ≤ h) (high : h ≤ 255) : mix 1 0 h t = h := by
  have kept : double h = h := double_int (by rw [abs_of_nonneg low]; omega)
  have none : double 0 = 0 := double_int (z := 0) (by decide)
  rw [mix, mul_one, mul_zero, kept, none, add_zero, kept, clamp_int low high]

theorem mix_zero_one {h t : Int} (low : 0 ≤ t) (high : t ≤ 255) : mix 0 1 h t = t := by
  have kept : double t = t := double_int (by rw [abs_of_nonneg low]; omega)
  have none : double 0 = 0 := double_int (z := 0) (by decide)
  rw [mix, mul_one, mul_zero, kept, none, zero_add, kept, clamp_int low high]

/-! ## The seam -/

variable {targetLen : Nat} (long : 200 < pcm.length)
  (fits : pcm.length - cfLen pcm ≤ targetLen)
include long fits

theorem loaded_get (head tail : Nat → ℚ) {i : Nat} (hi : i < pcm.length - cfLen pcm) :
    (fit targetLen (looped head tail pcm))[i]? =
      if i < cfLen pcm then some (mixed head tail pcm i) else pcm[i]? := by
  have count := looped_length head tail long
  rw [fit_get (by omega) (by omega), looped_get head tail long hi]

/-- What a loop has of itself is its place behind the mix and, by whatever weights, the mix. -/
theorem loaded_seamless_iff (head tail : Nat → ℚ) :
    Seamless head tail pcm (fit targetLen (looped head tail pcm)) ↔
      pcm[pcm.length - cfLen pcm]? = some (mixed head tail pcm 0) ∧
        (∀ i j, i ≤ j → j < cfLen pcm → head i ≤ head j) ∧
        ∀ i j, i ≤ j → j < cfLen pcm → tail j ≤ tail i := by
  obtain ⟨least, -, quarter⟩ := cfLen_bounds long
  have first := loaded_get long fits head tail (show 0 < pcm.length - cfLen pcm by omega)
  rw [if_pos (by omega)] at first
  constructor
  · intro seamless
    exact ⟨seamless.restart.symm.trans first, seamless.rises, seamless.falls⟩
  · rintro ⟨restart, rises, falls⟩
    refine ⟨first.trans restart.symm, ?_, rises, falls, ?_⟩
    · intro i hi
      rw [loaded_get long fits head tail (by omega), if_pos hi]
    · intro i behind hi
      rw [loaded_get long fits head tail hi, if_neg (by omega)]

variable (bytes : ∀ v ∈ pcm, 0 ≤ v ∧ v ≤ 255)
include bytes

/-- With the weights exchanged every loop closes. -/
theorem exchanged_seamless : Seamless (fadeIn (cfLen pcm)) (fadeOut (cfLen pcm)) pcm
    (fit targetLen (looped (fadeIn (cfLen pcm)) (fadeOut (cfLen pcm)) pcm)) := by
  obtain ⟨least, short, quarter⟩ := cfLen_bounds long
  have inside : pcm.length - cfLen pcm < pcm.length := by omega
  obtain ⟨low, high⟩ := bytes _ (List.getElem_mem inside)
  rw [loaded_seamless_iff long fits]
  refine ⟨?_, ?_, ?_⟩
  · rw [mixed, fadeIn_zero, fadeOut_zero (by omega), Nat.add_zero,
      List.getD_eq_getElem _ _ inside, mix_zero_one low high, List.getElem?_eq_getElem inside]
  · intro i j hij hj
    obtain rfl | less := Nat.eq_or_lt_of_le hij
    · exact le_refl _
    · exact (fadeIn_lt short less hj).le
  · intro i j hij hj
    obtain rfl | less := Nat.eq_or_lt_of_le hij
    · exact le_refl _
    · exact (fadeOut_lt short less hj).le

/-- The loop of the program restarts with the sample it began with. -/
theorem loaded_first :
    (fit targetLen (looped (fadeOut (cfLen pcm)) (fadeIn (cfLen pcm)) pcm))[0]? = pcm[0]? := by
  obtain ⟨least, -, quarter⟩ := cfLen_bounds long
  have inside : 0 < pcm.length := by omega
  obtain ⟨low, high⟩ := bytes _ (List.getElem_mem inside)
  rw [loaded_get long fits _ _ (by omega), if_pos (by omega), mixed, fadeIn_zero,
    fadeOut_zero (by omega), List.getD_eq_getElem _ _ inside, mix_one_zero low high,
    List.getElem?_eq_getElem inside]

/-- **No loop closes.** The weights go from the head to the tail, so the loop restarts in
place exactly if the samples there are equal anyway; behind the mix nothing is changed. -/
theorem crossfade_seam : ∃ out, (crossfade pcm).map (fit targetLen) = .ok out ∧
    ¬ Seamless (fadeOut (cfLen pcm)) (fadeIn (cfLen pcm)) pcm out ∧
    (out[0]? = pcm[pcm.length - cfLen pcm]? ↔ pcm[0]? = pcm[pcm.length - cfLen pcm]?) ∧
    (∀ i, i < cfLen pcm →
      out[i]? = some (mixed (fadeOut (cfLen pcm)) (fadeIn (cfLen pcm)) pcm i)) ∧
    (∀ i j, i < j → j < cfLen pcm → fadeOut (cfLen pcm) j < fadeOut (cfLen pcm) i ∧
      fadeIn (cfLen pcm) i < fadeIn (cfLen pcm) j) ∧
    ∀ i, cfLen pcm ≤ i → i < pcm.length - cfLen pcm → out[i]? = pcm[i]? := by
  obtain ⟨least, short, quarter⟩ := cfLen_bounds long
  have result : (crossfade pcm).map (fit targetLen) =
      .ok (fit targetLen (looped (fadeOut (cfLen pcm)) (fadeIn (cfLen pcm)) pcm)) := by
    rw [crossfade_eq]
    rfl
  refine ⟨_, result, ?_, ?_, ?_, ?_, ?_⟩
  · intro seamless
    have back := seamless.rises 0 1 (by omega) (by omega)
    exact absurd back (not_le.mpr (fadeOut_lt short (by omega) (by omega)))
  · rw [loaded_first long fits bytes]
  · intro i hi
    rw [loaded_get long fits _ _ (by omega), if_pos hi]
  · exact fun i j hij hj => ⟨fadeOut_lt short hij hj, fadeIn_lt short hij hj⟩
  · intro i behind hi
    rw [loaded_get long fits _ _ hi, if_neg (by omega)]

end

/-- Silence: its loop starts over in place, by weights that go the wrong way. -/
theorem crossfade_seam_silence : ∃ out,
    (crossfade (List.replicate 240 128)).map (fit 8192) = .ok out ∧
      ¬ Seamless (fadeOut 60) (fadeIn 60) (List.replicate 240 128) out ∧ out[0]? = some 128 := by
  have count : (List.replicate 240 (128 : Int)).length = 240 := List.length_replicate
  have share : cfLen (List.replicate 240 128) = 60 := by rw [cfLen, count]; rfl
  have bytes : ∀ v ∈ List.replicate 240 (128 : Int), 0 ≤ v ∧ v ≤ 255 := by
    intro v hv
    rw [List.eq_of_mem_replicate hv]
    decide
  obtain ⟨out, result, torn, restarts, -⟩ := @crossfade_seam (List.replicate 240 128) 8192
    (by rw [count]; decide) (by rw [count, share]; decide) bytes
  rw [count, share] at restarts
  rw [share] at torn
  refine ⟨out, result, torn, ?_⟩
  rw [restarts.mpr (by rw [List.getElem?_replicate, List.getElem?_replicate]; rfl),
    List.getElem?_replicate]
  rfl

/-- Full level behind 120 low samples: the loop goes on from 255 with 0. -/
theorem crossfade_click : ¬ ∀ (pcm : List Int) (targetLen : Nat), 200 < pcm.length →
    (∀ v ∈ pcm, 0 ≤ v ∧ v ≤ 255) → pcm.length - cfLen pcm ≤ targetLen →
    ∃ out, (crossfade pcm).map (fit targetLen) = .ok out ∧
      Seamless (fadeOut (cfLen pcm)) (fadeIn (cfLen pcm)) pcm out := by
  intro claimed
  have count : (List.replicate 120 (0 : Int) ++ List.replicate 120 255).length = 240 := by
    rw [List.length_append, List.length_replicate, List.length_replicate]
  have share : cfLen (List.replicate 120 0 ++ List.replicate 120 255) = 60 := by
    rw [cfLen, count]
    rfl
  have long : 200 < (List.replicate 120 (0 : Int) ++ List.replicate 120 255).length := by
    rw [count]
    decide
  have fits : (List.replicate 120 (0 : Int) ++ List.replicate 120 255).length -
      cfLen (List.replicate 120 0 ++ List.replicate 120 255) ≤ 8192 := by
    rw [count, share]
    decide
  have bytes : ∀ v ∈ List.replicate 120 (0 : Int) ++ List.replicate 120 255, 0 ≤ v ∧ v ≤ 255 := by
    intro v hv
    rw [List.mem_append, List.mem_replicate, List.mem_replicate] at hv
    omega
  obtain ⟨out, result, seamless⟩ := claimed _ 8192 long bytes fits
  have first := loaded_first long fits bytes
  rw [crossfade_eq] at result
  rw [Except.ok.inj result, seamless.restart, count, share,
    List.getElem?_append_right (by rw [List.length_replicate]; decide),
    List.getElem?_append_left (by rw [List.length_replicate]; decide), List.getElem?_replicate,
    List.getElem?_replicate, List.length_replicate] at first
  exact absurd first (by decide)

end Chiptune.Psg3.Crossfade
