import Chiptune.Wavetable.Player

/-!
# The life of a note

A note climbs one level every `rate + 1` samples up to level 15, stays there until it is
released, and falls at the same pace until it is silent. Its phase moves by its step in
every sample. `wt_ram` holds such voices whatever happens on the other channels.
-/

namespace Chiptune.Wavetable

/-! ## A counter with a reload -/

/-- One more clock of a counter that goes from 0 to `r`. -/
theorem count_clock (r n : Nat) :
    if n % (r + 1) < r then (n + 1) / (r + 1) = n / (r + 1) ∧ (n + 1) % (r + 1) = n % (r + 1) + 1
    else (n + 1) / (r + 1) = n / (r + 1) + 1 ∧ (n + 1) % (r + 1) = 0 := by
  have pos : 0 < r + 1 := Nat.succ_pos r
  have parts := Nat.div_add_mod n (r + 1)
  have below := Nat.mod_lt n pos
  have next : n + 1 = (r + 1) * (n / (r + 1)) + (n % (r + 1) + 1) := by omega
  split_ifs with early
  · have small : n % (r + 1) + 1 < r + 1 := by omega
    rw [next, Nat.mul_add_div pos, Nat.mul_add_mod, Nat.div_eq_of_lt small, Nat.mod_eq_of_lt small]
    exact ⟨rfl, rfl⟩
  · have full : n % (r + 1) + 1 = r + 1 := by omega
    rw [next, full, Nat.mul_add_div pos, Nat.mul_add_mod, Nat.div_self pos, Nat.mod_self]
    exact ⟨rfl, rfl⟩

namespace Voice

/-! ## Steps of the envelope -/

theorem envelope_with (v : Voice) (p : BitVec 16) (n : Byte) :
    envelope { v with phase := p, envCnt := n } = { v.envelope with phase := p, envCnt := n } := by
  simp only [envelope]
  split_ifs <;> rfl

theorem envelope_params (v : Voice) :
    v.envelope = { v with level := v.envelope.level, env := v.envelope.env } := by
  simp only [envelope]
  split_ifs <;> rfl

theorem envelope_off {v : Voice} (off : ¬ v.On) : v.envelope = v := by
  have zero : v.env = 0 := not_not.mp off
  rw [envelope, zero, if_neg (by decide), if_neg (by decide)]

theorem envelopes_params (v : Voice) (s : Nat) :
    envelope^[s] v =
      { v with level := (envelope^[s] v).level, env := (envelope^[s] v).env } := by
  induction s with
  | zero => rfl
  | succ s ih =>
    rw [Function.iterate_succ_apply', envelope_params, ih]

theorem envelope_up {v : Voice} (env : v.env = 1) (level : v.level.toNat < 15) :
    v.envelope = { v with level := v.level + 1 } := by
  have apart : v.level ≠ 15 := fun full => by
    rw [full] at level
    exact absurd level (by decide)
  rw [envelope, if_pos env, if_neg apart]

theorem envelope_top {v : Voice} (env : v.env = 1) (level : v.level = 15) :
    v.envelope = { v with env := 2 } := by
  rw [envelope, if_pos env, if_pos level]

theorem envelope_stays {v : Voice} (env : v.env = 2) : v.envelope = v := by
  rw [envelope, env, if_neg (by decide), if_neg (by decide)]

theorem envelope_down {v : Voice} (env : v.env = 3) (level : 0 < v.level.toNat) :
    v.envelope = { v with level := v.level - 1 } := by
  have apart : v.level ≠ 0 := fun empty => by
    rw [empty] at level
    exact absurd level (by decide)
  rw [envelope, env, if_neg (by decide), if_pos rfl, if_neg apart]

theorem envelope_end {v : Voice} (env : v.env = 3) (level : v.level = 0) :
    v.envelope = { v with env := 0 } := by
  rw [envelope, env, if_neg (by decide), if_pos rfl, if_pos level]

/-- Up to level 15, and then on to the sustain. -/
theorem envelopes_attack {v : Voice} (level : v.level = 0) (env : v.env = 1) (s : Nat) :
    (envelope^[s] v).level = BitVec.ofNat 4 (min 15 s) ∧
      (envelope^[s] v).env = if s < 16 then 1 else 2 := by
  induction s with
  | zero => exact ⟨level, env⟩
  | succ s ih =>
    obtain ⟨level, env⟩ := ih
    rw [Function.iterate_succ_apply']
    by_cases sustained : 16 ≤ s
    · have full : min 15 s = 15 ∧ min 15 (s + 1) = 15 := by omega
      rw [if_neg (by omega)] at env
      rw [envelope_stays env, if_neg (by omega), full.2, level, full.1]
      exact ⟨rfl, env⟩
    · rw [if_pos (by omega)] at env
      by_cases low : s < 15
      · have same : min 15 s = s ∧ min 15 (s + 1) = s + 1 := by omega
        have small : (envelope^[s] v).level.toNat < 15 := by
          rw [level, BitVec.toNat_ofNat]
          omega
        rw [envelope_up env small, if_pos (by omega), same.2, level, same.1,
          ← BitVec.ofNat_add_ofNat]
        exact ⟨rfl, env⟩
      · have top : min 15 s = 15 ∧ min 15 (s + 1) = 15 := by omega
        rw [top.1] at level
        rw [envelope_top env level, if_neg (by omega), top.2]
        exact ⟨level, rfl⟩

/-- Down to level 0, and then off. -/
theorem envelopes_release {v : Voice} (env : v.env = 3) (s : Nat) :
    (envelope^[s] v).level = BitVec.ofNat 4 (v.level.toNat - s) ∧
      (envelope^[s] v).env = if s ≤ v.level.toNat then 3 else 0 := by
  have bound := v.level.isLt
  induction s with
  | zero =>
    rw [Nat.sub_zero, BitVec.ofNat_toNat, BitVec.setWidth_eq, if_pos (Nat.zero_le _)]
    exact ⟨rfl, env⟩
  | succ s ih =>
    obtain ⟨level, env⟩ := ih
    have left : (envelope^[s] v).level.toNat = v.level.toNat - s := by
      rw [level, BitVec.toNat_ofNat]
      omega
    rw [Function.iterate_succ_apply']
    by_cases on : s ≤ v.level.toNat
    · rw [if_pos on] at env
      by_cases above : s < v.level.toNat
      · have more : v.level.toNat - s = v.level.toNat - (s + 1) + 1 := by omega
        rw [envelope_down env (by omega), if_pos (by omega)]
        refine ⟨?_, env⟩
        rw [level, more, ← BitVec.ofNat_add_ofNat]
        exact BitVec.add_sub_cancel _ _
      · have none : v.level.toNat - s = 0 ∧ v.level.toNat - (s + 1) = 0 := by omega
        rw [none.1] at level
        rw [envelope_end env level, if_neg (by omega), none.2]
        exact ⟨level, rfl⟩
    · have none : v.level.toNat - s = 0 ∧ v.level.toNat - (s + 1) = 0 := by omega
      rw [if_neg on] at env
      rw [envelope_off (not_not.mpr env), if_neg (by omega), none.2, level, none.1]
      exact ⟨rfl, env⟩

/-! ## Samples -/

theorem next_off {v : Voice} (off : ¬ v.On) : v.next = { v with phase := v.phase + v.step } := by
  rw [next, if_pos off]

theorem next_early {v : Voice} (on : v.On) (early : v.envCnt < v.rate) :
    v.next = { v with phase := v.phase + v.step, envCnt := v.envCnt + 1 } := by
  rw [next, if_neg (not_not.mpr on), if_pos early]

theorem next_due {v : Voice} (on : v.On) (due : ¬ v.envCnt < v.rate) :
    v.next = { v.envelope with phase := v.phase + v.step, envCnt := 0 } := by
  have moved := envelope_with v (v.phase + v.step) v.envCnt
  rw [next, if_neg (not_not.mpr on), if_neg due]
  simp only at moved ⊢
  rw [moved]

/-- The voice `k` samples later, one step of the envelope at each reload. -/
def paced (v : Voice) (k : Nat) : Voice :=
  let w := envelope^[(v.envCnt.toNat + k) / (v.rate.toNat + 1)] v
  { w with
    phase := v.phase + BitVec.ofNat 16 (k * v.step.toNat)
    envCnt := if w.On then BitVec.ofNat 8 ((v.envCnt.toNat + k) % (v.rate.toNat + 1)) else 0 }

theorem phase_step (p s : BitVec 16) (k : Nat) :
    p + BitVec.ofNat 16 (k * s.toNat) + s = p + BitVec.ofNat 16 ((k + 1) * s.toNat) := by
  rw [BitVec.add_assoc, Nat.add_mul, Nat.one_mul, ← BitVec.ofNat_add_ofNat, BitVec.ofNat_toNat,
    BitVec.setWidth_eq]

theorem paced_zero {v : Voice} (fits : v.envCnt.toNat ≤ v.rate.toNat) (on : v.On) :
    v.paced 0 = v := by
  have early : v.envCnt.toNat < v.rate.toNat + 1 := by omega
  rw [paced, Nat.add_zero, Nat.div_eq_of_lt early, Nat.mod_eq_of_lt early]
  simp only [Function.iterate_zero, id_eq, Nat.zero_mul, BitVec.ofNat_toNat, BitVec.setWidth_eq,
    if_pos on]
  congr 1
  exact BitVec.add_zero _

theorem paced_next (v : Voice) (k : Nat) : (v.paced k).next = v.paced (k + 1) := by
  have clock := count_clock v.rate.toNat (v.envCnt.toNat + k)
  have below := Nat.mod_lt (v.envCnt.toNat + k) (Nat.succ_pos v.rate.toNat)
  have params := envelopes_params v ((v.envCnt.toNat + k) / (v.rate.toNat + 1))
  have succ := Function.iterate_succ_apply' envelope
    ((v.envCnt.toNat + k) / (v.rate.toNat + 1)) v
  have bound := v.rate.isLt
  rw [paced, paced, ← Nat.add_assoc, ← phase_step]
  generalize now : envelope^[(v.envCnt.toNat + k) / (v.rate.toNat + 1)] v = w at params succ
  have rate : w.rate = v.rate := by rw [params]
  have step : w.step = v.step := by rw [params]
  generalize (v.envCnt.toNat + k) % (v.rate.toNat + 1) = m at clock below
  have reached : BitVec.ofNat 8 m < v.rate ↔ m < v.rate.toNat := by
    rw [BitVec.lt_def, BitVec.toNat_ofNat, Nat.mod_eq_of_lt (by omega)]
  by_cases on : w.On
  · rw [if_pos on]
    split_ifs at clock with early
    · rw [next_early (by exact on) (by rw [rate]; exact reached.mpr early), clock.1, clock.2, now,
        if_pos on, ← BitVec.ofNat_add_ofNat, step]
      rfl
    · rw [next_due (by exact on) (by rw [rate]; exact mt reached.mp early), clock.1, clock.2, succ,
        envelope_with, step]
      have zero : (if w.envelope.On then BitVec.ofNat 8 0 else 0) = 0 := ite_self _
      rw [zero]
  · have still : envelope^[(v.envCnt.toNat + k + 1) / (v.rate.toNat + 1)] v = w := by
      split_ifs at clock
      · rw [clock.1, now]
      · rw [clock.1, succ, envelope_off on]
    rw [if_neg on, still, if_neg on, next_off (by exact on), step]

/-! ## The two halves of a life -/

/-- As a note_on leaves it. -/
structure Fresh (v : Voice) : Prop where
  phase : v.phase = 0
  level : v.level = 0
  env : v.env = 1
  envCnt : v.envCnt = 0

/-- The voice `k` samples after its note_on. -/
def held (v : Voice) (k : Nat) : Voice :=
  let s := k / (v.rate.toNat + 1)
  { v with
    phase := BitVec.ofNat 16 (k * v.step.toNat)
    level := BitVec.ofNat 4 (min 15 s)
    env := if s < 16 then 1 else 2
    envCnt := BitVec.ofNat 8 (k % (v.rate.toNat + 1)) }

/-- The voice `k` samples after its release. -/
def released (v : Voice) (k : Nat) : Voice :=
  let s := (v.envCnt.toNat + k) / (v.rate.toNat + 1)
  { v with
    phase := v.phase + BitVec.ofNat 16 (k * v.step.toNat)
    level := BitVec.ofNat 4 (v.level.toNat - s)
    env := if s ≤ v.level.toNat then 3 else 0
    envCnt := if s ≤ v.level.toNat then
      BitVec.ofNat 8 ((v.envCnt.toNat + k) % (v.rate.toNat + 1)) else 0 }

theorem paced_iterate {v : Voice} (fits : v.envCnt.toNat ≤ v.rate.toNat) (on : v.On) (k : Nat) :
    next^[k] v = v.paced k := by
  induction k with
  | zero => exact (paced_zero fits on).symm
  | succ k ih => rw [Function.iterate_succ_apply', ih, paced_next]

theorem held_iterate {v : Voice} (fresh : v.Fresh) (k : Nat) : next^[k] v = v.held k := by
  obtain ⟨phase, level, env, envCnt⟩ := fresh
  have on : v.On := by
    rw [On, env]
    decide
  rw [paced_iterate (by rw [envCnt]; exact Nat.zero_le _) on, paced, envelopes_params]
  obtain ⟨l, e⟩ := envelopes_attack level env ((v.envCnt.toNat + k) / (v.rate.toNat + 1))
  have count : v.envCnt.toNat + k = k := by
    rw [envCnt]
    exact Nat.zero_add k
  rw [count] at l e ⊢
  have sounds : (if k / (v.rate.toNat + 1) < 16 then (1 : BitVec 3) else 2) ≠ 0 := by
    split_ifs <;> decide
  simp only [l, e, On, phase, held, if_pos sounds]
  congr 1
  exact BitVec.zero_add _

theorem released_iterate {v : Voice} (fits : v.envCnt.toNat ≤ v.rate.toNat) (env : v.env = 3)
    (k : Nat) : next^[k] v = v.released k := by
  have on : v.On := by
    rw [On, env]
    decide
  rw [paced_iterate fits on, paced, envelopes_params]
  obtain ⟨l, e⟩ := envelopes_release env ((v.envCnt.toNat + k) / (v.rate.toNat + 1))
  have sounds : (if (v.envCnt.toNat + k) / (v.rate.toNat + 1) ≤ v.level.toNat then (3 : BitVec 3)
      else 0) ≠ 0 ↔ (v.envCnt.toNat + k) / (v.rate.toNat + 1) ≤ v.level.toNat := by
    split_ifs with early
    · exact ⟨fun _ => early, fun _ => by decide⟩
    · exact ⟨fun on => absurd rfl on, fun now => absurd now early⟩
  simp only [l, e, On, released, sounds]

/-- A voice that falls from level `L` is silent after `(L + 1) (rate + 1)` samples, less those
that its counter had passed when it was released. -/
theorem released_silent (v : Voice) (k : Nat) : ¬ (v.released k).On ↔
    (v.level.toNat + 1) * (v.rate.toNat + 1) ≤ v.envCnt.toNat + k := by
  have reached : v.level.toNat < (v.envCnt.toNat + k) / (v.rate.toNat + 1) ↔
      (v.level.toNat + 1) * (v.rate.toNat + 1) ≤ v.envCnt.toNat + k :=
    Nat.le_div_iff_mul_le (Nat.succ_pos _)
  rw [← reached, On, released, not_not]
  simp only
  split_ifs with early
  · exact ⟨fun three => absurd three (by decide), fun late => absurd early (by omega)⟩
  · exact ⟨fun _ => by omega, fun _ => rfl⟩

end Voice

/-! ## On the chip -/

/-- A command to a channel. -/
def Act.about (ch : BitVec 2) : Act → Bool
  | .tick => false
  | .on k _ => k = ch
  | .off k => k = ch

def ticks (as : List Act) : Nat := as.count .tick

/-- Without a command to it a channel goes on by itself. -/
theorem play_apart {ch : BitVec 2} {as : List Act} (apart : ∀ a ∈ as, a.about ch = false)
    (vs : Voices) : (as.foldl Act.play vs) ch = Voice.next^[ticks as] (vs ch) := by
  induction as generalizing vs with
  | nil => rfl
  | cons a as ih =>
    rw [List.foldl_cons, ih fun b hb => apart b (List.mem_cons_of_mem a hb)]
    have other := apart a List.mem_cons_self
    cases a with
    | tick => rw [ticks, ticks, List.count_cons_self, Function.iterate_succ_apply]; rfl
    | on k v =>
      have ne : ch ≠ k := fun e => by simp [Act.about, e] at other
      rw [Act.play, Function.update_of_ne ne, ticks, ticks, List.count_cons_of_ne (by simp)]
    | off k =>
      have ne : ch ≠ k := fun e => by simp [Act.about, e] at other
      rw [Act.play, Function.update_of_ne ne, ticks, ticks, List.count_cons_of_ne (by simp)]

section
variable {board : Board} {inputs : Nat → Cycle} {c : Chip}

theorem acts_fresh {ch : BitVec 2} {v : Voice} (on : .on ch v ∈ c.acts) : v.Fresh := by
  rw [Chip.acts] at on
  split_ifs at on
  · simp at on
  · split at on
    · obtain ⟨rfl, rfl⟩ : _ ∧ v = _ := by simpa using on
      exact ⟨rfl, rfl, rfl, rfl⟩
    · simp at on

/-- A note begins at level 0 and phase 0. -/
theorem played_fresh {N : Nat} {ch : BitVec 2} {v : Voice}
    (on : .on ch v ∈ c.played board inputs N) : v.Fresh := by
  rw [Chip.played, List.mem_flatMap] at on
  obtain ⟨n, -, on⟩ := on
  exact acts_fresh on

end

/-- **The life of a note.** In a run from reset whose triggers are all safe, and whose host
leaves the parameters of a new note alone, a channel at rest that had no command since its
last note_on holds the voice of that note after as many samples; and one that was then
released, the voice after as many samples of its release. That voice is silent exactly if
the samples since its release are enough for its level. -/
theorem life_law (board : Board) (inputs : Nat → Cycle) (dLatch : Byte) (sram : Ram)
    (live : ∀ n, (inputs n).Live)
    (safe : ∀ n, ((Chip.initial dLatch sram).run board inputs n).Safe)
    (steady : (Chip.initial dLatch sram).Steady board inputs) (N : Nat)
    (rests : (Chip.initial dLatch sram).Rests board inputs N) (ch : BitVec 2) (v : Voice)
    (pre mid : List Act) (own : ∀ a ∈ mid, a.about ch = false) :
    let c := Chip.initial dLatch sram
    let w := voices (c.run board inputs N).sram ch
    let u := { v.held (ticks mid) with env := 3 }
    (c.played board inputs N = pre ++ .on ch v :: mid → w = v.held (ticks mid)) ∧
      ∀ post, (∀ a ∈ post, a.about ch = false) →
        c.played board inputs N = pre ++ .on ch v :: (mid ++ .off ch :: post) →
        w = u.released (ticks post) ∧
          (¬ w.On ↔ (u.level.toNat + 1) * (v.rate.toNat + 1) ≤ u.envCnt.toNat + ticks post) := by
  intro c w u
  have plain := plain_run live safe steady N (.inl rests)
  have fresh (as : List Act) (log : c.played board inputs N = pre ++ .on ch v :: as) : v.Fresh :=
    played_fresh (N := N) (by rw [log]; exact List.mem_append_right _ List.mem_cons_self)
  have note (vs : Voices) : (mid.foldl Act.play (Act.play vs (.on ch v))) ch =
      Voice.next^[ticks mid] v := by
    rw [play_apart own, Act.play, Function.update_self]
  have release (vs : Voices) : Act.play vs (.off ch) ch = { vs ch with env := 3 } :=
    Function.update_self _ _ _
  refine ⟨fun log => ?_, fun post free log => ?_⟩
  · change voices (c.run board inputs N).sram ch = _
    rw [plain.voices, log, List.foldl_append, List.foldl_cons, note,
      Voice.held_iterate (fresh _ log)]
  · have fits : u.envCnt.toNat ≤ u.rate.toNat := by
      have below := Nat.mod_lt (ticks mid) (Nat.succ_pos v.rate.toNat)
      change (BitVec.ofNat 8 (ticks mid % (v.rate.toNat + 1))).toNat ≤ v.rate.toNat
      rw [BitVec.toNat_ofNat]
      exact Nat.le_trans (Nat.mod_le _ _) (Nat.lt_succ_iff.mp below)
    have same : w = u.released (ticks post) := by
      change voices (c.run board inputs N).sram ch = _
      rw [plain.voices, log, List.foldl_append, List.foldl_cons, List.foldl_append,
        List.foldl_cons, play_apart free, release, note, Voice.held_iterate (fresh _ log),
        ← Voice.released_iterate fits rfl]
    refine ⟨same, ?_⟩
    rw [same]
    exact u.released_silent (ticks post)

/-- A note that is released before the first sample is silent after it. -/
theorem life_law_brief : ¬ (voices (brief 440).sram 0).On := by
  have live := traffic_live 0 _ brief_live
  have law := life_law fives (traffic 0 briefly) 0 (fun _ => 0) live brief_safe brief_steady 440
    brief_run.2.2.1 0 ((brief 9).host.noteVoice 0) [] [] (by simp)
  have silent := ((law.2 [.tick] (by simp [Act.about]) brief_run.2.2.2).2).mpr
    (by decide)
  exact silent

end Chiptune.Wavetable
