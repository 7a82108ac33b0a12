import MediaApi.Model.Pool
import MediaApi.Pool.Forwarding

/-! # When a worker survives its job

After a job the worker computes the duration of the output. The divisor is the sample rate and the
channel count of the last `Ok` result times the bytes per sample of the options; the first two are
checked, the third is not, and it is zero for every bit depth below 8. With outputs of less than
`2 ^ 64 / 1000` bytes nothing overflows, so a job panics exactly then (`audioMs_eq_none`), and the
workers of a pool all stay alive exactly when no finished job is such (`live_iff`). -/

namespace MediaApi.Pool.Survival

open MediaApi.Lib.Transition MediaApi.Model.Audio MediaApi.Model.Pipeline
open MediaApi.Model.ProcessJob MediaApi.Model.Steps MediaApi.Model.Options
open MediaApi.Model.Pool MediaApi.Pool.Forwarding

variable {ε : Type}

/-! ### The tally of a job -/

/-- The bytes of the `Ok` results. -/
def totalBytes (rs : List (Decoded ε)) : ℕ := ((oks rs).map fun a => a.data.length).sum

/-- The counts over a list of results. -/
def tallyOf (rs : List (Decoded ε)) : Tally := rs.foldl Tally.add {}

theorem totalBytes_append (rs rs' : List (Decoded ε)) :
    totalBytes (rs ++ rs') = totalBytes rs + totalBytes rs' := by
  simp [totalBytes, oks]

theorem tallyOf_concat (rs : List (Decoded ε)) (r : Decoded ε) :
    tallyOf (rs ++ [r]) = (tallyOf rs).add r := by simp [tallyOf]

/-- The counts are the sum of the bytes, and the format of the last `Ok` result. -/
theorem tallyOf_eq (rs : List (Decoded ε)) :
    tallyOf rs = ⟨totalBytes rs, ((oks rs).getLast?.map AudioData.samplingRate).getD 0,
      ((oks rs).getLast?.map AudioData.channelCount).getD 0⟩ := by
  induction rs using List.reverseRecOn with
  | nil => rfl
  | append_singleton rs r ih =>
    rw [tallyOf_concat, ih]
    cases r with
    | ok a => simp [Tally.add, totalBytes]
    | error e => simp [Tally.add, totalBytes]

/-! ### The arithmetic -/

theorem bytesPerSample_lt (options : DecodeOptions) : bytesPerSample options < 2 ^ 5 := by
  have := (options.outputBitsPerSample.getD 16).toNat_lt
  unfold bytesPerSample; omega

/-- **The duration panics exactly by a zero divisor.** -/
theorem audioMs_eq_none {options : DecodeOptions} {t : Tally} (hb : t.outputBytes * 1000 < 2 ^ 64) :
    audioMs options t = none ↔
      t.outputSampleRate > 0 ∧ t.outputChannels > 0 ∧ bytesPerSample options = 0 := by
  have hrate := t.outputSampleRate.toNat_lt
  have hch := t.outputChannels.toNat_lt
  have hframes : t.outputSampleRate.toNat * t.outputChannels.toNat < 2 ^ 40 := by
    calc t.outputSampleRate.toNat * t.outputChannels.toNat < 2 ^ 32 * 2 ^ 8 :=
          Nat.mul_lt_mul'' hrate hch
      _ = 2 ^ 40 := by norm_num
  have hdiv :
      t.outputSampleRate.toNat * t.outputChannels.toNat * bytesPerSample options < 2 ^ 64 := by
    calc _ < 2 ^ 40 * 2 ^ 5 := Nat.mul_lt_mul'' hframes (bytesPerSample_lt options)
      _ ≤ 2 ^ 64 := by norm_num
  have h1 : mulU64 t.outputBytes 1000 = some (t.outputBytes * 1000) := if_pos hb
  have h2 : mulU64 t.outputSampleRate.toNat t.outputChannels.toNat =
      some (t.outputSampleRate.toNat * t.outputChannels.toNat) := if_pos (by omega)
  have h3 : mulU64 (t.outputSampleRate.toNat * t.outputChannels.toNat) (bytesPerSample options) =
      some (t.outputSampleRate.toNat * t.outputChannels.toNat * bytesPerSample options) :=
        if_pos hdiv
  unfold audioMs
  split_ifs with hg
  · have hr0 : 0 < t.outputSampleRate.toNat := by simpa using UInt32.lt_iff_toNat_lt.mp hg.1
    have hc0 : 0 < t.outputChannels.toNat := by simpa using UInt8.lt_iff_toNat_lt.mp hg.2
    simp only [h1, h2, h3, Option.bind_eq_bind, Option.bind_some, divU64]
    have hpos : 0 < t.outputSampleRate.toNat * t.outputChannels.toNat := Nat.mul_pos hr0 hc0
    simp [hg.1, hg.2, hpos.ne']
  · simp only [false_iff]
    exact fun h => hg ⟨h.1, h.2.1⟩

/-! ### A job -/

/-- The job has been measured: `process_job` ran to the end of its loops. -/
def Measured (s : Session ε) : Prop :=
  s.pc.outcome = some .returned ∨ s.pc.outcome = some .panicked

/-- The divisor is not zero: the bit depth is unset or at least 8, or there is no `Ok` result, or
the last one has no sample rate or no channels. -/
def Sound (s : Session ε) : Prop :=
  (∀ b, s.options.outputBitsPerSample = some b → 8 ≤ b) ∨
    ∀ a, (oks s.pipe.emitted).getLast? = some a → a.samplingRate = 0 ∨ a.channelCount = 0

theorem bytesPerSample_eq_zero (options : DecodeOptions) :
    bytesPerSample options = 0 ↔ ¬ ∀ b, options.outputBitsPerSample = some b → 8 ≤ b := by
  unfold bytesPerSample
  cases options.outputBitsPerSample with
  | none =>
    constructor
    · intro h; exact absurd h (by decide)
    · intro h; exact absurd (fun b hb => by cases hb) h
  | some b =>
    have h8 : 8 ≤ b ↔ 8 ≤ b.toNat := UInt8.le_iff_toNat_le
    simp only [Option.getD_some, Option.some.injEq, forall_eq', h8]
    omega

theorem uint32_pos {n : UInt32} : n > 0 ↔ n ≠ 0 := by
  rw [gt_iff_lt, UInt32.lt_iff_toNat_lt, Ne, ← UInt32.toNat_inj]
  simp [Nat.pos_iff_ne_zero]

theorem uint8_pos {n : UInt8} : n > 0 ↔ n ≠ 0 := by
  rw [gt_iff_lt, UInt8.lt_iff_toNat_lt, Ne, ← UInt8.toNat_inj]
  simp [Nat.pos_iff_ne_zero]

/-- The arithmetic over the results of a job. -/
theorem audioMs_tallyOf {options : DecodeOptions} {rs : List (Decoded ε)}
    (hb : totalBytes rs * 1000 < 2 ^ 64) :
    audioMs options (tallyOf rs) = none ↔
      ¬ ((∀ b, options.outputBitsPerSample = some b → 8 ≤ b) ∨
        ∀ a, (oks rs).getLast? = some a → a.samplingRate = 0 ∨ a.channelCount = 0) := by
  have hb' : (tallyOf rs).outputBytes * 1000 < 2 ^ 64 := by rw [tallyOf_eq]; exact hb
  rw [audioMs_eq_none hb', tallyOf_eq, bytesPerSample_eq_zero, not_or]
  cases (oks rs).getLast? with
  | none => simp
  | some a =>
    simp only [Option.map_some, Option.getD_some, Option.some.injEq, forall_eq', not_or,
      uint32_pos, uint8_pos]
    exact ⟨fun ⟨h1, h2, h3⟩ => ⟨h3, h1, h2⟩, fun ⟨h3, h1, h2⟩ => ⟨h1, h2, h3⟩⟩

/-- What the counters of a job are, and which way it was measured. -/
structure Metered (s : Session ε) : Prop where
  tally : s.tally = tallyOf s.pipe.given
  returned : s.pc.outcome = some .returned → audioMs s.options s.tally ≠ none
  panicked : s.pc.outcome = some .panicked → audioMs s.options s.tally = none

variable [ToString ε] {B : DecodeOptions → Behaviour ε} {s s' : Session ε} {l : Label ε}
  {options : DecodeOptions}

omit [ToString ε] in
theorem Metered.of_running (ht : s.tally = tallyOf s.pipe.given) (ho : s.pc.outcome = none) :
    Metered s :=
  ⟨ht, fun h => (by rw [ho] at h; cases h), fun h => (by rw [ho] at h; cases h)⟩

theorem metered_step (hm : Metered s) (h : s.step B l = some s') : Metered s' := by
  obtain ⟨h1, h2, h3⟩ := hm
  cases step_cases h with
  | worker h =>
    cases h with
    | forward r p hpc hp | forwardFinal r p hpc hp =>
      obtain ⟨-, hg, -⟩ := pipeRecv_some hp
      refine .of_running ?_ rfl
      show s.tally.add r = tallyOf p.given
      rw [hg, tallyOf_concat, h1]
    | measure ms hpc hm => exact ⟨h1, fun _ => by simp [hm], nofun⟩
    | panic hpc hm => exact ⟨h1, nofun, fun _ => hm⟩
    | dropInput o hpc | dropOutput o hpc =>
      rw [hpc] at h2 h3
      exact ⟨h1, h2, h3⟩
    | abort => exact ⟨h1, nofun, nofun⟩
    | drained hpc hp => cases hd : s.inputDone <;> exact .of_running h1 rfl
    | put i final c hpc hc => cases final <;> exact .of_running h1 rfl
    | _ => exact .of_running h1 rfl
  | answer ok h =>
    cases h with
    | refused => exact ⟨h1, h2, h3⟩
    | _ => exact .of_running h1 rfl
  | pipe a p hq hp =>
    obtain ⟨-, -, ⟨-, -, hg, ho, -⟩ | ⟨r, -, -, rfl⟩ | ⟨-, -, rfl⟩⟩ := pipe_step_cases hp
    · have hg : p.given = s.pipe.given := by simpa [Pipe.emitted, ho] using hg
      exact ⟨by rw [hg]; exact h1, h2, h3⟩
    · exact ⟨h1, h2, h3⟩
    · exact ⟨h1, h2, h3⟩
  | client a h => cases h <;> exact ⟨h1, h2, h3⟩

theorem reach_metered (h : Reach (Session.step B) (acquire options) s) : Metered s :=
  h.invariant (.of_running rfl rfl) fun _ _ _ hm h => metered_step hm h

/-- **A measured job panics exactly when its divisor is zero.** -/
theorem panicked_iff (h : Reach (Session.step B) (acquire options) s) (hms : Measured s)
    (hb : totalBytes s.pipe.emitted * 1000 < 2 ^ 64) :
    s.pc.outcome = some .panicked ↔ ¬ Sound s := by
  obtain ⟨h1, h2, h3⟩ := reach_metered h
  have hout := ((reach_ending h).done (Or.inr hms)).2.2
  have hgiven : s.pipe.emitted = s.pipe.given := by rw [Pipe.emitted, hout, List.append_nil]
  rw [Sound, ← audioMs_tallyOf hb, hgiven, ← h1]
  refine ⟨h3, fun hnone => ?_⟩
  rcases hms with h | h
  · exact absurd hnone (h2 h)
  · exact h

/-! ### The pool -/

variable {size : ℕ} {defaults : DecodeOptions} {p : DecoderPool ε}

omit [ToString ε] in
theorem live_eq_size (hsize : 1 ≤ size) :
    p.live size = size ↔ ∀ s ∈ p.jobs, s.pc.outcome ≠ some .panicked := by
  have h0 : p.live size = size ↔ p.jobs.countP hasPanicked = 0 := by
    unfold DecoderPool.live; omega
  rw [h0, List.countP_eq_zero]
  simp [hasPanicked]

/-- **The workers of a pool all live exactly when every measured job has a divisor.** For every run
of a pool on requests from the three front ends, with outputs below `2 ^ 64 / 1000` bytes. -/
theorem live_iff (B : DecodeOptions → Behaviour ε) (size : ℕ) (hsize : 1 ≤ size)
    (defaults : DecodeOptions) (ls : List (PoolLabel ε)) (p : DecoderPool ε)
    (h : run (DecoderPool.step B size defaults) DecoderPool.new ls = some p)
    (hb : ∀ s ∈ p.jobs, totalBytes s.pipe.emitted * 1000 < 2 ^ 64) :
    p.live size = size ↔ ∀ s ∈ p.jobs, Measured s → Sound s := by
  rw [live_eq_size hsize]
  refine forall₂_congr fun s hs => ?_
  obtain ⟨r, hr⟩ := reach_job (reach_of_run h) s hs
  constructor
  · intro hp hms
    by_contra hns
    exact hp ((panicked_iff hr hms (hb s hs)).mpr hns)
  · intro hsound hp
    exact (panicked_iff hr (Or.inr hp) (hb s hs)).mp hp (hsound (Or.inr hp))

/-- One job of a pool of one worker, from its request to its end. -/
def oneJob (r : Request) : List (PoolLabel String) := .acquire r :: echoRun.map (.job 0)

theorem live_tcp : ∃ p, run (DecoderPool.step echo 1 {}) DecoderPool.new (oneJob .tcp) = some p ∧
    (p.live 1 = 1 ↔ ∀ s ∈ p.jobs, Measured s → Sound s) := by
  have hrun : (run (DecoderPool.step echo 1 {}) DecoderPool.new (oneJob .tcp)).map
      (fun p => p.jobs.map fun s => s.pipe.emitted) =
      some [[.ok ⟨[7], 8000, 1, 16, .other 0⟩]] := by decide
  obtain ⟨p, hp, he⟩ := Option.map_eq_some_iff.mp hrun
  refine ⟨p, hp, live_iff echo 1 le_rfl {} _ p hp fun s hs => ?_⟩
  have hmem : s.pipe.emitted ∈ p.jobs.map fun s => s.pipe.emitted := List.mem_map_of_mem hs
  rw [he, List.mem_singleton] at hmem
  rw [hmem]; decide

/-- **A message can kill a worker**: a bit depth of 256 is not zero, so it is taken for a request,
and narrowed to `u8` it is zero. The only worker of the pool dies on the duration of one byte of
audio. -/
theorem live_grpc_256 : ∃ p, run (DecoderPool.step echo 1 {}) DecoderPool.new
      (oneJob (.grpc (some ⟨0, 256, 0⟩))) = some p ∧
    p.live 1 = 0 ∧ ∃ s ∈ p.jobs, s.pc = .ended .panicked ∧
      totalBytes s.pipe.emitted * 1000 < 2 ^ 64 := by
  have hrun : (run (DecoderPool.step echo 1 {}) DecoderPool.new
      (oneJob (.grpc (some ⟨0, 256, 0⟩)))).map
      (fun p => (p.live 1, p.jobs.map fun s => (s.pc, totalBytes s.pipe.emitted))) =
      some (0, [(.ended .panicked, 1)]) := by decide
  obtain ⟨p, hp, he⟩ := Option.map_eq_some_iff.mp hrun
  simp only [Prod.mk.injEq, List.map_eq_singleton_iff] at he
  obtain ⟨hlive, s, hjobs, hpc, hbytes⟩ := he
  exact ⟨p, hp, hlive, s, by simp [hjobs], hpc, by rw [hbytes]; decide⟩

end MediaApi.Pool.Survival
