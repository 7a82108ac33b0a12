import MediaApi.Model.Metrics
import MediaApi.Pool.Handle
import MediaApi.Pool.Survival

/-! # What a job logs

A job that comes to its metrics logs one line, all others none. The line is an account of the two
channels of the job: of the data chunks its holder has sent before the first empty one, and of the
results its holder has received or can still receive (`accounts`). So it does not depend on how the
chunks were taken and retried, on the polls that found nothing, or on the order in which the parties
moved.

The duration in the line is a whole number of milliseconds, cut off. When the results are whole
frames of one format, in the bit depth of the options, it is the number of frames by the sample rate
(`duration`). -/

namespace MediaApi.Pool.Accounting

open MediaApi.Lib.Channel MediaApi.Lib.Transition MediaApi.Model.Audio MediaApi.Model.Pipeline
open MediaApi.Model.ProcessJob MediaApi.Model.Steps MediaApi.Model.Metrics
open MediaApi.Pool.Forwarding MediaApi.Pool.Handle MediaApi.Pool.Survival

variable {ε AudioType : Type} [ToString AudioType]

/-! ### The account -/

/-- How many bytes there are in these chunks. -/
def volume (bs : List Bytes) : ℕ := (bs.map List.length).sum

def longEnough (b : Bytes) : Bool := 12 ≤ b.length

/-- The codec of these chunks: of the first that is long enough. -/
def codecOf (detectAudio : Bytes → AudioType) (bs : List Bytes) : Option AudioType :=
  (bs.find? longEnough).map detectAudio

/-- The line of a job with these data chunks and these results; `none` where the duration panics. -/
def account (detectAudio : Bytes → AudioType) (options : DecodeOptions) (data : List Bytes)
    (items : List Item) (timeMs : ℕ) : Option DecodeLine :=
  (audioMs options (tallyOf items)).map fun ms =>
    { codec := codecName (codecOf detectAudio data)
      audioMs := ms
      rt := realtimeFactor ms timeMs
      inBytes := volume data
      outBytes := totalBytes items
      timeMs := timeMs }

omit [ToString AudioType] in
theorem codecOf_concat (detectAudio : Bytes → AudioType) (bs : List Bytes) (b : Bytes) :
    codecOf detectAudio (bs ++ [b]) = detectCodec detectAudio (codecOf detectAudio bs) b := by
  unfold codecOf detectCodec
  rw [List.find?_append]
  rcases bs.find? longEnough with _ | a
  · by_cases hb : 12 ≤ b.length
    · simp [longEnough, hb]
    · simp [longEnough, hb]
  · simp

theorem volume_concat (bs : List Bytes) (b : Bytes) :
    volume (bs ++ [b]) = volume bs + b.length := by
  simp [volume]

theorem tallyOf_mapErr [ToString ε] (rs : List (Decoded ε)) :
    tallyOf (rs.map mapErr) = tallyOf rs := by
  rw [tallyOf_eq, tallyOf_eq, totalBytes, oks_map_mapErr]
  rfl

/-! ### The counters of a job -/

variable [ToString ε] {B : DecodeOptions → Behaviour ε} {detectAudio : Bytes → AudioType}
  {options : DecodeOptions} {j j' : LoggedJob ε AudioType} {l : Label ε × ℕ}

/-- The counters are those of the data chunks taken, and the lines those of the job as it stands. -/
structure Counted (detectAudio : Bytes → AudioType) (j : LoggedJob ε AudioType) : Prop where
  volume : j.session.inputBytes = volume (chunks j.session.taken)
  codec : j.codec = codecOf detectAudio (chunks j.session.taken)
  silent : j.session.pc.outcome ≠ some .returned → j.lines = []
  logged : j.session.pc.outcome = some .returned →
    ∃ ms timeMs, audioMs j.session.options j.session.tally = some ms ∧ j.lines = [j.line ms timeMs]

theorem counted_step (hc : Counted detectAudio j) (h : j.step B detectAudio l = some j') :
    Counted detectAudio j' := by
  obtain ⟨hvolume, hcodec, hsilent, hlogged⟩ := hc
  rcases logged_step_cases h with ⟨b, c, hpc, hb⟩ | ⟨ms, timeMs, hpc, hm⟩ |
    ⟨s, htaken, hin, hret, hkept⟩
  · refine ⟨?_, ?_, fun _ => hsilent (by simp [hpc, Pc.outcome]), fun h => by cases h⟩
    · rw [chunks_append, chunks_singleton hb, volume_concat, ← hvolume]
    · rw [chunks_append, chunks_singleton hb, codecOf_concat, ← hcodec]
  · refine ⟨hvolume, hcodec, fun h => absurd rfl h, fun _ => ⟨ms, timeMs, hm, ?_⟩⟩
    rw [hsilent (by simp [hpc, Pc.outcome])]
    rfl
  · refine ⟨?_, ?_, fun h => hsilent fun hj => h (hkept hj).1, fun h => ?_⟩
    · show s.inputBytes = _
      rw [htaken, hin, hvolume]
    · rw [htaken, hcodec]
    · obtain ⟨-, htally, hopt⟩ := hkept (hret h)
      obtain ⟨ms, timeMs, hm, hlines⟩ := hlogged (hret h)
      refine ⟨ms, timeMs, by rw [← hm, htally, hopt], ?_⟩
      show j.lines = _
      rw [hlines]
      unfold LoggedJob.line
      rw [htally, hin]

theorem reach_counted (h : Reach (LoggedJob.step B detectAudio) (LoggedJob.new options) j) :
    Counted detectAudio j :=
  h.invariant ⟨rfl, rfl, fun _ => rfl, fun h => by cases h⟩ fun _ _ _ hc h => counted_step hc h

/-- The session of a job runs like any other. -/
theorem reach_session (h : Reach (LoggedJob.step B detectAudio) (LoggedJob.new options) j) :
    Reach (Session.step B) (acquire options) j.session := by
  exact Reach.map (f := LoggedJob.session)
    (fun _ _ _ hs => Reach.single (logged_session hs)) h

/-! ### The line -/

/-- What a job has logged. -/
structure Accounts (detectAudio : Bytes → AudioType) (options : DecodeOptions)
    (j : LoggedJob ε AudioType) : Prop where
  /-- Nothing, before its metrics and when it aborts or panics. -/
  silent : j.session.pc.outcome ≠ some .returned → j.lines = []
  /-- One line, the account of what its holder has sent and received or can still receive. -/
  logged : j.session.pc.outcome = some .returned → ∃ timeMs line,
    account detectAudio options (dataSent j.session)
      (j.session.received ++ j.session.output.queue) timeMs = some line ∧ j.lines = [line]

omit [ToString ε] in
theorem measured_hand {s : Session ε} (hms : Measured s) : s.pc.hand = [] := by
  unfold Measured at hms
  rcases hpc : s.pc with _ | _ | _ | _ | _ | _ | _ | _ | o | o | o <;>
    simp only [hpc, Pc.outcome, reduceCtorEq, Option.some.injEq, or_self] at hms <;>
    rcases hms with rfl | rfl <;> rfl

/-- After its metrics a job has taken the chunks sent before EOF, and all results have been put. -/
theorem measured_complete {s : Session ε} (h : Reach (Session.step B) (acquire options) s)
    (hms : Measured s) : chunks s.taken = dataSent s ∧
      s.tally = tallyOf (s.received ++ s.output.queue) ∧ s.options = options := by
  have hf := reach_flow h
  have hi := reach_input h
  have hat : AtEof s := Or.inl ((reach_ending h).done (Or.inr hms)).1
  have hdata : chunks (chunks s.pipe.accepted) = chunks s.pipe.accepted :=
    chunks_eq_self (nil_notMem_chunks _)
  refine ⟨?_, ?_, reach_options h⟩
  · rw [dataSent, ← accepted_of_eof hf hi hat]
    rcases (hi.after hat).2.1 with htaken | ⟨htaken, -, -⟩
    · rw [htaken, chunks_append, hdata, chunks_eof, List.append_nil]
    · rw [htaken, hdata]
  · have hitems := hf.items
    rw [measured_hand hms, List.append_nil] at hitems
    rw [(reach_metered h).tally, hitems, tallyOf_mapErr]

/-- The line of a job that has returned. -/
theorem logged_account (h : Reach (LoggedJob.step B detectAudio) (LoggedJob.new options) j)
    (hret : j.session.pc.outcome = some .returned) : ∃ timeMs line,
    account detectAudio options (dataSent j.session)
      (j.session.received ++ j.session.output.queue) timeMs = some line ∧ j.lines = [line] := by
  obtain ⟨hvolume, hcodec, -, hlogged⟩ := reach_counted h
  have hs := reach_session h
  obtain ⟨htaken, htally, hopt⟩ := measured_complete hs (Or.inl hret)
  obtain ⟨ms, timeMs, hm, hlines⟩ := hlogged hret
  refine ⟨timeMs, _, ?_, hlines⟩
  unfold account LoggedJob.line
  rw [← hopt, ← htally, hm, hvolume, hcodec, htaken, htally, tallyOf_eq]
  rfl

/-- **A job logs an account of its channels**: for every holder, every pipeline, every schedule and
every clock. -/
theorem accounts (B : DecodeOptions → Behaviour ε) (detectAudio : Bytes → AudioType)
    (options : DecodeOptions) (ls : List (Label ε × ℕ)) (j : LoggedJob ε AudioType)
    (h : run (LoggedJob.step B detectAudio) (LoggedJob.new options) ls = some j) :
    Accounts detectAudio options j :=
  ⟨(reach_counted (reach_of_run h)).silent, logged_account (reach_of_run h)⟩

/-- A job whose chunk is logged, 3 ms after its start. -/
def loggedEcho : List (Label String × ℕ) := echoRun.map fun l => (l, 3)

theorem accounts_echo : ∃ j : LoggedJob String String,
    run (LoggedJob.step echo fun _ => "Pcm") (LoggedJob.new {}) loggedEcho = some j ∧
      j.session.pc = .ended .returned ∧ Accounts (fun _ => "Pcm") {} j := by
  have hrun : (run (LoggedJob.step echo fun _ => "Pcm") (LoggedJob.new {}) loggedEcho).map
      (fun j => j.session.pc) = some (.ended .returned) := by decide
  obtain ⟨j, hj, hpc⟩ := Option.map_eq_some_iff.mp hrun
  exact ⟨j, hj, hpc, accounts echo _ {} loggedEcho j hj⟩

/-! ### The duration -/

/-- Whole frames of one format, in the bit depth of the options. -/
structure Whole (options : DecodeOptions) (items : List Item) (rate : UInt32) (channels : UInt8)
    (frames : ℕ) : Prop where
  format : ∀ a ∈ oks items, a.samplingRate = rate ∧ a.channelCount = channels
  bytes : totalBytes items = frames * (channels.toNat * bytesPerSample options)

/-- The duration, where nothing is zero and nothing overflows. -/
theorem audioMs_of_pos {t : Tally} (hrate : t.outputSampleRate > 0) (hch : t.outputChannels > 0)
    (hbits : bytesPerSample options ≠ 0) (hb : t.outputBytes * 1000 < 2 ^ 64) :
    audioMs options t = some (t.outputBytes * 1000 /
      (t.outputSampleRate.toNat * t.outputChannels.toNat * bytesPerSample options)) := by
  have hr0 : 0 < t.outputSampleRate.toNat := by simpa using UInt32.lt_iff_toNat_lt.mp hrate
  have hc0 : 0 < t.outputChannels.toNat := by simpa using UInt8.lt_iff_toNat_lt.mp hch
  have hrlt := t.outputSampleRate.toNat_lt
  have hclt := t.outputChannels.toNat_lt
  have hblt := bytesPerSample_lt options
  have hframes : t.outputSampleRate.toNat * t.outputChannels.toNat < 2 ^ 64 := by
    calc _ < 2 ^ 32 * 2 ^ 8 := by gcongr
      _ ≤ 2 ^ 64 := by norm_num
  have hdiv : t.outputSampleRate.toNat * t.outputChannels.toNat * bytesPerSample options <
      2 ^ 64 := by
    calc _ < 2 ^ 32 * 2 ^ 8 * 2 ^ 5 := by gcongr
      _ ≤ 2 ^ 64 := by norm_num
  have hne : t.outputSampleRate.toNat * t.outputChannels.toNat * bytesPerSample options ≠ 0 := by
    have := Nat.mul_pos (Nat.mul_pos hr0 hc0) (Nat.pos_of_ne_zero hbits)
    omega
  unfold audioMs mulU64 divU64
  rw [if_pos ⟨hrate, hch⟩, if_pos hb, if_pos hframes]
  simp only [Option.bind_eq_bind, Option.bind_some]
  rw [if_pos hdiv]
  simp only [Option.bind_some]
  rw [if_neg hne]

theorem audioMs_whole {items : List Item} {rate : UInt32} {channels : UInt8} {frames : ℕ}
    (hw : Whole options items rate channels frames) (hrate : 0 < rate) (hch : 0 < channels)
    (hbits : bytesPerSample options ≠ 0) (hb : totalBytes items * 1000 < 2 ^ 64) :
    audioMs options (tallyOf items) = some (frames * 1000 / rate.toNat) := by
  have hc0 : 0 < channels.toNat := by simpa using UInt8.lt_iff_toNat_lt.mp hch
  have hframe : 0 < channels.toNat * bytesPerSample options :=
    Nat.mul_pos hc0 (Nat.pos_of_ne_zero hbits)
  rcases List.eq_nil_or_concat (oks items) with hnil | ⟨as, a, hlast⟩
  · -- no frame, and no format to read
    have hzero : frames = 0 := by
      have hbytes := hw.bytes
      rw [totalBytes, hnil, List.map_nil, List.sum_nil] at hbytes
      rcases Nat.mul_eq_zero.mp hbytes.symm with h | h
      · exact h
      · omega
    rw [tallyOf_eq, hnil, hzero]
    simp [audioMs]
  · obtain ⟨hr, hc⟩ := hw.format a (by simp [hlast])
    have ht : tallyOf items = ⟨totalBytes items, rate, channels⟩ := by
      rw [tallyOf_eq, hlast]
      simp [hr, hc]
    have hscale : frames * (channels.toNat * bytesPerSample options) * 1000 =
        frames * 1000 * (channels.toNat * bytesPerSample options) := by ring
    rw [ht, audioMs_of_pos (t := ⟨totalBytes items, rate, channels⟩) hrate hch hbits hb]
    show some (totalBytes items * 1000 / (rate.toNat * channels.toNat * bytesPerSample options)) = _
    rw [hw.bytes, hscale, Nat.mul_assoc rate.toNat, Nat.mul_div_mul_right _ _ hframe]

/-- **The duration is the number of frames by the sample rate**: a job that comes to its metrics
after whole frames of one format, in the bit depth of its options, does not panic, and logs it. -/
theorem duration (B : DecodeOptions → Behaviour ε) (detectAudio : Bytes → AudioType)
    (options : DecodeOptions) (ls : List (Label ε × ℕ)) (j : LoggedJob ε AudioType)
    (h : run (LoggedJob.step B detectAudio) (LoggedJob.new options) ls = some j)
    (hms : Measured j.session) {rate : UInt32} {channels : UInt8} {frames : ℕ}
    (hw : Whole options (j.session.received ++ j.session.output.queue) rate channels frames)
    (hrate : 0 < rate) (hch : 0 < channels) (hbits : bytesPerSample options ≠ 0)
    (hb : totalBytes (j.session.received ++ j.session.output.queue) * 1000 < 2 ^ 64) :
    j.session.pc.outcome = some .returned ∧
      ∃ line, j.lines = [line] ∧ line.audioMs = frames * 1000 / rate.toNat := by
  have hr := reach_of_run h
  have hs := reach_session hr
  obtain ⟨-, htally, hopt⟩ := measured_complete hs hms
  have hdur := audioMs_whole hw hrate hch hbits hb
  have hret : j.session.pc.outcome = some .returned := by
    rcases hms with hret | hpanic
    · exact hret
    · have hnone := (reach_metered hs).panicked hpanic
      rw [hopt, htally, hdur] at hnone
      cases hnone
  obtain ⟨timeMs, line, hline, hlines⟩ := logged_account hr hret
  refine ⟨hret, line, hlines, ?_⟩
  unfold account at hline
  rw [hdur] at hline
  cases hline
  rfl

theorem duration_echo : ∃ j : LoggedJob String String,
    run (LoggedJob.step echo fun _ => "Pcm") (LoggedJob.new { outputBitsPerSample := some 8 })
      loggedEcho = some j ∧ ∃ line, j.lines = [line] ∧ line.audioMs = 1 * 1000 / 8000 := by
  have hrun : (run (LoggedJob.step echo fun _ => "Pcm")
      (LoggedJob.new { outputBitsPerSample := some 8 }) loggedEcho).map (fun j =>
        (j.session.pc, j.session.received ++ j.session.output.queue)) =
      some (.ended .returned, [.ok ⟨[7], 8000, 1, 16, .other 0⟩]) := by decide
  obtain ⟨j, hj, hend⟩ := Option.map_eq_some_iff.mp hrun
  rw [Prod.mk.injEq] at hend
  obtain ⟨hpc, hitems⟩ := hend
  have hw : Whole { outputBitsPerSample := some 8 } (j.session.received ++ j.session.output.queue)
      8000 1 1 := by
    rw [hitems]
    exact ⟨by simp [oks], by decide⟩
  obtain ⟨-, hline⟩ := duration echo _ _ loggedEcho j hj (Or.inl (by rw [hpc]; rfl)) hw (by decide)
    (by decide) (by decide) (by rw [hitems]; decide)
  exact ⟨j, hj, hline⟩

end MediaApi.Pool.Accounting
