import MediaApi.Model.Steps

/-! # The log line of a job

`process_job` also keeps the codec of its input, guessed from the first chunk that is long enough,
and after its loops it logs what it has counted. A `LoggedJob` is a session with these: the codec,
and the lines its worker has logged. The clock is read before and after the job; the label of the
step that logs says how many milliseconds lie between. `detect_audio` is not part of the repository,
so it is a parameter, as is the type of codecs. -/

namespace MediaApi.Model.Metrics

open MediaApi.Lib.Channel MediaApi.Lib.Transition MediaApi.Model.Audio MediaApi.Model.Pipeline
open MediaApi.Model.ProcessJob MediaApi.Model.Steps

variable {ε AudioType : Type}

/-- `info!(codec, audio_ms, rt, in_bytes, out_bytes, time_ms, "decode")`. -/
structure DecodeLine where
  codec : String
  audioMs : ℕ
  rt : ℕ
  inBytes : ℕ
  outBytes : ℕ
  timeMs : ℕ
deriving DecidableEq, Repr

/-- `if codec.is_none() && chunk.len() >= 12`: the codec after a data chunk. -/
def detectCodec (detectAudio : Bytes → AudioType) (codec : Option AudioType) (chunk : Bytes) :
    Option AudioType :=
  if codec.isNone ∧ 12 ≤ chunk.length then some (detectAudio chunk) else codec

/-- `codec_name`. -/
def codecName [ToString AudioType] (codec : Option AudioType) : String :=
  (codec.map toString).getD "unknown"

/-- `realtime_factor`. -/
def realtimeFactor (audioMs timeMs : ℕ) : ℕ := if timeMs > 0 then audioMs / timeMs else 0

/-- A job with what it has logged. -/
structure LoggedJob (ε AudioType : Type) where
  session : Session ε
  codec : Option AudioType
  lines : List DecodeLine

def LoggedJob.new (options : DecodeOptions) : LoggedJob ε AudioType := ⟨acquire options, none, []⟩

/-- The data chunk that the worker takes in its next step. -/
def takesChunk (s : Session ε) : Option Bytes :=
  if s.pc = .poll ∧ s.inputDone = false then
    match s.input.tryRecv with
    | .got chunk _ => if chunk = [] then none else some chunk
    | _ => none
  else none

/-- The duration of the output, when the worker's next step logs it. -/
def logsDuration (s : Session ε) : Option ℕ :=
  if s.pc = .metrics then audioMs s.options s.tally else none

section Line

variable [ToString AudioType]

/-- The line of a job with this duration and this time. -/
def LoggedJob.line (j : LoggedJob ε AudioType) (audioMs timeMs : ℕ) : DecodeLine where
  codec := codecName j.codec
  audioMs := audioMs
  rt := realtimeFactor audioMs timeMs
  inBytes := j.session.inputBytes
  outBytes := j.session.tally.outputBytes
  timeMs := timeMs

/-- A step of the worker, `timeMs` after the start of the job, to `s`. -/
def LoggedJob.worked (detectAudio : Bytes → AudioType) (j : LoggedJob ε AudioType) (timeMs : ℕ)
    (s : Session ε) : LoggedJob ε AudioType where
  session := s
  codec := ((takesChunk j.session).map (detectCodec detectAudio j.codec)).getD j.codec
  lines := j.lines ++ ((logsDuration j.session).map fun ms => j.line ms timeMs).toList

/-- **A step of a job** and its log. -/
def LoggedJob.step [ToString ε] (B : DecodeOptions → Behaviour ε)
    (detectAudio : Bytes → AudioType) (j : LoggedJob ε AudioType) (l : Label ε × ℕ) :
    Option (LoggedJob ε AudioType) :=
  (j.session.step B l.1).map fun s =>
    match l.1 with
    | .inner .worker => j.worked detectAudio l.2 s
    | _ => { j with session := s }

/-! ### The steps by name -/

variable {B : DecodeOptions → Behaviour ε} {detectAudio : Bytes → AudioType}
  {j j' : LoggedJob ε AudioType} {l : Label ε × ℕ}

/-- What a step does to the counters: the worker takes a data chunk, or logs its line, or neither
the data it has taken nor the way the job has ended changes. -/
inductive LogStep (detectAudio : Bytes → AudioType) (j : LoggedJob ε AudioType) :
    LoggedJob ε AudioType → Prop where
  | chunk (b : Bytes) (c : Chan Bytes slots) (hpc : j.session.pc = .poll) (hb : b ≠ []) :
      LogStep detectAudio j ⟨{ j.session with
        input := c
        taken := j.session.taken ++ [b]
        inputBytes := j.session.inputBytes + b.length
        pc := .retry b }, detectCodec detectAudio j.codec b, j.lines⟩
  | measure (ms timeMs : ℕ) (hpc : j.session.pc = .metrics)
      (hm : audioMs j.session.options j.session.tally = some ms) :
      LogStep detectAudio j ⟨{ j.session with pc := .dropInput .returned }, j.codec,
        j.lines ++ [j.line ms timeMs]⟩
  | silent (s : Session ε) (htaken : chunks s.taken = chunks j.session.taken)
      (hin : s.inputBytes = j.session.inputBytes)
      (hret : s.pc.outcome = some .returned → j.session.pc.outcome = some .returned)
      (hkept : j.session.pc.outcome = some .returned →
        s.pc.outcome = some .returned ∧ s.tally = j.session.tally ∧ s.options = j.session.options) :
      LogStep detectAudio j { j with session := s }

theorem worked_silent {timeMs : ℕ} {s : Session ε} (htakes : takesChunk j.session = none)
    (hlogs : logsDuration j.session = none) :
    j.worked detectAudio timeMs s = { j with session := s } := by
  unfold LoggedJob.worked
  rw [htakes, hlogs]
  simp

theorem takesChunk_none {s : Session ε} (h : s.pc ≠ .poll ∨ s.inputDone = true) :
    takesChunk s = none := by
  unfold takesChunk
  rw [if_neg]
  rintro ⟨hpc, hd⟩
  rcases h with h | h
  · exact h hpc
  · rw [hd] at h
    cases h

theorem logsDuration_none {s : Session ε} (h : s.pc ≠ .metrics) : logsDuration s = none := by
  unfold logsDuration
  rw [if_neg h]

/-- A worker's step away from the data chunks and the metrics. -/
theorem worked_other {timeMs : ℕ} {s : Session ε} (hpc : j.session.pc ≠ .poll)
    (hm : j.session.pc ≠ .metrics) (htaken : s.taken = j.session.taken)
    (hin : s.inputBytes = j.session.inputBytes)
    (hret : s.pc.outcome = some .returned ↔ j.session.pc.outcome = some .returned)
    (hkept : j.session.pc.outcome ≠ none → s.tally = j.session.tally)
    (hopt : s.options = j.session.options) :
    LogStep detectAudio j (j.worked detectAudio timeMs s) := by
  rw [worked_silent (takesChunk_none (Or.inl hpc)) (logsDuration_none hm)]
  refine .silent s (by rw [htaken]) hin hret.mp fun h => ⟨hret.mpr h, hkept ?_, hopt⟩
  rw [h]
  simp

variable [ToString ε]

/-- The session makes the step. -/
theorem logged_session (h : j.step B detectAudio l = some j') :
    j.session.step B l.1 = some j'.session := by
  obtain ⟨s, hs, rfl⟩ := Option.map_eq_some_iff.mp h
  rw [hs]
  split <;> rfl

theorem worked_cases {timeMs : ℕ} {s : Session ε} (h : WorkerStep j.session s) :
    LogStep detectAudio j (j.worked detectAudio timeMs s) := by
  cases h with
  | chunk b c hpc hd hr hb =>
    have htakes : takesChunk j.session = some b := by
      unfold takesChunk
      rw [if_pos ⟨hpc, hd⟩, hr]
      simp [hb]
    have hlogs : logsDuration j.session = none := logsDuration_none (by simp [hpc])
    unfold LoggedJob.worked
    rw [htakes, hlogs]
    simpa using .chunk b c hpc hb
  | measure ms hpc hm =>
    have htakes : takesChunk j.session = none := takesChunk_none (Or.inl (by simp [hpc]))
    have hlogs : logsDuration j.session = some ms := by
      unfold logsDuration
      rw [if_pos hpc, hm]
    unfold LoggedJob.worked
    rw [htakes, hlogs]
    exact .measure ms timeMs hpc hm
  | panic hpc hm =>
    have hlogs : logsDuration j.session = none := by
      unfold logsDuration
      rw [if_pos hpc, hm]
    rw [worked_silent (takesChunk_none (Or.inl (by simp [hpc]))) hlogs]
    exact .silent _ rfl rfl (fun h => by cases h) (fun h => by simp [hpc, Pc.outcome] at h)
  | skip hpc hd =>
    rw [worked_silent (takesChunk_none (Or.inr hd)) (logsDuration_none (by simp [hpc]))]
    exact .silent _ rfl rfl (fun h => by cases h) (fun h => by simp [hpc, Pc.outcome] at h)
  | eof c hpc hd hr =>
    have htakes : takesChunk j.session = none := by
      unfold takesChunk
      rw [if_pos ⟨hpc, hd⟩, hr]
      simp
    rw [worked_silent htakes (logsDuration_none (by simp [hpc]))]
    exact .silent _ (by simp) rfl (fun h => by cases h) (fun h => by simp [hpc, Pc.outcome] at h)
  | idle hpc hd hr | disconnected hpc hd hr =>
    have htakes : takesChunk j.session = none := by
      unfold takesChunk
      rw [if_pos ⟨hpc, hd⟩, hr]
    rw [worked_silent htakes (logsDuration_none (by simp [hpc]))]
    exact .silent _ rfl rfl (fun h => by cases h) (fun h => by simp [hpc, Pc.outcome] at h)
  | start hpc | forward r p hpc | abort i final hpc | forwardFinal r p hpc
  | finish hpc | dropInput o hpc | dropOutput o hpc =>
    exact worked_other (by simp [hpc]) (by simp [hpc]) rfl rfl (by simp [hpc, Pc.outcome])
      (by simp [hpc, Pc.outcome]) rfl
  | drained hpc =>
    exact worked_other (by simp [hpc]) (by simp [hpc]) rfl rfl
      (by cases j.session.inputDone <;> simp [hpc, Pc.outcome]) (by simp [hpc, Pc.outcome]) rfl
  | put i final c hpc =>
    exact worked_other (by simp [hpc]) (by simp [hpc]) rfl rfl
      (by cases final <;> simp [hpc, Pc.outcome]) (by simp [hpc, Pc.outcome]) rfl

/-- **A step of a job** and what it does to the log. -/
theorem logged_step_cases (h : j.step B detectAudio l = some j') : LogStep detectAudio j j' := by
  obtain ⟨l, timeMs⟩ := l
  obtain ⟨s, hs, rfl⟩ := Option.map_eq_some_iff.mp h
  cases step_cases hs with
  | worker hw => exact worked_cases hw
  | answer ok ha =>
    cases ha with
    | refused => exact .silent _ rfl rfl id fun h => ⟨h, rfl, rfl⟩
    | eofAccepted hpc | eofRefused hpc | accepted _ hpc =>
      exact .silent _ rfl rfl (fun h => by cases h) (fun h => by simp [hpc, Pc.outcome] at h)
  | pipe a p hq hp => exact .silent _ rfl rfl id fun h => ⟨h, rfl, rfl⟩
  | client a hc => cases hc <;> exact .silent _ rfl rfl id fun h => ⟨h, rfl, rfl⟩

end Line

end MediaApi.Model.Metrics
