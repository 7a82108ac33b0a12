import MediaApi.Benchmark.RoundTrip

/-! # When the benchmark panics

With codecs that keep to their buffers the benchmark panics at three places only: `chunks(0)`, where
a frame has no samples; the peak error of a debug build; and `print_row`, which takes every run
without an error for one that can be compared (`panics_iff`). -/

namespace MediaApi.Benchmark.Panics

open MediaApi.Benchmark.PeakError MediaApi.Benchmark.RoundTrip MediaApi.Benchmark.Transparent
  MediaApi.Model.Audio MediaApi.Model.BenchmarkRun MediaApi.Model.OpusBenchmark

variable {σ τ : Type}

/-- Codecs that write no more than their buffers hold. -/
structure KeepsTo (e : Encoder σ) (d : Decoder τ) (channels : ℕ) : Prop where
  encode : ∀ {s frame buf n buf' s'}, e.encode s frame buf = .ok (n, buf', s') → n ≤ buf.length
  decode : ∀ {t packet buf n buf' t'}, d.decode t packet buf = .ok (n, buf', t') →
    saturatingMul n channels ≤ buf.length

/-- What makes the benchmark panic at a track. -/
inductive Breaks (build : Build) (backend : Backend) (c : Codecs σ τ) (config : Config)
    (track : SourceTrack) : Prop
  /-- A frame has no samples. -/
  | noFrame {s : σ} (hset : setUp backend (c.encoderOf config) = .ok s)
      (hframe : config.sampleRate.toNat < 1000 ∨ config.channels.toNat = 0)
  /-- Nothing is to be compared, or the difference of two samples overflows. -/
  | compare {packets : Bytes} {made : List Bytes} {decoded : List Int16}
      (hencode : backend.encode (c.encoderOf config) track.pcm config.channels.toNat
        config.frameSize = (.ok packets, made))
      (hdecode : handOver backend (c.decoderOf config) config.channels.toNat made = .ok decoded)
      (h : track.pcm = [] ∨ decoded = [] ∨ build = .debug ∧ ¬ Fits track.pcm decoded)

/-! ### The loops do not panic -/

section loops

variable {e : Encoder σ} {d : Decoder τ} {channels : ℕ}

theorem encodeLoop_not_panicked (h : KeepsTo e d channels) (encodeErr : String → String)
    (frameSamples : ℕ) (chunks : List (List Int16)) : ∀ (s : σ) (buf packets : Bytes)
    (made : List Bytes),
    (encodeLoop e encodeErr frameSamples chunks s buf packets made).1 ≠ .panicked := by
  induction chunks with
  | nil =>
    intro s buf packets made
    simp [encodeLoop]
  | cons chunk chunks ih =>
    intro s buf packets made
    rw [encodeLoop]
    rcases hencode : e.encode s (chunk ++ List.replicate (frameSamples - chunk.length) 0) buf with
      message | ⟨n, buf', s'⟩
    · simp
    · have hle : n ≤ buf'.length := by
        rw [e.length_encode hencode]
        exact h.encode hencode
      have hslice : slice buf' 0 n = some (buf'.take n) := by
        rw [slice, if_pos ⟨Nat.zero_le _, hle⟩, List.drop_zero, Nat.sub_zero]
      by_cases hn : n = 0
      · simp only [hn, if_true]
        exact ih _ _ _ _
      · simp only [hn, if_false, hslice]
        exact ih _ _ _ _

theorem decodePackets_not_panicked (h : KeepsTo e d channels) (decodeErr : String → String)
    (made : List Bytes) : ∀ (t : τ) (scratch decoded : List Int16),
    decodePackets d decodeErr channels made t scratch decoded ≠ .panicked := by
  induction made with
  | nil =>
    intro t scratch decoded
    simp [decodePackets]
  | cons p made ih =>
    intro t scratch decoded
    rw [decodePackets]
    rcases hdecode : d.decode t p scratch with message | ⟨n, scratch', t'⟩
    · simp
    · have hle : saturatingMul n channels ≤ scratch'.length := by
        rw [d.length_decode hdecode]
        exact h.decode hdecode
      have hslice : slice scratch' 0 (saturatingMul n channels) =
          some (scratch'.take (saturatingMul n channels)) := by
        rw [slice, if_pos ⟨Nat.zero_le _, hle⟩, List.drop_zero, Nat.sub_zero]
      simp only [hslice]
      exact ih _ _ _

theorem handOver_not_panicked (h : KeepsTo e d channels) (backend : Backend) (made : List Bytes) :
    handOver backend d channels made ≠ .panicked := by
  have heach : ∀ decodeErr created, decodeEach d decodeErr channels made created ≠ .panicked := by
    intro decodeErr created
    rcases created with message | t
    · simp [decodeEach]
    · exact decodePackets_not_panicked h decodeErr made t _ _
  rcases backend with _ | _
  · exact heach _ _
  · exact heach _ _

end loops

/-! ### One track -/

/-- An encoder that cannot be set up is reported. -/
theorem encode_of_setUp_error {backend : Backend} {e : Encoder σ} {message : String}
    (h : setUp backend e = .error message) : ∃ error, ∀ pcm channels frameSize,
      backend.encode e pcm channels frameSize = (.err error, []) := by
  rcases backend with _ | _
  · have hcreate : e.create = .error message := h
    exact ⟨message, fun pcm channels frameSize => by
      rw [Backend.encode, encodeWithSoundkit, hcreate, encodeWith]⟩
  · have hset : e.create.bind e.setBitrate = .error message := h
    unfold Backend.encode encodeWithLibopusRust
    rcases hcreate : e.create with message' | s
    · exact ⟨_, fun pcm channels frameSize => rfl⟩
    · rw [hcreate] at hset
      have hbitrate : e.setBitrate s = .error message := hset
      exact ⟨"libopus-rs set bitrate: " ++ message, fun pcm channels frameSize => by
        simp [Except.mapError, Except.bind, hbitrate, encodeWith]⟩

variable {build : Build} {backend : Backend} {c : Codecs σ τ} {config : Config}
  {track : SourceTrack}

/-- A frame without samples. -/
theorem frameSamples_eq_zero :
    saturatingMul config.frameSize config.channels.toNat = 0 ↔
      config.sampleRate.toNat < 1000 ∨ config.channels.toNat = 0 := by
  have hiff : config.frameSize * config.channels.toNat = 0 ↔
      config.frameSize = 0 ∨ config.channels.toNat = 0 := Nat.mul_eq_zero
  unfold saturatingMul
  have hmin : min (config.frameSize * config.channels.toNat) (2 ^ 64 - 1) = 0 ↔
      config.frameSize * config.channels.toNat = 0 := by omega
  rw [hmin, hiff]
  unfold Config.frameSize frameMs
  omega

/-- The comparison of two tracks. -/
theorem comparePcm_quality {pcm decoded : List Int16} :
    (∃ q, comparePcm build pcm decoded = some (some q)) ↔
      ¬ (pcm = [] ∨ decoded = [] ∨ build = .debug ∧ ¬ Fits pcm decoded) := by
  by_cases hp : pcm = []
  · simp [hp, comparePcm]
  by_cases hd : decoded = []
  · simp [hd, comparePcm]
  by_cases hf : Fits pcm decoded
  · obtain ⟨-, q, hq, -⟩ : PeakExact build pcm decoded := hf.peakExact hp hd
    simp [hp, hd, hf, hq]
  · obtain ⟨hdebug, q, hrelease, -⟩ := not_fits hf
    rcases build with _ | _
    · simp [hdebug, hf]
    · simp [hp, hd, hrelease]

/-- The row of a run without an error. -/
theorem engineResult_row (track : SourceTrack) (encoded : Bytes) (decoded : List Int16) :
    (engineResult build backend track encoded decoded none).bind printRow = none ↔
      ¬ ∃ q, comparePcm build track.pcm decoded = some (some q) := by
  unfold engineResult
  rcases comparePcm build track.pcm decoded with _ | _ | q
  · simp
  · simp [printRow]
  · simp [printRow]

/-- When the encoding of a track panics. -/
theorem encode_panicked (backend : Backend)
    (h : KeepsTo (c.encoderOf config) (c.decoderOf config) config.channels.toNat)
    (pcm : List Int16) :
    (backend.encode (c.encoderOf config) pcm config.channels.toNat config.frameSize).1 = .panicked ↔
      (∃ s, setUp backend (c.encoderOf config) = .ok s) ∧
        (config.sampleRate.toNat < 1000 ∨ config.channels.toNat = 0) := by
  rw [← frameSamples_eq_zero]
  rcases hset : setUp backend (c.encoderOf config) with message | s
  · obtain ⟨error, hencode⟩ := encode_of_setUp_error hset
    simp [hencode]
  · obtain ⟨encodeErr, hencode⟩ := encode_of_setUp hset
    rw [hencode, encodeWith]
    by_cases hzero : saturatingMul config.frameSize config.channels.toNat = 0
    · simp [hzero]
    · simp only [hzero, if_false, and_false, iff_false]
      exact encodeLoop_not_panicked h encodeErr _ _ _ _ _ _

/-- **When the benchmark panics at a track.** -/
theorem row_eq_none (h : KeepsTo (c.encoderOf config) (c.decoderOf config) config.channels.toNat) :
    row build c backend config track = none ↔ Breaks build backend c config track := by
  have hpanic := encode_panicked backend h track.pcm
  unfold row runEngine
  rcases hencode : backend.encode (c.encoderOf config) track.pcm config.channels.toNat
    config.frameSize with ⟨out, made⟩
  rw [hencode] at hpanic
  rcases out with packets | error | _
  · have hframe : ¬ ((∃ s, setUp backend (c.encoderOf config) = .ok s) ∧
        (config.sampleRate.toNat < 1000 ∨ config.channels.toNat = 0)) := by
      rw [← hpanic]
      simp
    have hdecoded := decode_encoded (c.decoderOf config) config.channels.toNat hencode
    simp only [hdecoded]
    rcases hdecode : handOver backend (c.decoderOf config) config.channels.toNat made with
      decoded | error | _
    · rw [engineResult_row, comparePcm_quality, not_not]
      constructor
      · exact fun hcompare => .compare hencode hdecode hcompare
      · rintro (⟨hset, hzero⟩ | ⟨hencode', hdecode', hcompare⟩)
        · exact absurd ⟨⟨_, hset⟩, hzero⟩ hframe
        · rw [hencode] at hencode'
          cases hencode'
          rw [hdecode] at hdecode'
          cases hdecode'
          exact hcompare
    · constructor
      · simp [engineResult, printRow]
      · rintro (⟨hset, hzero⟩ | ⟨hencode', hdecode', -⟩)
        · exact absurd ⟨⟨_, hset⟩, hzero⟩ hframe
        · rw [hencode] at hencode'
          cases hencode'
          rw [hdecode] at hdecode'
          cases hdecode'
    · exact absurd hdecode (handOver_not_panicked h backend made)
  · constructor
    · simp [printRow]
    · rintro (⟨hset, hzero⟩ | ⟨hencode', -, -⟩)
      · exact absurd (hpanic.mpr ⟨⟨_, hset⟩, hzero⟩) (by simp)
      · rw [hencode] at hencode'
        cases hencode'
  · obtain ⟨⟨s, hset⟩, hzero⟩ := hpanic.mp rfl
    exact ⟨fun _ => .noFrame hset hzero, fun _ => rfl⟩

/-! ### The whole benchmark -/

theorem mapM_eq_none {α β : Type} {f : α → Option β} {xs : List α} :
    xs.mapM f = none ↔ ∃ x ∈ xs, f x = none := by
  induction xs with
  | nil => simp
  | cons x xs ih =>
    rw [List.mapM_cons]
    rcases hx : f x with _ | y
    · simp [hx]
    · rcases hxs : xs.mapM f with _ | ys
      · simp [hx, ih.mp hxs]
      · rw [hxs] at ih
        simpa [hx] using ih

/-- **When the benchmark panics**: with codecs that keep to their buffers, exactly if it breaks at
one of the tracks, with one of the backends. -/
theorem panics_iff {σ' τ' : Type} (build : Build) (soundKit : Codecs σ τ)
    (libOpusRust : Codecs σ' τ') (config : Config) (tracks : List SourceTrack)
    (hs : KeepsTo (soundKit.encoderOf config) (soundKit.decoderOf config) config.channels.toNat)
    (hl : KeepsTo (libOpusRust.encoderOf config) (libOpusRust.decoderOf config)
      config.channels.toNat) :
    runAll build soundKit libOpusRust config tracks = none ↔
      ∃ track ∈ tracks, Breaks build .soundKit soundKit config track ∨
        Breaks build .libOpusRust libOpusRust config track := by
  have hrows : runAll build soundKit libOpusRust config tracks = none ↔
      tracks.mapM (row build soundKit .soundKit config) = none ∨
        tracks.mapM (row build libOpusRust .libOpusRust config) = none := by
    unfold runAll
    rcases tracks.mapM (row build soundKit .soundKit config) with _ | rows
    · simp
    · rcases tracks.mapM (row build libOpusRust .libOpusRust config) with _ | rows'
      · simp
      · simp
  rw [hrows, mapM_eq_none, mapM_eq_none]
  simp only [row_eq_none hs, row_eq_none hl, and_or_left, exists_or]

/-- The codecs that lose nothing keep to their buffers. -/
theorem verbatim_keepsTo (config : Config) :
    KeepsTo (verbatim.encoderOf config) (verbatim.decoderOf config) config.channels.toNat where
  encode := by
    intro s frame buf n buf' s' h
    simp only [verbatim, Codecs.encoderOf] at h
    split_ifs at h with hle
    cases h
    exact hle
  decode := by
    intro t packet buf n buf' t' h
    simp only [verbatim, Codecs.decoderOf] at h
    split_ifs at h with hle
    cases h
    have hdiv := Nat.div_mul_le_self (samplesOf packet).length config.channels.toNat
    unfold saturatingMul
    omega

/-- A rate below 1000 Hz. -/
theorem panics_iff_slow :
    runAll .release verbatim verbatim { sampleRate := 999 } [⟨"a", [7]⟩] = none :=
  (panics_iff .release verbatim verbatim { sampleRate := 999 } [⟨"a", [7]⟩] (verbatim_keepsTo _)
    (verbatim_keepsTo _)).mpr ⟨⟨"a", [7]⟩, by simp, Or.inl (.noFrame rfl (Or.inl (by decide)))⟩

end MediaApi.Benchmark.Panics
