import MediaApi.Benchmark.PeakError
import MediaApi.Benchmark.Transparent
import MediaApi.Lib.Chunks

/-! # The round trip of a track

Where the codecs of a backend work in step, each sample comes back with an error of at most `δ`: the
track is decoded as itself and a rest of silence that fills its last frame (`round_trip`), and its
row is measured (`measures`). With `δ = 0` the codecs lose nothing. -/

namespace MediaApi.Benchmark.RoundTrip

open MediaApi.Benchmark.Packets MediaApi.Benchmark.PeakError MediaApi.Benchmark.Transparent
  MediaApi.Lib.Chunks MediaApi.Lib.Records MediaApi.Model.Audio MediaApi.Model.BenchmarkRun
  MediaApi.Model.OpusBenchmark

variable {σ τ : Type}

/-- Samples that differ by at most `δ`. -/
def Near (δ : ℤ) : List Int16 → List Int16 → Prop :=
  List.Forall₂ fun x y => |x.toInt - y.toInt| ≤ δ

/-- An encoder and a decoder in step, in the states that `R` relates: a frame becomes a packet, and
the packet a frame in which no sample is off by more than `δ`. -/
def InStep (e : Encoder σ) (d : Decoder τ) (channels frameSize : ℕ) (δ : ℤ) (R : σ → τ → Prop) :
    Prop :=
  ∀ s t frame buf scratch, R s t → frame.length = frameSize * channels → buf.length = 1500 →
    scratch.length = maxFrameSamples * channels →
    ∃ n buf' s' scratch' t', e.encode s frame buf = .ok (n, buf', s') ∧ 0 < n ∧ n ≤ 1500 ∧
      d.decode t (buf'.take n) scratch = .ok (frameSize, scratch', t') ∧
      Near δ frame (scratch'.take (frameSize * channels)) ∧ R s' t'

/-- The encoder of a backend, set up. -/
def setUp (backend : Backend) (e : Encoder σ) : Except String σ :=
  match backend with
  | .soundKit => e.create
  | .libOpusRust => e.create.bind e.setBitrate

/-- A run that works: there are frames, the scratch buffer holds one, and the codecs are set up in
step. -/
structure Works (backend : Backend) (c : Codecs σ τ) (config : Config) (δ : ℤ) : Prop where
  channels : 0 < config.channels.toNat
  rate : 1000 ≤ config.sampleRate.toNat
  scratch : config.frameSize ≤ maxFrameSamples
  inStep : ∃ R s t, setUp backend (c.encoderOf config) = .ok s ∧
    (c.decoderOf config).create = .ok t ∧ R s t ∧
    InStep (c.encoderOf config) (c.decoderOf config) config.channels.toNat config.frameSize δ R

/-! ### The loops -/

section loops

variable {e : Encoder σ} {d : Decoder τ} {channels frameSize : ℕ} {δ : ℤ} {R : σ → τ → Prop}
  {chunks : List (List Int16)}

/-- The length of a packet. -/
def Small (p : Bytes) : Prop := 0 < p.length ∧ p.length ≤ 1500

/-- One frame in step. -/
theorem InStep.frame (h : InStep e d channels frameSize δ R) (hfit : frameSize ≤ maxFrameSamples)
    (hsat : saturatingMul frameSize channels = frameSize * channels) {s : σ} {frame : List Int16}
    {buf : Bytes} (hR : ∃ t, R s t) (hframe : frame.length = frameSize * channels)
    (hbuf : buf.length = 1500) : ∃ n buf' s' packet, e.encode s frame buf = .ok (n, buf', s') ∧
      n ≠ 0 ∧ buf'.length = 1500 ∧ slice buf' 0 n = some packet ∧ Small packet ∧
      (∃ t, R s' t) ∧ ∀ t scratch, R s t → scratch.length = maxFrameSamples * channels →
        ∃ scratch' t' samples, d.decode t packet scratch = .ok (frameSize, scratch', t') ∧
          scratch'.length = maxFrameSamples * channels ∧
          slice scratch' 0 (saturatingMul frameSize channels) = some samples ∧
          Near δ frame samples ∧ R s' t' := by
  obtain ⟨t, hR⟩ := hR
  obtain ⟨n, buf', s', -, t', hencode, hpos, hle, -, -, hR'⟩ :=
    h s t frame buf (List.replicate (maxFrameSamples * channels) 0) hR hframe hbuf (by simp)
  have hbuf' : buf'.length = 1500 := (e.length_encode hencode).trans hbuf
  have hslice : slice buf' 0 n = some (buf'.take n) := by
    rw [slice, if_pos ⟨Nat.zero_le _, by omega⟩, List.drop_zero, Nat.sub_zero]
  have hsmall : Small (buf'.take n) := by
    unfold Small
    rw [List.length_take]
    omega
  refine ⟨n, buf', s', _, hencode, by omega, hbuf', hslice, hsmall, ⟨t', hR'⟩, ?_⟩
  intro t scratch hR hscratch
  obtain ⟨n₁, buf₁, s₁, scratch', t₁, hencode₁, -, -, hdecode, hnear, hR₁⟩ :=
    h s t frame buf scratch hR hframe hbuf hscratch
  rw [hencode] at hencode₁
  obtain ⟨rfl, rfl, rfl⟩ : n = n₁ ∧ buf' = buf₁ ∧ s' = s₁ := by simpa using hencode₁
  have hlen : scratch'.length = maxFrameSamples * channels :=
    (d.length_decode hdecode).trans hscratch
  have hcount : frameSize * channels ≤ scratch'.length := by
    rw [hlen]
    exact Nat.mul_le_mul_right channels hfit
  refine ⟨scratch', t₁, _, hdecode, hlen, ?_, hnear, hR₁⟩
  rw [hsat, slice, if_pos ⟨Nat.zero_le _, hcount⟩, List.drop_zero, Nat.sub_zero]

/-- **Encoding and decoding in step.** -/
theorem encodeLoop_decodes (encodeErr decodeErr : String → String)
    (h : InStep e d channels frameSize δ R) (hfit : frameSize ≤ maxFrameSamples)
    (hsat : saturatingMul frameSize channels = frameSize * channels)
    (hchunks : ∀ c ∈ chunks, c.length ≤ frameSize * channels) :
    ∀ (packets : Bytes) (made : List Bytes) {s : σ} {buf : Bytes}, (∃ t, R s t) →
      buf.length = 1500 →
      ∃ packets' new,
        encodeLoop e encodeErr (frameSize * channels) chunks s buf packets made =
          (.ok packets', made ++ new) ∧ new.length = chunks.length ∧ (∀ p ∈ new, Small p) ∧
        ∀ t scratch decoded, R s t → scratch.length = maxFrameSamples * channels → ∃ samples,
          decodePackets d decodeErr channels new t scratch decoded = .ok (decoded ++ samples) ∧
            Near δ (chunks.flatMap (pad (frameSize * channels) 0)) samples := by
  induction chunks with
  | nil =>
    intro packets made s buf hR hbuf
    refine ⟨packets, [], by simp [encodeLoop], rfl, by simp, ?_⟩
    exact fun t scratch decoded _ _ => ⟨[], by simp [decodePackets], .nil⟩
  | cons chunk chunks ih =>
    intro packets made s buf hR hbuf
    obtain ⟨hchunk, hrest⟩ := List.forall_mem_cons.mp hchunks
    obtain ⟨n, buf', s', packet, hencode, hn, hbuf', hslice, hsmall, hR', hdecode⟩ :=
      h.frame hfit hsat hR (length_pad 0 hchunk) hbuf
    obtain ⟨packets', new, hloop, hlen, hnew, hsamples⟩ :=
      ih hrest (packets ++ toLeBytes (.ofNat n) ++ packet) (made ++ [packet]) hR' hbuf'
    refine ⟨packets', packet :: new, ?_, by simp [hlen], ?_, ?_⟩
    · unfold pad at hencode
      rw [encodeLoop]
      simp only [hencode, hn, if_false, hslice]
      rw [hloop, List.append_assoc, List.singleton_append]
    · exact List.forall_mem_cons.mpr ⟨hsmall, hnew⟩
    · intro t scratch decoded hRt hscratch
      obtain ⟨scratch', t', first, hfirst, hscratch', hslice', hnear, hRt'⟩ :=
        hdecode t scratch hRt hscratch
      obtain ⟨samples, hdec, hnear'⟩ := hsamples t' scratch' (decoded ++ first) hRt' hscratch'
      refine ⟨first ++ samples, ?_, ?_⟩
      · rw [decodePackets, hfirst]
        simp only [hslice', hdec, List.append_assoc]
      · rw [List.flatMap_cons]
        exact List.rel_append hnear hnear'

end loops

/-! ### A codec that loses nothing -/

/-- The two bytes of a sample. -/
def bytesOf (x : Int16) : Bytes := [.ofNat x.toUInt16.toNat, .ofNat (x.toUInt16.toNat / 256)]

/-- The samples of bytes. -/
def samplesOf : Bytes → List Int16
  | b₀ :: b₁ :: bytes => (UInt16.ofNat (b₀.toNat + 256 * b₁.toNat)).toInt16 :: samplesOf bytes
  | _ => []

theorem samplesOf_bytesOf (xs : List Int16) : samplesOf (xs.flatMap bytesOf) = xs := by
  induction xs with
  | nil => rfl
  | cons x xs ih =>
    have hx := x.toUInt16.toNat_lt
    have hbytes : x.toUInt16.toNat % 256 + 256 * (x.toUInt16.toNat / 256 % 256) =
        x.toUInt16.toNat := by omega
    rw [List.flatMap_cons, bytesOf, List.cons_append, List.singleton_append, samplesOf, ih]
    simp [hbytes]

theorem length_flatMap_bytesOf (xs : List Int16) : (xs.flatMap bytesOf).length = 2 * xs.length := by
  induction xs with
  | nil => rfl
  | cons x xs ih =>
    rw [List.flatMap_cons, List.length_append, ih, List.length_cons, bytesOf]
    simp only [List.length_cons, List.length_nil]
    omega

/-- A buffer whose beginning is overwritten. -/
def put {α : Type} (xs buf : List α) : List α := xs ++ buf.drop xs.length

theorem length_put {α : Type} {xs buf : List α} (h : xs.length ≤ buf.length) :
    (put xs buf).length = buf.length := by
  rw [put, List.length_append, List.length_drop]
  omega

theorem take_put {α : Type} {xs buf : List α} : (put xs buf).take xs.length = xs := by
  rw [put, List.take_append_of_le_length le_rfl, List.take_length]

/-- The samples themselves are the packets. -/
def verbatim : Codecs Unit Unit where
  encoder _ _ _ _ :=
    { create := .ok ()
      setBitrate := .ok
      encode := fun _ frame buf =>
        if 2 * frame.length ≤ buf.length then
          .ok (2 * frame.length, put (frame.flatMap bytesOf) buf, ())
        else .error "buffer too small"
      length_encode := by
        intro s frame buf n buf' s' h
        split_ifs at h with hle
        cases h
        exact length_put (by rwa [length_flatMap_bytesOf]) }
  decoder _ channels :=
    { create := .ok ()
      decode := fun _ packet scratch =>
        if (samplesOf packet).length ≤ scratch.length then
          .ok ((samplesOf packet).length / channels, put (samplesOf packet) scratch, ())
        else .error "buffer too small"
      length_decode := by
        intro s packet buf n buf' s' h
        split_ifs at h with hle
        cases h
        exact length_put hle }

theorem near_refl (xs : List Int16) : Near 0 xs xs := by
  unfold Near
  rw [List.forall₂_same]
  simp

/-- It works at a rate of 1000 Hz and with one channel. -/
theorem verbatim_works (backend : Backend) :
    Works backend verbatim { sampleRate := 1000, channels := 1 } 0 where
  channels := by decide
  rate := by decide
  scratch := by decide
  inStep := by
    refine ⟨fun _ _ => True, (), (), by rcases backend with _ | _ <;> rfl, rfl, trivial, ?_⟩
    intro _ _ frame buf scratch _ hframe hbuf hscratch
    have hlen : frame.length = 20 := hframe
    have hmax : scratch.length = 5760 := hscratch
    have hbytes : (frame.flatMap bytesOf).length = 2 * frame.length := length_flatMap_bytesOf frame
    have hpacket : (put (frame.flatMap bytesOf) buf).take (2 * frame.length) =
        frame.flatMap bytesOf := by
      rw [← hbytes, take_put]
    refine ⟨2 * frame.length, put (frame.flatMap bytesOf) buf, (), put frame scratch, (), ?_,
      by omega, by omega, ?_, ?_, trivial⟩
    · exact if_pos (by omega)
    · rw [hpacket]
      have hdecode : (if (samplesOf (frame.flatMap bytesOf)).length ≤ scratch.length then
          (.ok ((samplesOf (frame.flatMap bytesOf)).length / 1,
            put (samplesOf (frame.flatMap bytesOf)) scratch, ()) :
            Except String (ℕ × List Int16 × Unit))
          else .error "buffer too small") = .ok (20, put frame scratch, ()) := by
        rw [samplesOf_bytesOf, if_pos (by omega), hlen]
      exact hdecode
    · have htake : (put frame scratch).take (20 * 1) = frame := by
        rw [Nat.mul_one, ← hlen, take_put]
      have hnear : Near 0 frame ((put frame scratch).take (20 * 1)) := by
        rw [htake]
        exact near_refl frame
      exact hnear

/-! ### A track -/

theorem encode_of_setUp {backend : Backend} {e : Encoder σ} {s : σ} (h : setUp backend e = .ok s) :
    ∃ encodeErr, ∀ pcm channels frameSize,
      backend.encode e pcm channels frameSize = encodeWith e encodeErr pcm channels frameSize
        (.ok s) := by
  rcases backend with _ | _
  · refine ⟨id, fun pcm channels frameSize => ?_⟩
    have hcreate : e.create = .ok s := h
    rw [Backend.encode, encodeWithSoundkit, hcreate]
  · refine ⟨("libopus-rs encode: " ++ ·), fun pcm channels frameSize => ?_⟩
    unfold Backend.encode encodeWithLibopusRust
    have hset : e.create.bind e.setBitrate = .ok s := h
    rcases hcreate : e.create with message | s₀
    · rw [hcreate] at hset
      cases hset
    · rw [hcreate] at hset
      have hbitrate : e.setBitrate s₀ = .ok s := hset
      simp [Except.mapError, Except.bind, hbitrate]

theorem handOver_of_create (backend : Backend) {d : Decoder τ} {t : τ} (h : d.create = .ok t) :
    ∃ decodeErr, ∀ channels made,
      handOver backend d channels made = decodeEach d decodeErr channels made (.ok t) := by
  rcases backend with _ | _
  · exact ⟨id, fun channels made => by rw [handOver, h]⟩
  · exact ⟨_, fun channels made => by rw [handOver, h]; rfl⟩

/-- The length of a stream of packets. -/
theorem length_stream {made : List Bytes} (h : ∀ p ∈ made, Small p) :
    5 * made.length ≤ (stream lengths made).length ∧
      (stream lengths made).length ≤ 1504 * made.length := by
  induction made with
  | nil => simp
  | cons p made ih =>
    obtain ⟨⟨hpos, hle⟩, hmade⟩ := List.forall_mem_cons.mp h
    obtain ⟨hlow, hhigh⟩ := ih hmade
    have hwidth : lengths.width = 4 := rfl
    rw [stream_cons, List.length_append, length_record, List.length_cons, hwidth]
    omega

variable {backend : Backend} {c : Codecs σ τ} {config : Config} {δ : ℤ}

theorem Works.frame_pos (h : Works backend c config δ) :
    0 < config.frameSize * config.channels.toNat := by
  have hrate := h.rate
  refine Nat.mul_pos ?_ h.channels
  unfold Config.frameSize frameMs
  omega

theorem Works.saturatingMul_eq (h : Works backend c config δ) :
    saturatingMul config.frameSize config.channels.toNat =
        config.frameSize * config.channels.toNat ∧
      saturatingMul maxFrameSamples config.channels.toNat =
        maxFrameSamples * config.channels.toNat := by
  have hch := config.channels.toNat_lt
  have hle : config.frameSize * config.channels.toNat ≤ maxFrameSamples * config.channels.toNat :=
    Nat.mul_le_mul_right _ h.scratch
  unfold maxFrameSamples at hle ⊢
  unfold saturatingMul
  omega

/-- The packets of a track, and what the decoder makes of them. -/
theorem Works.decodes (h : Works backend c config δ) (pcm : List Int16) :
    ∃ packets made padding decoded,
      backend.encode (c.encoderOf config) pcm config.channels.toNat config.frameSize =
        (.ok packets, made) ∧
      handOver backend (c.decoderOf config) config.channels.toNat made = .ok decoded ∧
      (∀ p ∈ made, Small p) ∧ padding < config.frameSize * config.channels.toNat ∧
      pcm.length + padding = config.frameSize * config.channels.toNat * made.length ∧
      Near δ (pcm ++ List.replicate padding 0) decoded := by
  obtain ⟨R, s, t, hset, hcreate, hR, hstep⟩ := h.inStep
  obtain ⟨encodeErr, hencode⟩ := encode_of_setUp hset
  obtain ⟨decodeErr, hover⟩ := handOver_of_create backend hcreate
  obtain ⟨hsat, hscratch⟩ := h.saturatingMul_eq
  have hchunked := toChunks_chunked h.frame_pos pcm
  obtain ⟨padding, hpadding, hflat, hlen⟩ := hchunked.flatMap_pad h.frame_pos 0
  obtain ⟨packets, made, hloop, hmade, hsmall, hdecode⟩ :=
    encodeLoop_decodes encodeErr decodeErr hstep h.scratch hsat hchunked.length_le [] [] ⟨t, hR⟩
      (List.length_replicate (n := 1500) (a := 0))
  obtain ⟨samples, hsamples, hnear⟩ :=
    hdecode t (List.replicate (maxFrameSamples * config.channels.toNat) 0) [] hR (by simp)
  refine ⟨packets, made, padding, samples, ?_, ?_, hsmall, hpadding, by rw [hmade, hlen], ?_⟩
  · rw [hencode, encodeWith, hsat]
    simp only [Nat.ne_of_gt h.frame_pos, if_false]
    exact hloop
  · rw [hover, decodeEach, hscratch]
    simpa using hsamples
  · rwa [hflat] at hnear

/-- **The round trip of a track**: it is encoded and decoded without an error. The samples decoded
are those of the track and of a silence that fills its last frame, each with an error of at most
`δ`. -/
theorem round_trip (backend : Backend) (c : Codecs σ τ) (config : Config) (δ : ℤ)
    (h : Works backend c config δ) (pcm : List Int16) : ∃ packets made padding decoded,
      backend.encode (c.encoderOf config) pcm config.channels.toNat config.frameSize =
        (.ok packets, made) ∧
      (backend.decode (c.decoderOf config) config.channels.toNat packets).1 = .ok decoded ∧
      padding < config.frameSize * config.channels.toNat ∧
      pcm.length + padding = config.frameSize * config.channels.toNat * made.length ∧
      Near δ (pcm ++ List.replicate padding 0) decoded := by
  obtain ⟨packets, made, padding, decoded, hencode, hover, -, hpadding, hframes, hnear⟩ :=
    h.decodes pcm
  exact ⟨packets, made, padding, decoded, hencode, (decode_encoded _ _ hencode).trans hover,
    hpadding, hframes, hnear⟩

theorem round_trip_verbatim : ∃ packets made padding decoded,
    Backend.encode .soundKit (verbatim.encoderOf { sampleRate := 1000, channels := 1 }) [7, -8] 1
        20 = (.ok packets, made) ∧
      (Backend.decode .soundKit (verbatim.decoderOf { sampleRate := 1000, channels := 1 }) 1
        packets).1 = .ok decoded ∧
      padding < 20 * 1 ∧ 2 + padding = 20 * 1 * made.length ∧
      Near 0 ([7, -8] ++ List.replicate padding 0) decoded :=
  round_trip .soundKit verbatim { sampleRate := 1000, channels := 1 } 0 (verbatim_works .soundKit)
    [7, -8]

/-! ### The rows -/

variable {pcm zs decoded : List Int16} {build : Build} {track : SourceTrack}

theorem near_errors (h : Near δ (pcm ++ zs) decoded) : ∀ e ∈ errors pcm decoded, e ≤ δ := by
  rintro e ⟨i, hr, hd, rfl⟩
  have hi : i < (pcm ++ zs).length := by
    rw [List.length_append]
    omega
  have hle := h.get hi hd
  simpa [List.getElem_append_left hr] using hle

/-- The comparison of a track with what came back of it. -/
theorem comparePcm_near (hpcm : pcm ≠ []) (h : Near δ (pcm ++ zs) decoded)
    (hb : build = .release ∨ δ ≤ 32767) : ∃ q, comparePcm build pcm decoded = some (some q) ∧
      (δ ≤ 32767 → 0 ≤ q.maxAbs.toInt ∧ q.maxAbs.toInt ≤ δ) := by
  have hd : decoded ≠ [] := by
    rintro rfl
    have hlen := h.length_eq
    rw [List.length_append, List.length_nil] at hlen
    have hpos := List.length_pos_iff.mpr hpcm
    omega
  by_cases hδ : δ ≤ 32767
  · have hfits : Fits pcm decoded :=
      fits_iff.mpr fun e he => (near_errors h e he).trans hδ
    obtain ⟨-, q, hq, hmem, -⟩ : PeakExact build pcm decoded := hfits.peakExact hpcm hd
    refine ⟨q, hq, fun _ => ⟨?_, near_errors h _ hmem⟩⟩
    obtain ⟨i, hr, hd, he⟩ := hmem
    rw [he]
    exact abs_nonneg _
  · have hrelease : build = .release := by
      rcases hb with hb | hb
      · exact hb
      · exact absurd hb hδ
    obtain ⟨r, hr⟩ := peakLoop_release (l := pcm.zip decoded) 0
    rw [comparePcm_eq hpcm hd, hrelease, hr]
    exact ⟨_, rfl, fun hle => absurd hle hδ⟩

/-- The row of a track that came back with an error of at most `δ`: whole frames, `padding` samples
more than the track has. -/
def MeasuredRow (backend : Backend) (config : Config) (δ : ℤ) (track : SourceTrack) (r : Row) :
    Prop :=
  ∃ frames encodedBytes padding maxAbs,
    r = .measured track.name backend.label encodedBytes
      (saturatingMul (track.pcm.length + padding) 2) maxAbs padding ∧
    padding < config.frameSize * config.channels.toNat ∧
    track.pcm.length + padding = config.frameSize * config.channels.toNat * frames ∧
    5 * frames ≤ encodedBytes ∧ encodedBytes ≤ 1504 * frames ∧
    (δ ≤ 32767 → 0 ≤ maxAbs.toInt ∧ maxAbs.toInt ≤ δ)

/-- The row of one track. -/
theorem Works.measures_track (h : Works backend c config δ) (hb : build = .release ∨ δ ≤ 32767)
    (hpcm : track.pcm ≠ []) :
    ∃ r, row build c backend config track = some r ∧ MeasuredRow backend config δ track r := by
  obtain ⟨packets, made, padding, decoded, hencode, hover, hsmall, hpadding, hframes, hnear⟩ :=
    h.decodes track.pcm
  have hdecode := (decode_encoded (c.decoderOf config) config.channels.toNat hencode).trans hover
  obtain ⟨-, -, hstream⟩ := encode_writes hencode
  obtain ⟨hlow, hhigh⟩ := length_stream hsmall
  rw [← hstream] at hlow hhigh
  obtain ⟨q, hq, hmax⟩ := comparePcm_near hpcm hnear hb
  have hlen := hnear.length_eq
  rw [List.length_append, List.length_replicate] at hlen
  refine ⟨.measured track.name backend.label packets.length
    (saturatingMul (track.pcm.length + padding) 2) q.maxAbs padding, ?_,
    made.length, _, padding, _, rfl, hpadding, hframes, hlow, hhigh, hmax⟩
  simp [row, runEngine, hencode, hdecode, engineResult, hq, printRow, ← hlen]

/-- Each element gives a value. -/
theorem mapM_some {α β : Type} {f : α → Option β} {P : α → β → Prop} {xs : List α}
    (h : ∀ x ∈ xs, ∃ y, f x = some y ∧ P x y) :
    ∃ ys, xs.mapM f = some ys ∧ List.Forall₂ P xs ys := by
  induction xs with
  | nil => exact ⟨[], rfl, .nil⟩
  | cons x xs ih =>
    obtain ⟨⟨y, hy, hP⟩, hxs⟩ := List.forall_mem_cons.mp h
    obtain ⟨ys, hys, hPs⟩ := ih hxs
    exact ⟨y :: ys, by simp [hy, hys], .cons hP hPs⟩

/-- **The benchmark measures every track**, with each backend, in order, where the codecs work and
no track is empty: no row is missing, and the benchmark does not panic. In a debug build that takes
errors that fit in 16 bits. -/
theorem measures {σ' τ' : Type} (build : Build) (soundKit : Codecs σ τ)
    (libOpusRust : Codecs σ' τ') (config : Config) (δ : ℤ)
    (hs : Works .soundKit soundKit config δ) (hl : Works .libOpusRust libOpusRust config δ)
    (hb : build = .release ∨ δ ≤ 32767) (tracks : List SourceTrack)
    (hpcm : ∀ track ∈ tracks, track.pcm ≠ []) :
    ∃ rows rows', runAll build soundKit libOpusRust config tracks = some (rows ++ rows') ∧
      List.Forall₂ (MeasuredRow .soundKit config δ) tracks rows ∧
      List.Forall₂ (MeasuredRow .libOpusRust config δ) tracks rows' := by
  obtain ⟨rows, hrows, hmeasured⟩ := mapM_some fun track ht => hs.measures_track hb (hpcm track ht)
  obtain ⟨rows', hrows', hmeasured'⟩ :=
    mapM_some fun track ht => hl.measures_track hb (hpcm track ht)
  exact ⟨rows, rows', by simp [runAll, hrows, hrows'], hmeasured, hmeasured'⟩

theorem measures_verbatim : ∃ rows rows',
    runAll .debug verbatim verbatim { sampleRate := 1000, channels := 1 } [⟨"a", [7]⟩] =
        some (rows ++ rows') ∧
      List.Forall₂ (MeasuredRow .soundKit { sampleRate := 1000, channels := 1 } 0) [⟨"a", [7]⟩]
        rows ∧
      List.Forall₂ (MeasuredRow .libOpusRust { sampleRate := 1000, channels := 1 } 0) [⟨"a", [7]⟩]
        rows' :=
  measures .debug verbatim verbatim { sampleRate := 1000, channels := 1 } 0
    (verbatim_works .soundKit) (verbatim_works .libOpusRust) (Or.inr (by decide)) [⟨"a", [7]⟩]
    (by simp)

end MediaApi.Benchmark.RoundTrip
