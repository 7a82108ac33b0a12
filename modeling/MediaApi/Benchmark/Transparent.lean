import MediaApi.Benchmark.Packets
import MediaApi.Model.BenchmarkRun

/-! # The packet stream is transparent

Between the encoder and the decoder of a backend stands a string of bytes. Decoding it is handing
the packets of the encoder to the decoder, one by one, as if the string were not there: the samples,
the error and the panic are the same, for any two codecs (`transparent`). -/

namespace MediaApi.Benchmark.Transparent

open MediaApi.Benchmark.Packets MediaApi.Lib.Records MediaApi.Model.Audio
  MediaApi.Model.BenchmarkRun MediaApi.Model.OpusBenchmark

variable {σ τ : Type} {d : Decoder τ} {truncated : String} {decodeErr : String → String}
  {channels cursor : ℕ} {packets rest : Bytes} {st : τ} {scratch decoded : List Int16}
  {handed : List Bytes}

/-- The packets are handed to the decoder, with no stream in between. -/
def decodePackets (d : Decoder τ) (decodeErr : String → String) (channels : ℕ) :
    List Bytes → τ → List Int16 → List Int16 → Outcome (List Int16)
  | [], _, _, decoded => .ok decoded
  | packet :: packets, st, scratch, decoded =>
    match d.decode st packet scratch with
    | .error message => .err (decodeErr message)
    | .ok (samplesPerChannel, scratch, st) =>
      match slice scratch 0 (saturatingMul samplesPerChannel channels) with
      | none => .panicked
      | some samples => decodePackets d decodeErr channels packets st scratch (decoded ++ samples)

/-- The decoder is created and the packets are handed to it. -/
def decodeEach (d : Decoder τ) (decodeErr : String → String) (channels : ℕ) (made : List Bytes)
    (created : Except String τ) : Outcome (List Int16) :=
  match created with
  | .error message => .err message
  | .ok st =>
    decodePackets d decodeErr channels made st
      (List.replicate (saturatingMul maxFrameSamples channels) 0) []

/-- The same with the error texts of a backend. -/
def handOver (backend : Backend) (d : Decoder τ) (channels : ℕ) (made : List Bytes) :
    Outcome (List Int16) :=
  match backend with
  | .soundKit => decodeEach d id channels made d.create
  | .libOpusRust =>
    decodeEach d ("libopus-rs decode: " ++ ·) channels made
      (d.create.mapError ("libopus-rs create decoder: " ++ ·))

/-! ### One record -/

theorem length_enc (p : Bytes) : (lengths.enc p.length).length = 4 := lengths.length_enc _

/-- The position after a record. -/
theorem drop_record (hcursor : cursor ≤ packets.length) {p : Bytes}
    (hrest : packets.drop cursor = record lengths p ++ rest) :
    cursor + (4 + p.length) ≤ packets.length ∧ packets.drop (cursor + (4 + p.length)) = rest := by
  obtain ⟨hle, -, hdrop⟩ := slice_eq hcursor hrest
  rw [length_record] at hle hdrop
  exact ⟨hle, hdrop⟩

/-- An empty record is passed over. -/
theorem decodeLoop_empty (hcursor : cursor ≤ packets.length)
    (hrest : packets.drop cursor = record lengths [] ++ rest) :
    decodeLoop d truncated decodeErr channels packets cursor st scratch decoded handed =
      decodeLoop d truncated decodeErr channels packets (cursor + 4) st scratch decoded handed := by
  rw [record, List.append_nil] at hrest
  obtain ⟨hle, hslice, -⟩ := slice_eq hcursor hrest
  rw [length_enc] at hle hslice
  have hlen : lenOf (lengths.enc ([] : Bytes).length) = some 0 := rfl
  rw [decodeLoop, packetPrefixBytes, if_pos hle, hslice, Option.bind_some, hlen]
  simp

/-- A packet is handed to the decoder. -/
theorem decodeLoop_packet (hcursor : cursor ≤ packets.length) {p : Bytes} (hne : p ≠ [])
    (hp : p.length < 2 ^ 32) (hrest : packets.drop cursor = record lengths p ++ rest) :
    (decodeLoop d truncated decodeErr channels packets cursor st scratch decoded handed).1 =
      match d.decode st p scratch with
      | .error message => .err (decodeErr message)
      | .ok (n, scratch, st) =>
        match slice scratch 0 (saturatingMul n channels) with
        | none => .panicked
        | some samples =>
          (decodeLoop d truncated decodeErr channels packets (cursor + (4 + p.length)) st scratch
            (decoded ++ samples) (handed ++ [p])).1 := by
  rw [record, List.append_assoc] at hrest
  obtain ⟨hle, hslice, hdrop⟩ := slice_eq hcursor hrest
  rw [length_enc] at hle hslice hdrop
  obtain ⟨hle', hslice', -⟩ := slice_eq hle hdrop
  rw [Nat.add_assoc] at hle' hslice'
  have hlen : lenOf (lengths.enc p.length) = some p.length := by
    rw [lenOf_eq (length_enc p), lengths.dec_enc _ hp]
  have hpos : p.length ≠ 0 := by simpa using hne
  rw [decodeLoop, packetPrefixBytes, if_pos hle, hslice, Option.bind_some, hlen]
  simp only [hpos, if_false, gt_iff_lt, not_lt.mpr hle', hslice', Nat.add_assoc]
  rcases d.decode st p scratch with message | ⟨n, buf, st'⟩
  · rfl
  · by_cases hcount : 0 < saturatingMul n channels
    · simp only [hcount, if_true]
      rcases slice buf 0 (saturatingMul n channels) with _ | samples
      · rfl
      · rfl
    · -- no samples: the slice is empty
      have hzero : saturatingMul n channels = 0 := by omega
      simp [hzero, slice]

/-! ### The loop -/

/-- **The loop hands over the packets of a stream.** -/
theorem decodeLoop_stream {ps : List Bytes} (hps : Bounded lengths ps) :
    ∀ {cursor : ℕ} {st : τ} {scratch decoded : List Int16} {handed : List Bytes},
      cursor ≤ packets.length → packets.drop cursor = stream lengths ps →
      (decodeLoop d truncated decodeErr channels packets cursor st scratch decoded handed).1 =
        decodePackets d decodeErr channels (ps.filter (· ≠ [])) st scratch decoded := by
  induction ps with
  | nil =>
    intro cursor st scratch decoded handed hcursor hdrop
    have hend : packets.length < cursor + 4 := by
      have hlen := congrArg List.length hdrop
      rw [List.length_drop, stream_nil, List.length_nil] at hlen
      omega
    rw [decodeLoop_end hend]
    rfl
  | cons p ps ih =>
    intro cursor st scratch decoded handed hcursor hdrop
    obtain ⟨hp, hps'⟩ := bounded_cons.mp hps
    rw [stream_cons] at hdrop
    obtain ⟨hle, hdrop'⟩ := drop_record hcursor hdrop
    by_cases hne : p = []
    · subst hne
      rw [List.length_nil, Nat.add_zero] at hle hdrop'
      rw [decodeLoop_empty hcursor hdrop, ih hps' hle hdrop']
      simp
    · have hfilter : (p :: ps).filter (· ≠ []) = p :: ps.filter (· ≠ []) := by simp [hne]
      rw [decodeLoop_packet hcursor hne hp hdrop, hfilter, decodePackets]
      rcases d.decode st p scratch with message | ⟨n, buf, st'⟩
      · rfl
      · simp only
        rcases slice buf 0 (saturatingMul n channels) with _ | samples
        · rfl
        · exact ih hps' hle hdrop'

theorem decodeWith_stream {ps : List Bytes} (hps : Bounded lengths ps) (created : Except String τ) :
    (decodeWith d truncated decodeErr channels (stream lengths ps) created).1 =
      decodeEach d decodeErr channels (ps.filter (· ≠ [])) created := by
  rcases created with message | st
  · rfl
  · exact decodeLoop_stream hps (Nat.zero_le _) rfl

/-! ### The backends -/

/-- What a backend has encoded is the stream of the packets of its encoder. -/
theorem encode_writes {backend : Backend} {e : Encoder σ} {pcm : List Int16}
    {channels frameSize : ℕ} {packets : Bytes} {made : List Bytes}
    (h : backend.encode e pcm channels frameSize = (.ok packets, made)) : Writes packets made := by
  rcases backend with _ | _
  · exact encodeWith_writes h
  · exact encodeWith_writes h

/-- What a backend makes of a stream. -/
theorem decode_stream (backend : Backend) (d : Decoder τ) (channels : ℕ) {ps : List Bytes}
    (hps : Bounded lengths ps) : (backend.decode d channels (stream lengths ps)).1 =
      handOver backend d channels (ps.filter (· ≠ [])) := by
  rcases backend with _ | _
  · exact decodeWith_stream hps _
  · exact decodeWith_stream hps _

/-- What a backend makes of what it has encoded. -/
theorem decode_encoded {backend : Backend} {e : Encoder σ} {pcm : List Int16}
    {encChannels frameSize : ℕ} {packets : Bytes} {made : List Bytes} (d : Decoder τ)
    (channels : ℕ) (h : backend.encode e pcm encChannels frameSize = (.ok packets, made)) :
    (backend.decode d channels packets).1 = handOver backend d channels made := by
  obtain ⟨hbounded, hmem, rfl⟩ := encode_writes h
  have hfilter : made.filter (· ≠ []) = made := by
    rw [List.filter_eq_self]
    intro p hp
    exact decide_eq_true fun hnil => hmem (hnil ▸ hp)
  rw [decode_stream backend d channels hbounded, hfilter]

/-- **The packet stream is transparent**: for any two codecs of a backend, any samples and any
numbers of channels, decoding what has been encoded is handing each packet of the encoder, in order,
to the decoder. And an empty record in a stream changes nothing. -/
theorem transparent (backend : Backend) (e : Encoder σ) (d : Decoder τ) (channels : ℕ) :
    (∀ pcm encChannels frameSize packets made,
      backend.encode e pcm encChannels frameSize = (.ok packets, made) →
      (backend.decode d channels packets).1 = handOver backend d channels made) ∧
    ∀ ps, Bounded lengths ps →
      (backend.decode d channels (stream lengths ps)).1 =
        handOver backend d channels (ps.filter (· ≠ [])) :=
  ⟨fun _ _ _ _ _ h => decode_encoded d channels h,
    fun _ hps => decode_stream backend d channels hps⟩

/-- An encoder that makes of each frame a packet of one byte: how far its first sample is from the
last one. -/
def stepEncoder : Encoder Int16 where
  create := .ok 0
  setBitrate := .ok
  encode last frame buf :=
    .ok (1, buf.set 0 (.ofNat (frame.headD 0 - last).toUInt16.toNat), frame.headD 0)
  length_encode h := by
    cases h
    exact List.length_set

/-- The decoder for it, which gives one sample for each packet. -/
def stepDecoder : Decoder Int16 where
  create := .ok 0
  decode last packet scratch :=
    let sample := last + .ofNat (packet.headD 0).toNat
    .ok (1, scratch.set 0 sample, sample)
  length_decode h := by
    cases h
    exact List.length_set

/-- Two samples through their stream, and through one with an empty record. -/
theorem transparent_steps :
    (Backend.decode .soundKit stepDecoder 1 [1, 0, 0, 0, 7, 1, 0, 0, 0, 2]).1 = .ok [7, 9] ∧
      (Backend.decode .soundKit stepDecoder 1 (stream lengths [[7], [], [2]])).1 = .ok [7, 9] := by
  have hover : handOver .soundKit stepDecoder 1 [[7], [2]] = .ok [7, 9] := by decide +kernel
  have hbounded : Bounded lengths [[7], [], [2]] := by
    unfold Bounded
    decide
  obtain ⟨hencoded, hstream⟩ := transparent .soundKit stepEncoder stepDecoder 1
  exact ⟨(hencoded [7, 9] 1 1 _ _ (by decide +kernel)).trans hover,
    (hstream _ hbounded).trans hover⟩

end MediaApi.Benchmark.Transparent
