import MediaApi.Model.Audio

/-! # The Opus benchmark

The benchmark encodes a track into a stream of packets, each behind its length, decodes the stream
again and compares the samples. The codecs are parameters: a codec is called with a slice to write
to, and gives the length of what it has written. Slicing out of bounds panics.

The two backends differ in their codecs and in the texts of their errors, so each of the two loops
is one definition. -/

namespace MediaApi.Model.OpusBenchmark

open MediaApi.Model.Audio

/-- `MAX_FRAME_SAMPLES`. -/
def maxFrameSamples : ℕ := 5760

/-- `PACKET_PREFIX_BYTES`. -/
def packetPrefixBytes : ℕ := 4

/-- `usize::saturating_mul`. -/
def saturatingMul (a b : ℕ) : ℕ := min (a * b) (2 ^ 64 - 1)

/-- `u32::to_le_bytes`. -/
def toLeBytes (n : UInt32) : Bytes :=
  [.ofNat n.toNat, .ofNat (n.toNat / 2 ^ 8), .ofNat (n.toNat / 2 ^ 16), .ofNat (n.toNat / 2 ^ 24)]

/-- `u32::from_le_bytes`. -/
def fromLeBytes (b₀ b₁ b₂ b₃ : UInt8) : UInt32 :=
  .ofNat (b₀.toNat + 2 ^ 8 * b₁.toNat + 2 ^ 16 * b₂.toNat + 2 ^ 24 * b₃.toNat)

/-- `len_buf.copy_from_slice(..)` and `u32::from_le_bytes(len_buf) as usize`; a slice of another
length than the buffer panics. -/
def lenOf : Bytes → Option ℕ
  | [b₀, b₁, b₂, b₃] => some (fromLeBytes b₀ b₁ b₂ b₃).toNat
  | _ => none

/-- `&xs[i..j]`; `none` if that is out of bounds. -/
def slice {α : Type} (xs : List α) (i j : ℕ) : Option (List α) :=
  if i ≤ j ∧ j ≤ xs.length then some ((xs.drop i).take (j - i)) else none

/-- How a function of the benchmark ends. -/
inductive Outcome (α : Type) where
  | ok (a : α)
  | err (message : String)
  | panicked
deriving DecidableEq, Repr

/-! ### Encoding -/

/-- An encoder with the states `σ`. -/
structure Encoder (σ : Type) where
  create : Except String σ
  setBitrate : σ → Except String σ
  /-- The length of the packet, and the buffer it was written to. -/
  encode : σ → List Int16 → Bytes → Except String (ℕ × Bytes × σ)
  length_encode : ∀ {s frame buf n buf' s'},
    encode s frame buf = .ok (n, buf', s') → buf'.length = buf.length

variable {σ : Type}

/-- `for chunk in track.pcm.chunks(frame_samples)`; also gives the packets of the encoder. -/
def encodeLoop (e : Encoder σ) (encodeErr : String → String) (frameSamples : ℕ) :
    List (List Int16) → σ → Bytes → Bytes → List Bytes → Outcome Bytes × List Bytes
  | [], _, _, packets, made => (.ok packets, made)
  | chunk :: chunks, st, encoded, packets, made =>
    let frame := chunk ++ List.replicate (frameSamples - chunk.length) 0
    match e.encode st frame encoded with
    | .error message => (.err (encodeErr message), made)
    | .ok (encodedLen, encoded, st) =>
      if encodedLen = 0 then encodeLoop e encodeErr frameSamples chunks st encoded packets made
      else
        match slice encoded 0 encodedLen with
        | none => (.panicked, made)
        | some packet =>
          encodeLoop e encodeErr frameSamples chunks st encoded
            (packets ++ toLeBytes (.ofNat encodedLen) ++ packet) (made ++ [packet])

/-- The encoding of a track with an encoder that was set up; `chunks(0)` panics. -/
def encodeWith (e : Encoder σ) (encodeErr : String → String) (pcm : List Int16)
    (channels frameSize : ℕ) (setUp : Except String σ) : Outcome Bytes × List Bytes :=
  match setUp with
  | .error message => (.err message, [])
  | .ok st =>
    let frameSamples := saturatingMul frameSize channels
    if frameSamples = 0 then (.panicked, [])
    else
      encodeLoop e encodeErr frameSamples (pcm.toChunks frameSamples) st
        (List.replicate 1500 0) [] []

/-- `encode_with_soundkit`. -/
def encodeWithSoundkit (e : Encoder σ) (pcm : List Int16) (channels frameSize : ℕ) :
    Outcome Bytes × List Bytes :=
  encodeWith e id pcm channels frameSize e.create

/-- `encode_with_libopus_rust`. -/
def encodeWithLibopusRust (e : Encoder σ) (pcm : List Int16) (channels frameSize : ℕ) :
    Outcome Bytes × List Bytes :=
  encodeWith e ("libopus-rs encode: " ++ ·) pcm channels frameSize
    ((e.create.mapError ("libopus-rs create encoder: " ++ ·)).bind fun st =>
      (e.setBitrate st).mapError ("libopus-rs set bitrate: " ++ ·))

/-! ### Decoding -/

/-- A decoder with the states `σ`. -/
structure Decoder (σ : Type) where
  create : Except String σ
  /-- The samples per channel, and the buffer they were written to. -/
  decode : σ → Bytes → List Int16 → Except String (ℕ × List Int16 × σ)
  length_decode : ∀ {s packet buf n buf' s'},
    decode s packet buf = .ok (n, buf', s') → buf'.length = buf.length

/-- `while cursor + PACKET_PREFIX_BYTES <= packets.len()`; also gives the packets handed to the
decoder. -/
def decodeLoop (d : Decoder σ) (truncated : String) (decodeErr : String → String) (channels : ℕ)
    (packets : Bytes) (cursor : ℕ) (st : σ) (scratch decoded : List Int16) (handed : List Bytes) :
    Outcome (List Int16) × List Bytes :=
  if cursor + packetPrefixBytes ≤ packets.length then
    match (slice packets cursor (cursor + packetPrefixBytes)).bind lenOf with
    | none => (.panicked, handed)
    | some packetLen =>
      if packetLen = 0 then
        decodeLoop d truncated decodeErr channels packets (cursor + packetPrefixBytes) st scratch
          decoded handed
      else if cursor + packetPrefixBytes + packetLen > packets.length then (.err truncated, handed)
      else
        match slice packets (cursor + packetPrefixBytes)
          (cursor + packetPrefixBytes + packetLen) with
        | none => (.panicked, handed)
        | some packet =>
          match d.decode st packet scratch with
          | .error message => (.err (decodeErr message), handed ++ [packet])
          | .ok (samplesPerChannel, scratch, st) =>
            let sampleCount := saturatingMul samplesPerChannel channels
            if sampleCount > 0 then
              match slice scratch 0 sampleCount with
              | none => (.panicked, handed ++ [packet])
              | some samples =>
                decodeLoop d truncated decodeErr channels packets
                  (cursor + packetPrefixBytes + packetLen) st scratch (decoded ++ samples)
                  (handed ++ [packet])
            else
              decodeLoop d truncated decodeErr channels packets
                (cursor + packetPrefixBytes + packetLen) st scratch decoded (handed ++ [packet])
  else (.ok decoded, handed)
termination_by packets.length - cursor
decreasing_by all_goals simp only [packetPrefixBytes] at *; omega

/-- The decoding of a stream with a decoder that was created. -/
def decodeWith (d : Decoder σ) (truncated : String) (decodeErr : String → String) (channels : ℕ)
    (packets : Bytes) (created : Except String σ) : Outcome (List Int16) × List Bytes :=
  match created with
  | .error message => (.err message, [])
  | .ok st =>
    decodeLoop d truncated decodeErr channels packets 0 st
      (List.replicate (saturatingMul maxFrameSamples channels) 0) [] []

/-- `decode_with_soundkit`. -/
def decodeWithSoundkit (d : Decoder σ) (channels : ℕ) (packets : Bytes) :
    Outcome (List Int16) × List Bytes :=
  decodeWith d "truncated soundkit packet stream" id channels packets d.create

/-- `decode_with_libopus_rust`. -/
def decodeWithLibopusRust (d : Decoder σ) (channels : ℕ) (packets : Bytes) :
    Outcome (List Int16) × List Bytes :=
  decodeWith d "truncated libopus-rs packet stream" ("libopus-rs decode: " ++ ·) channels packets
    (d.create.mapError ("libopus-rs create decoder: " ++ ·))

/-! ### Comparing -/

/-- Whether the arithmetic of the machine integers is checked: it is in a debug build, and wraps
around in a release build. -/
inductive Build where
  | debug
  | release
deriving DecidableEq, Repr

/-- The integer fields of `Quality`. -/
structure Quality where
  sampleCount : ℕ
  minLen : ℕ
  maxLen : ℕ
  maxAbs : Int16
deriving DecidableEq, Repr

/-- `reference[i] - decoded[i]` in `i16`. -/
def subI16 (build : Build) (x y : Int16) : Option Int16 :=
  match build with
  | .debug => if (x - y).toInt = x.toInt - y.toInt then some (x - y) else none
  | .release => some (x - y)

/-- `i16::abs`. -/
def absI16 (build : Build) (x : Int16) : Option Int16 :=
  match build with
  | .debug => if x.abs.toInt = |x.toInt| then some x.abs else none
  | .release => some x.abs

/-- `for i in 0..compare_len`, as far as `peak_err` goes; `none` is a panic. -/
def peakLoop (build : Build) : List (Int16 × Int16) → Int16 → Option Int16
  | [], peakErr => some peakErr
  | (x, y) :: rest, peakErr =>
    ((subI16 build x y).bind (absI16 build)).bind fun err =>
      peakLoop build rest (if err > peakErr then err else peakErr)

/-- `compare_pcm`. -/
def comparePcm (build : Build) (reference decoded : List Int16) : Option (Option Quality) :=
  let compareLen := min reference.length decoded.length
  if compareLen = 0 then some none
  else
    (peakLoop build (reference.zip decoded) 0).map fun peakErr =>
      some
        { sampleCount := min reference.length decoded.length
          minLen := compareLen
          maxLen := max reference.length decoded.length
          maxAbs := peakErr }

end MediaApi.Model.OpusBenchmark
