import MediaApi.Model.OpusBenchmark

/-! # A run of the benchmark

For each backend and each track the benchmark encodes, decodes and compares, and prints a row. The
times and the floating-point numbers of a row are left out. A panic ends the whole benchmark. -/

namespace MediaApi.Model.BenchmarkRun

open MediaApi.Model.Audio MediaApi.Model.OpusBenchmark

/-- `Backend`. -/
inductive Backend where
  | soundKit
  | libOpusRust
deriving DecidableEq, Repr

/-- `Backend::label`. -/
def Backend.label : Backend → String
  | .soundKit => "soundkit-opus"
  | .libOpusRust => "libopus-rs"

/-- `Config`, without the directory. -/
structure Config where
  sampleRate : UInt32 := 48000
  channels : UInt8 := 2
  bitrate : UInt32 := 96000

/-- `SourceTrack`. -/
structure SourceTrack where
  name : String
  pcm : List Int16

/-- `FRAME_MS`. -/
def frameMs : ℕ := 20

/-- `frame_size` of `run_engine`. -/
def Config.frameSize (config : Config) : ℕ := config.sampleRate.toNat / 1000 * frameMs

/-- The codecs of a backend, by the arguments they are made with. -/
structure Codecs (σ τ : Type) where
  encoder : (sampleRate : UInt32) → (channels frameSize : ℕ) → (bitrate : UInt32) → Encoder σ
  decoder : (sampleRate : UInt32) → (channels : ℕ) → Decoder τ

variable {σ τ σ' τ' : Type}

/-- The encoder of a run. -/
def Codecs.encoderOf (c : Codecs σ τ) (config : Config) : Encoder σ :=
  c.encoder config.sampleRate config.channels.toNat config.frameSize config.bitrate

/-- The decoder of a run. -/
def Codecs.decoderOf (c : Codecs σ τ) (config : Config) : Decoder τ :=
  c.decoder config.sampleRate config.channels.toNat

/-- The encoding of a track by a backend. -/
def Backend.encode (backend : Backend) (e : Encoder σ) (pcm : List Int16)
    (channels frameSize : ℕ) : Outcome Bytes × List Bytes :=
  match backend with
  | .soundKit => encodeWithSoundkit e pcm channels frameSize
  | .libOpusRust => encodeWithLibopusRust e pcm channels frameSize

/-- The decoding of a packet stream by a backend. -/
def Backend.decode (backend : Backend) (d : Decoder τ) (channels : ℕ) (packets : Bytes) :
    Outcome (List Int16) × List Bytes :=
  match backend with
  | .soundKit => decodeWithSoundkit d channels packets
  | .libOpusRust => decodeWithLibopusRust d channels packets

/-- `EngineResult`, as far as it is no time and no floating-point number. -/
structure EngineResult where
  track : String
  backend : Backend
  encodedBytes : ℕ
  decodedBytes : ℕ
  quality : Option Quality
  outputLenMatch : ℤ
  encodeError : Option String
  decodeError : Option String
deriving DecidableEq, Repr

/-- The part of `run_engine` after the decoding. -/
def engineResult (build : Build) (backend : Backend) (track : SourceTrack) (encoded : Bytes)
    (decoded : List Int16) (decodeError : Option String) : Option EngineResult := do
  let quality ←
    if decodeError.isNone then comparePcm build track.pcm decoded else some none
  return {
    track := track.name
    backend := backend
    encodedBytes := encoded.length
    decodedBytes := saturatingMul decoded.length 2
    quality := quality
    outputLenMatch := (decoded.length : ℤ) - track.pcm.length
    encodeError := none
    decodeError := decodeError }

/-- `run_engine`; `none` is a panic. -/
def runEngine (build : Build) (c : Codecs σ τ) (backend : Backend) (track : SourceTrack)
    (config : Config) : Option EngineResult :=
  match
    (backend.encode (c.encoderOf config) track.pcm config.channels.toNat config.frameSize).1 with
  | .panicked => none
  | .err error =>
    some {
      track := track.name
      backend := backend
      encodedBytes := 0
      decodedBytes := 0
      quality := none
      outputLenMatch := 0
      encodeError := some error
      decodeError := none }
  | .ok encoded =>
    match (backend.decode (c.decoderOf config) config.channels.toNat encoded).1 with
    | .panicked => none
    | .err error => engineResult build backend track encoded [] (some error)
    | .ok decoded => engineResult build backend track encoded decoded none

/-- A row that `print_row` prints. -/
inductive Row where
  | encodeFail (track label error : String)
  | decodeFail (track label : String) (encodedBytes : ℕ) (error : String)
  | measured (track label : String) (encodedBytes decodedBytes : ℕ) (maxAbs : Int16)
      (outputLenMatch : ℤ)
deriving DecidableEq, Repr

/-- `print_row`; `none` is a panic. -/
def printRow (r : EngineResult) : Option Row :=
  match r.encodeError with
  | some error => some (.encodeFail r.track r.backend.label error)
  | none =>
    match r.decodeError with
    | some error => some (.decodeFail r.track r.backend.label r.encodedBytes error)
    | none =>
      -- `expect("quality missing for successful run")`
      r.quality.map fun quality =>
        .measured r.track r.backend.label r.encodedBytes r.decodedBytes quality.maxAbs
          r.outputLenMatch

/-- The row of a track: `run_engine` and `print_row`. -/
def row (build : Build) (c : Codecs σ τ) (backend : Backend) (config : Config)
    (track : SourceTrack) : Option Row :=
  (runEngine build c backend track config).bind printRow

/-- The loop of `main` over the engines and the tracks. -/
def runAll (build : Build) (soundKit : Codecs σ τ) (libOpusRust : Codecs σ' τ') (config : Config)
    (tracks : List SourceTrack) : Option (List Row) := do
  let rows ← tracks.mapM (row build soundKit .soundKit config)
  let rows' ← tracks.mapM (row build libOpusRust .libOpusRust config)
  return rows ++ rows'

end MediaApi.Model.BenchmarkRun
