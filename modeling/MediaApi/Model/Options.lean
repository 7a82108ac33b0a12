import MediaApi.Model.Audio

/-! # How the three front ends choose the options of a job

* HTTP: `parse_decode_options` reads the query string, `merge_options` fills the unset fields with
  the configured defaults.
* TCP: the configured defaults.
* gRPC: the options of the latest segment-starting message that has any, a zero field replaced by
  the default, the other two fields narrowed to `u8`.

Strings are read as lists of characters. -/

namespace MediaApi.Model.Options

open MediaApi.Model.Audio

/-! ### The query string -/

/-- The number a string of decimal digits denotes. -/
def numeral (ds : List Char) : ℕ := ds.foldl (fun n c => 10 * n + (c.toNat - '0'.toNat)) 0

/-- `str::parse` into an unsigned integer type whose largest value is `max`: an optional `+`, then
at least one decimal digit and nothing else, and no overflow. -/
def parseUnsigned (max : ℕ) (value : List Char) : Option ℕ :=
  let ds := match value with
    | '+' :: rest => rest
    | _ => value
  if ds ≠ [] ∧ ds.all Char.isDigit ∧ numeral ds ≤ max then some (numeral ds) else none

/-- `pair.splitn(2, '=')`: the key, and the value (empty if there is no `=`). -/
def splitPair (pair : List Char) : List Char × List Char :=
  (pair.takeWhile (· ≠ '='), (pair.dropWhile (· ≠ '=')).tail)

/-- The three fields a query pair can set. -/
inductive Field where
  | sampleRate
  | bits
  | channels
deriving DecidableEq, Repr

/-- The field a key names. -/
def fieldOf (key : List Char) : Option Field :=
  if key = "sample_rate".toList ∨ key = "output_sample_rate".toList then some .sampleRate
  else if key = "bits".toList ∨ key = "output_bits".toList ∨ key = "bits_per_sample".toList then
    some .bits
  else if key = "channels".toList ∨ key = "output_channels".toList then some .channels
  else none

/-- One pass of the loop over the `&`-separated pairs. -/
def applyPair (options : DecodeOptions) (pair : List Char) : DecodeOptions :=
  let (key, value) := splitPair pair
  match fieldOf key with
  | some .sampleRate =>
    match parseUnsigned (2 ^ 32 - 1) value with
    | some rate => { options with outputSampleRate := some (UInt32.ofNat rate) }
    | none => options
  | some .bits =>
    match parseUnsigned (2 ^ 8 - 1) value with
    | some bits =>
      if bits = 16 ∨ bits = 24 ∨ bits = 32 then
        { options with outputBitsPerSample := some (UInt8.ofNat bits) }
      else options
    | none => options
  | some .channels =>
    match parseUnsigned (2 ^ 8 - 1) value with
    | some ch =>
      if ch > 0 ∧ ch ≤ 16 then { options with outputChannels := some (UInt8.ofNat ch) }
      else options
    | none => options
  | none => options

/-- `parse_decode_options`. -/
def parseDecodeOptions (query : Option String) : DecodeOptions :=
  match query with
  | some q => (q.toList.splitOn '&').foldl applyPair {}
  | none => {}

/-- `MediaRouter::merge_options`. -/
def mergeOptions (defaults queryOptions : DecodeOptions) : DecodeOptions where
  outputSampleRate := queryOptions.outputSampleRate.or defaults.outputSampleRate
  outputBitsPerSample := queryOptions.outputBitsPerSample.or defaults.outputBitsPerSample
  outputChannels := queryOptions.outputChannels.or defaults.outputChannels

/-! ### The options message -/

/-- `decode::DecodeOptions` of the protocol; zero means unset. -/
structure OptionsMsg where
  outputSampleRate : UInt32
  outputBitsPerSample : UInt32
  outputChannels : UInt32
deriving DecidableEq, Repr

/-- The options `GrpcDecodeService::decode` makes of a message's options; `as u8` keeps the lowest
eight bits. -/
def ofMsg (defaults : DecodeOptions) (o : OptionsMsg) : DecodeOptions where
  outputSampleRate :=
    if o.outputSampleRate > 0 then some o.outputSampleRate else defaults.outputSampleRate
  outputBitsPerSample :=
    if o.outputBitsPerSample > 0 then some o.outputBitsPerSample.toUInt8
    else defaults.outputBitsPerSample
  outputChannels :=
    if o.outputChannels > 0 then some o.outputChannels.toUInt8 else defaults.outputChannels

/-! ### The options of a job -/

/-- What asks for a decoder: an HTTP request with its query, a TCP session, or a gRPC segment with
the latest options that a segment-starting message carried, if any. -/
inductive Request where
  | http (query : Option String)
  | tcp
  | grpc (options : Option OptionsMsg)
deriving DecidableEq, Repr

/-- The options passed to `acquire`. -/
def jobOptions (defaults : DecodeOptions) : Request → DecodeOptions
  | .http query => mergeOptions defaults (parseDecodeOptions query)
  | .tcp => defaults
  | .grpc (some o) => ofMsg defaults o
  | .grpc none => defaults

example : parseDecodeOptions (some "sample_rate=16000&bits=16&channels=1") =
    { outputSampleRate := some 16000
      outputBitsPerSample := some 16
      outputChannels := some 1 } := by
  decide

end MediaApi.Model.Options
