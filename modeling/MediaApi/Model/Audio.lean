import Mathlib.Data.List.Basic
import Mathlib.Tactic

/-! # Audio data, decode options and decoder results

The values that pass between a front end, the pool and the external decoder. Bytes are lists of
octets. Of an `AudioData` the code reads the payload, the sample rate, the channel count, the bits
per sample and the audio format; of the format it only asks whether it is `PCMFloat`.

The decoder's results carry an error of the external crate (`ε`); a worker turns it into a string
before it passes the result on (`mapErr`). -/

namespace MediaApi.Model.Audio

/-- `bytes::Bytes`. -/
abbrev Bytes := List UInt8

instance decidableMemBytes (b : Bytes) (bs : List Bytes) : Decidable (b ∈ bs) := inferInstance

/-- `frame_header::EncodingFlag`: `PCMFloat`, or any other flag, by its number. -/
inductive EncodingFlag where
  | pcmFloat
  | other (flag : ℕ)
deriving DecidableEq, Repr

/-- `soundkit::audio_types::AudioData`, as far as the code reads it. -/
structure AudioData where
  data : Bytes
  samplingRate : UInt32
  channelCount : UInt8
  bitsPerSample : UInt8
  audioFormat : EncodingFlag
deriving DecidableEq, Repr

/-- `soundkit_decoder::DecodeOptions`; the default leaves every field unset. -/
structure DecodeOptions where
  outputSampleRate : Option UInt32 := none
  outputBitsPerSample : Option UInt8 := none
  outputChannels : Option UInt8 := none
deriving DecidableEq, Repr

/-- A result of the external decoder. -/
abbrev Decoded (ε : Type) := Except ε AudioData

/-- A result as the output channel carries it. -/
abbrev Item := Except String AudioData

/-- `result.map_err(|e| e.to_string())`. -/
def mapErr {ε : Type} [ToString ε] : Decoded ε → Item
  | .ok a => .ok a
  | .error e => .error (toString e)

/-- The audio of the `Ok` results, in order. -/
def oks {ε : Type} (rs : List (Decoded ε)) : List AudioData :=
  rs.filterMap fun | .ok a => some a | .error _ => none

/-- The payloads of the `Ok` results, in order. -/
def payloads {ε : Type} (rs : List (Decoded ε)) : List Bytes := (oks rs).map AudioData.data

section oks

variable {ε : Type}

@[simp] theorem oks_nil : oks ([] : List (Decoded ε)) = [] := rfl

@[simp] theorem oks_append (l l' : List (Decoded ε)) : oks (l ++ l') = oks l ++ oks l' := by
  simp [oks]

@[simp] theorem oks_ok (a : AudioData) : oks [(.ok a : Decoded ε)] = [a] := rfl

@[simp] theorem oks_error (e : ε) : oks [(.error e : Decoded ε)] = [] := rfl

@[simp] theorem oks_map_mapErr [ToString ε] (rs : List (Decoded ε)) :
    oks (rs.map mapErr) = oks rs := by
  induction rs with
  | nil => rfl
  | cons r rs ih =>
    rw [List.map_cons, ← List.singleton_append, oks_append, ih, ← List.singleton_append (l := rs),
      oks_append]
    cases r <;> rfl

theorem oks_mono {l l' : List (Decoded ε)} (h : l <+: l') : oks l <+: oks l' := by
  obtain ⟨t, rfl⟩ := h
  exact ⟨oks t, (oks_append l t).symm⟩

@[simp] theorem payloads_nil : payloads ([] : List (Decoded ε)) = [] := rfl

@[simp] theorem payloads_append (l l' : List (Decoded ε)) :
    payloads (l ++ l') = payloads l ++ payloads l' := by simp [payloads]

@[simp] theorem payloads_ok (a : AudioData) : payloads [(.ok a : Decoded ε)] = [a.data] := rfl

@[simp] theorem payloads_error (e : ε) : payloads [(.error e : Decoded ε)] = [] := rfl

@[simp] theorem payloads_map_mapErr [ToString ε] (rs : List (Decoded ε)) :
    payloads (rs.map mapErr) = payloads rs := by simp [payloads]

end oks

end MediaApi.Model.Audio
