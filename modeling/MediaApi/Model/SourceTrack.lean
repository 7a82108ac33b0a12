import MediaApi.Model.ProcessJob

/-! # Decoding a source track

`decode_source_track` decodes a whole file with a pipeline of its own: two sends, each of which is
an error if the pipeline refuses it, and a loop of `recv`. It runs beside the thread of the
pipeline. The bytes of the file are a parameter, and the model ends with the bytes of the
samples. -/

namespace MediaApi.Model.SourceTrack

open MediaApi.Model.Audio MediaApi.Model.Pipeline MediaApi.Model.ProcessJob

variable {ε : Type}

/-- Why a track is skipped. -/
inductive SourceError (ε : Type) where
  | send
  | sendEof
  | bitDepth (bits : UInt8)
  | decode (error : ε)
  | noAudio
deriving DecidableEq

/-- The program point of `decode_source_track`, which ends with the bytes of the samples. -/
inductive SourcePc (ε : Type) where
  /-- `pipeline.send(Bytes::from(bytes))`. -/
  | send
  /-- `pipeline.send(Bytes::new())`. -/
  | sendEof
  /-- `pipeline.recv()`. -/
  | recv
  | done (result : Except (SourceError ε) Bytes)
deriving DecidableEq

/-- `decode_source_track` and its pipeline. -/
structure Source (ε : Type) where
  pc : SourcePc ε := .send
  output : Bytes := []
  pipe : Pipe ε := {}

/-- The options of the pipeline. -/
def sourceOptions (sampleRate : UInt32) (channels : UInt8) : DecodeOptions where
  outputSampleRate := some sampleRate
  outputBitsPerSample := some 16
  outputChannels := some channels

/-- The pipeline answers a `send`. -/
def Source.answer (B : Behaviour ε) (bytes : Bytes) (s : Source ε) (ok : Bool) :
    Option (Source ε) :=
  match s.pc with
  | .send =>
    if ok then
      if B.accepts s.pipe bytes then some { s with pipe := s.pipe.push bytes, pc := .sendEof }
      else none
    else if B.refuses s.pipe bytes then some { s with pc := .done (.error .send) } else none
  | .sendEof =>
    if ok then
      if B.accepts s.pipe [] then some { s with pipe := s.pipe.push [], pc := .recv } else none
    else if B.refuses s.pipe [] then some { s with pc := .done (.error .sendEof) } else none
  | _ => none

/-- A step of the loop; `none` while `recv` waits. -/
def Source.recv (s : Source ε) : Option (Source ε) :=
  match s.pc with
  | .recv =>
    match pipeRecv s.pipe with
    | some (.ok audioData, pipe) =>
      if audioData.bitsPerSample ≠ 16 then
        some { s with pipe := pipe, pc := .done (.error (.bitDepth audioData.bitsPerSample)) }
      else some { s with pipe := pipe, output := s.output ++ audioData.data }
    | some (.error error, pipe) =>
      some { s with pipe := pipe, pc := .done (.error (.decode error)) }
    | none =>
      if s.pipe.finished then
        some { s with pc := .done (if s.output = [] then .error .noAudio else .ok s.output) }
      else none
  | _ => none

/-- Who moves. -/
inductive SourceLabel (ε : Type) where
  | answer (ok : Bool)
  | recv
  | pipe (a : PipeAct ε)

/-- **A step of `decode_source_track` and its pipeline.** -/
def Source.step (B : Behaviour ε) (bytes : Bytes) (s : Source ε) : SourceLabel ε → Option (Source ε)
  | .answer ok => s.answer B bytes ok
  | .recv => s.recv
  | .pipe a => (s.pipe.step B a).map fun pipe => { s with pipe := pipe }

end MediaApi.Model.SourceTrack
