import MediaApi.Lib.Channel
import MediaApi.Lib.Transition
import MediaApi.Model.Pipeline

/-! # A decode session: one job, its worker, its pipeline and its handle

`DecoderPool::acquire` makes two channels of 32 slots, puts the job with its ends of them into the
job queue and returns the other ends as a `PooledDecoder`. `Session` is everything that belongs to
one such job: the channels, the program point and the locals of `DecoderPool::process_job`, and the
pipeline. Four parties move it, one atomic action at a time:

* the worker (`Session.worker`), up to a call of `pipeline.send`;
* the pipeline's answer to that call (`Session.answer`);
* the pipeline's thread (`Pipe.step`);
* the holder of the handle (`PooledDecoder`: `Session.send`, `Session.tryRecv`, `Session.recv`, and
  the drops of its two fields).

`Session.step` interleaves them, with a holder that does whatever it likes; the front ends are
holders with a program. The fields `sent`, `taken` and `received` only record what has passed
through the channels; the worker does not read them. -/

namespace MediaApi.Model.ProcessJob

open MediaApi.Lib.Channel MediaApi.Lib.Transition MediaApi.Model.Audio MediaApi.Model.Pipeline

variable {ε : Type}

/-- The capacity of both channels of a request. -/
abbrev slots : ℕ := 32

/-! ### The metrics after a job -/

/-- What a job counts over its `Ok` results. -/
structure Tally where
  outputBytes : ℕ := 0
  outputSampleRate : UInt32 := 0
  outputChannels : UInt8 := 0
deriving DecidableEq, Repr

/-- Counts one result. -/
def Tally.add (t : Tally) : Decoded ε → Tally
  | .ok a => ⟨t.outputBytes + a.data.length, a.samplingRate, a.channelCount⟩
  | .error _ => t

/-- `u64` multiplication: `none` where it overflows. -/
def mulU64 (a b : ℕ) : Option ℕ := if a * b < 2 ^ 64 then some (a * b) else none

/-- `u64` division: `none` where it divides by zero. -/
def divU64 (a b : ℕ) : Option ℕ := if b = 0 then none else some (a / b)

/-- `job.options.output_bits_per_sample.unwrap_or(16) as usize / 8`. -/
def bytesPerSample (options : DecodeOptions) : ℕ :=
  (options.outputBitsPerSample.getD 16).toNat / 8

/-- The duration of the output in milliseconds; `none` where the arithmetic panics. -/
def audioMs (options : DecodeOptions) (t : Tally) : Option ℕ :=
  if t.outputSampleRate > 0 ∧ t.outputChannels > 0 then do
    let bytes ← mulU64 t.outputBytes 1000
    let frames ← mulU64 t.outputSampleRate.toNat t.outputChannels.toNat
    let rate ← mulU64 frames (bytesPerSample options)
    divU64 bytes rate
  else some 0

/-! ### The state of a session -/

/-- How `process_job` ends: it runs to its end, it returns because the output receiver is gone (with
the item it could not send), or its metrics panic. -/
inductive Outcome where
  | returned
  | aborted (item : Item)
  | panicked
deriving DecidableEq

/-- The program point of `process_job`. -/
inductive Pc where
  /-- The job is in the job queue. -/
  | queued
  /-- The top of the loop: `job.input_rx.try_recv()`. -/
  | poll
  /-- `let _ = pipeline.send(Bytes::new())`. -/
  | sendEof
  /-- `while pipeline.send(chunk.clone()).is_err()`. -/
  | retry (chunk : Bytes)
  /-- `while let Some(result) = pipeline.try_recv()`. -/
  | drain
  /-- `job.output_tx.send(mapped)`, in the drain or in the final drain. -/
  | emit (item : Item) (final : Bool)
  /-- The final drain: `pipeline.recv()`. -/
  | final
  | metrics
  /-- The job is dropped, first its `input_rx`, then its `output_tx`. -/
  | dropInput (o : Outcome)
  | dropOutput (o : Outcome)
  | ended (o : Outcome)
deriving DecidableEq

/-- The item in the worker's hand; one that came back from a failed send stays in it. -/
def Pc.hand : Pc → List Item
  | .emit item _ => [item]
  | .dropInput (.aborted item) | .dropOutput (.aborted item) | .ended (.aborted item) => [item]
  | _ => []

/-- The chunk being retried. -/
def Pc.retrying : Pc → List Bytes
  | .retry chunk => [chunk]
  | _ => []

/-- How the job ended, once it is past its metrics or has aborted. -/
def Pc.outcome : Pc → Option Outcome
  | .dropInput o | .dropOutput o | .ended o => some o
  | _ => none

/-- A job with its channels, its worker and its pipeline. -/
structure Session (ε : Type) where
  options : DecodeOptions
  input : Chan Bytes slots
  output : Chan Item slots
  pc : Pc
  inputDone : Bool
  inputBytes : ℕ
  tally : Tally
  pipe : Pipe ε
  /-- What the handle has put into the input channel. -/
  sent : List Bytes
  /-- What the worker has taken out of it. -/
  taken : List Bytes
  /-- What the handle has taken out of the output channel. -/
  received : List Item
deriving DecidableEq

/-- `DecoderPool::acquire`: a fresh job in the queue. -/
def acquire (options : DecodeOptions) : Session ε where
  options := options
  input := Chan.new
  output := Chan.new
  pc := .queued
  inputDone := false
  inputBytes := 0
  tally := {}
  pipe := {}
  sent := []
  taken := []
  received := []

/-! ### The worker -/

/-- `pipeline.try_recv()`. -/
def pipeRecv (p : Pipe ε) : Option (Decoded ε × Pipe ε) :=
  match p.outbuf with
  | r :: rest => some (r, { p with given := p.given ++ [r], outbuf := rest })
  | [] => none

variable [ToString ε]

/-- **The worker's next step** in `process_job`; `none` while it waits: for the pipeline's answer
to a `send`, for room in the output channel, or for the pipeline in `recv`. -/
def Session.worker (s : Session ε) : Option (Session ε) :=
  match s.pc with
  | .queued => some { s with pc := .poll }
  | .poll =>
    if s.inputDone then some { s with pc := .drain }
    else
      match s.input.tryRecv with
      | .got chunk input =>
        if chunk = [] then
          some { s with input := input, taken := s.taken ++ [chunk], pc := .sendEof }
        else
          some { s with
            input := input
            taken := s.taken ++ [chunk]
            inputBytes := s.inputBytes + chunk.length
            pc := .retry chunk }
      | .empty => some { s with pc := .drain }
      | .closed => some { s with pc := .sendEof }
  | .sendEof => none
  | .retry _ => none
  | .drain =>
    match pipeRecv s.pipe with
    | some (r, pipe) =>
      some { s with pipe := pipe, tally := s.tally.add r, pc := .emit (mapErr r) false }
    | none => some { s with pc := if s.inputDone then .final else .poll }
  | .emit item final =>
    match s.output.send item with
    | .sent output => some { s with output := output, pc := if final then .final else .drain }
    | .blocked => none
    | .hungUp => some { s with pc := .dropInput (.aborted item) }
  | .final =>
    match pipeRecv s.pipe with
    | some (r, pipe) =>
      some { s with pipe := pipe, tally := s.tally.add r, pc := .emit (mapErr r) true }
    | none => if s.pipe.finished then some { s with pc := .metrics } else none
  | .metrics =>
    match audioMs s.options s.tally with
    | some _ => some { s with pc := .dropInput .returned }
    | none => some { s with pc := .dropInput .panicked }
  | .dropInput o => some { s with input := s.input.dropRx, pc := .dropOutput o }
  | .dropOutput o => some { s with output := s.output.dropTx, pc := .ended o }
  | .ended _ => none

/-- **The pipeline's answer** to the `send` the worker is in: `Ok`, or `Err` with nothing queued.
The EOF marker is sent once whatever the answer; a data chunk is sent again until it is accepted. -/
def Session.answer (B : Behaviour ε) (s : Session ε) (ok : Bool) : Option (Session ε) :=
  match s.pc with
  | .sendEof =>
    if ok then
      if B.accepts s.pipe [] then
        some { s with pipe := s.pipe.push [], inputDone := true, pc := .drain }
      else none
    else if B.refuses s.pipe [] then some { s with inputDone := true, pc := .drain } else none
  | .retry chunk =>
    if ok then
      if B.accepts s.pipe chunk then some { s with pipe := s.pipe.push chunk, pc := .drain }
      else none
    else if B.refuses s.pipe chunk then some s else none
  | _ => none

/-! ### The handle -/

/-- `PooledDecoder::send`: `none` while it blocks, else whether it returned `Ok`. -/
def Session.send (s : Session ε) (data : Bytes) : Option (Bool × Session ε) :=
  match s.input.send data with
  | .sent input => some (true, { s with input := input, sent := s.sent ++ [data] })
  | .blocked => none
  | .hungUp => some (false, s)

/-- The result of `PooledDecoder::try_recv`: `Ok(Some(..))`, `Ok(None)` or `Err(())`. -/
inductive Polled where
  | item (i : Item)
  | empty
  | closed
deriving DecidableEq

/-- `PooledDecoder::try_recv`. -/
def Session.tryRecv (s : Session ε) : Polled × Session ε :=
  match s.output.tryRecv with
  | .got i output => (.item i, { s with output := output, received := s.received ++ [i] })
  | .empty => (.empty, s)
  | .closed => (.closed, s)

/-- `PooledDecoder::recv`: `none` while it blocks. -/
def Session.recv (s : Session ε) : Option (Option Item × Session ε) :=
  match s.tryRecv with
  | (.item i, s') => some (some i, s')
  | (.empty, _) => none
  | (.closed, s') => some (none, s')

/-- The handle's `input_tx` goes. -/
def Session.dropTx (s : Session ε) : Session ε := { s with input := s.input.dropTx }

/-- The handle's `output_rx` goes. -/
def Session.dropRx (s : Session ε) : Session ε := { s with output := s.output.dropRx }

/-- `Drop for PooledDecoder`: the blocking send of EOF, then the two fields in their order. -/
inductive DropPc where
  | send
  | tx
  | rx
  | dropped
deriving DecidableEq

/-- A step of dropping the handle; `none` while the send blocks, and when all is dropped. -/
def Session.dropStep (s : Session ε) : DropPc → Option (DropPc × Session ε)
  | .send => (s.send []).map fun r => (.tx, r.2)
  | .tx => some (.rx, s.dropTx)
  | .rx => some (.dropped, s.dropRx)
  | .dropped => none

/-! ### The steps of a session -/

/-- The parties behind the handle. -/
inductive Inner (ε : Type) where
  | worker
  | answer (ok : Bool)
  | pipe (a : PipeAct ε)
deriving DecidableEq

/-- A step behind the handle. The pipeline is spawned when a worker takes the job. -/
def Session.inner (B : DecodeOptions → Behaviour ε) (s : Session ε) : Inner ε → Option (Session ε)
  | .worker => s.worker
  | .answer ok => s.answer (B s.options) ok
  | .pipe a =>
    if s.pc = .queued then none
    else (s.pipe.step (B s.options) a).map fun pipe => { s with pipe := pipe }

/-- What a holder can do with its handle. -/
inductive ClientAct where
  | send (data : Bytes)
  | recv
  | dropTx
  | dropRx
deriving DecidableEq

/-- An effective action on the handle; its ends can be used until they are dropped. -/
def Session.client (s : Session ε) : ClientAct → Option (Session ε)
  | .send data =>
    if s.input.tx then
      match s.send data with
      | some (true, s') => some s'
      | _ => none
    else none
  | .recv =>
    if s.output.rx then
      match s.tryRecv with
      | (.item _, s') => some s'
      | _ => none
    else none
  | .dropTx => some s.dropTx
  | .dropRx => some s.dropRx

inductive Label (ε : Type) where
  | inner (i : Inner ε)
  | client (a : ClientAct)
deriving DecidableEq

/-- **A step of a session** with an arbitrary holder. -/
def Session.step (B : DecodeOptions → Behaviour ε) (s : Session ε) :
    Label ε → Option (Session ε)
  | .inner i => s.inner B i
  | .client a => s.client a

end MediaApi.Model.ProcessJob
