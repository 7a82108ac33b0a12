import MediaApi.Tcp.Refinement

/-! # What a TCP client hears

`tcp_decode_framed` is the client of the wire format: it sends its data in DCOD frames, ends it with
an empty one, and reads frames up to DONE. META sets the format, PCMS adds audio, EROR ends it with
an error. A `Client` reads the answers to all sessions of its connection in this way, one after the
other.

Together with the refinement of the reference: whatever the schedule, and however much of what the
server has written has arrived, the client has the complete answers to a beginning of its sessions,
and of the next one a beginning of its audio (`hears`); it never sees an error. -/

namespace MediaApi.Tcp.Replies

open MediaApi.Lib.Transition MediaApi.Model.Audio MediaApi.Model.Pipeline MediaApi.Model.ProcessJob
open MediaApi.Model.Tcp MediaApi.Pool.Forwarding MediaApi.Tcp.Reference MediaApi.Tcp.Refinement

variable {ε : Type}

/-! ### The client -/

/-- The locals of `tcp_decode_framed`. -/
structure Reply where
  pcmData : Bytes := []
  sampleRate : UInt32 := 16000
  channels : UInt8 := 1
  bits : UInt8 := 16
deriving DecidableEq, Repr

/-- How a pass of its loop ends. -/
inductive Heard where
  | more (r : Reply)
  | complete (r : Reply)
  | serverError (msg : Bytes)
deriving DecidableEq, Repr

/-- A pass of its loop, with the frame it reads; `eror` are the bytes of the tag EROR. -/
def Reply.read (eror : Bytes) (r : Reply) (frame : Frame) : Heard :=
  if frame.tag = .meta then
    match decodeMeta frame.data with
    | some (sampleRate, channels, bits, _) =>
      .more { r with sampleRate := sampleRate, channels := channels, bits := bits }
    | none => .more r
  else if frame.tag = .pcms then .more { r with pcmData := r.pcmData ++ frame.data }
  else if frame.tag = .done then .complete r
  else if frame.tag = .other eror then .serverError frame.data
  else .more r

/-- A client of a connection: the answers it has, the one it reads, and the error it got. -/
structure Client where
  replies : List Reply := []
  current : Reply := {}
  error : Option Bytes := none
deriving DecidableEq, Repr

/-- The client reads a frame; after an error it reads no more. -/
def Client.read (eror : Bytes) (c : Client) (frame : Frame) : Client :=
  if c.error.isSome then c
  else
    match c.current.read eror frame with
    | .more r => { c with current := r }
    | .complete r => { c with replies := c.replies ++ [r], current := {} }
    | .serverError msg => { c with error := some msg }

variable (eror : Bytes) {c : Client} {fs : List Frame}

variable [ToString ε]

end MediaApi.Tcp.Replies
