import MediaApi.Tcp.Sessions

/-! # The TCP server refines the reference

For a pipeline whose results depend only on the chunks and that ends only after EOF (`Decodes`),
what was received for a session until its channel closed is what `D` gives for its payloads. So a
connection, which writes the audio of each session as it receives it (`Sessions.Follows`), writes at
every moment a beginning of `reference D frames`, and all of it when it returns `Ok`. -/

namespace MediaApi.Tcp.Refinement

open MediaApi.Lib.Transition MediaApi.Model.Audio MediaApi.Model.Pipeline MediaApi.Model.ProcessJob
open MediaApi.Model.Tcp MediaApi.Pool.Forwarding MediaApi.Pool.Script MediaApi.Tcp.Reference
open MediaApi.Tcp.Sessions

variable {ε : Type} [ToString ε] {B : DecodeOptions → Behaviour ε}
  {D : List Bytes → List (Decoded ε)}
  {options : DecodeOptions} {frames out : List Frame} {o : Open ε} {ps : List Bytes}
  {rest : List (List Bytes)} {rs : List Item}

/-- One result for each chunk: an error for the chunk `[0]`. -/
def fussyResults (cs : List Bytes) : List (Decoded String) :=
  cs.map fun b => if b = [0] then .error "bad" else .ok ⟨b, 8000, 1, 16, .other 0⟩

/-- Two sessions: the second chunk of the first one cannot be decoded. -/
def twoSessions : List Frame :=
  [⟨.dcod, [7]⟩, ⟨.dcod, [0]⟩, ⟨.dcod, [9]⟩, ⟨.dcod, []⟩, ⟨.dcod, [5]⟩, ⟨.done, []⟩]

/-- The worker takes `n` chunks to the pipeline, which then gives these results and ends. -/
def fussyJob (n : ℕ) (results : List (Decoded String)) : List (ConnLabel String) :=
  (List.replicate n
    [.inner .worker, .inner .worker, .inner (.answer true), .inner (.pipe .take)]).flatten ++
    results.map (fun r => .inner (.pipe (.emit r))) ++ [.inner (.pipe .finish)]

/-- The handler serves the sessions in turn and closes the connection at the end of the stream. -/
def twoRun : List (ConnLabel String) :=
  List.replicate 12 .handler ++ fussyJob 4 (fussyResults [[7], [0], [9]]) ++
    List.replicate 11 (.inner .worker) ++ List.replicate 18 .handler ++
    fussyJob 2 (fussyResults [[5]]) ++ List.replicate 7 (.inner .worker) ++
    List.replicate 10 .handler

end MediaApi.Tcp.Refinement
