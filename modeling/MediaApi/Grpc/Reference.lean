import MediaApi.Grpc.Drain
import MediaApi.Grpc.Responses

/-! # The reference of a gRPC call

What a call should answer, as a function of its messages: for each segment in turn, the payloads of
the `Ok` results that its data gives under its options. A decoder is `Full` when all of these have
been received from it. With full decoders for the first segments, the audio that a call has received
is the reference of these segments (`heard_eq`). -/

namespace MediaApi.Grpc.Reference

open MediaApi.Lib.Transition MediaApi.Model.Audio MediaApi.Model.Pipeline MediaApi.Model.ProcessJob
open MediaApi.Model.Steps MediaApi.Model.Grpc MediaApi.Pool.Handle MediaApi.Pool.Script
open MediaApi.Pool.Forwarding MediaApi.Grpc.Segments MediaApi.Grpc.Isolation

variable {ε : Type}

section Reference

variable (D : DecodeOptions → List Bytes → List (Decoded ε)) (defaults : DecodeOptions)

/-- The audio of the last of these segments. -/
def answer (segs : List (List DecodeRequest)) : List Bytes :=
  payloads (D (segmentOptions defaults segs) (segmentData (segs.getLast?.getD [])))

/-- **The reference**: the audio of one segment after the other. -/
def reference (segs : List (List DecodeRequest)) : List Bytes :=
  (segs.inits.tail.map (answer D defaults)).flatten

theorem reference_concat (init : List (List DecodeRequest)) (seg : List DecodeRequest) :
    reference D defaults (init ++ [seg]) =
      reference D defaults init ++ answer D defaults (init ++ [seg]) := by
  have hne : init.inits ≠ [] := by
    intro h
    have hlen := congrArg List.length h
    simp at hlen
  unfold reference
  rw [List.inits_append, List.tail_append_of_ne_nil hne]
  simp

theorem reference_mono {segs segs' : List (List DecodeRequest)} (h : segs <+: segs') :
    reference D defaults segs <+: reference D defaults segs' := by
  obtain ⟨more, rfl⟩ := h
  induction more using List.reverseRecOn with
  | nil => simp
  | append_singleton more seg ih =>
    rw [← List.append_assoc, reference_concat]
    exact ih.trans (List.prefix_append _ _)

end Reference

/-! ### Decoders -/

variable {D : DecodeOptions → List Bytes → List (Decoded ε)} {defaults : DecodeOptions}

/-- All audio that the data sent to the decoder gives has been received. -/
def Full (D : DecodeOptions → List Bytes → List (Decoded ε)) (s : Session ε) : Prop :=
  payloads s.received = payloads (D s.options (dataSent s))

/-- The audio received from these decoders. -/
def heard (ss : List (Session ε)) : List Bytes := (ss.map fun s => payloads s.received).flatten

theorem heard_concat (ss : List (Session ε)) (s : Session ε) :
    heard (ss ++ [s]) = heard ss ++ payloads s.received := by
  simp [heard]

variable [ToString ε] {B : DecodeOptions → Behaviour ε} {segs : List (List DecodeRequest)}
  {ss : List (Session ε)} {s : Session ε}

omit [ToString ε] in
theorem dataSent_of_supplied {data : List Bytes} (h : Supplied data s) (hdata : [] ∉ data)
    (heof : [] ∈ s.sent) : dataSent s = data := by
  obtain ⟨qs, n, hsent, hqs, hall⟩ := h
  have hqs' : [] ∉ qs := fun hm => hdata (hqs.subset hm)
  rcases n with _ | n
  · rw [hsent] at heof
    simp [hqs'] at heof
  · rw [dataSent, hsent, takeWhile_data hqs', hall (by omega)]
    simp [List.replicate_succ]

/-- The reference, by the decoders that have served these segments. -/
theorem reference_eq (h : Sealed B defaults segs ss) (heof : ∀ s ∈ ss, [] ∈ s.sent) :
    reference D defaults segs =
      (ss.map fun s => payloads (D s.options (dataSent s))).flatten := by
  induction h with
  | nil => simp [reference]
  | @concat init past seg s hinit hr hs ih =>
    have hpast := ih fun s hm => heof s (List.mem_append_left _ hm)
    have hdata := dataSent_of_supplied hs (nil_notMem_segmentData seg) (heof s (by simp))
    have hopt := reach_options hr
    have hlast : answer D defaults (init ++ [seg]) = payloads (D s.options (dataSent s)) := by
      rw [answer, hdata, hopt]
      simp
    rw [reference_concat, hpast, hlast]
    simp

/-- **Full decoders give the reference.** -/
theorem heard_eq (h : Sealed B defaults segs ss) (heof : ∀ s ∈ ss, [] ∈ s.sent)
    (hfull : ∀ s ∈ ss, Full D s) : heard ss = reference D defaults segs := by
  rw [reference_eq h heof, heard]
  congr 1
  exact List.map_congr_left hfull

/-- What was received from a decoder is a beginning of what the data sent to it gives. -/
theorem heard_begins (hD : ∀ o, Decodes (B o) (D o)) {options : DecodeOptions}
    (h : Reach (Session.step B) (acquire options) s) :
    payloads s.received <+: payloads (D s.options (dataSent s)) := by
  have hb := Pool.Handle.received_begins (hD options) h (List.prefix_refl _) fun _ => rfl
  have := (oks_mono hb).map AudioData.data
  rw [oks_map_mapErr] at this
  rw [reach_options h]
  exact this

end MediaApi.Grpc.Reference
