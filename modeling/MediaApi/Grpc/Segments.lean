import Mathlib.Data.List.SplitBy
import MediaApi.Model.Grpc
import MediaApi.Pool.Script

/-! # The segments of a gRPC call

`segments` splits the messages of a call at the first one and at each later one with `new_segment`;
nothing in it depends on decoders or schedules. `Isolated` is the invariant that ties the decoders
of a call to it: the decoder with the number `i` was acquired for the segment with the number `i`,
with the options of the latest segment-starting message that carries options, and is sent the data
of that segment and nothing else. -/

namespace MediaApi.Grpc.Segments

open MediaApi.Lib.Transition MediaApi.Model.Audio MediaApi.Model.Pipeline MediaApi.Model.ProcessJob
open MediaApi.Model.Steps MediaApi.Model.Options MediaApi.Model.Grpc MediaApi.Pool.Handle
open MediaApi.Pool.Script

variable {ε : Type}

/-! ### Segments, their data and their options -/

/-- The messages of each segment. -/
def segments (ms : List DecodeRequest) : List (List DecodeRequest) :=
  ms.splitBy fun _ m => !m.newSegment

/-- The data of a segment: its non-empty payloads. -/
def segmentData (seg : List DecodeRequest) : List Bytes := chunks (seg.map DecodeRequest.data)

/-- The options of the latest segment-starting message that carries options. -/
def latestOptions (segs : List (List DecodeRequest)) : Option OptionsMsg :=
  (segs.filterMap fun seg => seg.head?.bind DecodeRequest.options).getLast?

/-- The options that `acquire` is given for the last of these segments. -/
def segmentOptions (defaults : DecodeOptions) (segs : List (List DecodeRequest)) : DecodeOptions :=
  jobOptions defaults (.grpc (latestOptions segs))

/-- The messages of the input stream, up to an error. -/
def requests : List (Option DecodeRequest) → List DecodeRequest
  | some m :: ms => m :: requests ms
  | _ => []

example : segments [⟨[1], none, false⟩, ⟨[2], none, false⟩, ⟨[3], none, true⟩] =
    [[⟨[1], none, false⟩, ⟨[2], none, false⟩], [⟨[3], none, true⟩]] := by decide

theorem segments_append_new (l ms : List DecodeRequest) {m : DecodeRequest}
    (hm : m.newSegment = true) : segments (l ++ m :: ms) = segments l ++ segments (m :: ms) :=
  List.splitBy_append_cons ms (by simp [hm])

/-- A message that starts no segment goes to the last one. -/
theorem segments_concat {l : List DecodeRequest} {m : DecodeRequest} (hm : m.newSegment = false)
    {init : List (List DecodeRequest)} {last : List DecodeRequest}
    (h : segments l = init ++ [last]) : segments (l ++ [m]) = init ++ [last ++ [m]] := by
  obtain ⟨h1, h2, h3, h4⟩ := List.splitBy_eq_iff.mp h
  have hlast : last ≠ [] := fun e => h2 (by simp [e])
  refine List.splitBy_eq_iff.mpr ⟨by simp [h1], by simpa using fun h => h2 (by simp [h]), ?_, ?_⟩
  · intro seg hseg
    rcases List.mem_append.mp hseg with hseg | hseg
    · exact h3 seg (List.mem_append_left _ hseg)
    · rw [List.mem_singleton.mp hseg, List.isChain_append]
      refine ⟨h3 last (by simp), by simp, fun x _ y hy => ?_⟩
      simp only [List.head?_cons, Option.mem_def, Option.some.injEq] at hy
      simp [← hy, hm]
  · rw [List.isChain_append] at h4 ⊢
    refine ⟨h4.1, by simp, fun x hx y hy => ?_⟩
    obtain ⟨ha, hb, hab⟩ := h4.2.2 x hx last (by simp)
    simp only [List.head?_cons, Option.mem_def, Option.some.injEq] at hy
    subst hy
    exact ⟨ha, by simp, by rwa [List.head_append_of_ne_nil hlast]⟩

/-- **How segments grow**: the last one by what comes before the next segment-starting message. -/
theorem segments_append : ∀ (ms l : List DecodeRequest) (init : List (List DecodeRequest))
    (last : List DecodeRequest), segments l = init ++ [last] →
    segments (l ++ ms) = init ++ (last ++ ms.takeWhile (!·.newSegment)) ::
      segments (ms.dropWhile (!·.newSegment)) := by
  intro ms
  induction ms with
  | nil => intro l init last h; simpa [segments] using h
  | cons m ms ih =>
    intro l init last h
    cases hm : m.newSegment with
    | true => rw [segments_append_new l ms hm, h]; simp [hm]
    | false =>
      have := ih (l ++ [m]) init (last ++ [m]) (segments_concat hm h)
      simpa [hm] using this

theorem segments_singleton (m : DecodeRequest) : segments [m] = [[m]] := rfl

/-- The data of a segment is data. -/
theorem nil_notMem_segmentData (seg : List DecodeRequest) : [] ∉ segmentData seg :=
  nil_notMem_chunks _

theorem segmentData_concat (seg : List DecodeRequest) (m : DecodeRequest) :
    segmentData (seg ++ [m]) = segmentData seg ++ chunks [m.data] := by simp [segmentData]

theorem segmentData_mono {seg seg' : List DecodeRequest} (h : seg <+: seg') :
    segmentData seg <+: segmentData seg' := by
  obtain ⟨t, rfl⟩ := h
  exact ⟨segmentData t, by simp [segmentData]⟩

/-- The options of a segment are those of its first message. -/
theorem latestOptions_congr (init : List (List DecodeRequest)) {seg seg' : List DecodeRequest}
    (h : seg.head? = seg'.head?) :
    latestOptions (init ++ [seg]) = latestOptions (init ++ [seg']) := by
  simp [latestOptions, h]

theorem latestOptions_concat (init : List (List DecodeRequest)) (m : DecodeRequest) :
    latestOptions (init ++ [[m]]) = m.options.or (latestOptions init) := by
  cases h : m.options <;> simp [latestOptions, h]

theorem updateOptions_eq (defaults : DecodeOptions) (init : List (List DecodeRequest))
    (m : DecodeRequest) : updateOptions defaults (segmentOptions defaults init) m =
      segmentOptions defaults (init ++ [[m]]) := by
  unfold updateOptions segmentOptions
  rw [latestOptions_concat]
  cases m.options <;> rfl

end MediaApi.Grpc.Segments
