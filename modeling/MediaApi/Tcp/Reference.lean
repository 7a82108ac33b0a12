import MediaApi.Model.Tcp

/-! # What a connection is for

The abstract TCP server: a pure function of the client's frames. `segment` groups the frames into
sessions, `render` says what a session's results look like on the wire, and `reference` is the whole
answer of a connection. Nothing here knows of channels, workers or schedules. -/

namespace MediaApi.Tcp.Reference

open MediaApi.Model.Audio MediaApi.Model.Tcp

variable {ε : Type}

/-- The sessions of the frames that follow: outside of a session, or inside one with the payloads
so far. -/
def segmentFrom : Option (List Bytes) → List Frame → List (List Bytes)
  | none, [] => []
  | some ps, [] => [ps]
  | none, f :: fs =>
    if f.tag = .dcod then
      if f.data = [] then [] :: segmentFrom none fs else segmentFrom (some [f.data]) fs
    else segmentFrom none fs
  | some ps, f :: fs =>
    if f.tag = .dcod then
      if f.data = [] then ps :: segmentFrom none fs else segmentFrom (some (ps ++ [f.data])) fs
    else if f.tag = .done then ps :: segmentFrom none fs
    else segmentFrom (some ps) fs

/-- The payloads of each session of a connection. -/
def segment (frames : List Frame) : List (List Bytes) := segmentFrom none frames

example : segment [⟨.done, []⟩, ⟨.dcod, [1]⟩, ⟨.meta, [9]⟩, ⟨.dcod, [2]⟩, ⟨.done, []⟩, ⟨.dcod, []⟩,
    ⟨.dcod, [3]⟩] = [[[1], [2]], [], [[3]]] := by decide

/-- META of the first audio, if there is one. -/
def metaOf (as : List AudioData) : List Frame := (as.head?.map metaFrame).toList

/-- The audio of a session on the wire. -/
def audio (as : List AudioData) : List Frame := metaOf as ++ as.map pcmsFrame

/-- The results of a session on the wire. -/
def render (outs : List (Decoded ε)) : List Frame := audio (oks outs) ++ [doneFrame]

/-- The sessions `pss` on the wire, for the decoder `D`. -/
def renders (D : List Bytes → List (Decoded ε)) (pss : List (List Bytes)) : List Frame :=
  (pss.map fun ps => render (D ps)).flatten

/-- All that a server with the decoder `D` answers to these frames. -/
def reference (D : List Bytes → List (Decoded ε)) (frames : List Frame) : List Frame :=
  renders D (segment frames)

/-! ### Sessions -/

/-- Inside a session that session comes first, and its payloads so far are its first ones. -/
theorem segmentFrom_some : ∀ (fs : List Frame) (ps : List Bytes),
    ∃ qs rest, segmentFrom (some ps) fs = qs :: rest ∧ ps <+: qs := by
  intro fs
  induction fs with
  | nil => intro ps; exact ⟨ps, [], rfl, List.prefix_refl _⟩
  | cons f fs ih =>
    intro ps
    simp only [segmentFrom]
    split_ifs
    · exact ⟨ps, _, rfl, List.prefix_refl _⟩
    · obtain ⟨qs, rest, h, hp⟩ := ih (ps ++ [f.data])
      exact ⟨qs, rest, h, (List.prefix_append _ _).trans hp⟩
    · exact ⟨ps, _, rfl, List.prefix_refl _⟩
    · exact ih ps

theorem prefix_of_segmentFrom {fs : List Frame} {ps qs : List Bytes} {rest : List (List Bytes)}
    (h : segmentFrom (some ps) fs = qs :: rest) : ps <+: qs := by
  obtain ⟨qs', rest', h', hp⟩ := segmentFrom_some fs ps
  rw [h] at h'
  cases h'; exact hp

/-- The payloads of a session are not empty. -/
theorem nil_notMem_segmentFrom : ∀ (fs : List Frame) (cur : Option (List Bytes)),
    (∀ ps, cur = some ps → [] ∉ ps) → ∀ qs ∈ segmentFrom cur fs, [] ∉ qs := by
  intro fs
  induction fs with
  | nil =>
    intro cur hcur qs hqs
    cases cur with
    | none => cases hqs
    | some ps => rw [List.mem_singleton.mp hqs]; exact hcur ps rfl
  | cons f fs ih =>
    intro cur hcur qs hqs
    cases cur with
    | none =>
      simp only [segmentFrom] at hqs
      split_ifs at hqs with htag hdata
      · rcases List.mem_cons.mp hqs with rfl | hqs
        · exact List.not_mem_nil
        · exact ih none (fun ps h => by cases h) qs hqs
      · refine ih (some [f.data]) (fun ps h => ?_) qs hqs
        cases h
        exact fun hm => hdata (List.mem_singleton.mp hm).symm
      · exact ih none (fun ps h => by cases h) qs hqs
    | some ps =>
      have hps := hcur ps rfl
      simp only [segmentFrom] at hqs
      split_ifs at hqs with htag hdata
      · rcases List.mem_cons.mp hqs with rfl | hqs
        · exact hps
        · exact ih none (fun ps h => by cases h) qs hqs
      · refine ih (some (ps ++ [f.data])) (fun qs h => ?_) qs hqs
        cases h
        simp only [List.mem_append, List.mem_singleton, not_or]
        exact ⟨hps, fun e => hdata e.symm⟩
      · rcases List.mem_cons.mp hqs with rfl | hqs
        · exact hps
        · exact ih none (fun ps h => by cases h) qs hqs
      · exact ih (some ps) (fun qs h => by cases h; exact hps) qs hqs

theorem nil_notMem_segment {frames : List Frame} {ps : List Bytes} (h : ps ∈ segment frames) :
    [] ∉ ps :=
  nil_notMem_segmentFrom frames none (fun _ h => by cases h) ps h

theorem audio_concat (as : List AudioData) (a : AudioData) :
    metaOf (as ++ [a]) ++ as.map pcmsFrame ++ [pcmsFrame a] = audio (as ++ [a]) := by
  simp [audio]

theorem metaOf_concat {as : List AudioData} (h : as ≠ []) (a : AudioData) :
    metaOf (as ++ [a]) = metaOf as := by
  cases as with
  | nil => exact absurd rfl h
  | cons b as => rfl

end MediaApi.Tcp.Reference
