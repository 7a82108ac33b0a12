import MediaApi.Grpc.Undisturbed
import MediaApi.Lib.Components

/-! # A gRPC call refines its reference

A call that runs undisturbed to its end has answered by the reference exactly if it was steady all
the time (`answers_reference`): the audio that one impatient drain leaves behind is missing for
ever. And as long as a call is steady, whatever disturbs it, its answers are a beginning of the
reference. -/

namespace MediaApi.Grpc.Refinement

open MediaApi.Lib.Components MediaApi.Lib.Transition MediaApi.Model.Audio MediaApi.Model.Pipeline
open MediaApi.Model.ProcessJob MediaApi.Model.Steps MediaApi.Model.Grpc MediaApi.Pool.Handle
open MediaApi.Pool.Script MediaApi.Pool.Forwarding MediaApi.Grpc.Segments MediaApi.Grpc.Isolation
open MediaApi.Grpc.Responses MediaApi.Grpc.Reference MediaApi.Grpc.Undisturbed

variable {ε : Type} [ToString ε] {B : DecodeOptions → Behaviour ε}
  {D : DecodeOptions → List Bytes → List (Decoded ε)} {defaults : DecodeOptions}
  {all : List (Option DecodeRequest)} {t t' : Call ε} {l : CallLabel ε} {pc : OpenPc}
  {s : Session ε}

/-! ### Undisturbed calls -/

/-- A call to which nothing has happened. -/
structure Undisturbed (B : DecodeOptions → Behaviour ε) (defaults : DecodeOptions)
    (all : List (Option DecodeRequest)) (t : Call ε) : Prop where
  isolates : Isolates B defaults all t
  tells : Tells t
  ends : Ends all t
  eof : Each (fun s => [] ∈ s.sent) t

theorem undisturbed_new : Undisturbed B defaults all (Call.new defaults all : Call ε) where
  isolates := ⟨rfl, rfl, rfl, rfl⟩
  tells := rfl
  ends := trivial
  eof := (each_idle (by rfl)).mpr fun s hs => by cases hs

theorem undisturbed_step (hown : Own l) (hu : Undisturbed B defaults all t)
    (h : t.step B defaults l = some t') : Undisturbed B defaults all t' where
  isolates := isolates_step hu.isolates h
  tells := tells_step hown hu.tells h
  ends := ends_step hown hu.isolates hu.ends h
  eof := eof_step hown hu.isolates hu.eof h

/-- **Nothing is lost in an undisturbed run exactly if it is steady.** -/
theorem lossless_iff (hD : ∀ o, Decodes (B o) (D o)) {ls : List (CallLabel ε)}
    (hown : ∀ l ∈ ls, Own l) (h : run (Call.step B defaults) (Call.new defaults all) ls = some t) :
    Undisturbed B defaults all t ∧ (Each (Full D) t ↔
      Meets (Call.step B defaults) (Steady D) (Call.new defaults all) ls) := by
  obtain ⟨hu, hiff⟩ := meets_iff (J := Undisturbed B defaults all) (F := Each (Full D))
    (fun _ _ _ hl hu hs => undisturbed_step hl hu hs)
    (fun _ _ _ hl hu hs => lossless_step hD hl hu.isolates hs) hown h undisturbed_new
  refine ⟨hu, hiff.trans (and_iff_right ?_)⟩
  exact (each_idle (by rfl)).mpr fun s hs => by cases hs

/-- The decoders that have served the first segments, and no others. -/
theorem Sealed.reach {segs : List (List DecodeRequest)} {ss : List (Session ε)}
    (h : Sealed B defaults segs ss) (hs : s ∈ ss) :
    ∃ options, Reach (Session.step B) (acquire options) s := by
  obtain ⟨i, hi⟩ := List.mem_iff_getElem?.mp hs
  obtain ⟨seg, -, hr, -⟩ := h.get.2 i s hi
  exact ⟨_, hr⟩

/-! ### The end of a call -/

/-- At the end every segment of the stream has had its decoder. -/
theorem Undisturbed.ended (hu : Undisturbed B defaults all t) (hp : t.phase = .idle .ended) :
    Sealed B defaults (segments (requests all)) t.past ∧ pcmOf t.responses = heard t.past := by
  obtain ⟨hi, ht, he, -⟩ := hu
  unfold Isolates at hi
  unfold Tells at ht
  unfold Ends at he
  rw [hp] at hi ht he
  obtain ⟨init, more, hread, -, hpast⟩ := hi
  obtain ⟨hall, hlen⟩ := he
  have hmore : more = [] := by
    have hinit := hpast.get.1
    rw [hread, List.length_append] at hlen
    exact List.length_eq_zero_iff.mp (by omega)
  rw [hmore, List.append_nil] at hread
  rw [hall, hread]
  exact ⟨hpast, ht⟩

/-- **An ended call has answered by the reference exactly if its decoders were full.** -/
theorem Undisturbed.complete_iff (hD : ∀ o, Decodes (B o) (D o))
    (hu : Undisturbed B defaults all t) (hp : t.phase = .idle .ended) :
    pcmOf t.responses = reference D defaults (segments (requests all)) ↔ Each (Full D) t := by
  obtain ⟨hpast, hrs⟩ := hu.ended hp
  rw [hrs, reference_eq hpast ((each_idle hp).mp hu.eof), each_idle hp]
  refine flatten_inj_of_prefix fun s hs => ?_
  obtain ⟨options, hr⟩ := Sealed.reach hpast hs
  exact heard_begins hD hr

/-! ### A beginning of the reference -/

omit [ToString ε] in
/-- The segments before the one at hand are those of the stream. -/
theorem segments_begin {init : List (List DecodeRequest)} {last : List DecodeRequest}
    (hread : segments t.read = init ++ [last])
    (hall : requests all = t.read ++ requests t.messages) :
    init <+: segments (requests all) := by
  rw [hall, segments_append _ _ init last hread]
  exact List.prefix_append _ _

/-- A drained decoder has served a whole segment of the stream. -/
theorem served_begin (hu : Undisturbed B defaults all t) (hp : t.phase = .session pc s)
    (hd : Drained pc) : ∃ segs, Sealed B defaults segs (t.past ++ [s]) ∧
      segs <+: segments (requests all) := by
  obtain ⟨hi, -, he, -⟩ := hu
  unfold Isolates at hi
  unfold Ends at he
  rw [hp] at hi he
  obtain ⟨init, last, seg, ho⟩ := hi
  refine ⟨init ++ [last], ho.sealed, ?_⟩
  have hread := ho.read
  have hlast : ¬ Reading pc → nextSegment pc = [] →
      init ++ [last] <+: segments (requests all) := by
    intro hr hnext
    rw [he hr, hread, hnext]
  have hmore : ∀ msg, Reading pc → nextSegment pc = [[msg]] →
      init ++ [last] <+: segments (requests all) := by
    intro msg hr hnext
    have hnew : segments t.read = (init ++ [last]) ++ [[msg]] := by
      rw [hread, hnext]
      simp
    exact segments_begin hnew (ho.stream hr)
  rcases pc with _ | ⟨d, _ | msg⟩ | data | chunks | ⟨chunks, _ | _⟩ | ⟨d, ⟨chunks, msg⟩ | _ | _⟩
  · exact absurd hd id
  · exact hlast id rfl
  · exact hmore msg trivial rfl
  · exact absurd hd id
  · exact absurd hd id
  · exact absurd hd id
  · exact hlast id rfl
  · exact hmore msg trivial rfl
  · exact absurd hd id
  · exact hlast id rfl

/-- What was received from an undrained decoder is a beginning of what its segment gives. -/
theorem undrained_begins (hD : ∀ o, Decodes (B o) (D o)) (hu : Undisturbed B defaults all t)
    (hp : t.phase = .session pc s) (hd : ¬ Drained pc) : ∃ init seg,
      Sealed B defaults init t.past ∧ init ++ [seg] <+: segments (requests all) ∧
      payloads s.received <+: answer D defaults (init ++ [seg]) := by
  have hdrop := not_dropped hu.isolates hp
  have hi := hu.isolates
  unfold Isolates at hi
  rw [hp] at hi
  obtain ⟨init, last, seg, ho⟩ := hi
  have hnone : pc.dropping = none := by
    rcases pc with _ | _ | _ | _ | _ | ⟨d, _ | _ | _⟩
    · rfl
    · rfl
    · rfl
    · rfl
    · rfl
    · exact absurd trivial hd
    · exact absurd rfl (hdrop d)
    · exact absurd trivial hd
  have hscript : Scripted B t.currentOptions (segmentData seg) s := by
    have howns := ho.owns
    rw [hnone] at howns
    exact howns
  refine ⟨init, seg, ho.past, ?_, ?_⟩
  · obtain ⟨rest, hwhole⟩ := ho.whole
    rw [hwhole]
    exact ⟨rest, by simp⟩
  · have hbegins := (oks_mono (hscript.received_begins (hD _)
      (nil_notMem_segmentData seg))).map AudioData.data
    rw [oks_map_mapErr, ho.options_seg] at hbegins
    unfold answer
    rw [List.getLast?_concat]
    exact hbegins

/-- **An undisturbed call that has lost nothing** has answered a beginning of the reference. -/
theorem Undisturbed.begins (hD : ∀ o, Decodes (B o) (D o)) (hu : Undisturbed B defaults all t)
    (hfull : Each (Full D) t) :
    pcmOf t.responses <+: reference D defaults (segments (requests all)) := by
  have hpast : ∀ {segs}, Sealed B defaults segs t.past → segs <+: segments (requests all) →
      heard t.past <+: reference D defaults (segments (requests all)) := by
    intro segs hs hsegs
    rw [heard_eq hs hu.eof.past hfull.past]
    exact reference_mono D defaults hsegs
  have ht := hu.tells
  have hi := hu.isolates
  have he := hu.ends
  unfold Tells at ht
  unfold Isolates at hi
  unfold Ends at he
  rcases hp : t.phase with ⟨_ | ⟨chunks, msg⟩ | msg | _ | _⟩ | ⟨pc, s⟩
  · rw [hp] at ht hi
    rw [ht, hi.2.1]
    exact List.nil_prefix
  · rw [hp] at ht hi
    obtain ⟨init, hread, hs, -, hall⟩ := hi
    refine (List.prefix_append _ chunks).trans ?_
    rw [ht]
    exact hpast hs (segments_begin hread hall)
  · rw [hp] at ht hi
    obtain ⟨init, hread, hs, -, hall⟩ := hi
    rw [ht]
    exact hpast hs (segments_begin hread hall)
  · rw [hp] at he
    exact absurd he id
  · rw [(hu.complete_iff hD hp).mpr hfull]
  · rw [hp] at ht
    refine (List.prefix_append _ (pending pc)).trans ?_
    rw [ht]
    by_cases hd : Drained pc
    · -- the decoder is done with
      obtain ⟨segs, hs, hsegs⟩ := served_begin hu hp hd
      have hall : ∀ x ∈ t.past ++ [s], [] ∈ x.sent ∧ Full D x := by
        intro x hx
        rcases List.mem_append.mp hx with hx | hx
        · exact ⟨hu.eof.past x hx, hfull.past x hx⟩
        · rw [List.mem_singleton.mp hx]
          exact ⟨hu.eof.current pc s hp hd, hfull.current pc s hp hd⟩
      rw [← heard_concat, heard_eq hs (fun x hx => (hall x hx).1) fun x hx => (hall x hx).2]
      exact reference_mono D defaults hsegs
    · obtain ⟨init, seg, hs, hsegs, hrec⟩ := undrained_begins hD hu hp hd
      rw [heard_eq hs hu.eof.past hfull.past]
      refine List.IsPrefix.trans ?_ (reference_mono D defaults hsegs)
      rw [reference_concat]
      exact (List.prefix_append_right_inj _).mpr hrec

/-! ### Disturbed calls -/

/-- The call answers no more audio. -/
def Stopped (t : Call ε) : Prop :=
  t.phase = .idle .ended ∨ t.phase = .idle .status ∨ ∃ d s, t.phase = .session (.drop d .ended) s

theorem stopped_step (hst : Stopped t) (h : t.step B defaults l = some t') :
    Stopped t' ∧ pcmOf t'.responses = pcmOf t.responses := by
  unfold Stopped at hst
  cases call_step_cases h with
  | message msg rest hp | endOfStream hp | replied msg hp | reply pcm chunks msg hp
  | acquire msg hp | acquireErr msg hp => simp [hp] at hst
  | status hp => exact ⟨Or.inl rfl, by simp [pcmOf]⟩
  | session hp ho =>
    simp only [hp, reduceCtorEq, Phase.session.injEq, false_or] at hst
    obtain ⟨d, s, rfl, rfl⟩ := hst
    generalize t.messages = ms₀ at ho
    cases ho with
    | drop _ d' after _ _ hpc hd =>
      cases hpc
      exact ⟨Or.inr (Or.inr ⟨d', _, rfl⟩), by simp [pcmOf]⟩
    | _ => contradiction
  | dropped after s hp =>
    simp only [hp, reduceCtorEq, Phase.session.injEq, false_or] at hst
    obtain ⟨d, s, he, rfl⟩ := hst
    cases he
    exact ⟨Or.inl rfl, rfl⟩
  | leaveIdle _ pc hp => exact ⟨Or.inl rfl, rfl⟩
  | leave _ pc s hp hpc => exact ⟨Or.inr (Or.inr ⟨.send, s, rfl⟩), rfl⟩
  | inner i pc s s' hp hi =>
    simp only [hp, reduceCtorEq, Phase.session.injEq, false_or] at hst
    obtain ⟨d, s, rfl, rfl⟩ := hst
    exact ⟨Or.inr (Or.inr ⟨d, s', rfl⟩), rfl⟩

/-- What disturbs a call stops it. -/
theorem disturbed_step (hown : ¬ Own l) (h : t.step B defaults l = some t') :
    Stopped t' ∧ pcmOf t'.responses = pcmOf t.responses := by
  cases call_step_cases h with
  | leaveIdle => exact ⟨Or.inl rfl, rfl⟩
  | leave _ pc s => exact ⟨Or.inr (Or.inr ⟨.send, s, rfl⟩), rfl⟩
  | acquireErr => exact ⟨Or.inr (Or.inl rfl), rfl⟩
  | inner i => exact absurd (Or.inr ⟨i, rfl⟩) hown
  | _ => exact absurd (Or.inl rfl) hown

/-- **A call has answered what it had before it was disturbed.** -/
theorem undisturbed_part : ∀ {ls : List (CallLabel ε)} {t : Call ε},
    run (Call.step B defaults) (Call.new defaults all) ls = some t →
    ∃ ls₀ t₀, ls₀ <+: ls ∧ (∀ l ∈ ls₀, Own l) ∧
      run (Call.step B defaults) (Call.new defaults all) ls₀ = some t₀ ∧
      pcmOf t.responses = pcmOf t₀.responses ∧ (ls₀ = ls ∨ Stopped t) := by
  intro ls
  induction ls using List.reverseRecOn with
  | nil => exact fun h => ⟨[], _, List.prefix_refl _, by simp, h, rfl, Or.inl rfl⟩
  | append_singleton ls l ih =>
    intro t h
    rw [run_append] at h
    obtain ⟨m, hm, h⟩ := Option.bind_eq_some_iff.mp h
    rw [run_cons] at h
    obtain ⟨t', hs, ht⟩ := Option.bind_eq_some_iff.mp h
    cases ht
    obtain ⟨ls₀, t₀, hpre, hown, hrun, hpcm, hpart⟩ := ih hm
    have hlonger := hpre.trans (List.prefix_append ls [l])
    rcases hpart with rfl | hst
    · rw [hm] at hrun
      cases hrun
      by_cases hl : Own l
      · refine ⟨_, t, List.prefix_refl _, ?_, run_concat hm hs, rfl, Or.inl rfl⟩
        intro l' hl'
        rcases List.mem_append.mp hl' with hl' | hl'
        · exact hown l' hl'
        · rw [List.mem_singleton.mp hl']
          exact hl
      · obtain ⟨hst, hsame⟩ := disturbed_step hl hs
        exact ⟨_, m, hlonger, hown, hm, hsame, Or.inr hst⟩
    · obtain ⟨hst, hsame⟩ := stopped_step hst hs
      exact ⟨ls₀, t₀, hlonger, hown, hrun, hsame.trans hpcm, Or.inr hst⟩

/-! ### The refinement -/

/-- **A gRPC call refines its reference**: for every stream of messages, every pipeline whose
results depend only on options and chunks, and every schedule. As long as no drain gives up while
audio is still to come, the answers are a beginning of the reference, whatever disturbs the call.
A call that has come undisturbed to its end has answered the reference exactly if no drain did. -/
theorem answers_reference (B : DecodeOptions → Behaviour ε)
    (D : DecodeOptions → List Bytes → List (Decoded ε)) (defaults : DecodeOptions)
    (hD : ∀ o, Decodes (B o) (D o)) (all : List (Option DecodeRequest)) (ls : List (CallLabel ε))
    (t : Call ε) (h : run (Call.step B defaults) (Call.new defaults all) ls = some t) :
    (Meets (Call.step B defaults) (Steady D) (Call.new defaults all) ls →
        pcmOf t.responses <+: reference D defaults (segments (requests all))) ∧
      ((∀ l ∈ ls, Own l) → t.phase = .idle .ended →
        (pcmOf t.responses = reference D defaults (segments (requests all)) ↔
          Meets (Call.step B defaults) (Steady D) (Call.new defaults all) ls)) := by
  constructor
  · intro hsteady
    obtain ⟨ls₀, t₀, ⟨more, hls⟩, hown, hrun, hpcm, -⟩ := undisturbed_part h
    obtain ⟨hu, hiff⟩ := lossless_iff hD hown hrun
    rw [← hls] at hsteady
    rw [hpcm]
    exact hu.begins hD (hiff.mpr hsteady.of_append)
  · intro hown hp
    obtain ⟨hu, hiff⟩ := lossless_iff hD hown h
    exact (hu.complete_iff hD hp).trans hiff

/-- A call of one segment, whose drain waits for the worker. -/
def oneSegment : List (CallLabel String) :=
  List.replicate 7 .task ++
    echoRun.filterMap (fun | .inner i => some (.inner i) | .client _ => none) ++
    List.replicate 9 .task

theorem answers_reference_oneSegment : ∃ t : Call String,
    run (Call.step echo {}) (Call.new {} [some ⟨[7], none, false⟩]) oneSegment = some t ∧
      Meets (Call.step echo {}) (Steady fun _ => echoResults)
        (Call.new {} [some ⟨[7], none, false⟩]) oneSegment := by
  have hrun : (run (Call.step echo {}) (Call.new {} [some ⟨[7], none, false⟩]) oneSegment).map
      (fun t => (pcmOf t.responses, decide (t.phase = .idle .ended))) = some ([[7]], true) := by
    decide
  obtain ⟨t, ht, he⟩ := Option.map_eq_some_iff.mp hrun
  obtain ⟨hpcm, hp⟩ := Prod.mk.inj he
  refine ⟨t, ht, ((answers_reference echo (fun _ => echoResults) {} echo_decodes _ oneSegment t
    ht).2 ?_ (of_decide_eq_true hp)).mp ?_⟩
  · intro l hl
    simp only [oneSegment, List.mem_append, List.mem_replicate, List.mem_filterMap] at hl
    rcases hl with (⟨-, rfl⟩ | ⟨l', -, hl⟩) | ⟨-, rfl⟩
    · exact Or.inl rfl
    · rcases l' with i | a
      · cases hl
        exact Or.inr ⟨i, rfl⟩
      · cases hl
    · exact Or.inl rfl
  · rw [hpcm]
    decide

end MediaApi.Grpc.Refinement
