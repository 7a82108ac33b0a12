import MediaApi.Model.SourceTrack
import MediaApi.Pool.Forwarding

/-! # What a source track is decoded to

`decode_source_track` and the thread of its pipeline run side by side, but what comes out depends
only on the file: on the results the pipeline has for it, the first of which that is an error or not
of 16 bits decides (`sourced`). -/

namespace MediaApi.Benchmark.Source

open MediaApi.Lib.Transition MediaApi.Model.Audio MediaApi.Model.Pipeline
  MediaApi.Model.ProcessJob MediaApi.Model.SourceTrack MediaApi.Pool.Forwarding

variable {ε : Type} {B : Behaviour ε} {D : List Bytes → List (Decoded ε)} {bytes : Bytes}
  {s s' : Source ε} {l : SourceLabel ε}

/-- What a list of results is decoded to, after some output. -/
def verdict : Bytes → List (Decoded ε) → Except (SourceError ε) Bytes
  | output, [] => if output = [] then .error .noAudio else .ok output
  | output, .ok audioData :: rs =>
    if audioData.bitsPerSample ≠ 16 then .error (.bitDepth audioData.bitsPerSample)
    else verdict (output ++ audioData.data) rs
  | _, .error error :: _ => .error (.decode error)

theorem verdict_ok (output : Bytes) (a : AudioData) (rs : List (Decoded ε)) :
    verdict output (.ok a :: rs) =
      if a.bitsPerSample ≠ 16 then .error (.bitDepth a.bitsPerSample)
      else verdict (output ++ a.data) rs := rfl

/-- The results of a file: the pipeline emits a beginning of them, and all of them before it
ends. -/
structure Emits (D : List Bytes → List (Decoded ε)) (bytes : Bytes) (p : Pipe ε) : Prop where
  begins : p.emitted <+: D (chunks [bytes])
  all : p.finished = true → p.emitted = D (chunks [bytes])

/-- What `decode_source_track` has handed to the pipeline. -/
def Sent (bytes : Bytes) (s : Source ε) : Prop :=
  match s.pc with
  | .send => s.pipe.accepted = []
  | .sendEof => s.pipe.accepted = [bytes]
  | .recv => s.pipe.accepted = [bytes, []]
  | .done _ => s.pipe.accepted = [] ∨ s.pipe.accepted = [bytes] ∨ s.pipe.accepted = [bytes, []]

/-- What it has made of the results it has received. -/
def Made (D : List Bytes → List (Decoded ε)) (bytes : Bytes) (s : Source ε) : Prop :=
  match s.pc with
  | .send | .sendEof => s.pipe.given = [] ∧ s.output = []
  | .recv => ∀ rs, verdict [] (s.pipe.given ++ rs) = verdict s.output rs
  | .done result => result = .error .send ∨ result = .error .sendEof ∨
      result = verdict [] (D (chunks [bytes]))

theorem sent_cases (h : Sent bytes s) :
    s.pipe.accepted = [] ∨ s.pipe.accepted = [bytes] ∨ s.pipe.accepted = [bytes, []] := by
  unfold Sent at h
  rcases hpc : s.pc with _ | _ | _ | result
  · rw [hpc] at h
    exact Or.inl h
  · rw [hpc] at h
    exact Or.inr (Or.inl h)
  · rw [hpc] at h
    exact Or.inr (Or.inr h)
  · rw [hpc] at h
    exact h

/-- What is accepted says what the file is, once an EOF is in it. -/
theorem Sent.file (h : Sent bytes s) : chunks s.pipe.accepted <+: chunks [bytes] ∧
    ([] ∈ s.pipe.accepted → chunks [bytes] = chunks s.pipe.accepted) := by
  rcases sent_cases h with hacc | hacc | hacc
  · rw [hacc]
    exact ⟨List.nil_prefix, fun hmem => absurd hmem List.not_mem_nil⟩
  · rw [hacc]
    exact ⟨List.prefix_refl _, fun _ => rfl⟩
  · have hchunks : chunks [bytes, []] = chunks [bytes] := by
      rw [← List.singleton_append, chunks_append, chunks_eof, List.append_nil]
    rw [hacc, hchunks]
    exact ⟨List.prefix_refl _, fun _ => rfl⟩

/-! ### What a step can do -/

/-- The steps of `decode_source_track` and of its pipeline. -/
inductive SourceStep (B : Behaviour ε) (bytes : Bytes) (s : Source ε) :
    SourceLabel ε → Source ε → Prop
  | send (hpc : s.pc = .send) :
      SourceStep B bytes s (.answer true) { s with pipe := s.pipe.push bytes, pc := .sendEof }
  | sendErr (hpc : s.pc = .send) :
      SourceStep B bytes s (.answer false) { s with pc := .done (.error .send) }
  | sendEof (hpc : s.pc = .sendEof) :
      SourceStep B bytes s (.answer true) { s with pipe := s.pipe.push [], pc := .recv }
  | sendEofErr (hpc : s.pc = .sendEof) :
      SourceStep B bytes s (.answer false) { s with pc := .done (.error .sendEof) }
  /-- A result that goes into the output. -/
  | audio {r : Decoded ε} {pipe : Pipe ε} {output : Bytes} (hpc : s.pc = .recv)
      (hrecv : pipeRecv s.pipe = some (r, pipe))
      (hr : ∀ rs, verdict s.output (r :: rs) = verdict output rs) :
      SourceStep B bytes s .recv { s with pipe := pipe, output := output }
  /-- A result that decides. -/
  | decided {r : Decoded ε} {pipe : Pipe ε} {result : Except (SourceError ε) Bytes}
      (hpc : s.pc = .recv) (hrecv : pipeRecv s.pipe = some (r, pipe))
      (hr : ∀ rs, verdict s.output (r :: rs) = result) :
      SourceStep B bytes s .recv { s with pipe := pipe, pc := .done result }
  | finished (hpc : s.pc = .recv) (hrecv : pipeRecv s.pipe = none)
      (hfin : s.pipe.finished = true) :
      SourceStep B bytes s .recv { s with pc := .done (verdict s.output []) }
  | pipe {a : PipeAct ε} {pipe : Pipe ε} (ha : s.pipe.step B a = some pipe) :
      SourceStep B bytes s (.pipe a) { s with pipe := pipe }

theorem answer_cases {ok : Bool} (h : s.answer B bytes ok = some s') :
    SourceStep B bytes s (.answer ok) s' := by
  unfold Source.answer at h
  rcases hpc : s.pc with _ | _ | _ | result
  · rcases ok with _ | _
    · simp only [hpc, Bool.false_eq_true, if_false, Option.ite_none_right_eq_some,
        Option.some.injEq] at h
      obtain ⟨-, rfl⟩ := h
      exact .sendErr hpc
    · simp only [hpc, if_true, Option.ite_none_right_eq_some,
        Option.some.injEq] at h
      obtain ⟨-, rfl⟩ := h
      exact .send hpc
  · rcases ok with _ | _
    · simp only [hpc, Bool.false_eq_true, if_false, Option.ite_none_right_eq_some,
        Option.some.injEq] at h
      obtain ⟨-, rfl⟩ := h
      exact .sendEofErr hpc
    · simp only [hpc, if_true, Option.ite_none_right_eq_some,
        Option.some.injEq] at h
      obtain ⟨-, rfl⟩ := h
      exact .sendEof hpc
  · simp [hpc] at h
  · simp [hpc] at h

theorem recv_cases (h : s.recv = some s') : SourceStep B bytes s .recv s' := by
  unfold Source.recv at h
  rcases hpc : s.pc with _ | _ | _ | result
  · simp [hpc] at h
  · simp [hpc] at h
  · rcases hrecv : pipeRecv s.pipe with _ | ⟨error | a, pipe⟩
    · simp only [hpc, hrecv, Option.ite_none_right_eq_some,
        Option.some.injEq] at h
      obtain ⟨hfin, rfl⟩ := h
      exact .finished hpc hrecv hfin
    · simp only [hpc, hrecv, Option.some.injEq] at h
      subst h
      exact .decided hpc hrecv fun rs => rfl
    · simp only [hpc, hrecv] at h
      by_cases hbits : a.bitsPerSample ≠ 16
      · rw [if_pos hbits] at h
        cases h
        exact .decided hpc hrecv fun rs => by rw [verdict_ok, if_pos hbits]
      · rw [if_neg hbits, ← hpc] at h
        cases h
        exact .audio hpc hrecv fun rs => by rw [verdict_ok, if_neg hbits]
  · simp [hpc] at h

theorem source_step_cases (h : s.step B bytes l = some s') : SourceStep B bytes s l s' := by
  rcases l with ok | _ | a
  · exact answer_cases h
  · exact recv_cases h
  · obtain ⟨pipe, hpipe, rfl⟩ := Option.map_eq_some_iff.mp h
    exact .pipe hpipe

/-! ### The pipeline -/

/-- A step of the thread. -/
theorem emits_pipe (hD : Decodes B D) {p p' : Pipe ε} {a : PipeAct ε} (h : p.step B a = some p')
    (hfile : chunks p.accepted <+: chunks [bytes] ∧
      ([] ∈ p.accepted → chunks [bytes] = chunks p.accepted)) (he : Emits D bytes p) :
    Emits D bytes p' := by
  obtain ⟨hbegins, hall⟩ := he
  obtain ⟨hrunning, -, ⟨-, -, hem, -, hfin, -⟩ | ⟨r, -, hr, rfl⟩ | ⟨-, hf, rfl⟩⟩ :=
    pipe_step_cases h
  · refine ⟨by rwa [hem], fun hfin' => ?_⟩
    rw [hfin] at hfin'
    cases hfin'
  · refine ⟨?_, fun hfin => ?_⟩
    · have hlonger := hD.emits p r hr (chunks [bytes]) hfile.1 hfile.2
      rwa [Pipe.emitted, List.append_assoc] at hlonger
    · have hfin' : p.finished = true := hfin
      rw [hrunning] at hfin'
      cases hfin'
  · obtain ⟨heof, hem⟩ := hD.finishes p hf
    have hdone : p.emitted = D (chunks [bytes]) := by rw [hem, hfile.2 heof]
    exact ⟨hbegins, fun _ => hdone⟩

/-- What the thread does not change. -/
theorem pipe_step_given {p p' : Pipe ε} {a : PipeAct ε} (h : p.step B a = some p') :
    p'.accepted = p.accepted ∧ p'.given = p.given := by
  obtain ⟨-, hacc, ⟨-, -, hem, hout, -⟩ | ⟨r, -, -, rfl⟩ | ⟨-, -, rfl⟩⟩ := pipe_step_cases h
  · refine ⟨hacc, ?_⟩
    rw [Pipe.emitted, Pipe.emitted, hout] at hem
    exact List.append_cancel_right hem
  · exact ⟨hacc, rfl⟩
  · exact ⟨hacc, rfl⟩

/-- What is received was emitted. -/
theorem pipeRecv_emits {p p' : Pipe ε} {r : Decoded ε} (h : pipeRecv p = some (r, p')) :
    p'.accepted = p.accepted ∧ p'.emitted = p.emitted ∧ p'.finished = p.finished ∧
      p'.given = p.given ++ [r] := by
  unfold pipeRecv at h
  rcases hout : p.outbuf with _ | ⟨r', rest⟩
  · rw [hout] at h
    cases h
  · rw [hout] at h
    cases h
    simp [Pipe.accepted, Pipe.emitted, hout]

theorem outbuf_of_pipeRecv {p : Pipe ε} (h : pipeRecv p = none) : p.outbuf = [] := by
  unfold pipeRecv at h
  rcases hout : p.outbuf with _ | ⟨r, rest⟩
  · rfl
  · rw [hout] at h
    cases h

/-! ### One step -/

/-- What a step keeps. -/
structure Kept (D : List Bytes → List (Decoded ε)) (bytes : Bytes) (s : Source ε) : Prop where
  sent : Sent bytes s
  emits : Emits D bytes s.pipe
  made : Made D bytes s

/-- What is received decides with what is still to come. -/
theorem Kept.received (hk : Kept D bytes s) (hpc : s.pc = .recv) {r : Decoded ε} {p : Pipe ε}
    (h : pipeRecv s.pipe = some (r, p)) : p.accepted = [bytes, []] ∧ Emits D bytes p ∧
      (∀ rs, verdict [] (p.given ++ rs) = verdict s.output (r :: rs)) ∧
      ∃ rs, verdict [] (D (chunks [bytes])) = verdict s.output (r :: rs) := by
  obtain ⟨hsent, ⟨hbegins, hall⟩, hmade⟩ := hk
  unfold Sent at hsent
  unfold Made at hmade
  rw [hpc] at hsent hmade
  obtain ⟨hacc, hem, hfin, hgiven⟩ := pipeRecv_emits h
  rw [← hem] at hbegins hall
  have hnext : ∀ rs, verdict [] (p.given ++ rs) = verdict s.output (r :: rs) := by
    intro rs
    rw [hgiven, List.append_assoc, List.singleton_append, hmade]
  obtain ⟨rest, hrest⟩ := id hbegins
  refine ⟨hacc.trans hsent, ⟨hbegins, by rwa [hfin]⟩, hnext, p.outbuf ++ rest, ?_⟩
  rw [← hrest, Pipe.emitted, List.append_assoc, hnext]

theorem kept_step (hD : Decodes B D) (hk : Kept D bytes s) (h : s.step B bytes l = some s') :
    Kept D bytes s' := by
  obtain ⟨hsent, hemits, hmade⟩ := id hk
  unfold Sent at hsent
  unfold Made at hmade
  cases source_step_cases h with
  | send hpc =>
    rw [hpc] at hsent hmade
    have hacc : (s.pipe.push bytes).accepted = [bytes] := by
      rw [push_accepted, hsent, List.nil_append]
    exact ⟨hacc, ⟨hemits.begins, hemits.all⟩, hmade⟩
  | sendErr hpc =>
    rw [hpc] at hsent
    exact ⟨Or.inl hsent, hemits, Or.inl rfl⟩
  | sendEof hpc =>
    rw [hpc] at hsent hmade
    have hacc : (s.pipe.push []).accepted = [bytes, []] := by
      rw [push_accepted, hsent, List.singleton_append]
    refine ⟨hacc, ⟨hemits.begins, hemits.all⟩, fun rs => ?_⟩
    have hgiven : (s.pipe.push []).given = [] := hmade.1
    rw [hgiven, hmade.2, List.nil_append]
  | sendEofErr hpc =>
    rw [hpc] at hsent
    exact ⟨Or.inr (Or.inl hsent), hemits, Or.inr (Or.inl rfl)⟩
  | audio hpc hrecv hr =>
    obtain ⟨hacc, hemits', hnext, -⟩ := hk.received hpc hrecv
    refine ⟨?_, hemits', ?_⟩
    · unfold Sent
      simp only [hpc]
      exact hacc
    · unfold Made
      simp only [hpc]
      exact fun rs => (hnext rs).trans (hr rs)
  | decided hpc hrecv hr =>
    obtain ⟨hacc, hemits', -, rs, hdecides⟩ := hk.received hpc hrecv
    rw [hr rs] at hdecides
    exact ⟨Or.inr (Or.inr hacc), hemits', Or.inr (Or.inr hdecides.symm)⟩
  | finished hpc hrecv hfin =>
    rw [hpc] at hsent hmade
    have hgiven : s.pipe.given = D (chunks [bytes]) := by
      rw [← hemits.all hfin, Pipe.emitted, outbuf_of_pipeRecv hrecv, List.append_nil]
    have hverdict := hmade []
    rw [List.append_nil, hgiven] at hverdict
    exact ⟨Or.inr (Or.inr hsent), hemits, Or.inr (Or.inr hverdict.symm)⟩
  | pipe ha =>
    obtain ⟨hacc, hgiven⟩ := pipe_step_given ha
    refine ⟨?_, emits_pipe hD ha hk.sent.file hemits, ?_⟩
    · unfold Sent
      rwa [hacc]
    · unfold Made
      rwa [hgiven]

theorem kept_new : Kept D bytes ({} : Source ε) := by
  refine ⟨rfl, ⟨List.nil_prefix, fun h => ?_⟩, rfl, rfl⟩
  cases h

/-! ### Refusals -/

/-- A `send` was refused. -/
def Refused (s : Source ε) : Prop :=
  s.pc = .done (.error .send) ∨ s.pc = .done (.error .sendEof)

/-- The step is no refusal. -/
def Accepts (_ : Source ε) (l : SourceLabel ε) : Prop := l ≠ .answer false

theorem verdict_not_refused (rs : List (Decoded ε)) : ∀ output,
    verdict output rs ≠ .error .send ∧ verdict output rs ≠ .error .sendEof := by
  induction rs with
  | nil =>
    intro output
    unfold verdict
    split_ifs
    · exact ⟨by simp, by simp⟩
    · exact ⟨by simp, by simp⟩
  | cons r rs ih =>
    intro output
    rcases r with error | a
    · exact ⟨by simp [verdict], by simp [verdict]⟩
    · rw [verdict_ok]
      split_ifs
      · exact ⟨by simp, by simp⟩
      · exact ih _

/-- A refusal is remembered, and nothing else is taken for one. -/
theorem refused_step (h : s.step B bytes l = some s') :
    ¬ Refused s' ↔ ¬ Refused s ∧ Accepts s l := by
  unfold Refused Accepts
  cases source_step_cases h with
  | send hpc | sendErr hpc | sendEof hpc | sendEofErr hpc | audio hpc _ _ => simp [hpc]
  | @decided r pipe result hpc hrecv hr =>
    have hne := verdict_not_refused [r] s.output
    rw [hr []] at hne
    simp [hpc, hne]
  | finished hpc hrecv hfin => simp [hpc, verdict_not_refused]
  | pipe ha => simp

/-! ### A whole decoding -/

/-- **What a source track is decoded to**, for every file, every pipeline whose results depend only
on the options and the chunks, and every order of steps: when the pipeline has accepted the file and
the EOF, its results for the file, and nothing else, decide; when it has refused one of the two,
that is the error. -/
theorem sourced (B : DecodeOptions → Behaviour ε)
    (D : DecodeOptions → List Bytes → List (Decoded ε)) (hD : ∀ o, Decodes (B o) (D o))
    (sampleRate : UInt32) (channels : UInt8) (bytes : Bytes) (ls : List (SourceLabel ε))
    (s : Source ε) (result : Except (SourceError ε) Bytes)
    (h : run (Source.step (B (sourceOptions sampleRate channels)) bytes) {} ls = some s)
    (hpc : s.pc = .done result) :
    (Meets (Source.step (B (sourceOptions sampleRate channels)) bytes) Accepts {} ls ∧
        result = verdict [] (D (sourceOptions sampleRate channels) (chunks [bytes]))) ∨
      (¬ Meets (Source.step (B (sourceOptions sampleRate channels)) bytes) Accepts {} ls ∧
        (result = .error .send ∨ result = .error .sendEof)) := by
  have hstep : ∀ (s : Source ε) l s', True → Kept (D (sourceOptions sampleRate channels)) bytes s →
      s.step (B (sourceOptions sampleRate channels)) bytes l = some s' →
      Kept (D (sourceOptions sampleRate channels)) bytes s' :=
    fun s l s' _ hk hs => kept_step (hD _) hk hs
  obtain ⟨hkept, hiff⟩ := meets_iff hstep (fun s l s' _ _ hs => refused_step hs)
    (fun _ _ => trivial) h kept_new
  have hnew : ¬ Refused ({} : Source ε) := by simp [Refused]
  have hmade := hkept.made
  unfold Made at hmade
  rw [hpc] at hmade
  have hrefused : Refused s ↔ result = .error .send ∨ result = .error .sendEof := by
    unfold Refused
    simp [hpc]
  rw [hrefused, and_iff_right hnew] at hiff
  by_cases hmeets : Meets (Source.step (B (sourceOptions sampleRate channels)) bytes) Accepts {} ls
  · have hnot := hiff.mpr hmeets
    rcases hmade with hsend | heof | hverdict
    · exact absurd (Or.inl hsend) hnot
    · exact absurd (Or.inr heof) hnot
    · exact Or.inl ⟨hmeets, hverdict⟩
  · exact Or.inr ⟨hmeets, by_contra fun hnot => hmeets (hiff.mp hnot)⟩

/-- A file of one byte. -/
def oneByte : List (SourceLabel String) :=
  [.answer true, .pipe .take, .answer true, .pipe .take,
    .pipe (.emit (.ok ⟨[7], 8000, 1, 16, .other 0⟩)), .pipe .finish, .recv, .recv]

theorem sourced_oneByte : ∃ s : Source String,
    run (Source.step (echo (sourceOptions 8000 1)) [7]) {} oneByte = some s ∧
      s.pc = .done (.ok [7]) ∧
      Meets (Source.step (echo (sourceOptions 8000 1)) [7]) Accepts {} oneByte := by
  have hrun : (run (Source.step (echo (sourceOptions 8000 1)) [7]) {} oneByte).map Source.pc =
      some (.done (.ok [7])) := by decide
  obtain ⟨s, hs, hpc⟩ := Option.map_eq_some_iff.mp hrun
  refine ⟨s, hs, hpc, ?_⟩
  rcases sourced echo (fun _ => echoResults) echo_decodes 8000 1 [7] oneByte s _ hs hpc with
    ⟨haccepts, -⟩ | ⟨-, hrefused⟩
  · exact haccepts
  · simp at hrefused

end MediaApi.Benchmark.Source
