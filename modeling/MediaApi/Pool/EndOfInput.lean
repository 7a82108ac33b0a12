import MediaApi.Pool.Forwarding

/-! # Whether the EOF marker reaches the pipeline

A data chunk that `pipeline.send` refuses is sent again; the EOF marker is sent once and the answer
is thrown away (`let _ = pipeline.send(Bytes::new())`). So for a pipeline that refuses exactly when
its input buffer is full, the marker arrives if and only if the buffer has room at that moment
(`eof_accepted_iff`). If it has none, the worker enters its final drain and waits for a pipeline
that waits for input (`eof_lost`). -/

namespace MediaApi.Pool.EndOfInput

open MediaApi.Lib.Transition MediaApi.Model.Audio MediaApi.Model.Pipeline
open MediaApi.Model.ProcessJob MediaApi.Model.Steps MediaApi.Pool.Forwarding

variable {ε : Type}

/-- `process_job` has set `input_done` and is in its final blocking drain. -/
def FinalDrain (s : Session ε) : Prop :=
  s.inputDone = true ∧ (s.pc = .final ∨ ∃ i, s.pc = .emit i true)

/-- The pipeline has accepted the EOF marker, after all data chunks sent before EOF. -/
def EofAccepted (s : Session ε) : Prop :=
  s.pipe.accepted = s.sent.takeWhile (· ≠ []) ++ [[]]

/-- The worker waits in `pipeline.recv()` for a pipeline that has nothing left to give, has taken
all its input and no EOF marker, and so waits for input that will never come. -/
def Starved (s : Session ε) : Prop :=
  s.pc = .final ∧ s.pipe.outbuf = [] ∧ s.pipe.finished = false ∧ s.pipe.inbuf = [] ∧
    [] ∉ s.pipe.taken

/-- When the worker sends the EOF marker, the pipeline's input buffer has room for it. -/
def EofRoom (cap : ℕ) (s : Session ε) (l : Label ε) : Prop :=
  ∀ ok, l = .inner (.answer ok) → s.pc = .sendEof → s.pipe.inbuf.length < cap

variable [ToString ε] {B : DecodeOptions → Behaviour ε} {s s' : Session ε} {l : Label ε} {cap : ℕ}

/-- Once `input_done` is set the pipeline is sent nothing more. -/
theorem done_step (hi : Input s) (hd : s.inputDone = true) (h : s.step B l = some s') :
    s'.inputDone = true ∧ s'.pipe.accepted = s.pipe.accepted := by
  have hretry := (hi.after (Or.inl hd)).1
  cases step_cases h with
  | worker h =>
    cases h with
    | forward r p hpc hp | forwardFinal r p hpc hp => exact ⟨hd, (pipeRecv_some hp).2.2.2.1⟩
    | _ => exact ⟨hd, rfl⟩
  | answer ok h =>
    cases h with
    | eofAccepted hpc | eofRefused hpc => rw [hi.once hpc] at hd; cases hd
    | accepted chunk hpc => simp [hpc, Pc.retrying] at hretry
    | refused => exact ⟨hd, rfl⟩
  | pipe a p hq hp => exact ⟨hd, (pipe_step_cases hp).2.1⟩
  | client a h => cases h <;> exact ⟨hd, rfl⟩

/-- A marker that was refused never arrives. -/
theorem lost_reach (hi : Input s) (hd : s.inputDone = true) (hlost : [] ∉ s.pipe.accepted)
    (h : Reach (Session.step B) s s') : s'.inputDone = true ∧ [] ∉ s'.pipe.accepted := by
  have := h.invariant (I := fun m => Input m ∧ m.inputDone = true ∧ [] ∉ m.pipe.accepted)
    ⟨hi, hd, hlost⟩ (by
      rintro m l m' ⟨h1, h2, h3⟩ hs
      obtain ⟨h4, h5⟩ := done_step h1 h2 hs
      exact ⟨input_step h1 hs, h4, by rw [h5]; exact h3⟩)
  exact this.2

/-- Sending the marker: accepted with room, lost without. -/
theorem sendEof_step (hB : RefusesWhenFull (B s.options) cap) (hi : Input s) (hpc : s.pc = .sendEof)
    {ok : Bool} (h : s.step B (.inner (.answer ok)) = some s') :
    s'.inputDone = true ∧
      ((s.pipe.inbuf.length < cap ∧ s'.pipe.accepted = chunks s.pipe.accepted ++ [[]]) ∨
        (cap ≤ s.pipe.inbuf.length ∧ s'.pipe.accepted = chunks s.pipe.accepted)) := by
  have hacc := (hi.data_sendEof hpc).symm
  cases answer_cases h with
  | eofAccepted _ hb =>
    exact ⟨rfl, Or.inl ⟨(hB.accepts _ _).mp hb, by simpa using hacc⟩⟩
  | eofRefused _ hb => exact ⟨rfl, Or.inr ⟨(hB.refuses _ _).mp hb, hacc⟩⟩
  | accepted chunk hpc' => rw [hpc] at hpc'; cases hpc'
  | refused chunk hpc' => rw [hpc] at hpc'; cases hpc'

/-- With room at every EOF send, `input_done` means that the marker has arrived. -/
theorem eof_of_meets (hB : ∀ o, RefusesWhenFull (B o) cap) {options : DecodeOptions}
    {ls : List (Label ε)} (h : run (Session.step B) (acquire options) ls = some s)
    (hm : Meets (Session.step B) (EofRoom cap) (acquire options) ls) (hd : s.inputDone = true) :
    EofAccepted s := by
  have hI := run_invariant
    (I := fun m => Input m ∧
      (m.inputDone = true → m.pipe.accepted = chunks m.pipe.accepted ++ [[]]))
    (by
      rintro m l m' ⟨hi, hacc⟩ hroom hs
      refine ⟨input_step hi hs, fun hd' => ?_⟩
      by_cases hd : m.inputDone = true
      · rw [(done_step hi hd hs).2]; exact hacc hd
      · -- only the answer to the EOF send sets `input_done`
        have hans : ∃ ok, l = .inner (.answer ok) ∧ m.pc = .sendEof := by
          cases step_cases hs with
          | worker h => cases h <;> exact absurd hd' hd
          | answer ok h =>
            cases h with
            | eofAccepted hpc => exact ⟨true, rfl, hpc⟩
            | eofRefused hpc => exact ⟨false, rfl, hpc⟩
            | accepted | refused => exact absurd hd' hd
          | pipe => exact absurd hd' hd
          | client a h => cases h <;> exact absurd hd' hd
        obtain ⟨ok, rfl, hpc⟩ := hans
        rcases (sendEof_step (hB _) hi hpc hs).2 with ⟨-, he⟩ | ⟨hfull, -⟩
        · rw [he]; simp [chunks_eq_self (nil_notMem_chunks _)]
        · have := hroom ok rfl hpc; omega)
    h hm ⟨input_acquire options, fun h => by cases h⟩
  have hr := reach_of_run h
  rw [EofAccepted, ← accepted_of_eof (reach_flow hr) hI.1 (Or.inl hd)]
  exact hI.2 hd

/-- Without room at some EOF send, the run ends with `input_done` and no marker. -/
theorem meets_of_eof (hB : ∀ o, RefusesWhenFull (B o) cap) :
    ∀ {ls : List (Label ε)} {m : Session ε}, Input m → run (Session.step B) m ls = some s →
      (s.inputDone = true → [] ∈ s.pipe.accepted) → Meets (Session.step B) (EofRoom cap) m ls := by
  intro ls
  induction ls with
  | nil => intro m _ _ _; trivial
  | cons l ls ih =>
    intro m hi h hs
    obtain ⟨m', h1, h2⟩ := run_cons_some.mp h
    refine ⟨?_, fun m'' h' => ?_⟩
    · rintro ok rfl hpc
      obtain ⟨hd, ⟨hroom, -⟩ | ⟨-, hacc⟩⟩ := sendEof_step (hB _) hi hpc h1
      · exact hroom
      · have hlost : [] ∉ m'.pipe.accepted := by rw [hacc]; exact nil_notMem_chunks _
        obtain ⟨h3, h4⟩ := lost_reach (input_step hi h1) hd hlost (reach_of_run h2)
        exact absurd (hs h3) h4
    · rw [h1] at h'; cases h'
      exact ih (input_step hi h1) h2 hs

/-- A pipeline that has ended has accepted the marker. -/
theorem reach_finished (hfin : ∀ o, FinishesAfterEof (B o)) {options : DecodeOptions}
    (h : Reach (Session.step B) (acquire options) s) (hf : s.pipe.finished = true) :
    [] ∈ s.pipe.accepted := by
  revert hf
  refine h.invariant (I := fun m => m.pipe.finished = true → [] ∈ m.pipe.accepted)
    (fun h => by cases h) ?_
  intro m l m' hI hs hf
  cases step_cases hs with
  | worker h =>
    cases h with
    | forward r p hpc hp | forwardFinal r p hpc hp =>
      obtain ⟨-, -, -, ha, -, -, hfin⟩ := pipeRecv_some hp
      rw [ha]; exact hI (by rw [← hfin]; exact hf)
    | _ => exact hI hf
  | answer ok h =>
    cases h with
    | eofAccepted => simp
    | eofRefused => exact hI hf
    | accepted => rw [push_accepted]; exact List.mem_append_left _ (hI hf)
    | refused => exact hI hf
  | pipe a p hq hp =>
    obtain ⟨-, hacc, ⟨-, -, -, -, hfin', -⟩ | ⟨r, -, -, rfl⟩ | ⟨-, hb, -⟩⟩ := pipe_step_cases hp
    · rw [hfin'] at hf; cases hf
    · exact hI hf
    · show [] ∈ p.accepted
      rw [hacc]; exact List.mem_append_left _ (hfin _ _ hb)
  | client a h => cases h <;> exact hI hf

/-- **The EOF marker arrives exactly when there is room for it.** For a pipeline whose `send` fails
exactly on a full input buffer, a run leaves the marker accepted after all data (whenever
`input_done` is set) if and only if each EOF send of the run finds room. Then the final drain never
waits for a starved pipeline; otherwise the pipeline never ends, and the final drain neither. -/
theorem eof_accepted_iff (cap : ℕ) (B : DecodeOptions → Behaviour ε)
    (hB : ∀ o, RefusesWhenFull (B o) cap) (hfin : ∀ o, FinishesAfterEof (B o))
    (options : DecodeOptions) (ls : List (Label ε)) (s : Session ε)
    (h : run (Session.step B) (acquire options) ls = some s) :
    ((s.inputDone = true → EofAccepted s) ↔
        Meets (Session.step B) (EofRoom cap) (acquire options) ls) ∧
      (Meets (Session.step B) (EofRoom cap) (acquire options) ls →
        (FinalDrain s → EofAccepted s) ∧ ¬ Starved s) ∧
      (¬ Meets (Session.step B) (EofRoom cap) (acquire options) ls →
        ∀ s', Reach (Session.step B) s s' → s'.pipe.finished = false) := by
  have hr := reach_of_run h
  have heof : (s.inputDone = true → [] ∈ s.pipe.accepted) →
      Meets (Session.step B) (EofRoom cap) (acquire options) ls :=
    meets_of_eof hB (input_acquire options) h
  refine ⟨⟨fun hs => ?_, fun hm => eof_of_meets hB h hm⟩, fun hm => ⟨fun hd => ?_, ?_⟩,
    fun hm s' hr' => ?_⟩
  · refine heof fun hd => ?_
    rw [hs hd]; simp
  · exact eof_of_meets hB h hm hd.1
  · rintro ⟨hpc, -, -, hin, htaken⟩
    have hd := (reach_ending hr).final (Or.inl hpc)
    have hacc := eof_of_meets hB h hm hd
    have : [] ∈ s.pipe.accepted := by rw [hacc]; simp
    rw [Pipe.accepted, hin, List.append_nil] at this
    exact htaken this
  · have hlost : s.inputDone = true ∧ [] ∉ s.pipe.accepted := by
      by_contra hn
      exact hm (heof fun hd => by_contra fun hacc => hn ⟨hd, hacc⟩)
    have hacc := (lost_reach (reach_input hr) hlost.1 hlost.2 hr').2
    cases hf : s'.pipe.finished with
    | false => rfl
    | true => exact absurd (reach_finished hfin (hr.trans hr') hf) hacc

/-- A pipeline that only decodes, with an input buffer of one chunk. -/
def silent : DecodeOptions → Behaviour String := fun _ => streaming 1 fun _ => []

/-- A chunk, then EOF, with room for both: the marker arrives. -/
def roomRun : List (Label String) :=
  [.client (.send [7]), .client (.send []), .inner .worker, .inner .worker,
    .inner (.answer true), .inner .worker, .inner (.pipe .take), .inner .worker,
    .inner (.answer true), .inner .worker]

theorem eof_accepted_room : ∃ s, run (Session.step silent) (acquire {}) roomRun = some s ∧
    FinalDrain s ∧ ((s.inputDone = true → EofAccepted s) ↔
      Meets (Session.step silent) (EofRoom 1) (acquire {}) roomRun) := by
  have hrun : (run (Session.step silent) (acquire {}) roomRun).map
      (fun s => (s.inputDone, s.pc)) = some (true, .final) := by decide
  obtain ⟨s, hs, he⟩ := Option.map_eq_some_iff.mp hrun
  obtain ⟨hd, hpc⟩ := Prod.mk.inj he
  exact ⟨s, hs, ⟨hd, Or.inl hpc⟩,
    (eof_accepted_iff 1 silent (fun _ => streaming_refusesWhenFull 1 _)
      (fun _ => streaming_finishesAfterEof 1 _) {} roomRun s hs).1⟩

/-- The same input, with the decoder thread a moment late: the buffer still holds the data chunk
when EOF is sent. -/
def lateRun : List (Label String) :=
  [.client (.send [7]), .client (.send []), .inner .worker, .inner .worker,
    .inner (.answer true), .inner .worker, .inner .worker, .inner (.answer false), .inner .worker,
    .inner (.pipe .take)]

/-- **The marker is lost**: the worker is in its final drain, the pipeline has not accepted EOF, and
both wait for each other for ever. -/
theorem eof_lost : ∃ s, run (Session.step silent) (acquire {}) lateRun = some s ∧
    FinalDrain s ∧ ¬ EofAccepted s ∧ Starved s := by
  have hrun : (run (Session.step silent) (acquire {}) lateRun).map
      (fun s => (s.inputDone, s.pc, s.pipe, s.sent)) =
      some (true, .final, { taken := [[7]] }, [[7], []]) := by decide
  obtain ⟨s, hs, he⟩ := Option.map_eq_some_iff.mp hrun
  simp only [Prod.mk.injEq] at he
  obtain ⟨hd, hpc, hpipe, hsent⟩ := he
  refine ⟨s, hs, ⟨hd, Or.inl hpc⟩, ?_, hpc, ?_⟩
  · rw [EofAccepted, hpipe, hsent]; decide
  · rw [hpipe]; decide

end MediaApi.Pool.EndOfInput
