import MediaApi.Model.Steps

/-! # What a worker forwards

The invariants of a session, whatever the holder of the handle and the pipeline do.

* `Flow`: nothing is lost, duplicated or reordered between the handle, the worker and the pipeline:
  what was sent is what the worker took and what is still queued; what the pipeline gave is what the
  handle received, what is queued, and the item in the worker's hand.
* `Input`: before EOF the pipeline has accepted exactly what the worker took (the chunk being
  retried apart); from EOF on, the data chunks before it, and nothing else is sent but the EOF
  marker.
* `Ending`: how the program point, the ends of the channels and the pipeline go together at the end.

`forwarding` puts them together. -/

namespace MediaApi.Pool.Forwarding

open MediaApi.Lib.Channel MediaApi.Lib.Transition MediaApi.Model.Audio MediaApi.Model.Pipeline
open MediaApi.Model.ProcessJob MediaApi.Model.Steps

variable {ε : Type} [ToString ε] {B : DecodeOptions → Behaviour ε} {s s' : Session ε} {l : Label ε}

/-! ### Nothing is lost between the parties -/

/-- The conservation of chunks and items. -/
structure Flow (s : Session ε) : Prop where
  sent : s.sent = s.taken ++ s.input.queue
  items : s.received ++ s.output.queue ++ s.pc.hand = s.pipe.given.map mapErr

theorem flow_acquire (options : DecodeOptions) : Flow (acquire options : Session ε) :=
  ⟨rfl, rfl⟩

theorem flow_worker (hf : Flow s) (h : WorkerStep s s') : Flow s' := by
  obtain ⟨h1, h2⟩ := hf
  cases h with
  | start hpc | skip hpc | idle hpc | disconnected hpc | finish hpc | measure _ hpc | panic hpc =>
    exact ⟨h1, by simpa [hpc, Pc.hand] using h2⟩
  | drained hpc =>
    refine ⟨h1, ?_⟩
    cases s.inputDone <;> simpa [hpc, Pc.hand] using h2
  | eof c hpc hd hr =>
    obtain ⟨hq, -, -⟩ := Chan.tryRecv_got hr
    exact ⟨by simp [h1, hq], by simpa [hpc, Pc.hand] using h2⟩
  | chunk b c hpc hd hr hb =>
    obtain ⟨hq, -, -⟩ := Chan.tryRecv_got hr
    exact ⟨by simp [h1, hq], by simpa [hpc, Pc.hand] using h2⟩
  | forward r p hpc hp | forwardFinal r p hpc hp =>
    obtain ⟨-, hg, -⟩ := pipeRecv_some hp
    have h2 : s.received ++ s.output.queue = s.pipe.given.map mapErr := by
      simpa [hpc, Pc.hand] using h2
    exact ⟨h1, by simp [Pc.hand, hg, ← h2]⟩
  | put i final c hpc hc =>
    obtain ⟨-, -, hq, -, -⟩ := Chan.send_sent hc
    refine ⟨h1, ?_⟩
    cases final <;> simpa [hpc, Pc.hand, hq] using h2
  | abort i final hpc hc => exact ⟨h1, by simpa [hpc, Pc.hand] using h2⟩
  | dropInput o hpc | dropOutput o hpc =>
    refine ⟨h1, ?_⟩
    cases o <;> simpa [hpc, Pc.hand] using h2

theorem flow_step (hf : Flow s) (h : s.step B l = some s') : Flow s' := by
  cases step_cases h with
  | worker h => exact flow_worker hf h
  | answer ok h =>
    obtain ⟨h1, h2⟩ := hf
    cases h with
    | eofAccepted hpc | eofRefused hpc | accepted _ hpc =>
      exact ⟨h1, by simpa [hpc, Pc.hand, Pipe.push] using h2⟩
    | refused => exact ⟨h1, h2⟩
  | pipe a p hq hp =>
    obtain ⟨-, -, ⟨-, -, hg, ho, -⟩ | ⟨r, -, -, rfl⟩ | ⟨-, -, rfl⟩⟩ := pipe_step_cases hp
    · have : p.given = s.pipe.given := by
        simpa [Pipe.emitted, ho] using hg
      exact ⟨hf.sent, by rw [this]; exact hf.items⟩
    · exact ⟨hf.sent, hf.items⟩
    · exact ⟨hf.sent, hf.items⟩
  | client a h =>
    obtain ⟨h1, h2⟩ := hf
    cases h with
    | send data c htx hc =>
      obtain ⟨-, -, hq, -, -⟩ := Chan.send_sent hc
      exact ⟨by simp [h1, hq], h2⟩
    | recv i c hrx hc =>
      obtain ⟨hq, -, -⟩ := Chan.tryRecv_got hc
      exact ⟨h1, by simpa [hq] using h2⟩
    | dropTx => exact ⟨h1, h2⟩
    | dropRx => exact ⟨h1, h2⟩

/-- **Conservation** in every state of every run. -/
theorem reach_flow {options : DecodeOptions} (h : Reach (Session.step B) (acquire options) s) :
    Flow s :=
  h.invariant (flow_acquire options) fun _ _ _ hf h => flow_step hf h

/-! ### What the pipeline is sent -/

/-- The worker has sent, or is sending, the EOF marker. -/
def AtEof (s : Session ε) : Prop := s.inputDone = true ∨ s.pc = .sendEof

/-- What the pipeline has accepted, in terms of what the worker has taken. -/
structure Input (s : Session ε) : Prop where
  /-- Before EOF: exactly the chunks taken. -/
  before : ¬ AtEof s → [] ∉ s.taken ∧ s.pipe.accepted ++ s.pc.retrying = s.taken
  /-- From EOF on: the data chunks taken before it. -/
  after : AtEof s → s.pc.retrying = [] ∧
    (s.taken = chunks s.pipe.accepted ++ [[]] ∨
      s.taken = chunks s.pipe.accepted ∧ s.input.queue = [] ∧ s.input.tx = false) ∧
    (s.pipe.accepted = chunks s.pipe.accepted ∨
      s.inputDone = true ∧ s.pipe.accepted = chunks s.pipe.accepted ++ [[]])
  /-- The EOF marker is sent once. -/
  once : s.pc = .sendEof → s.inputDone = false

omit [ToString ε] in
theorem input_acquire (options : DecodeOptions) : Input (acquire options : Session ε) where
  before _ := ⟨List.not_mem_nil, rfl⟩
  after h := by rcases h with h | h <;> cases h
  once h := by cases h

omit [ToString ε] in
/-- A step that keeps the input side keeps `Input`. -/
theorem Input.congr (hi : Input s) (htaken : s'.taken = s.taken)
    (hacc : s'.pipe.accepted = s.pipe.accepted) (hdone : s'.inputDone = s.inputDone)
    (hin : s'.input.queue = s.input.queue ∧ s'.input.tx = s.input.tx)
    (hretry : s'.pc.retrying = s.pc.retrying) (heof : s'.pc = .sendEof ↔ s.pc = .sendEof) :
    Input s' := by
  have hat : AtEof s' ↔ AtEof s := by unfold AtEof; rw [hdone, heof]
  refine ⟨fun h => ?_, fun h => ?_, fun h => ?_⟩
  · rw [htaken, hacc, hretry]; exact hi.before (hat.not.mp h)
  · rw [htaken, hacc, hretry, hdone, hin.1, hin.2]; exact hi.after (hat.mp h)
  · rw [hdone]; exact hi.once (heof.mp h)

omit [ToString ε] in
/-- Before EOF the accepted chunks are all data. -/
theorem Input.data (hi : Input s) (h : ¬ AtEof s) : chunks s.pipe.accepted = s.pipe.accepted := by
  obtain ⟨h1, h2⟩ := hi.before h
  refine chunks_eq_self fun hm => h1 ?_
  rw [← h2]; exact List.mem_append_left _ hm

omit [ToString ε] in
/-- A chunk is retried before EOF. -/
theorem Input.not_atEof (hi : Input s) {chunk : Bytes} (hpc : s.pc = .retry chunk) : ¬ AtEof s := by
  intro hat
  have hretry := (hi.after hat).1
  simp [hpc, Pc.retrying] at hretry

omit [ToString ε] in
/-- While the EOF marker is sent, the accepted chunks are all data. -/
theorem Input.data_sendEof (hi : Input s) (hpc : s.pc = .sendEof) :
    chunks s.pipe.accepted = s.pipe.accepted := by
  rcases (hi.after (Or.inr hpc)).2.2 with hacc | ⟨hd, -⟩
  · exact hacc.symm
  · rw [hi.once hpc] at hd
    cases hd

omit [ToString ε] in
/-- The marker has not been accepted while a `send` of the pipeline is under way. -/
theorem Input.eof_notMem (hi : Input s) (h : s.pc = .sendEof ∨ ∃ chunk, s.pc = .retry chunk) :
    [] ∉ s.pipe.accepted := by
  have hdata : chunks s.pipe.accepted = s.pipe.accepted := by
    rcases h with hpc | ⟨chunk, hpc⟩
    · exact hi.data_sendEof hpc
    · exact hi.data (hi.not_atEof hpc)
  rw [← hdata]
  exact nil_notMem_chunks _

theorem input_worker (hi : Input s) (h : WorkerStep s s') : Input s' := by
  cases h with
  | start hpc | skip hpc | idle hpc | finish hpc | measure _ hpc | panic hpc =>
    exact hi.congr rfl rfl rfl ⟨rfl, rfl⟩ (by simp [hpc, Pc.retrying]) (by simp [hpc])
  | dropInput o hpc =>
    exact hi.congr rfl rfl rfl ⟨rfl, rfl⟩ (by simp [hpc, Pc.retrying]) (by simp [hpc])
  | dropOutput o hpc =>
    exact hi.congr rfl rfl rfl ⟨rfl, rfl⟩ (by simp [hpc, Pc.retrying]) (by simp [hpc])
  | abort i final hpc =>
    exact hi.congr rfl rfl rfl ⟨rfl, rfl⟩ (by simp [hpc, Pc.retrying]) (by simp [hpc])
  | drained hpc =>
    exact hi.congr rfl rfl rfl ⟨rfl, rfl⟩ (by cases s.inputDone <;> simp [hpc, Pc.retrying])
      (by cases s.inputDone <;> simp [hpc])
  | put i final c hpc hc =>
    exact hi.congr rfl rfl rfl ⟨rfl, rfl⟩ (by cases final <;> simp [hpc, Pc.retrying])
      (by cases final <;> simp [hpc])
  | forward r p hpc hp | forwardFinal r p hpc hp =>
    obtain ⟨-, -, -, ha, -⟩ := pipeRecv_some hp
    exact hi.congr rfl ha rfl ⟨rfl, rfl⟩ (by simp [hpc, Pc.retrying]) (by simp [hpc])
  | eof c hpc hd hr =>
    have hat : ¬ AtEof s := by simp [AtEof, hd, hpc]
    obtain ⟨h1, h2⟩ := hi.before hat
    have hdata := hi.data hat
    have htaken : s.pipe.accepted = s.taken := by simpa [hpc, Pc.retrying] using h2
    refine ⟨fun h => absurd (Or.inr rfl) h, fun _ => ⟨rfl, Or.inl ?_, Or.inl hdata.symm⟩,
      fun _ => hd⟩
    show s.taken ++ [[]] = chunks s.pipe.accepted ++ [[]]
    rw [hdata, htaken]
  | chunk b c hpc hd hr hb =>
    have hat : ¬ AtEof s := by simp [AtEof, hd, hpc]
    obtain ⟨h1, h2⟩ := hi.before hat
    refine ⟨fun _ => ⟨?_, ?_⟩, fun h => ?_, fun h => by cases h⟩
    · simp only [List.mem_append, List.mem_singleton, not_or]
      exact ⟨h1, fun e => hb e.symm⟩
    · show s.pipe.accepted ++ [b] = s.taken ++ [b]
      rw [← h2, hpc]; simp [Pc.retrying]
    · simp [AtEof, hd] at h
  | disconnected hpc hd hr =>
    have hat : ¬ AtEof s := by simp [AtEof, hd, hpc]
    obtain ⟨h1, h2⟩ := hi.before hat
    have hdata := hi.data hat
    have htaken : s.pipe.accepted = s.taken := by simpa [hpc, Pc.retrying] using h2
    refine ⟨fun h => absurd (Or.inr rfl) h,
      fun _ => ⟨rfl, Or.inr ⟨?_, Chan.tryRecv_closed.mp hr⟩, Or.inl hdata.symm⟩, fun _ => hd⟩
    show s.taken = chunks s.pipe.accepted
    rw [hdata, htaken]

omit [ToString ε] in
theorem input_answer {B : Behaviour ε} {ok : Bool} (hi : Input s) (h : AnswerStep B s ok s') :
    Input s' := by
  cases h with
  | eofAccepted hpc =>
    obtain ⟨-, h2, -⟩ := hi.after (Or.inr hpc)
    have hacc := (hi.data_sendEof hpc).symm
    refine ⟨fun h => absurd (Or.inl rfl) h, fun _ => ⟨rfl, ?_, Or.inr ⟨rfl, ?_⟩⟩,
      fun h => by cases h⟩
    · simpa using h2
    · simpa using hacc
  | eofRefused hpc =>
    obtain ⟨-, h2, h3⟩ := hi.after (Or.inr hpc)
    exact ⟨fun h => absurd (Or.inl rfl) h,
      fun _ => ⟨rfl, h2, h3.imp_right fun h => ⟨rfl, h.2⟩⟩, fun h => by cases h⟩
  | accepted chunk hpc hb =>
    have hat := hi.not_atEof hpc
    obtain ⟨h1, h2⟩ := hi.before hat
    have hd : s.inputDone = false := by
      cases hd : s.inputDone with
      | true => exact absurd (Or.inl hd) hat
      | false => rfl
    refine ⟨fun _ => ⟨h1, ?_⟩, fun h => ?_, fun h => by cases h⟩
    · show (s.pipe.push chunk).accepted ++ [] = s.taken
      rw [← h2, hpc]; simp [Pc.retrying]
    · simp [AtEof, hd] at h
  | refused => exact hi

theorem input_step (hi : Input s) (h : s.step B l = some s') : Input s' := by
  cases step_cases h with
  | worker h => exact input_worker hi h
  | answer ok h => exact input_answer hi h
  | pipe a p hq hp =>
    exact hi.congr rfl (pipe_step_cases hp).2.1 rfl ⟨rfl, rfl⟩ rfl Iff.rfl
  | client a h =>
    cases h with
    | send data c htx hc =>
      obtain ⟨-, -, hq, ht, -⟩ := Chan.send_sent hc
      refine ⟨hi.before, fun h => ?_, hi.once⟩
      obtain ⟨h1, h2, h3⟩ := hi.after h
      refine ⟨h1, Or.inl (h2.resolve_right ?_), h3⟩
      rintro ⟨-, -, h⟩
      rw [htx] at h; cases h
    | recv => exact hi.congr rfl rfl rfl ⟨rfl, rfl⟩ rfl Iff.rfl
    | dropTx =>
      exact ⟨hi.before, fun h => (hi.after h).imp_right (And.imp_left (Or.imp_right fun h =>
        ⟨h.1, h.2.1, rfl⟩)), hi.once⟩
    | dropRx => exact hi.congr rfl rfl rfl ⟨rfl, rfl⟩ rfl Iff.rfl

theorem reach_input {options : DecodeOptions} (h : Reach (Session.step B) (acquire options) s) :
    Input s :=
  h.invariant (input_acquire options) fun _ _ _ hi h => input_step hi h

/-! ### No data after EOF -/

theorem eof_step (hi : Input s) (hat : AtEof s) (h : s.step B l = some s') :
    AtEof s' ∧ chunks s'.pipe.accepted = chunks s.pipe.accepted := by
  have hretry := (hi.after hat).1
  unfold AtEof at hat
  cases step_cases h with
  | worker h =>
    cases h with
    | start hpc | skip hpc | idle hpc | finish hpc | measure _ hpc | panic hpc | put _ _ _ hpc
    | abort _ _ hpc | dropInput _ hpc | dropOutput _ hpc | drained hpc | eof _ hpc
    | chunk _ _ hpc | disconnected hpc =>
      exact ⟨Or.inl (by simpa [hpc] using hat), rfl⟩
    | forward r p hpc hp | forwardFinal r p hpc hp =>
      exact ⟨Or.inl (by simpa [hpc] using hat), by rw [(pipeRecv_some hp).2.2.2.1]⟩
  | answer ok h =>
    cases h with
    | eofAccepted => exact ⟨Or.inl rfl, by simp⟩
    | eofRefused => exact ⟨Or.inl rfl, rfl⟩
    | accepted chunk hpc => simp [hpc, Pc.retrying] at hretry
    | refused => exact ⟨hat, rfl⟩
  | pipe a p hq hp => exact ⟨hat, by rw [(pipe_step_cases hp).2.1]⟩
  | client a h => cases h <;> exact ⟨hat, rfl⟩

theorem reach_eof (hi : Input s) (hat : AtEof s) (h : Reach (Session.step B) s s') :
    chunks s'.pipe.accepted = chunks s.pipe.accepted := by
  have := h.invariant
    (I := fun m => Input m ∧ AtEof m ∧ chunks m.pipe.accepted = chunks s.pipe.accepted)
    ⟨hi, hat, rfl⟩ (by
      rintro m l m' ⟨h1, h2, h3⟩ hs
      obtain ⟨h4, h5⟩ := eof_step h1 h2 hs
      exact ⟨input_step h1 hs, h4, h5.trans h3⟩)
  exact this.2.2

/-! ### The end of a job -/

/-- How the end of a job shows in its program point, its channels and its pipeline. -/
structure Ending (s : Session ε) : Prop where
  final : s.pc = .final ∨ (∃ i, s.pc = .emit i true) → s.inputDone = true
  done : s.pc = .metrics ∨ s.pc.outcome = some .returned ∨ s.pc.outcome = some .panicked →
    s.inputDone = true ∧ s.pipe.finished = true ∧ s.pipe.outbuf = []
  aborted : ∀ i, s.pc.outcome = some (.aborted i) → s.output.rx = false
  inputRx : s.input.rx = false → ∃ o, s.pc = .dropOutput o ∨ s.pc = .ended o
  outputTx : s.output.tx = false ↔ ∃ o, s.pc = .ended o

omit [ToString ε] in
theorem ending_acquire (options : DecodeOptions) : Ending (acquire options : Session ε) := by
  constructor <;> simp [acquire, Pc.outcome]

theorem ending_worker (he : Ending s) (h : WorkerStep s s') : Ending s' := by
  obtain ⟨h1, h2, h3, h4, h5⟩ := he
  cases h with
  | start hpc | skip hpc | idle hpc | disconnected hpc =>
    constructor <;> simp_all [Pc.outcome]
  | eof c hpc hd hr =>
    obtain ⟨-, -, hrx⟩ := Chan.tryRecv_got hr
    constructor <;> simp_all [Pc.outcome]
  | chunk b c hpc hd hr hb =>
    obtain ⟨-, -, hrx⟩ := Chan.tryRecv_got hr
    constructor <;> simp_all [Pc.outcome]
  | forward r p hpc hp | forwardFinal r p hpc hp =>
    constructor <;> simp_all [Pc.outcome]
  | drained hpc hp =>
    cases hd : s.inputDone <;> constructor <;> simp_all [Pc.outcome]
  | put i final c hpc hc =>
    obtain ⟨-, -, -, htx, hrx⟩ := Chan.send_sent hc
    cases final <;> constructor <;> simp_all [Pc.outcome]
  | abort i final hpc hc =>
    have hrx := Chan.send_hungUp.mp hc
    constructor <;> simp_all [Pc.outcome]
  | finish hpc hp hf =>
    have hout := pipeRecv_none.mp hp
    constructor <;> simp_all [Pc.outcome]
  | measure ms hpc hm | panic hpc hm => constructor <;> simp_all [Pc.outcome]
  | dropInput o hpc | dropOutput o hpc => constructor <;> simp_all [Pc.outcome]

theorem ending_step (he : Ending s) (h : s.step B l = some s') : Ending s' := by
  cases step_cases h with
  | worker h => exact ending_worker he h
  | answer ok h =>
    obtain ⟨h1, h2, h3, h4, h5⟩ := he
    cases h with
    | eofAccepted hpc | eofRefused hpc | accepted _ hpc => constructor <;> simp_all [Pc.outcome]
    | refused => exact ⟨h1, h2, h3, h4, h5⟩
  | pipe a p hq hp =>
    have hfin := (pipe_step_cases hp).1
    refine ⟨he.final, fun h => ?_, he.aborted, he.inputRx, he.outputTx⟩
    have := (he.done h).2.1
    rw [hfin] at this; cases this
  | client a h =>
    obtain ⟨h1, h2, h3, h4, h5⟩ := he
    cases h with
    | send data c htx hc =>
      obtain ⟨hrx, -, -, -, hrx'⟩ := Chan.send_sent hc
      refine ⟨h1, h2, h3, fun h => ?_, h5⟩
      rw [hrx', hrx] at h; cases h
    | recv i c hrx hc =>
      obtain ⟨-, htx, hrx'⟩ := Chan.tryRecv_got hc
      exact ⟨h1, h2, fun i h => by rw [hrx']; exact h3 i h, h4, by rw [htx]; exact h5⟩
    | dropTx => exact ⟨h1, h2, h3, h4, h5⟩
    | dropRx => exact ⟨h1, h2, fun _ _ => rfl, h4, h5⟩

theorem reach_ending {options : DecodeOptions} (h : Reach (Session.step B) (acquire options) s) :
    Ending s :=
  h.invariant (ending_acquire options) fun _ _ _ he h => ending_step he h

/-! ### The law of forwarding -/

/-- **What a state of `process_job` owes to its holder and to the pipeline.** -/
structure Forwards (B : DecodeOptions → Behaviour ε) (s : Session ε) : Prop where
  /-- The data chunks accepted, then the one being retried, are a beginning of the non-empty chunks
  sent before the first empty one. -/
  accepted : chunks s.pipe.accepted ++ s.pc.retrying <+: s.sent.takeWhile (· ≠ [])
  /-- Once the EOF marker is sent, no data chunk is accepted any more. -/
  eof : AtEof s → ∀ ls s', run (Session.step B) s ls = some s' →
    chunks s'.pipe.accepted = chunks s.pipe.accepted
  /-- Received, queued, in the worker's hand, and in the pipeline's output buffer: together exactly
  what the pipeline has emitted, in order. -/
  results : s.received ++ s.output.queue ++ s.pc.hand ++ s.pipe.outbuf.map mapErr =
    s.pipe.emitted.map mapErr
  /-- When the job has returned and the output receiver was not dropped: every chunk before EOF was
  accepted, and every result was put into the output channel. -/
  complete : ∀ o, s.pc.outcome = some o → s.output.rx = true →
    chunks s.pipe.accepted = s.sent.takeWhile (· ≠ []) ∧
      s.received ++ s.output.queue = s.pipe.emitted.map mapErr

theorem takeWhile_data {l l' : List Bytes} (h : [] ∉ l) :
    (l ++ l').takeWhile (· ≠ []) = l ++ l'.takeWhile (· ≠ []) := by
  rw [List.takeWhile_append_of_pos]
  intro b hb
  have : b ≠ [] := fun e => h (e ▸ hb)
  simpa using this

/-- At EOF the accepted data chunks are all that was sent before it. -/
theorem accepted_of_eof (hf : Flow s) (hi : Input s) (hat : AtEof s) :
    chunks s.pipe.accepted = s.sent.takeWhile (· ≠ []) := by
  have hdata := nil_notMem_chunks s.pipe.accepted
  rw [hf.sent]
  rcases (hi.after hat).2.1 with h | ⟨h, hq, -⟩
  · rw [h, List.append_assoc, takeWhile_data hdata]; simp
  · rw [h, hq, takeWhile_data hdata]; simp

theorem accepted_begins (hf : Flow s) (hi : Input s) :
    chunks s.pipe.accepted ++ s.pc.retrying <+: s.sent.takeWhile (· ≠ []) := by
  by_cases hat : AtEof s
  · rw [(hi.after hat).1, accepted_of_eof hf hi hat]; simp
  · obtain ⟨h1, h2⟩ := hi.before hat
    rw [hi.data hat, h2, hf.sent, takeWhile_data h1]
    exact List.prefix_append _ _

/-- The pipeline accepts at most what was sent, and EOF. -/
theorem accepted_length_le (hf : Flow s) (hi : Input s) :
    s.pipe.accepted.length ≤ s.sent.length + 1 := by
  have htaken : s.taken.length ≤ s.sent.length := by
    rw [hf.sent, List.length_append]
    exact Nat.le_add_right _ _
  by_cases hat : AtEof s
  · obtain ⟨-, h1, h2⟩ := hi.after hat
    have hchunks : (chunks s.pipe.accepted).length ≤ s.taken.length := by
      rcases h1 with h1 | ⟨h1, -⟩
      · rw [h1, List.length_append]
        exact Nat.le_add_right _ _
      · rw [h1]
    rcases h2 with h2 | ⟨-, h2⟩
    · rw [h2]
      omega
    · rw [h2, List.length_append, List.length_singleton]
      omega
  · have htotal := congrArg List.length (hi.before hat).2
    rw [List.length_append] at htotal
    omega

theorem results_eq (hf : Flow s) :
    s.received ++ s.output.queue ++ s.pc.hand ++ s.pipe.outbuf.map mapErr =
      s.pipe.emitted.map mapErr := by
  rw [hf.items, Pipe.emitted, List.map_append]

omit [ToString ε] in
/-- A job that ended with its receiver alive did not abort. -/
theorem Ending.not_aborted (he : Ending s) {o : Outcome} (ho : s.pc.outcome = some o)
    (hrx : s.output.rx = true) : s.inputDone = true ∧ s.pipe.outbuf = [] ∧ s.pc.hand = [] := by
  have hhand : (∀ i, o ≠ .aborted i) → s.pc.hand = [] := by
    intro hne
    cases hpc : s.pc <;> simp only [hpc, Pc.outcome, Option.some.injEq, reduceCtorEq] at ho <;>
      subst ho <;> cases ‹Outcome› <;> simp_all [Pc.hand]
  cases o with
  | returned =>
    obtain ⟨h1, -, h2⟩ := he.done (Or.inr (Or.inl ho))
    exact ⟨h1, h2, hhand (by simp)⟩
  | aborted i => rw [he.aborted i ho] at hrx; cases hrx
  | panicked =>
    obtain ⟨h1, -, h2⟩ := he.done (Or.inr (Or.inr ho))
    exact ⟨h1, h2, hhand (by simp)⟩

/-- **Forwarding** loses, repeats and reorders nothing: for every holder of the handle, every
behaviour of the pipeline and every interleaving. -/
theorem forwarding (B : DecodeOptions → Behaviour ε) (options : DecodeOptions)
    (ls : List (Label ε)) (s : Session ε)
    (h : run (Session.step B) (acquire options) ls = some s) : Forwards B s := by
  have hr := reach_of_run h
  have hf := reach_flow hr
  have hi := reach_input hr
  refine ⟨accepted_begins hf hi, fun hat ls' s' h' => reach_eof hi hat (reach_of_run h'),
    results_eq hf, fun o ho hrx => ?_⟩
  obtain ⟨hd, hout, hhand⟩ := (reach_ending hr).not_aborted ho hrx
  refine ⟨accepted_of_eof hf hi (Or.inl hd), ?_⟩
  have := results_eq hf
  simpa [hout, hhand] using this

omit [ToString ε] in
/-- A pipeline that gives all its results at EOF. -/
theorem atEof_decodes [DecidableEq ε] (cap : ℕ) (D : List Bytes → List (Decoded ε)) :
    Decodes (streaming cap fun taken => if [] ∈ taken then D (chunks taken) else []) D := by
  refine streaming_decodes cap (fun taken cs hm _ => ?_) fun taken hm => ?_
  · rw [if_neg hm]; exact List.nil_prefix
  · rw [if_pos hm]

/-- A pipeline that gives one result for one data chunk, at EOF. -/
def echo : DecodeOptions → Behaviour String := fun _ => streaming 1 fun taken =>
  if [] ∈ taken then (chunks taken).map fun b => .ok ⟨b, 8000, 1, 16, .other 0⟩ else []

/-- What `echo` gives for the chunks of a session. -/
def echoResults (cs : List Bytes) : List (Decoded String) :=
  cs.map fun b => .ok ⟨b, 8000, 1, 16, .other 0⟩

theorem echo_decodes (options : DecodeOptions) : Decodes (echo options) echoResults :=
  atEof_decodes 1 echoResults

/-- A whole job: a chunk and EOF go in, one result comes out. -/
def echoRun : List (Label String) :=
  [.client (.send [7]), .client (.send []), .inner .worker, .inner .worker,
    .inner (.answer true), .inner .worker, .inner (.pipe .take), .inner .worker,
    .inner (.answer true), .inner .worker, .inner (.pipe .take),
    .inner (.pipe (.emit (.ok ⟨[7], 8000, 1, 16, .other 0⟩))), .inner (.pipe .finish),
    .inner .worker, .inner .worker, .client .recv, .inner .worker, .inner .worker,
    .inner .worker, .inner .worker]

theorem forwarding_echo : ∃ s, run (Session.step echo) (acquire {}) echoRun = some s ∧
    s.pc = .ended .returned ∧ Forwards echo s := by
  have hrun : (run (Session.step echo) (acquire {}) echoRun).map Session.pc =
      some (.ended .returned) := by decide
  obtain ⟨s, hs, hpc⟩ := Option.map_eq_some_iff.mp hrun
  exact ⟨s, hs, hpc, forwarding echo {} echoRun s hs⟩

end MediaApi.Pool.Forwarding
