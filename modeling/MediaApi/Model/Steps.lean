import MediaApi.Model.ProcessJob

/-! # The steps of a session by name

One inductive for the steps of each party, with the guard and the effect of every branch of its
code, and for each call on the handle what it can do. Proofs about sessions split on these and never
unfold a step function. -/

namespace MediaApi.Model.Steps

open MediaApi.Lib.Channel MediaApi.Model.Audio MediaApi.Model.Pipeline MediaApi.Model.ProcessJob

variable {ε : Type}

/-! ### The calls on the handle -/

/-- What `PooledDecoder::send` does when it returns. -/
theorem send_cases {s s' : Session ε} {data : Bytes} {ok : Bool}
    (h : s.send data = some (ok, s')) :
    (ok = true ∧ s.input.rx = true ∧ s.input.queue.length < slots ∧
        ∃ c, s.input.send data = .sent c ∧ s' = { s with input := c, sent := s.sent ++ [data] }) ∨
      (ok = false ∧ s.input.rx = false ∧ s' = s) := by
  unfold Session.send at h
  split at h
  · next c hc =>
    cases h
    obtain ⟨hrx, hlt, -⟩ := Chan.send_sent hc
    exact Or.inl ⟨rfl, hrx, hlt, c, hc, rfl⟩
  · cases h
  · next hc => cases h; exact Or.inr ⟨rfl, Chan.send_hungUp.mp hc, rfl⟩

/-- `PooledDecoder::send` blocks on a full input channel. -/
theorem send_none {s : Session ε} {data : Bytes} :
    s.send data = none ↔ s.input.rx = true ∧ s.input.Full := by
  rw [← Chan.send_blocked (x := data)]
  unfold Session.send
  split <;> simp_all

/-- What `PooledDecoder::try_recv` gives. -/
theorem tryRecv_cases (s : Session ε) :
    (∃ i c, s.output.tryRecv = .got i c ∧
        s.tryRecv = (.item i, { s with output := c, received := s.received ++ [i] })) ∨
      (s.output.tryRecv = .empty ∧ s.tryRecv = (.empty, s)) ∨
      (s.output.tryRecv = .closed ∧ s.tryRecv = (.closed, s)) := by
  unfold Session.tryRecv
  cases s.output.tryRecv with
  | got i c => exact Or.inl ⟨i, c, rfl, rfl⟩
  | empty => exact Or.inr (Or.inl ⟨rfl, rfl⟩)
  | closed => exact Or.inr (Or.inr ⟨rfl, rfl⟩)

theorem tryRecv_item {s s' : Session ε} {i : Item} (h : s.tryRecv = (.item i, s')) :
    ∃ c, s.output.tryRecv = .got i c ∧
      s' = { s with output := c, received := s.received ++ [i] } := by
  rcases tryRecv_cases s with ⟨j, c, hc, hs⟩ | ⟨-, hs⟩ | ⟨-, hs⟩ <;> rw [hs] at h <;> cases h
  exact ⟨c, hc, rfl⟩

theorem tryRecv_empty {s s' : Session ε} (h : s.tryRecv = (.empty, s')) :
    s' = s ∧ s.output.queue = [] ∧ s.output.tx = true := by
  rcases tryRecv_cases s with ⟨j, c, hc, hs⟩ | ⟨hc, hs⟩ | ⟨-, hs⟩ <;> rw [hs] at h <;> cases h
  exact ⟨rfl, Chan.tryRecv_empty.mp hc⟩

theorem tryRecv_closed {s s' : Session ε} (h : s.tryRecv = (.closed, s')) :
    s' = s ∧ s.output.queue = [] ∧ s.output.tx = false := by
  rcases tryRecv_cases s with ⟨j, c, hc, hs⟩ | ⟨-, hs⟩ | ⟨hc, hs⟩ <;> rw [hs] at h <;> cases h
  exact ⟨rfl, Chan.tryRecv_closed.mp hc⟩

/-- A `try_recv` that gives no item changes nothing. -/
theorem tryRecv_same {s s' : Session ε} {r : Polled} (hr : ∀ i, r ≠ .item i)
    (h : s.tryRecv = (r, s')) : s' = s := by
  cases r with
  | item i => exact absurd rfl (hr i)
  | empty => exact (tryRecv_empty h).1
  | closed => exact (tryRecv_closed h).1

/-- What `PooledDecoder::recv` gives, in terms of `try_recv`. -/
theorem recv_cases {s s' : Session ε} {r : Option Item} (h : s.recv = some (r, s')) :
    (∃ i, r = some i ∧ s.tryRecv = (.item i, s')) ∨ (r = none ∧ s.tryRecv = (.closed, s')) := by
  unfold Session.recv at h
  split at h
  · next i m hm => cases h; exact Or.inl ⟨i, rfl, hm⟩
  · cases h
  · next m hm => cases h; exact Or.inr ⟨rfl, hm⟩

/-- `PooledDecoder::recv` blocks on an empty output channel that the worker still holds. -/
theorem recv_none {s : Session ε} :
    s.recv = none ↔ s.output.queue = [] ∧ s.output.tx = true := by
  rw [← Chan.tryRecv_empty]
  unfold Session.recv
  rcases tryRecv_cases s with ⟨i, c, hc, hs⟩ | ⟨hc, hs⟩ | ⟨hc, hs⟩ <;> rw [hs, hc] <;> simp

/-! ### The steps behind the handle and of a holder -/

theorem pipeRecv_some {p p' : Pipe ε} {r : Decoded ε} (h : pipeRecv p = some (r, p')) :
    p.outbuf = r :: p'.outbuf ∧ p'.given = p.given ++ [r] ∧ p'.emitted = p.emitted ∧
      p'.accepted = p.accepted ∧ p'.taken = p.taken ∧ p'.inbuf = p.inbuf ∧
      p'.finished = p.finished := by
  unfold pipeRecv at h
  split at h
  · next r' rest hr =>
    cases h
    exact ⟨hr, rfl, by simp [Pipe.emitted, hr], rfl, rfl, rfl, rfl⟩
  · cases h

theorem pipeRecv_none {p : Pipe ε} : pipeRecv p = none ↔ p.outbuf = [] := by
  unfold pipeRecv
  split <;> simp [*]

variable [ToString ε]

/-- The steps of the worker, one case for each branch of `process_job`. -/
inductive WorkerStep (s : Session ε) : Session ε → Prop where
  | start (hpc : s.pc = .queued) : WorkerStep s { s with pc := .poll }
  | skip (hpc : s.pc = .poll) (hd : s.inputDone = true) : WorkerStep s { s with pc := .drain }
  | eof (c : Chan Bytes slots) (hpc : s.pc = .poll) (hd : s.inputDone = false)
      (hr : s.input.tryRecv = .got [] c) :
      WorkerStep s { s with input := c, taken := s.taken ++ [[]], pc := .sendEof }
  | chunk (b : Bytes) (c : Chan Bytes slots) (hpc : s.pc = .poll) (hd : s.inputDone = false)
      (hr : s.input.tryRecv = .got b c) (hb : b ≠ []) :
      WorkerStep s { s with
        input := c, taken := s.taken ++ [b], inputBytes := s.inputBytes + b.length, pc := .retry b }
  | idle (hpc : s.pc = .poll) (hd : s.inputDone = false) (hr : s.input.tryRecv = .empty) :
      WorkerStep s { s with pc := .drain }
  | disconnected (hpc : s.pc = .poll) (hd : s.inputDone = false) (hr : s.input.tryRecv = .closed) :
      WorkerStep s { s with pc := .sendEof }
  | forward (r : Decoded ε) (p : Pipe ε) (hpc : s.pc = .drain)
      (hp : pipeRecv s.pipe = some (r, p)) :
      WorkerStep s { s with pipe := p, tally := s.tally.add r, pc := .emit (mapErr r) false }
  | drained (hpc : s.pc = .drain) (hp : pipeRecv s.pipe = none) :
      WorkerStep s { s with pc := if s.inputDone then .final else .poll }
  | put (i : Item) (final : Bool) (c : Chan Item slots) (hpc : s.pc = .emit i final)
      (hc : s.output.send i = .sent c) :
      WorkerStep s { s with output := c, pc := if final then .final else .drain }
  | abort (i : Item) (final : Bool) (hpc : s.pc = .emit i final)
      (hc : s.output.send i = .hungUp) : WorkerStep s { s with pc := .dropInput (.aborted i) }
  | forwardFinal (r : Decoded ε) (p : Pipe ε) (hpc : s.pc = .final)
      (hp : pipeRecv s.pipe = some (r, p)) :
      WorkerStep s { s with pipe := p, tally := s.tally.add r, pc := .emit (mapErr r) true }
  | finish (hpc : s.pc = .final) (hp : pipeRecv s.pipe = none) (hf : s.pipe.finished = true) :
      WorkerStep s { s with pc := .metrics }
  | measure (ms : ℕ) (hpc : s.pc = .metrics) (hm : audioMs s.options s.tally = some ms) :
      WorkerStep s { s with pc := .dropInput .returned }
  | panic (hpc : s.pc = .metrics) (hm : audioMs s.options s.tally = none) :
      WorkerStep s { s with pc := .dropInput .panicked }
  | dropInput (o : Outcome) (hpc : s.pc = .dropInput o) :
      WorkerStep s { s with input := s.input.dropRx, pc := .dropOutput o }
  | dropOutput (o : Outcome) (hpc : s.pc = .dropOutput o) :
      WorkerStep s { s with output := s.output.dropTx, pc := .ended o }

theorem worker_cases {s s' : Session ε} (h : s.worker = some s') : WorkerStep s s' := by
  unfold Session.worker at h
  split at h
  · next hpc => cases h; exact .start hpc
  · next hpc =>
    split_ifs at h with hd
    · cases h; exact .skip hpc hd
    · have hd : s.inputDone = false := by simpa using hd
      split at h
      · next b c hr =>
        split_ifs at h with hb
        · cases h; subst hb; exact .eof c hpc hd hr
        · cases h; exact .chunk b c hpc hd hr hb
      · next hr => cases h; exact .idle hpc hd hr
      · next hr => cases h; exact .disconnected hpc hd hr
  · cases h
  · cases h
  · next hpc =>
    split at h
    · next r p hp => cases h; exact .forward r p hpc hp
    · next hp => cases h; exact .drained hpc hp
  · next i final hpc =>
    split at h
    · next c hc => cases h; exact .put i final c hpc hc
    · cases h
    · next hc => cases h; exact .abort i final hpc hc
  · next hpc =>
    split at h
    · next r p hp => cases h; exact .forwardFinal r p hpc hp
    · next hp =>
      split_ifs at h with hf
      · cases h; exact .finish hpc hp hf
  · next hpc =>
    split at h
    · next ms hm => cases h; exact .measure ms hpc hm
    · next hm => cases h; exact .panic hpc hm
  · next o hpc => cases h; exact .dropInput o hpc
  · next o hpc => cases h; exact .dropOutput o hpc
  · cases h

/-- The answers of the pipeline. -/
inductive AnswerStep (B : Behaviour ε) (s : Session ε) : Bool → Session ε → Prop where
  | eofAccepted (hpc : s.pc = .sendEof) (hb : B.accepts s.pipe [] = true) :
      AnswerStep B s true { s with pipe := s.pipe.push [], inputDone := true, pc := .drain }
  | eofRefused (hpc : s.pc = .sendEof) (hb : B.refuses s.pipe [] = true) :
      AnswerStep B s false { s with inputDone := true, pc := .drain }
  | accepted (chunk : Bytes) (hpc : s.pc = .retry chunk) (hb : B.accepts s.pipe chunk = true) :
      AnswerStep B s true { s with pipe := s.pipe.push chunk, pc := .drain }
  | refused (chunk : Bytes) (hpc : s.pc = .retry chunk) (hb : B.refuses s.pipe chunk = true) :
      AnswerStep B s false s

omit [ToString ε] in
theorem answer_cases {B : Behaviour ε} {s s' : Session ε} {ok : Bool}
    (h : s.answer B ok = some s') : AnswerStep B s ok s' := by
  unfold Session.answer at h
  split at h
  · next hpc =>
    split_ifs at h with hok hb hb
    · cases h; subst hok; exact .eofAccepted hpc hb
    · cases h
      have : ok = false := by simpa using hok
      subst this; exact .eofRefused hpc hb
  · next chunk hpc =>
    split_ifs at h with hok hb hb
    · cases h; subst hok; exact .accepted chunk hpc hb
    · cases h
      have : ok = false := by simpa using hok
      subst this; exact .refused chunk hpc hb
  · cases h

/-- The actions of a holder. -/
inductive ClientStep (s : Session ε) : ClientAct → Session ε → Prop where
  | send (data : Bytes) (c : Chan Bytes slots) (htx : s.input.tx = true)
      (hc : s.input.send data = .sent c) :
      ClientStep s (.send data) { s with input := c, sent := s.sent ++ [data] }
  | recv (i : Item) (c : Chan Item slots) (hrx : s.output.rx = true)
      (hc : s.output.tryRecv = .got i c) :
      ClientStep s .recv { s with output := c, received := s.received ++ [i] }
  | dropTx : ClientStep s .dropTx s.dropTx
  | dropRx : ClientStep s .dropRx s.dropRx

omit [ToString ε] in
theorem client_cases {s s' : Session ε} {a : ClientAct} (h : s.client a = some s') :
    ClientStep s a s' := by
  cases a with
  | send data =>
    simp only [Session.client, Session.send] at h
    split_ifs at h with htx
    cases hc : s.input.send data with
    | sent c => rw [hc] at h; cases h; exact .send data c htx hc
    | blocked => rw [hc] at h; cases h
    | hungUp => rw [hc] at h; cases h
  | recv =>
    simp only [Session.client, Session.tryRecv] at h
    split_ifs at h with hrx
    cases hc : s.output.tryRecv with
    | got i c => rw [hc] at h; cases h; exact .recv i c hrx hc
    | empty => rw [hc] at h; cases h
    | closed => rw [hc] at h; cases h
  | dropTx => cases h; exact .dropTx
  | dropRx => cases h; exact .dropRx

/-- The steps of a session: of the worker, of the pipeline's answer, of its thread, of the holder.
-/
inductive SessionStep (B : DecodeOptions → Behaviour ε) (s : Session ε) :
    Label ε → Session ε → Prop where
  | worker {s' : Session ε} (h : WorkerStep s s') : SessionStep B s (.inner .worker) s'
  | answer {s' : Session ε} (ok : Bool) (h : AnswerStep (B s.options) s ok s') :
      SessionStep B s (.inner (.answer ok)) s'
  | pipe (a : PipeAct ε) (p : Pipe ε) (hq : s.pc ≠ .queued)
      (h : s.pipe.step (B s.options) a = some p) :
      SessionStep B s (.inner (.pipe a)) { s with pipe := p }
  | client (a : ClientAct) {s' : Session ε} (h : ClientStep s a s') :
      SessionStep B s (.client a) s'

theorem step_cases {B : DecodeOptions → Behaviour ε} {s s' : Session ε} {l : Label ε}
    (h : s.step B l = some s') : SessionStep B s l s' := by
  cases l with
  | inner i =>
    cases i with
    | worker => exact .worker (worker_cases h)
    | answer ok => exact .answer ok (answer_cases h)
    | pipe a =>
      simp only [Session.step, Session.inner] at h
      split_ifs at h with hq
      obtain ⟨p, hp, rfl⟩ := Option.map_eq_some_iff.mp h
      exact .pipe a p hq hp
  | client a => exact .client a (client_cases h)

end MediaApi.Model.Steps
