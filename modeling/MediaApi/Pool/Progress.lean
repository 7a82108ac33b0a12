import MediaApi.Pool.EndOfInput
import MediaApi.Pool.Script
import MediaApi.Pool.Survival

/-! # How a worker gets on

What a worker can do by itself and with its pipeline, without its holder. It relies on the pipeline
in three places: what it sends, the thread can make room for (`Room`), EOF is not lost (`EofKept`),
and once the thread has EOF it comes to its end while its results are received (`EndsAfterEof`).
Then a job stops only on a full output channel (`WorkerBlocked`), on an empty input channel that is
still held, or in its final `pipeline.recv()` (`Awaiting`): `advance`. Each advance makes `todo`, or
with the same `todo` the `backlog`, smaller.

A job that is let go then comes to its end (`dropped_ends`). -/

namespace MediaApi.Pool.Progress

open MediaApi.Lib.Channel MediaApi.Lib.Transition MediaApi.Model.Audio MediaApi.Model.Pipeline
open MediaApi.Model.ProcessJob MediaApi.Model.Steps MediaApi.Pool.Forwarding MediaApi.Pool.Handle
open MediaApi.Pool.Script MediaApi.Pool.Survival

variable {ε : Type}

/-! ### The pipeline -/

/-- What happens to a pipeline: its thread acts, a `send` is accepted, a result is received. -/
inductive PipeLabel (ε : Type) where
  | act (a : PipeAct ε)
  | push (b : Bytes)
  | recv

def pipeStep (B : Behaviour ε) (p : Pipe ε) : PipeLabel ε → Option (Pipe ε)
  | .act a => p.step B a
  | .push b => if B.accepts p b then some (p.push b) else none
  | .recv => (pipeRecv p).map Prod.snd

/-- The thread acts, or one of its results is received. -/
def flowing (B : Behaviour ε) (p : Pipe ε) : Option (PipeAct ε) → Option (Pipe ε)
  | some a => p.step B a
  | none => (pipeRecv p).map Prod.snd

/-- The thread can come to its end while its results are received. -/
def CanEnd (B : Behaviour ε) (p : Pipe ε) : Prop :=
  ∃ p', Reach (flowing B) p p' ∧ p'.finished = true

/-- **The pipeline finishes once it is sent EOF.** -/
def EndsAfterEof (B : Behaviour ε) : Prop :=
  ∀ p, Reach (pipeStep B) {} p → [] ∈ p.accepted → CanEnd B p

/-- The thread can make room for the chunk `b`, without a result being received. -/
def MakesRoom (B : Behaviour ε) (p : Pipe ε) (b : Bytes) : Prop :=
  ∃ p', Reach (Pipe.step B) p p' ∧ B.accepts p' b = true

/-- The thread can come to its end and then refuse EOF. -/
def HasEnded (B : Behaviour ε) (p : Pipe ε) : Prop :=
  ∃ p', Reach (Pipe.step B) p p' ∧ p'.finished = true ∧ B.refuses p' [] = true

/-- What the worker sends in `s` the thread can make room for: a chunk that it retries, and EOF
unless the thread needs none. -/
structure Room (B : DecodeOptions → Behaviour ε) (s : Session ε) : Prop where
  retry : ∀ chunk, s.pc = .retry chunk → MakesRoom (B s.options) s.pipe chunk
  eof : s.pc = .sendEof → MakesRoom (B s.options) s.pipe [] ∨ HasEnded (B s.options) s.pipe

/-- The metrics of the job do not panic. -/
def Measures (s : Session ε) : Prop :=
  s.pipe.finished = true → audioMs s.options (tallyOf s.pipe.emitted) ≠ none

/-- A run of the thread neither accepts nor forgets a chunk, nor gives a result away. -/
theorem reach_pipe_accepted {B : Behaviour ε} {p p' : Pipe ε} (h : Reach (Pipe.step B) p p') :
    p'.accepted = p.accepted ∧ p'.given = p.given ∧ (p.finished = true → p'.finished = true) := by
  refine h.invariant (I := fun m => m.accepted = p.accepted ∧ m.given = p.given ∧
    (p.finished = true → m.finished = true)) ⟨rfl, rfl, id⟩ ?_
  rintro m a m' ⟨h1, h2, h3⟩ hs
  obtain ⟨hf, hacc, hcase⟩ := pipe_step_cases hs
  refine ⟨hacc.trans h1, ?_, fun hp => by rw [h3 hp] at hf; cases hf⟩
  rcases hcase with ⟨-, -, hem, hout, -⟩ | ⟨r, -, -, rfl⟩ | ⟨-, -, rfl⟩
  · unfold Pipe.emitted at hem
    rw [hout] at hem
    exact (List.append_cancel_right hem).trans h2
  · exact h2
  · exact h2

/-- Before the next result is received the thread can come to its end, or has a result. -/
theorem CanEnd.first {B : Behaviour ε} {p : Pipe ε} (h : CanEnd B p) :
    ∃ p', Reach (Pipe.step B) p p' ∧ (p'.finished = true ∨ p'.outbuf ≠ []) := by
  obtain ⟨p', ⟨ls, hr⟩, hf⟩ := h
  induction ls generalizing p with
  | nil =>
    cases hr
    exact ⟨p', Reach.refl p', Or.inl hf⟩
  | cons l ls ih =>
    obtain ⟨m, hs, hrest⟩ := run_cons_some.mp hr
    cases l with
    | none =>
      refine ⟨p, Reach.refl p, Or.inr fun hout => ?_⟩
      have hs : (pipeRecv p).map Prod.snd = some m := hs
      rw [pipeRecv_none.mpr hout] at hs
      cases hs
    | some a =>
      obtain ⟨p'', hr', hend⟩ := ih hrest
      exact ⟨p'', hr'.head hs, hend⟩

variable [ToString ε] {B : DecodeOptions → Behaviour ε} {options : DecodeOptions}
  {s s' : Session ε} {l : Label ε}

/-- The pipeline of a session. -/
theorem reach_pipe (h : Reach (Session.step B) (acquire options) s) :
    Reach (pipeStep (B options)) {} s.pipe := by
  refine h.rec_tail (P := fun s => Reach (pipeStep (B options)) {} s.pipe) (Reach.refl _) ?_
  intro m l m' hm hI hs
  have ho := reach_options hm
  cases step_cases hs with
  | worker h =>
    cases h with
    | forward r p hpc hp | forwardFinal r p hpc hp =>
      exact hI.tail (l := .recv) (by rw [pipeStep, hp]; rfl)
    | _ => exact hI
  | answer ok h =>
    rw [ho] at h
    cases h with
    | eofAccepted hpc hb => exact hI.tail (l := .push []) (by rw [pipeStep, if_pos hb])
    | accepted chunk hpc hb => exact hI.tail (l := .push chunk) (by rw [pipeStep, if_pos hb])
    | _ => exact hI
  | pipe a p hq hp => exact hI.tail (l := .act a) (by rw [pipeStep, ← ho]; exact hp)
  | client a h => cases h <;> exact hI

/-- A run of the thread, in the session. -/
theorem reach_with_pipe {p : Pipe ε} (hpc : s.pc ≠ .queued)
    (h : Reach (Pipe.step (B s.options)) s.pipe p) :
    Reach (Session.inner B) s { s with pipe := p } := by
  refine h.invariant (I := fun p => Reach (Session.inner B) s { s with pipe := p })
    (Reach.refl _) ?_
  intro p a p' hI hs
  refine hI.tail (l := .pipe a) ?_
  simp only [Session.inner, if_neg hpc, hs, Option.map_some]

/-! ### No panic -/

/-- **A job without a zero divisor does not panic.** -/
theorem Measures.not_panicked (hm : Measures s) (h : Reach (Session.step B) (acquire options) s) :
    s.pc.outcome ≠ some .panicked := by
  intro ho
  obtain ⟨htally, -, hp⟩ := reach_metered h
  obtain ⟨-, hf, hout⟩ := (reach_ending h).done (Or.inr (Or.inr ho))
  have hem : s.pipe.emitted = s.pipe.given := by rw [Pipe.emitted, hout, List.append_nil]
  apply hm hf
  rw [hem, ← htally]
  exact hp ho

/-! ### The work that is left -/

/-- What the job has still to do with its input: the chunks queued and the one being sent, EOF, and
the end of the pipeline. -/
def todo (s : Session ε) : ℕ :=
  3 * s.input.queue.length + 2 * s.pc.retrying.length + (if s.inputDone then 0 else 1) +
    if s.pipe.finished then 0 else 1

/-- How far a program point is from the next one that needs input. -/
def rank (inputDone : Bool) : Pc → ℕ
  | .queued => 7
  | .poll => if inputDone then 6 else 4
  | .sendEof => 3
  | .retry _ => 0
  | .drain => 5
  | .emit _ _ => 6
  | .final => 4
  | .metrics => 3
  | .dropInput _ => 2
  | .dropOutput _ => 1
  | .ended _ => 0

/-- What is still to do with the results that are left in the pipeline: each is forwarded, and then
received. -/
def backlog (left : Pipe ε → ℕ) (s : Session ε) : ℕ :=
  4 * (3 * left s.pipe + rank s.inputDone s.pc) + 3 * s.output.queue.length

/-- Less to do. -/
def Less (left : Pipe ε → ℕ) (s' s : Session ε) : Prop := Falls todo (backlog left) s' s

/-- A result that is received is no longer left in the pipeline. -/
def Drains (left : Pipe ε → ℕ) (p : Pipe ε) : Prop :=
  ∀ r p', pipeRecv p = some (r, p') → left p' < left p

/-- The results in the output buffer. -/
abbrev buffered (p : Pipe ε) : ℕ := p.outbuf.length

omit [ToString ε] in
theorem drains_buffered (p : Pipe ε) : Drains buffered p := fun r p' h => by
  rw [buffered, buffered, (pipeRecv_some h).1, List.length_cons]
  exact Nat.lt_succ_self _

/-- EOF is not lost: the pipeline has accepted the marker, or its thread has ended anyway. -/
def EofKept (s : Session ε) : Prop :=
  s.inputDone = true → [] ∈ s.pipe.accepted ∨ s.pipe.finished = true

/-- At the top of its loop the worker finds something. -/
def Fed (s : Session ε) : Prop :=
  s.pc = .poll → s.inputDone = true ∨ s.input.queue ≠ [] ∨ s.input.tx = false

omit [ToString ε] in
/-- With the same input and pipeline, less to do is a smaller backlog. -/
theorem Less.of_backlog {left : Pipe ε → ℕ} (hq : s'.input.queue = s.input.queue)
    (hr : s'.pc.retrying = s.pc.retrying) (hd : s'.inputDone = s.inputDone)
    (hf : s'.pipe.finished = s.pipe.finished)
    (ho : s'.output.queue.length ≤ s.output.queue.length + 1)
    (hb : 3 * left s'.pipe + rank s.inputDone s'.pc < 3 * left s.pipe + rank s.inputDone s.pc) :
    Less left s' s :=
  Or.inr ⟨by simp only [todo, hq, hr, hd, hf, le_refl], by simp only [backlog, hd]; omega⟩

/-- **A step of the worker** leaves less to do. -/
theorem less_worker {left : Pipe ε → ℕ} (hleft : Drains left s.pipe) (hfed : Fed s)
    (h : WorkerStep s s') : Less left s' s := by
  have hle : s.output.queue.length ≤ s.output.queue.length + 1 := Nat.le_succ _
  cases h with
  | start hpc => exact .of_backlog rfl (by simp [hpc, Pc.retrying]) rfl rfl hle (by
      cases hd : s.inputDone <;> simp [rank, hpc])
  | skip hpc hd => exact .of_backlog rfl (by simp [hpc, Pc.retrying]) rfl rfl hle (by
      simp [rank, hpc, hd])
  | eof c hpc hd hr | chunk b c hpc hd hr hb =>
    left
    have hq := (Chan.tryRecv_got hr).1
    simp only [todo, hq, hpc, Pc.retrying, List.length_cons, List.length_nil]
    omega
  | idle hpc hd hr =>
    obtain ⟨hq, htx⟩ := Chan.tryRecv_empty.mp hr
    rcases hfed hpc with h | h | h
    · rw [hd] at h; cases h
    · exact absurd hq h
    · rw [htx] at h; cases h
  | disconnected hpc hd hr => exact .of_backlog rfl (by simp [hpc, Pc.retrying]) rfl rfl hle (by
      simp [rank, hpc, hd])
  | forward r p hpc hp | forwardFinal r p hpc hp =>
    have hfin := (pipeRecv_some hp).2.2.2.2.2.2
    have hlt := hleft r p hp
    refine .of_backlog rfl (by simp [hpc, Pc.retrying]) rfl hfin hle ?_
    simp only [rank, hpc]
    omega
  | drained hpc hp =>
    refine .of_backlog rfl ?_ rfl rfl hle ?_ <;> cases hd : s.inputDone <;>
      simp [hpc, Pc.retrying, rank]
  | put i final c hpc hc =>
    have hq := (Chan.send_sent hc).2.2.1
    refine .of_backlog rfl ?_ rfl rfl (by simp [hq]) ?_ <;> cases final <;>
      simp [hpc, Pc.retrying, rank]
  | abort i final hpc hc | finish hpc hp hf | measure _ hpc hm | panic hpc hm | dropInput o hpc
  | dropOutput o hpc =>
    exact .of_backlog rfl (by simp [hpc, Pc.retrying]) rfl rfl hle (by simp [rank, hpc])

/-- The worker waits in its final `pipeline.recv()`. -/
structure Awaiting (s : Session ε) : Prop where
  pc : s.pc = .final
  outbuf : s.pipe.outbuf = []
  finished : s.pipe.finished = false

/-- Where the worker itself has no step. -/
theorem worker_none (h : s.worker = none) : s.pc = .sendEof ∨ (∃ chunk, s.pc = .retry chunk) ∨
    WorkerBlocked s ∨ Awaiting s ∨ ∃ o, s.pc = .ended o := by
  unfold Session.worker at h
  split at h
  · cases h
  · split_ifs at h
    split at h
    · split_ifs at h
    · cases h
    · cases h
  · next hpc => exact Or.inl hpc
  · next chunk hpc => exact Or.inr (Or.inl ⟨chunk, hpc⟩)
  · split at h <;> cases h
  · next i final hpc =>
    split at h
    · cases h
    · next hc => exact Or.inr (Or.inr (Or.inl ⟨⟨i, final, hpc⟩, Chan.send_blocked.mp hc⟩))
    · cases h
  · next hpc =>
    split at h
    · cases h
    · next hp =>
      split_ifs at h with hf
      exact Or.inr (Or.inr (Or.inr (Or.inl ⟨hpc, pipeRecv_none.mp hp, by simpa using hf⟩)))
  · split at h <;> cases h
  · cases h
  · cases h
  · next o hpc => exact Or.inr (Or.inr (Or.inr (Or.inr ⟨o, hpc⟩)))

theorem eofKept_worker (hkept : EofKept s) (h : WorkerStep s s') : EofKept s' := by
  cases h with
  | forward r p hpc hp | forwardFinal r p hpc hp =>
    obtain ⟨-, -, -, hacc, -, -, hfin⟩ := pipeRecv_some hp
    intro hd
    rw [hacc, hfin]
    exact hkept hd
  | _ => exact hkept

omit [ToString ε] in
/-- A run of the thread keeps EOF. -/
theorem EofKept.thread (hkept : EofKept s) {p : Pipe ε}
    (h : Reach (Pipe.step (B s.options)) s.pipe p) : EofKept { s with pipe := p } := by
  obtain ⟨hacc, -, hfin⟩ := reach_pipe_accepted h
  intro hd
  refine (hkept hd).imp (fun hm => ?_) hfin
  show [] ∈ p.accepted
  rw [hacc]
  exact hm

omit [ToString ε] in
/-- A thread that has ended stays so. -/
theorem finished_le {B : Behaviour ε} {p p' : Pipe ε} (h : Reach (Pipe.step B) p p') :
    (if p'.finished = true then 0 else 1) ≤ if p.finished = true then 0 else 1 := by
  have hfin := (reach_pipe_accepted h).2.2
  split_ifs <;> simp_all

/-- The send of EOF: the marker is accepted, or the thread has ended. -/
theorem advance_eof {left : Pipe ε → ℕ} (h : Reach (Session.step B) (acquire options) s)
    (hroom : Room B s) (hpc : s.pc = .sendEof) :
    ∃ s', Reach (Session.inner B) s s' ∧ EofKept s' ∧ Less left s' s := by
  have hd := (reach_input h).once hpc
  rcases hroom.eof hpc with ⟨p, hr, hb⟩ | ⟨p, hr, hf, hb⟩
  · have hs : ({ s with pipe := p } : Session ε).inner B (.answer true) =
        some { s with pipe := p.push [], inputDone := true, pc := .drain } := by
      simp [Session.inner, Session.answer, hpc, hb]
    refine ⟨_, (reach_with_pipe (by simp [hpc]) hr).tail hs, fun _ => Or.inl (by simp), Or.inl ?_⟩
    have hfin := finished_le hr
    have hle : (if (p.push []).finished = true then 0 else 1) ≤ _ := hfin
    simp only [todo, hpc, hd, Pc.retrying, List.length_nil, if_true, Bool.false_eq_true, if_false]
    omega
  · have hs : ({ s with pipe := p } : Session ε).inner B (.answer false) =
        some { s with pipe := p, inputDone := true, pc := .drain } := by
      simp [Session.inner, Session.answer, hpc, hb]
    refine ⟨_, (reach_with_pipe (by simp [hpc]) hr).tail hs, fun _ => Or.inr hf, Or.inl ?_⟩
    have hle := finished_le hr
    simp only [todo, hpc, hd, Pc.retrying, List.length_nil, if_true, Bool.false_eq_true, if_false]
    omega

/-- The send of a chunk that is retried. -/
theorem advance_retry {left : Pipe ε → ℕ} (hroom : Room B s) (hkept : EofKept s)
    {chunk : Bytes} (hpc : s.pc = .retry chunk) :
    ∃ s', Reach (Session.inner B) s s' ∧ EofKept s' ∧ Less left s' s := by
  obtain ⟨p, hr, hb⟩ := hroom.retry chunk hpc
  have hs : ({ s with pipe := p } : Session ε).inner B (.answer true) =
      some { s with pipe := p.push chunk, pc := .drain } := by
    simp [Session.inner, Session.answer, hpc, hb]
  refine ⟨_, (reach_with_pipe (by simp [hpc]) hr).tail hs, fun hd => ?_, Or.inl ?_⟩
  · refine (hkept.thread hr hd).imp (fun hm => ?_) id
    show [] ∈ (p.push chunk).accepted
    rw [push_accepted]
    exact List.mem_append_left _ hm
  · have hfin := finished_le hr
    have hle : (if (p.push chunk).finished = true then 0 else 1) ≤ _ := hfin
    simp only [todo, hpc, Pc.retrying, List.length_nil, List.length_singleton]
    omega

/-- **A job that is fed and whose output is not blocked gets on**, until it waits for the end of its
pipeline. -/
theorem advance {left : Pipe ε → ℕ} (hleft : Drains left s.pipe)
    (h : Reach (Session.step B) (acquire options) s) (hroom : Room B s) (hkept : EofKept s)
    (hfed : Fed s) (hout : ¬ WorkerBlocked s) (hwait : ¬ Awaiting s)
    (hend : ∀ o, s.pc ≠ .ended o) :
    ∃ s', Reach (Session.inner B) s s' ∧ EofKept s' ∧ Less left s' s := by
  cases hw : s.worker with
  | some s' =>
    have hstep : s.inner B .worker = some s' := hw
    exact ⟨s', .single hstep, eofKept_worker hkept (worker_cases hw),
      less_worker hleft hfed (worker_cases hw)⟩
  | none =>
    rcases worker_none hw with hpc | ⟨chunk, hpc⟩ | hb | ha | ⟨o, hpc⟩
    · exact advance_eof h hroom hpc
    · exact advance_retry hroom hkept hpc
    · exact absurd hb hout
    · exact absurd ha hwait
    · exact absurd hpc (hend o)

/-- **The wait for the pipeline ends**: its thread ends, or has a result. -/
theorem Awaiting.advance (ha : Awaiting s) (hend : CanEnd (B s.options) s.pipe) :
    ∃ p, Reach (Pipe.step (B s.options)) s.pipe p ∧
      Reach (Session.inner B) s { s with pipe := p } ∧
      (p.finished = true ∨ p.outbuf ≠ []) := by
  obtain ⟨p, hr, hp⟩ := hend.first
  exact ⟨p, hr, reach_with_pipe (by simp [ha.pc]) hr, hp⟩

/-! ### The end of a job -/

/-- A job is over when the receiver of its input is gone, or about to be. -/
theorem reach_gone (h : Reach (Session.step B) (acquire options) s) :
    (∃ o, s.pc = .dropOutput o ∨ s.pc = .ended o) → s.input.rx = false := by
  refine h.invariant (I := fun s => (∃ o, s.pc = .dropOutput o ∨ s.pc = .ended o) →
    s.input.rx = false) (by rintro ⟨o, h | h⟩ <;> cases h) ?_
  intro s l s' hI hs
  cases step_cases hs with
  | worker h =>
    cases h with
    | dropInput => exact fun _ => rfl
    | dropOutput o hpc => exact fun _ => hI ⟨o, Or.inl hpc⟩
    | drained | put =>
      rintro ⟨o, h | h⟩ <;> · dsimp only at h; split at h <;> cases h
    | _ => rintro ⟨o, h | h⟩ <;> cases h
  | answer ok h =>
    cases h with
    | refused => exact hI
    | _ => rintro ⟨o, h | h⟩ <;> cases h
  | pipe => exact hI
  | client a h =>
    cases h with
    | send data c htx hc => exact fun h => (Chan.send_sent hc).2.2.2.2.trans (hI h)
    | _ => exact hI

/-- A job whose outcome is settled comes to its end. -/
theorem settled_ends {o : Outcome} (ho : s.pc.outcome = some o) :
    ∃ s', Reach (Session.inner B) s s' ∧ s'.pc = .ended o := by
  have hlast : ∀ {m : Session ε}, m.pc = .dropOutput o →
      ∃ s', Reach (Session.inner B) m s' ∧ s'.pc = .ended o := by
    intro m hm
    refine ⟨{ m with output := m.output.dropTx, pc := .ended o }, .single (l := .worker) ?_, rfl⟩
    simp [Session.inner, Session.worker, hm]
  cases hpc : s.pc with
  | dropInput o' =>
    rw [hpc] at ho
    cases ho
    have hs : s.inner B .worker = some { s with input := s.input.dropRx, pc := .dropOutput o } := by
      simp [Session.inner, Session.worker, hpc]
    obtain ⟨s', hr, hs'⟩ := hlast (m := { s with input := s.input.dropRx, pc := .dropOutput o }) rfl
    exact ⟨s', hr.head hs, hs'⟩
  | dropOutput o' =>
    rw [hpc] at ho
    cases ho
    exact hlast hpc
  | ended o' =>
    rw [hpc] at ho
    cases ho
    exact ⟨s, Reach.refl s, hpc⟩
  | _ => rw [hpc] at ho; cases ho

/-- A worker with a result that nobody receives any more aborts. -/
theorem aborts {r : Decoded ε} {p : Pipe ε} (hpc : s.pc = .final)
    (hp : pipeRecv s.pipe = some (r, p)) (hrx : s.output.rx = false) :
    ∃ s', Reach (Session.inner B) s s' ∧ s'.pc.outcome = some (.aborted (mapErr r)) := by
  have h1 : s.inner B .worker =
      some { s with pipe := p, tally := s.tally.add r, pc := .emit (mapErr r) true } := by
    simp [Session.inner, Session.worker, hpc, hp]
  have h2 : ({ s with pipe := p, tally := s.tally.add r, pc := .emit (mapErr r) true } :
      Session ε).inner B .worker = some { s with
        pipe := p, tally := s.tally.add r, pc := .dropInput (.aborted (mapErr r)) } := by
    have hung : s.output.send (mapErr r) = .hungUp := Chan.send_hungUp.mpr hrx
    simp [Session.inner, Session.worker, hung]
  exact ⟨_, (Reach.single h1).tail h2, rfl⟩

/-- **A job whose handle is dropped comes to its end.** -/
theorem dropped_ends (hB : EndsAfterEof (B options))
    (h : Reach (Session.step B) (acquire options) s)
    (hroom : ∀ s', Reach (Session.inner B) s s' → Room B s') (hkept : EofKept s)
    (hholds : Holds .dropped s) :
    ∃ s' o, Reach (Session.inner B) s s' ∧ s'.pc = .ended o := by
  obtain ⟨m, hr, o, ho⟩ := Reach.of_wellFounded_or
    (I := fun m => Reach (Session.inner B) s m ∧ EofKept m ∧ Holds .dropped m)
    (G := fun m => ∃ o, m.pc.outcome = some o) (falls_wf todo (backlog buffered)) (by
      rintro m ⟨hr, hk, hh⟩ hgoal
      have hm := h.trans (inners_reach hr)
      have hholds : ∀ {m'}, Reach (Session.inner B) m m' → Holds .dropped m' := fun hr' =>
        hr'.invariant hh fun _ _ _ hh h => inner_holds hh h
      by_cases ha : Awaiting m
      · have hd := (reach_ending hm).final (Or.inl ha.pc)
        have hacc := (hk hd).resolve_right (by simp [ha.finished])
        have ho := reach_options hm
        obtain ⟨p, hp, hr', hnext⟩ := ha.advance
          (by rw [ho]; exact hB m.pipe (reach_pipe hm) hacc)
        rcases hnext with hf | hout
        · refine ⟨_, hr', Or.inr ⟨⟨hr.trans hr', hk.thread hp, hholds hr'⟩, Or.inl ?_⟩⟩
          simp [todo, ha.finished, hf]
        · obtain ⟨r, rest, hcons⟩ := List.exists_cons_of_ne_nil hout
          have hrecv : pipeRecv p =
              some (r, { p with given := p.given ++ [r], outbuf := rest }) := by
            simp [pipeRecv, hcons]
          obtain ⟨m', hr'', hab⟩ := aborts (B := B) (s := { m with pipe := p }) ha.pc hrecv hh.2
          exact ⟨m', hr'.trans hr'', Or.inl ⟨_, hab⟩⟩
      · obtain ⟨m', hr', hk', hless⟩ := advance (drains_buffered m.pipe) hm (hroom m hr) hk
          (fun _ => Or.inr (Or.inr hh.1)) (fun hb => Bool.noConfusion (hh.2.symm.trans hb.2.1)) ha
          (fun o ho => hgoal ⟨o, by rw [ho]; rfl⟩)
        exact ⟨m', hr', Or.inr ⟨⟨hr.trans hr', hk', hholds hr'⟩, hless⟩⟩)
    ⟨Reach.refl s, hkept, hholds⟩
  obtain ⟨s', hr', hs'⟩ := settled_ends (B := B) ho
  exact ⟨s', o, hr.trans hr', hs'⟩

end MediaApi.Pool.Progress
