import MediaApi.Pool.Progress

/-! # The retry loop for a full pipeline

`process_job` sends a data chunk again and again while `pipeline.send` fails. The loop does nothing
else: it receives no result, does not ask why `send` fails and does not look at its holder.
`Bounded` is a pipeline whose thread stands between two bounded buffers: it takes a chunk, places
the results of that chunk one after another, and takes the next; it may end at any time.

The loop can be left exactly when the thread is alive and the input buffer has room, or what the
thread has still to place fits into the output buffer (`leaves_iff`). So it can always be left if
the thread has never more to place than that (`room_of_brief`), as a `relay` that gives few results
for each chunk. -/

namespace MediaApi.Pool.Retry

open MediaApi.Lib.Transition MediaApi.Model.Audio MediaApi.Model.Pipeline MediaApi.Model.ProcessJob
open MediaApi.Model.Steps MediaApi.Pool.EndOfInput MediaApi.Pool.Forwarding MediaApi.Pool.Handle
open MediaApi.Pool.Progress MediaApi.Pool.Survival

variable {ε : Type}

/-! ### A pipeline between two buffers -/

/-- A pipeline with an input buffer of `capIn` chunks and an output buffer of `capOut` results,
whose thread has still to place `pending` results before it is ready for its next chunk. -/
structure Bounded (B : Behaviour ε) (capIn capOut : ℕ) (pending : Pipe ε → ℕ) : Prop where
  accepts : ∀ p b, B.accepts p b = true ↔ p.finished = false ∧ p.inbuf.length < capIn
  refuses : ∀ p b, B.refuses p b = true ↔ p.finished = true ∨ capIn ≤ p.inbuf.length
  takes : ∀ p, pending p = 0 → B.takes p = true
  /-- The thread takes nothing while it has a result to place and the output buffer is full. -/
  waits : ∀ p, B.takes p = true → ¬ (0 < pending p ∧ capOut ≤ p.outbuf.length)
  emits : ∀ p r, B.emits p r = true → 0 < pending p ∧ p.outbuf.length < capOut
  places : ∀ p, 0 < pending p → p.outbuf.length < capOut → ∃ r, B.emits p r = true
  placed : ∀ p r, B.emits p r = true → pending { p with outbuf := p.outbuf ++ [r] } + 1 = pending p

/-- The thread takes a chunk only when all results of the one before are placed. -/
def InTurn (B : Behaviour ε) (pending : Pipe ε → ℕ) : Prop := ∀ p, B.takes p = true → pending p = 0

/-- The input buffer has room, or what the thread has still to place fits into the output buffer. -/
def Fits (capIn capOut : ℕ) (pending : Pipe ε → ℕ) (p : Pipe ε) : Prop :=
  p.inbuf.length < capIn ∨ pending p + p.outbuf.length ≤ capOut

variable [ToString ε] {B : DecodeOptions → Behaviour ε} {options : DecodeOptions}
  {capIn capOut : ℕ} {pending : Pipe ε → ℕ} {s s' : Session ε} {chunk : Bytes}

/-- No buffer holds more than its capacity. -/
theorem reach_buffers (hB : Bounded (B options) capIn capOut pending)
    (h : Reach (Session.step B) (acquire options) s) :
    s.pipe.inbuf.length ≤ capIn ∧ s.pipe.outbuf.length ≤ capOut := by
  refine (reach_pipe h).invariant (I := fun p => p.inbuf.length ≤ capIn ∧ p.outbuf.length ≤ capOut)
    ⟨Nat.zero_le _, Nat.zero_le _⟩ ?_
  rintro p l p' ⟨hin, hout⟩ hs
  cases l with
  | act a =>
    obtain ⟨-, -, ⟨-, -, -, ho, -, b, hb, -⟩ | ⟨r, -, hr, rfl⟩ | ⟨-, -, rfl⟩⟩ := pipe_step_cases hs
    · rw [hb, List.length_cons] at hin
      exact ⟨by omega, by rw [ho]; exact hout⟩
    · have := (hB.emits p r hr).2
      exact ⟨hin, by rw [List.length_append, List.length_singleton]; omega⟩
    · exact ⟨hin, hout⟩
  | push b =>
    simp only [pipeStep] at hs
    split_ifs at hs with hb
    cases hs
    have := ((hB.accepts p b).mp hb).2
    exact ⟨by simp only [Pipe.push, List.length_append, List.length_singleton]; omega, hout⟩
  | recv =>
    obtain ⟨⟨r, q⟩, hq, rfl⟩ := Option.map_eq_some_iff.mp hs
    obtain ⟨ho, -, -, -, -, hi, -⟩ := pipeRecv_some hq
    rw [ho, List.length_cons] at hout
    refine ⟨by rw [hi]; exact hin, ?_⟩
    show q.outbuf.length ≤ capOut
    omega

omit [ToString ε] in
/-- A step of the thread keeps the room, or makes it. -/
theorem fits_step {B : Behaviour ε} (hB : Bounded B capIn capOut pending) {p p' : Pipe ε}
    {a : PipeAct ε} (hin : p.inbuf.length ≤ capIn) (h : Fits capIn capOut pending p)
    (hs : p.step B a = some p') (ha : a ≠ .finish) : Fits capIn capOut pending p' := by
  obtain ⟨-, -, ⟨-, -, -, -, -, b, hb, -⟩ | ⟨r, -, hb, rfl⟩ | ⟨rfl, -, -⟩⟩ := pipe_step_cases hs
  · -- a chunk was taken, so the input buffer has room
    rw [hb, List.length_cons] at hin
    exact Or.inl hin
  · refine h.imp id fun hplace => ?_
    have hless := hB.placed _ _ hb
    simp only [List.length_append, List.length_singleton]
    omega
  · exact absurd rfl ha

/-! ### Where the loop can be left -/

/-- Some continuation leaves the loop. -/
def Leaves (B : DecodeOptions → Behaviour ε) (s : Session ε) : Prop :=
  ∃ s', Reach (Session.step B) s s' ∧ ∀ chunk, s'.pc ≠ .retry chunk

omit [ToString ε] in
/-- The thread makes room in the input buffer by itself. -/
theorem makes_room (hcap : 1 ≤ capIn) {B : Behaviour ε} (hB : Bounded B capIn capOut pending)
    {p : Pipe ε} (hf : p.finished = false) (hin : p.inbuf.length ≤ capIn)
    (hfits : Fits capIn capOut pending p) :
    ∃ p', Reach (Pipe.step B) p p' ∧ p'.finished = false ∧ p'.inbuf.length < capIn := by
  by_cases hroom : p.inbuf.length < capIn
  · exact ⟨p, Reach.refl p, hf, hroom⟩
  · have hplace := hfits.resolve_left hroom
    -- place what is pending, then take a chunk
    induction hn : pending p generalizing p with
    | zero =>
      obtain ⟨b, rest, hb⟩ : ∃ b rest, p.inbuf = b :: rest :=
        List.exists_cons_of_length_pos (by omega)
      have htakes := hB.takes p hn
      refine ⟨{ p with taken := p.taken ++ [b], inbuf := rest }, .single (l := .take) ?_, hf, ?_⟩
      · simp [Pipe.step, hb, hf, htakes]
      · rw [hb, List.length_cons] at hin
        exact hin
    | succ n ih =>
      obtain ⟨r, hr⟩ := hB.places p (by omega) (by omega)
      have hless := hB.placed p r hr
      have hs : p.step B (.emit r) = some { p with outbuf := p.outbuf ++ [r] } := by
        simp [Pipe.step, hf, hr]
      have hplace' : pending { p with outbuf := p.outbuf ++ [r] } + (p.outbuf ++ [r]).length ≤
          capOut := by
        rw [List.length_append, List.length_singleton]
        omega
      obtain ⟨p', hp', h1, h2⟩ := ih (p := { p with outbuf := p.outbuf ++ [r] }) hf hin
        (Or.inr hplace') hroom hplace' (by omega)
      exact ⟨p', hp'.head hs, h1, h2⟩

/-- A worker whose pipeline is alive and can make room leaves the loop. -/
theorem leaves_of_fits (hcap : 1 ≤ capIn) (hB : Bounded (B options) capIn capOut pending)
    (h : Reach (Session.step B) (acquire options) s) (hpc : s.pc = .retry chunk)
    (hf : s.pipe.finished = false) (hfits : Fits capIn capOut pending s.pipe) : Leaves B s := by
  have ho := reach_options h
  obtain ⟨p, hp, hf', hroom⟩ := makes_room hcap hB hf (reach_buffers hB h).1 hfits
  have hacc := (hB.accepts p chunk).mpr ⟨hf', hroom⟩
  have hs : ({ s with pipe := p } : Session ε).inner B (.answer true) =
      some { s with pipe := p.push chunk, pc := .drain } := by
    simp [Session.inner, Session.answer, hpc, ho, hacc]
  have hr : Reach (Session.inner B) s { s with pipe := p.push chunk, pc := .drain } :=
    (reach_with_pipe (by rw [hpc]; simp) (by rw [ho]; exact hp)).tail hs
  exact ⟨_, inners_reach hr, by simp⟩

/-- A pipeline that never accepts a chunk again while its results stay where they are: its thread
has ended, or cannot place a result and has no room for input. -/
def Jammed (capIn capOut : ℕ) (pending : Pipe ε → ℕ) (p : Pipe ε) : Prop :=
  p.finished = true ∨ capIn ≤ p.inbuf.length ∧ capOut < pending p + p.outbuf.length

omit [ToString ε] in
theorem jammed_step {B : Behaviour ε} (hB : Bounded B capIn capOut pending)
    (hturn : InTurn B pending)
    {p p' : Pipe ε} {a : PipeAct ε} (hout : p.outbuf.length ≤ capOut)
    (h : Jammed capIn capOut pending p) (hs : p.step B a = some p') :
    Jammed capIn capOut pending p' ∧ p'.outbuf.length ≤ capOut := by
  obtain ⟨hf, -, ⟨-, hb, -⟩ | ⟨r, -, hb, rfl⟩ | ⟨-, -, rfl⟩⟩ := pipe_step_cases hs
  · have hp := hturn p hb
    rcases h with h | ⟨-, h⟩
    · rw [hf] at h; cases h
    · omega
  · have hless := hB.placed p r hb
    have hroom := (hB.emits p r hb).2
    rcases h with h | ⟨hin, h⟩
    · rw [hf] at h; cases h
    · refine ⟨Or.inr ⟨hin, ?_⟩, ?_⟩ <;> simp only [List.length_append, List.length_singleton] <;>
        omega
  · exact ⟨Or.inl rfl, hout⟩

/-- In the loop the worker waits for the answer to its `send`. -/
theorem no_worker (hpc : s.pc = .retry chunk) : ¬ WorkerStep s s' := by
  intro h
  cases h with
  | start hpc' | skip hpc' | eof c hpc' | chunk b c hpc' | idle hpc' | disconnected hpc'
  | forward r p hpc' | drained hpc' | put i final c hpc' | abort i final hpc'
  | forwardFinal r p hpc' | finish hpc' | measure ms hpc' | panic hpc' | dropInput o hpc'
  | dropOutput o hpc' => rw [hpc] at hpc'; cases hpc'

/-- **A worker in the loop before a jammed pipeline never leaves it.** -/
theorem not_leaves_of_jammed (hB : Bounded (B options) capIn capOut pending)
    (hturn : InTurn (B options) pending) (h : Reach (Session.step B) (acquire options) s)
    (hpc : s.pc = .retry chunk) (hjam : Jammed capIn capOut pending s.pipe) : ¬ Leaves B s := by
  rintro ⟨s', hr, hout⟩
  have key := hr.invariant (I := fun m => m.options = options ∧ m.pc = .retry chunk ∧
    Jammed capIn capOut pending m.pipe ∧ m.pipe.outbuf.length ≤ capOut)
    ⟨reach_options h, hpc, hjam, (reach_buffers hB h).2⟩ (by
      rintro m l m' ⟨ho, hpc, hjam, hlen⟩ hs
      cases step_cases hs with
      | worker h => exact absurd h (no_worker hpc)
      | answer ok h =>
        cases h with
        | accepted b hpc' hb =>
          rw [ho] at hb
          obtain ⟨hf, hroom⟩ := (hB.accepts _ _).mp hb
          rcases hjam with hjam | ⟨hjam, -⟩
          · rw [hf] at hjam; cases hjam
          · omega
        | eofAccepted hpc' | eofRefused hpc' => rw [hpc] at hpc'; cases hpc'
        | refused => exact ⟨ho, hpc, hjam, hlen⟩
      | pipe a p hq hp =>
        rw [ho] at hp
        obtain ⟨h1, h2⟩ := jammed_step hB hturn hlen hjam hp
        exact ⟨ho, hpc, h1, h2⟩
      | client a h => cases h <;> exact ⟨ho, hpc, hjam, hlen⟩)
  exact hout chunk key.2.1

/-- **Where the loop can be left**, by a worker whose pipeline takes its chunks in turn. -/
theorem leaves_iff (hcap : 1 ≤ capIn) (hB : Bounded (B options) capIn capOut pending)
    (hturn : InTurn (B options) pending) (h : Reach (Session.step B) (acquire options) s)
    (hpc : s.pc = .retry chunk) :
    Leaves B s ↔ s.pipe.finished = false ∧ Fits capIn capOut pending s.pipe := by
  constructor
  · intro hl
    by_contra hn
    refine not_leaves_of_jammed hB hturn h hpc ?_ hl
    cases hf : s.pipe.finished with
    | true => exact Or.inl hf
    | false =>
      have hfits : ¬ Fits capIn capOut pending s.pipe := fun hfits => hn ⟨hf, hfits⟩
      simp only [Fits, not_or, Nat.not_lt, Nat.not_le] at hfits
      exact Or.inr hfits
  · rintro ⟨hf, hfits⟩
    exact leaves_of_fits hcap hB h hpc hf hfits

/-! ### Runs -/

/-- When the worker takes a data chunk its pipeline is alive and has room for it, or makes room by
itself; and the thread does not end while the worker is in the loop. -/
def Careful (capIn capOut : ℕ) (pending : Pipe ε → ℕ) (s : Session ε) (l : Label ε) : Prop :=
  (l = .inner .worker → s.pc = .poll → s.inputDone = false →
    (∃ b ∈ s.input.queue.head?, b ≠ []) →
    s.pipe.finished = false ∧ Fits capIn capOut pending s.pipe) ∧
  (l = .inner (.pipe .finish) → s.pc.retrying = [])

instance (p : Pipe ε) : Decidable (Fits capIn capOut pending p) :=
  inferInstanceAs (Decidable (_ ∨ _))

instance [DecidableEq ε] (s : Session ε) (l : Label ε) :
    Decidable (Careful capIn capOut pending s l) := inferInstanceAs (Decidable (_ ∧ _))

/-- A worker in the loop has a pipeline that lets it out. -/
def Free (capIn capOut : ℕ) (pending : Pipe ε → ℕ) (s : Session ε) : Prop :=
  ∀ chunk, s.pc = .retry chunk → s.pipe.finished = false ∧ Fits capIn capOut pending s.pipe

/-- **A careful step** keeps the way out of the loop. -/
theorem free_step {l : Label ε} (hB : Bounded (B options) capIn capOut pending)
    (hr : Reach (Session.step B) (acquire options) s) (h : Free capIn capOut pending s)
    (hok : Careful capIn capOut pending s l) (hs : s.step B l = some s') :
    Free capIn capOut pending s' := by
  have hbuf := reach_buffers hB hr
  have ho := reach_options hr
  intro chunk hpc'
  cases step_cases hs with
  | worker hw =>
    cases hw with
    | chunk b c hpc hd hrecv hb =>
      have hq := (Lib.Channel.Chan.tryRecv_got hrecv).1
      exact hok.1 rfl hpc hd ⟨b, by rw [hq]; rfl, hb⟩
    | drained hpc => dsimp only at hpc'; split_ifs at hpc'
    | put i final c hpc => dsimp only at hpc'; split_ifs at hpc'
    | _ => cases hpc'
  | answer ok ha =>
    cases ha with
    | refused b hpc hb => exact h chunk hpc'
    | _ => cases hpc'
  | pipe a p hq hp =>
    have hpc : s.pc = .retry chunk := hpc'
    obtain ⟨hf, hfits⟩ := h chunk hpc
    rw [ho] at hp
    have ha : a ≠ .finish := by
      rintro rfl
      have hno := hok.2 rfl
      rw [hpc] at hno
      cases hno
    refine ⟨?_, fits_step hB hbuf.1 hfits hp ha⟩
    obtain ⟨-, -, ⟨-, -, -, -, hf', -⟩ | ⟨r, -, -, rfl⟩ | ⟨hfin, -, -⟩⟩ := pipe_step_cases hp
    · exact hf'
    · exact hf
    · exact absurd hfin ha
  | client a ha => cases ha <;> exact h chunk hpc'

/-- **A step to a state with a way out** is careful. -/
theorem careful_of_free {l : Label ε} (hs : s.step B l = some s')
    (h : Free capIn capOut pending s') : Careful capIn capOut pending s l := by
  constructor
  · rintro rfl hpc hd ⟨b, hq, hb⟩
    obtain ⟨rest, hq⟩ := List.head?_eq_some_iff.mp hq
    obtain ⟨c, hc, -⟩ := Lib.Channel.Chan.tryRecv_of_cons hq
    have hstep : s.step B (.inner .worker) = some { s with
        input := c, taken := s.taken ++ [b], inputBytes := s.inputBytes + b.length,
        pc := .retry b } := by
      simp [Session.step, Session.inner, Session.worker, hpc, hd, hc, hb]
    rw [hs] at hstep
    cases hstep
    exact h b rfl
  · rintro rfl
    obtain ⟨p, rfl, hf⟩ : ∃ p, s' = { s with pipe := p } ∧ p.finished = true := by
      cases step_cases hs with
      | pipe a p hq hp =>
        obtain ⟨-, -, ⟨ha, -⟩ | ⟨r, ha, -⟩ | ⟨-, -, rfl⟩⟩ := pipe_step_cases hp
        · cases ha
        · cases ha
        · exact ⟨_, rfl, rfl⟩
    by_contra hne
    obtain ⟨chunk, hpc⟩ : ∃ chunk, s.pc = .retry chunk := by
      cases hp : s.pc <;> simp_all [Pc.retrying]
    have halive := (h chunk hpc).1
    rw [hf] at halive
    cases halive

/-- **The retry loop can always be left** in a run whose steps are careful, for every pipeline
between two bounded buffers; and only in such a run, if the pipeline takes its chunks in turn. -/
theorem retry_leaves (capIn capOut : ℕ) (hcap : 1 ≤ capIn) (B : DecodeOptions → Behaviour ε)
    (options : DecodeOptions) (pending : Pipe ε → ℕ)
    (hB : Bounded (B options) capIn capOut pending) (ls : List (Label ε)) (s : Session ε)
    (h : run (Session.step B) (acquire options) ls = some s) :
    (Meets (Session.step B) (Careful capIn capOut pending) (acquire options) ls →
      ∀ ls₁ ls₂ m chunk, ls = ls₁ ++ ls₂ → run (Session.step B) (acquire options) ls₁ = some m →
        m.pc = .retry chunk → Leaves B m) ∧
    (InTurn (B options) pending →
      (∀ ls₁ ls₂ m chunk, ls = ls₁ ++ ls₂ → run (Session.step B) (acquire options) ls₁ = some m →
        m.pc = .retry chunk → Leaves B m) →
      Meets (Session.step B) (Careful capIn capOut pending) (acquire options) ls) := by
  constructor
  · rintro hmeets ls₁ ls₂ m chunk rfl hm hpc
    have hI := run_invariant (I := fun m => Reach (Session.step B) (acquire options) m ∧
      Free capIn capOut pending m) (fun m l m' hI hok hs =>
        ⟨hI.1.tail hs, free_step hB hI.1 hI.2 hok hs⟩) hm hmeets.of_append
      ⟨Reach.refl _, fun chunk hpc => by cases hpc⟩
    obtain ⟨hf, hfits⟩ := hI.2 chunk hpc
    exact leaves_of_fits hcap hB hI.1 hpc hf hfits
  · intro hturn hleaves
    refine meets_of_steps h fun ls₁ l ls₂ m m' hls hm hm' => ?_
    have hr' : run (Session.step B) (acquire options) (ls₁ ++ [l]) = some m' := run_concat hm hm'
    have hreach := reach_of_run hr'
    have hfree : Free capIn capOut pending m' := fun chunk hpc =>
      (leaves_iff hcap hB hturn hreach hpc).mp
        (hleaves (ls₁ ++ [l]) ls₂ m' chunk (by rw [hls]; simp) hr' hpc)
    exact careful_of_free hm' hfree

/-! ### A pipeline that always makes room -/

/-- The thread has never more to place than its output buffer holds. -/
def Brief (B : Behaviour ε) (capOut : ℕ) (pending : Pipe ε → ℕ) : Prop :=
  ∀ p, Reach (pipeStep B) {} p → pending p ≤ capOut

/-- The worker has found the output buffer empty and is at its next send, or on the way there. -/
def BeforeSend (s : Session ε) : Prop :=
  s.pc = .queued ∨ (s.pc = .poll ∧ s.inputDone = false) ∨ s.pc = .sendEof ∨
    ∃ chunk, s.pc = .retry chunk

omit [ToString ε] in
/-- EOF has not been accepted then. -/
theorem BeforeSend.eof_notMem (hi : Input s) (h : BeforeSend s) (hq : s.pc ≠ .queued) :
    [] ∉ s.pipe.accepted := by
  rcases h with hpc | ⟨hpc, hd⟩ | h
  · exact absurd hpc hq
  · have hat : ¬ AtEof s := by simp [AtEof, hpc, hd]
    rw [← hi.data hat]
    exact nil_notMem_chunks _
  · exact hi.eof_notMem h

/-- **At a send the thread can make room**, if it has never more to place than its output buffer
holds. -/
theorem reach_fits (hcap : 1 ≤ capIn) (hB : Bounded (B options) capIn capOut pending)
    (hbrief : Brief (B options) capOut pending) (hend : ∀ o, FinishesAfterEof (B o))
    (h : Reach (Session.step B) (acquire options) s) :
    BeforeSend s → Fits capIn capOut pending s.pipe := by
  refine h.rec_tail (P := fun s => BeforeSend s → Fits capIn capOut pending s.pipe)
    (fun _ => Or.inl hcap) ?_
  intro m l m' hm hI hs hsend
  have hm' := hm.tail hs
  cases step_cases hs with
  | worker h =>
    cases h with
    | start hpc => exact hI (Or.inl hpc)
    | eof c hpc hd | chunk b c hpc hd | disconnected hpc hd =>
      exact hI (Or.inr (Or.inl ⟨hpc, hd⟩))
    | drained hpc hp =>
      refine Or.inr ?_
      rw [pipeRecv_none.mp hp]
      exact hbrief m.pipe (reach_pipe hm)
    | put i final c hpc => cases final <;> simp [BeforeSend] at hsend
    | skip hpc hd => simp [BeforeSend] at hsend
    | _ => simp [BeforeSend] at hsend
  | answer ok h =>
    cases h with
    | refused chunk hpc => exact hI (Or.inr (Or.inr (Or.inr ⟨chunk, hpc⟩)))
    | _ => simp [BeforeSend] at hsend
  | pipe a p hq hp =>
    have hbuf := reach_buffers hB hm
    rw [reach_options hm] at hp
    refine fits_step hB hbuf.1 (hI hsend) hp ?_
    rintro rfl
    obtain ⟨-, -, ⟨hf, -⟩ | ⟨r, hf, -⟩ | ⟨-, -, rfl⟩⟩ := pipe_step_cases hp
    · cases hf
    · cases hf
    · exact hsend.eof_notMem (reach_input hm') hq (reach_finished hend hm' rfl)
  | client a h => cases h <;> exact hI hsend

/-- **Such a pipeline has room for all that the worker sends.** -/
theorem room_of_brief (hcap : 1 ≤ capIn) (hB : Bounded (B options) capIn capOut pending)
    (hbrief : Brief (B options) capOut pending) (hend : ∀ o, FinishesAfterEof (B o))
    (h : Reach (Session.step B) (acquire options) s) : Room B s := by
  have hmakes : ∀ b, (s.pc = .sendEof ∨ ∃ chunk, s.pc = .retry chunk) →
      MakesRoom (B s.options) s.pipe b := by
    intro b hpc
    have hsend : BeforeSend s := Or.inr (Or.inr hpc)
    have hf : s.pipe.finished = false := by
      by_contra hf
      exact (reach_input h).eof_notMem hpc (reach_finished hend h (by simpa using hf))
    obtain ⟨p, hp, hf', hroom⟩ := makes_room hcap hB hf (reach_buffers hB h).1
      (reach_fits hcap hB hbrief hend h hsend)
    rw [reach_options h]
    exact ⟨p, hp, (hB.accepts p b).mpr ⟨hf', hroom⟩⟩
  exact ⟨fun chunk hpc => hmakes chunk (Or.inr ⟨chunk, hpc⟩),
    fun hpc => Or.inl (hmakes [] (Or.inl hpc))⟩

/-! ### A decoder thread -/

section relay

variable {ε : Type}

/-- A pipeline whose thread gives the results `out` for the chunks it has taken, in turn, and ends
when `ends` says so of these chunks. -/
def relay [DecidableEq ε] (capIn capOut : ℕ) (out : List Bytes → List (Decoded ε))
    (ends : List Bytes → Bool) : Behaviour ε where
  accepts p _ := !p.finished && p.inbuf.length < capIn
  refuses p _ := p.finished || capIn ≤ p.inbuf.length
  takes p := (out p.taken).length ≤ p.emitted.length
  emits p r := p.outbuf.length < capOut && (out p.taken)[p.emitted.length]? = some r
  finishes p := ends p.taken

/-- The results the thread has still to place. -/
def unplaced (out : List Bytes → List (Decoded ε)) (p : Pipe ε) : ℕ :=
  (out p.taken).length - p.emitted.length

variable [DecidableEq ε] {capIn capOut : ℕ} {out : List Bytes → List (Decoded ε)}
  {ends : List Bytes → Bool} {p : Pipe ε}

theorem relay_inTurn : InTurn (relay capIn capOut out ends) (unplaced out) := by
  intro p h
  have : (out p.taken).length ≤ p.emitted.length := by simpa [relay] using h
  unfold unplaced
  omega

theorem relay_bounded : Bounded (relay capIn capOut out ends) capIn capOut (unplaced out) where
  accepts p b := by simp [relay]
  refuses p b := by simp [relay]
  takes p h := by
    have : (out p.taken).length ≤ p.emitted.length := Nat.sub_eq_zero_iff_le.mp h
    simpa [relay] using this
  waits p h := by rw [relay_inTurn p h]; simp
  emits p r h := by
    simp only [relay, Bool.and_eq_true, decide_eq_true_eq] at h
    obtain ⟨hlt, -⟩ := List.getElem?_eq_some_iff.mp h.2
    exact ⟨Nat.sub_pos_of_lt hlt, h.1⟩
  places p hpos hroom := by
    have hlt : p.emitted.length < (out p.taken).length := Nat.sub_pos_iff_lt.mp hpos
    exact ⟨(out p.taken)[p.emitted.length], by simp [relay, hroom, hlt]⟩
  placed p r h := by
    simp only [relay, Bool.and_eq_true, decide_eq_true_eq] at h
    obtain ⟨hlt, -⟩ := List.getElem?_eq_some_iff.mp h.2
    simp only [unplaced, Pipe.emitted, List.length_append, List.length_singleton] at hlt ⊢
    omega

/-- **A relay is brief** if no chunk gives more results than its output buffer holds. -/
theorem relay_brief (h0 : out [] = [])
    (hout : ∀ taken b, (out (taken ++ [b])).length ≤ (out taken).length + capOut) :
    Brief (relay capIn capOut out ends) capOut (unplaced out) := by
  intro p h
  refine h.invariant (I := fun p => unplaced out p ≤ capOut) (by simp [unplaced, h0]) ?_
  intro m l m' hI hs
  cases l with
  | act a =>
    obtain ⟨-, -, ⟨-, hb, hem, -, -, b, -, htaken⟩ | ⟨r, -, hb, rfl⟩ | ⟨-, -, rfl⟩⟩ :=
      pipe_step_cases hs
    · have hplaced := relay_inTurn m hb
      have hfew := hout m.taken b
      unfold unplaced at hplaced ⊢
      rw [hem, htaken]
      omega
    · have hless := relay_bounded.placed m r hb
      omega
    · exact hI
  | push b =>
    simp only [pipeStep] at hs
    split_ifs at hs
    cases hs; exact hI
  | recv =>
    obtain ⟨⟨r, q⟩, hq, rfl⟩ := Option.map_eq_some_iff.mp hs
    obtain ⟨-, -, hem, -, htaken, -⟩ := pipeRecv_some hq
    unfold unplaced at hI ⊢
    rwa [hem, htaken]

omit [DecidableEq ε] in
/-- All results in the output buffer can be received. -/
theorem flowing_received (B : Behaviour ε) (p : Pipe ε) : ∃ p', Reach (flowing B) p p' ∧
    p'.outbuf = [] ∧ p'.emitted = p.emitted ∧ p'.taken = p.taken ∧ p'.inbuf = p.inbuf ∧
      p'.finished = p.finished := by
  induction hout : p.outbuf generalizing p with
  | nil => exact ⟨p, Reach.refl p, hout, rfl, rfl, rfl, rfl⟩
  | cons r rest ih =>
    have hs : flowing B p none = some { p with given := p.given ++ [r], outbuf := rest } := by
      simp [flowing, pipeRecv, hout]
    obtain ⟨p', hr, h1, h2, h3⟩ := ih { p with given := p.given ++ [r], outbuf := rest } rfl
    exact ⟨p', hr.head hs, h1, by rw [h2]; simp [Pipe.emitted, hout], h3⟩

/-- What the thread has emitted begins what it gives for its chunks. -/
theorem relay_emitted (hout : ∀ l l', l <+: l' → out l <+: out l')
    (h : Reach (pipeStep (relay capIn capOut out ends)) {} p) : p.emitted <+: out p.taken := by
  refine h.invariant (I := fun p => p.emitted <+: out p.taken) List.nil_prefix ?_
  intro m l m' hI hs
  cases l with
  | act a =>
    obtain ⟨-, -, ⟨-, -, hem, -, -, b, -, htaken⟩ | ⟨r, -, hb, rfl⟩ | ⟨-, -, rfl⟩⟩ :=
      pipe_step_cases hs
    · rw [hem, htaken]
      exact hI.trans (hout _ _ (List.prefix_append _ _))
    · obtain ⟨rest, hrest⟩ := hI
      simp only [relay, Bool.and_eq_true, decide_eq_true_eq, ← hrest] at hb
      obtain ⟨rest', rfl⟩ : ∃ rest', rest = r :: rest' := by
        rw [List.getElem?_append_right le_rfl, Nat.sub_self] at hb
        exact List.head?_eq_some_iff.mp (by rw [List.head?_eq_getElem?]; exact hb.2)
      exact ⟨rest', by rw [← hrest]; simp [Pipe.emitted]⟩
    · exact hI
  | push b =>
    simp only [pipeStep] at hs
    split_ifs at hs
    cases hs; exact hI
  | recv =>
    obtain ⟨⟨r, q⟩, hq, rfl⟩ := Option.map_eq_some_iff.mp hs
    obtain ⟨-, -, hem, -, htaken, -⟩ := pipeRecv_some hq
    rw [hem, htaken]
    exact hI

/-- A thread that has ended has taken the chunks at which it ends. -/
theorem relay_finished (h : Reach (pipeStep (relay capIn capOut out ends)) {} p) :
    p.finished = true → ends p.taken = true := by
  refine h.invariant (I := fun p => p.finished = true → ends p.taken = true) nofun ?_
  intro m l m' hI hs
  cases l with
  | act a =>
    obtain ⟨hrun, -, ⟨-, -, -, -, hf, -⟩ | ⟨r, -, -, rfl⟩ | ⟨-, hb, rfl⟩⟩ := pipe_step_cases hs
    · rw [hf]; nofun
    · exact hI
    · exact fun _ => hb
  | push b =>
    simp only [pipeStep] at hs
    split_ifs at hs
    cases hs; exact hI
  | recv =>
    obtain ⟨⟨r, q⟩, hq, rfl⟩ := Option.map_eq_some_iff.mp hs
    obtain ⟨-, -, -, -, htaken, -, hf⟩ := pipeRecv_some hq
    rwa [hf, htaken]

/-- The thread places all results of a chunk, while they are received. -/
theorem relay_places (hcap : 1 ≤ capOut) (hf : p.finished = false) :
    ∃ p', Reach (flowing (relay capIn capOut out ends)) p p' ∧ p'.finished = false ∧
      p'.taken = p.taken ∧ p'.inbuf = p.inbuf ∧ unplaced out p' = 0 := by
  have hB : Bounded (relay capIn capOut out ends) capIn capOut (unplaced out) := relay_bounded
  induction hn : unplaced out p generalizing p with
  | zero => exact ⟨p, Reach.refl p, hf, rfl, rfl, hn⟩
  | succ n ih =>
    obtain ⟨m, hr, hout, hem, htaken, hin, hfm⟩ :=
      flowing_received (relay capIn capOut out ends) p
    have hun : unplaced out m = n + 1 := by rw [← hn, unplaced, unplaced, hem, htaken]
    obtain ⟨r, hb⟩ := hB.places m (by omega) (by rw [hout]; exact hcap)
    have hs : flowing (relay capIn capOut out ends) m (some (.emit r)) =
        some { m with outbuf := m.outbuf ++ [r] } := by simp [flowing, Pipe.step, hfm, hf, hb]
    have hless := hB.placed m r hb
    obtain ⟨p', hr', h1, h2, h3, h4⟩ :=
      ih (p := { m with outbuf := m.outbuf ++ [r] }) (hfm.trans hf) (by omega)
    exact ⟨p', (hr.tail hs).trans hr', h1, h2.trans htaken, h3.trans hin, h4⟩

/-- **A relay that ends at EOF** ends once it is sent EOF. -/
theorem relay_endsAfterEof (hcap : 1 ≤ capOut) :
    EndsAfterEof (relay capIn capOut out ([] ∈ ·)) := by
  intro p hr hm
  clear hr
  cases hf : p.finished with
  | true => exact ⟨p, Reach.refl p, hf⟩
  | false =>
    induction hin : p.inbuf generalizing p with
    | nil =>
      have htaken : [] ∈ p.taken := by simpa [Pipe.accepted, hin] using hm
      refine ⟨{ p with finished := true }, .single (l := some .finish) ?_, rfl⟩
      simp [flowing, Pipe.step, hf, relay, htaken]
    | cons b rest ih =>
      have hB : Bounded (relay capIn capOut out ([] ∈ ·)) capIn capOut (unplaced out) :=
        relay_bounded
      obtain ⟨m, hr, hfm, htaken, hinm, hun⟩ : ∃ m,
          Reach (flowing (relay capIn capOut out ([] ∈ ·))) p m ∧ m.finished = false ∧
            m.taken = p.taken ∧ m.inbuf = p.inbuf ∧ unplaced out m = 0 := relay_places hcap hf
      have htakes := hB.takes m hun
      have hs : flowing (relay capIn capOut out ([] ∈ ·)) m (some .take) =
          some { m with taken := m.taken ++ [b], inbuf := rest } := by
        simp [flowing, Pipe.step, hinm, hin, hfm, htakes]
      obtain ⟨p', hr', hend⟩ := ih { m with taken := m.taken ++ [b], inbuf := rest }
        (by simpa [Pipe.accepted, htaken, hin] using hm) hfm rfl
      exact ⟨p', (hr.tail hs).trans hr', hend⟩

end relay

/-- One byte of audio for each chunk. -/
def click (taken : List Bytes) : List (Decoded String) :=
  taken.map fun _ => .ok ⟨[0], 8000, 1, 16, .other 0⟩

theorem click_mono (l l' : List Bytes) (h : l <+: l') : click l <+: click l' := h.map _

theorem totalBytes_click (taken : List Bytes) : totalBytes (click taken) = taken.length := by
  simp [totalBytes, click, oks]

/-- `click` through buffers of one slot each, up to EOF. -/
def ticking : DecodeOptions → Behaviour String := fun _ => relay 1 1 click ([] ∈ ·)

theorem ticking_ends (options : DecodeOptions) : EndsAfterEof (ticking options) :=
  relay_endsAfterEof le_rfl

theorem ticking_room {s : Session String} (h : Reach (Session.step ticking) (acquire options) s) :
    Room ticking s :=
  room_of_brief le_rfl relay_bounded (relay_brief rfl fun taken b => by simp [click])
    (fun _ p hb => by simpa [ticking, relay] using hb) h

/-- A `click` for each chunk does not make the metrics panic. -/
theorem click_measures {capIn capOut : ℕ} {ends : List Bytes → Bool} {p : Pipe String}
    (h : Reach (pipeStep (relay capIn capOut click ends)) {} p)
    (hbits : options.outputBitsPerSample = none) (hfew : p.accepted.length ≤ 2 ^ 32) :
    audioMs options (tallyOf p.emitted) ≠ none := by
  intro hnone
  obtain ⟨rest, hrest⟩ : p.emitted <+: click p.taken := relay_emitted click_mono h
  have htotal : totalBytes p.emitted ≤ p.taken.length := by
    rw [← totalBytes_click, ← hrest, totalBytes_append]
    exact Nat.le_add_right _ _
  have htaken : p.taken.length ≤ p.accepted.length := by
    rw [Pipe.accepted, List.length_append]
    exact Nat.le_add_right _ _
  exact (audioMs_tallyOf (by omega)).mp hnone (Or.inl fun b hb => by rw [hbits] at hb; cases hb)

theorem ticking_measures {s : Session String}
    (h : Reach (Session.step ticking) (acquire options) s)
    (hbits : s.options.outputBitsPerSample = none) (hsent : s.sent.length < 2 ^ 32) :
    Measures s := by
  intro _
  have hle := accepted_length_le (reach_flow h) (reach_input h)
  exact click_measures (reach_pipe h) hbits (by omega)

/-- Two chunks through buffers of one slot each: the second one is retried while the first is in the
input buffer. -/
def clickRun : List (Label String) :=
  [.client (.send [7]), .client (.send [8]), .inner .worker, .inner .worker, .inner (.answer true),
    .inner .worker, .inner .worker, .inner (.answer false)]

theorem retry_leaves_click : ∃ s, run (Session.step fun _ => relay 1 1 click fun _ => false)
    (acquire {}) clickRun = some s ∧ s.pc = .retry [8] ∧
      Leaves (fun _ => relay 1 1 click fun _ => false) s := by
  have hrun : (run (Session.step fun _ => relay 1 1 click fun _ => false) (acquire {}) clickRun).map
      Session.pc = some (.retry [8]) := by decide
  obtain ⟨s, hs, hpc⟩ := Option.map_eq_some_iff.mp hrun
  exact ⟨s, hs, hpc, (retry_leaves 1 1 le_rfl (fun _ => relay 1 1 click fun _ => false) {}
    (unplaced click) relay_bounded clickRun s hs).1 (by decide) clickRun [] s [8] (by simp) hs hpc⟩

/-! ### Loops without a way out -/

/-- Two results for each chunk. -/
def clicks (taken : List Bytes) : List (Decoded String) := click taken ++ click taken

/-- The thread takes the first chunk, places one of its two results and waits to place the other
one; the second chunk fills the input buffer, and the third one is retried. -/
def jamRun : List (Label String) :=
  [.client (.send [7]), .client (.send [8]), .client (.send [9]), .inner .worker, .inner .worker,
    .inner (.answer true), .inner .worker, .inner (.pipe .take), .inner .worker,
    .inner (.answer true), .inner .worker, .inner .worker,
    .inner (.pipe (.emit (.ok ⟨[0], 8000, 1, 16, .other 0⟩)))]

/-- The thread ends over the first chunk, and the second one is retried. -/
def fatalRun : List (Label String) :=
  [.client (.send [7]), .client (.send [8]), .inner .worker, .inner .worker, .inner (.answer true),
    .inner (.pipe .take), .inner (.pipe .finish), .inner .worker, .inner .worker]

/-- **The loop has no way out**: before a pipeline with full buffers, and before one that has ended.
-/
theorem retry_stuck :
    (∃ s, run (Session.step fun _ => relay 1 1 clicks fun _ => false) (acquire {}) jamRun = some s ∧
      s.pc = .retry [9] ∧ ¬ Leaves (fun _ => relay 1 1 clicks fun _ => false) s) ∧
    ∃ s, run (Session.step fun _ => relay 1 1 click (· ≠ [])) (acquire {}) fatalRun = some s ∧
      s.pc = .retry [8] ∧ ¬ Leaves (fun _ => relay 1 1 click (· ≠ [])) s := by
  constructor
  · have hrun :
        (run (Session.step fun _ => relay 1 1 clicks fun _ => false) (acquire {}) jamRun).map
        (fun s => (s.pc, s.pipe.inbuf.length, unplaced clicks s.pipe, s.pipe.outbuf.length)) =
        some (.retry [9], 1, 1, 1) := by decide
    obtain ⟨s, hs, he⟩ := Option.map_eq_some_iff.mp hrun
    simp only [Prod.mk.injEq] at he
    obtain ⟨hpc, hin, hpend, hout⟩ := he
    exact ⟨s, hs, hpc, not_leaves_of_jammed (B := fun _ => relay 1 1 clicks fun _ => false)
      relay_bounded relay_inTurn (reach_of_run hs) hpc (Or.inr ⟨by omega, by omega⟩)⟩
  · have hrun : (run (Session.step fun _ => relay 1 1 click (· ≠ [])) (acquire {}) fatalRun).map
        (fun s => (s.pc, s.pipe.finished)) = some (.retry [8], true) := by decide
    obtain ⟨s, hs, he⟩ := Option.map_eq_some_iff.mp hrun
    obtain ⟨hpc, hf⟩ := Prod.mk.inj he
    exact ⟨s, hs, hpc, not_leaves_of_jammed (B := fun _ => relay 1 1 click (· ≠ []))
      relay_bounded relay_inTurn (reach_of_run hs) hpc (Or.inl hf)⟩

end MediaApi.Pool.Retry
