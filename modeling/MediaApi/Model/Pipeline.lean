import MediaApi.Model.Audio

/-! # The external decode pipeline

`soundkit_decoder::DecodePipeline` is not part of the repository. A worker calls its `send`,
`try_recv` and `recv`; behind them a thread takes chunks from an input buffer and puts results into
an output buffer. `Pipe` is what these calls see: the two buffers, what has left each of them, and
whether the thread has ended. What the thread does, and when `send` accepts or refuses a chunk, is
the parameter `Behaviour`: any predicates on the whole history. An empty chunk is the EOF marker.

What a result relies on is stated about a `Behaviour` by name:

* `Decodes B D`: the results depend only on the chunks, and the thread ends only after EOF;
* `RefusesWhenFull B cap`: `send` fails, without queueing, exactly when the input buffer is full;
* `FinishesAfterEof B`: the thread ends only after it has taken EOF;
* `AcceptsAll B`: `send` never fails.

`streaming` is a concrete behaviour that satisfies them. -/

namespace MediaApi.Model.Pipeline

open MediaApi.Model.Audio

variable {ε : Type}

/-- The pipeline between its `send` and its `recv`. -/
structure Pipe (ε : Type) where
  /-- Chunks the thread has taken from the input buffer. -/
  taken : List Bytes := []
  inbuf : List Bytes := []
  /-- Results the worker has received. -/
  given : List (Decoded ε) := []
  outbuf : List (Decoded ε) := []
  /-- The thread has ended. -/
  finished : Bool := false
deriving DecidableEq

/-- The chunks `send` has accepted, in order. -/
def Pipe.accepted (p : Pipe ε) : List Bytes := p.taken ++ p.inbuf

/-- The results the thread has emitted, in order. -/
def Pipe.emitted (p : Pipe ε) : List (Decoded ε) := p.given ++ p.outbuf

/-- The data chunks of a list: its non-empty ones. -/
def chunks (bs : List Bytes) : List Bytes := bs.filter (· ≠ [])

/-- What a pipeline may do, given all that has happened. -/
structure Behaviour (ε : Type) where
  /-- `send` of this chunk may return `Ok`. -/
  accepts : Pipe ε → Bytes → Bool
  /-- `send` of this chunk may return `Err`. -/
  refuses : Pipe ε → Bytes → Bool
  /-- The thread may take the next chunk. -/
  takes : Pipe ε → Bool
  /-- The thread may emit this result. -/
  emits : Pipe ε → Decoded ε → Bool
  /-- The thread may end. -/
  finishes : Pipe ε → Bool

/-- What the pipeline's thread does. -/
inductive PipeAct (ε : Type) where
  | take
  | emit (r : Decoded ε)
  | finish
deriving DecidableEq

/-- `send` returned `Ok`. -/
def Pipe.push (p : Pipe ε) (b : Bytes) : Pipe ε := { p with inbuf := p.inbuf ++ [b] }

/-- A step of the pipeline's thread. -/
def Pipe.step (B : Behaviour ε) (p : Pipe ε) : PipeAct ε → Option (Pipe ε)
  | .take =>
    match p.inbuf with
    | b :: rest =>
      if !p.finished && B.takes p then some { p with taken := p.taken ++ [b], inbuf := rest }
      else none
    | [] => none
  | .emit r =>
    if !p.finished && B.emits p r then some { p with outbuf := p.outbuf ++ [r] } else none
  | .finish => if !p.finished && B.finishes p then some { p with finished := true } else none

@[simp] theorem push_accepted (p : Pipe ε) (b : Bytes) :
    (p.push b).accepted = p.accepted ++ [b] := by
  simp [Pipe.push, Pipe.accepted]

@[simp] theorem push_emitted (p : Pipe ε) (b : Bytes) : (p.push b).emitted = p.emitted := rfl

@[simp] theorem push_outbuf (p : Pipe ε) (b : Bytes) : (p.push b).outbuf = p.outbuf := rfl

@[simp] theorem push_finished (p : Pipe ε) (b : Bytes) : (p.push b).finished = p.finished := rfl

/-- **A step of the thread**: what it changes, and what the behaviour allows. -/
theorem pipe_step_cases {B : Behaviour ε} {p p' : Pipe ε} {a : PipeAct ε}
    (h : p.step B a = some p') : p.finished = false ∧ p'.accepted = p.accepted ∧
      ((a = .take ∧ B.takes p = true ∧ p'.emitted = p.emitted ∧ p'.outbuf = p.outbuf ∧
          p'.finished = false ∧ ∃ b, p.inbuf = b :: p'.inbuf ∧ p'.taken = p.taken ++ [b]) ∨
        (∃ r, a = .emit r ∧ B.emits p r = true ∧ p' = { p with outbuf := p.outbuf ++ [r] }) ∨
        (a = .finish ∧ B.finishes p = true ∧ p' = { p with finished := true })) := by
  cases a with
  | take =>
    simp only [Pipe.step] at h
    split at h
    · next b rest hb =>
      split_ifs at h with hc
      · cases h
        simp only [Bool.and_eq_true, Bool.not_eq_true'] at hc
        refine ⟨hc.1, by simp [Pipe.accepted, hb], Or.inl ⟨rfl, hc.2, rfl, rfl, hc.1, b, ?_⟩⟩
        exact ⟨hb, rfl⟩
    · cases h
  | emit r =>
    simp only [Pipe.step] at h
    split_ifs at h with hc
    · cases h
      simp only [Bool.and_eq_true, Bool.not_eq_true'] at hc
      exact ⟨hc.1, rfl, Or.inr (Or.inl ⟨r, rfl, hc.2, rfl⟩)⟩
  | finish =>
    simp only [Pipe.step] at h
    split_ifs at h with hc
    · cases h
      simp only [Bool.and_eq_true, Bool.not_eq_true'] at hc
      exact ⟨hc.1, rfl, Or.inr (Or.inr ⟨rfl, hc.2, rfl⟩)⟩

/-! ### Data chunks -/

@[simp] theorem chunks_nil : chunks [] = [] := rfl

@[simp] theorem chunks_append (l l' : List Bytes) : chunks (l ++ l') = chunks l ++ chunks l' := by
  simp [chunks]

@[simp] theorem chunks_eof : chunks [[]] = [] := rfl

theorem chunks_singleton {b : Bytes} (h : b ≠ []) : chunks [b] = [b] := by simp [chunks, h]

theorem chunks_eq_self {l : List Bytes} (h : [] ∉ l) : chunks l = l := by
  unfold chunks
  rw [List.filter_eq_self]
  intro b hb
  have : b ≠ [] := fun e => h (e ▸ hb)
  simpa using this

theorem nil_notMem_chunks (l : List Bytes) : [] ∉ chunks l := by simp [chunks]

/-! ### What a result may rely on -/

/-- The results depend only on the data chunks, through `D`: what has been emitted is the beginning
of what `D` gives for every way the input can still go on, and the thread ends only after EOF and
when all of `D` is emitted. -/
structure Decodes (B : Behaviour ε) (D : List Bytes → List (Decoded ε)) : Prop where
  emits : ∀ p r, B.emits p r = true → ∀ cs, chunks p.accepted <+: cs →
    ([] ∈ p.accepted → cs = chunks p.accepted) → p.emitted ++ [r] <+: D cs
  finishes : ∀ p, B.finishes p = true → [] ∈ p.accepted ∧ p.emitted = D (chunks p.accepted)

/-- `send` returns `Err`, and queues nothing, exactly when the input buffer holds `cap` chunks. -/
structure RefusesWhenFull (B : Behaviour ε) (cap : ℕ) : Prop where
  refuses : ∀ p b, B.refuses p b = true ↔ cap ≤ p.inbuf.length
  accepts : ∀ p b, B.accepts p b = true ↔ p.inbuf.length < cap

/-- The thread ends only after it has taken the EOF marker. -/
def FinishesAfterEof (B : Behaviour ε) : Prop := ∀ p, B.finishes p = true → [] ∈ p.taken

/-- `send` never fails. -/
structure AcceptsAll (B : Behaviour ε) : Prop where
  accepts : ∀ p b, B.accepts p b = true
  refuses : ∀ p b, B.refuses p b = false

/-! ### A concrete pipeline -/

/-- A pipeline with an input buffer of `cap` chunks that emits what `out` gives for the chunks its
thread has taken (the EOF marker included), one result at a time, and ends after EOF, which is the
last chunk. -/
def streaming [DecidableEq ε] (cap : ℕ) (out : List Bytes → List (Decoded ε)) : Behaviour ε where
  accepts p _ := decide (p.inbuf.length < cap)
  refuses p _ := decide (cap ≤ p.inbuf.length)
  takes _ := true
  emits p r := decide ([] ∈ p.taken → p.inbuf = []) && (p.emitted ++ [r]).isPrefixOf (out p.taken)
  finishes p := decide ([] ∈ p.taken ∧ p.inbuf = []) && decide (p.emitted = out p.taken)

theorem streaming_refusesWhenFull [DecidableEq ε] (cap : ℕ) (out : List Bytes → List (Decoded ε)) :
    RefusesWhenFull (streaming cap out) cap where
  refuses p b := by simp [streaming]
  accepts p b := by simp [streaming]

theorem streaming_finishesAfterEof [DecidableEq ε] (cap : ℕ)
    (out : List Bytes → List (Decoded ε)) : FinishesAfterEof (streaming cap out) := by
  intro p h
  simp only [streaming, Bool.and_eq_true, decide_eq_true_eq] at h
  exact h.1.1

/-- It decodes by `D`, if `out` gives a beginning of `D` before EOF and all of it at EOF. -/
theorem streaming_decodes [DecidableEq ε] (cap : ℕ) {out D : List Bytes → List (Decoded ε)}
    (hout : ∀ taken cs, [] ∉ taken → taken <+: cs → out taken <+: D cs)
    (heof : ∀ taken, [] ∈ taken → out taken = D (chunks taken)) :
    Decodes (streaming cap out) D where
  emits p r h cs hcs hc := by
    simp only [streaming, Bool.and_eq_true, decide_eq_true_eq, List.isPrefixOf_iff_prefix] at h
    refine h.2.trans ?_
    by_cases hm : [] ∈ p.taken
    · have hacc : p.accepted = p.taken := by simp [Pipe.accepted, h.1 hm]
      rw [heof _ hm, hc (by rw [hacc]; exact hm), hacc]
    · refine hout _ _ hm (List.IsPrefix.trans ?_ hcs)
      rw [Pipe.accepted, chunks_append, chunks_eq_self hm]
      exact List.prefix_append _ _
  finishes p h := by
    simp only [streaming, Bool.and_eq_true, decide_eq_true_eq] at h
    obtain ⟨⟨hm, hin⟩, hem⟩ := h
    have hacc : p.accepted = p.taken := by simp [Pipe.accepted, hin]
    rw [hacc, hem]
    exact ⟨hm, heof _ hm⟩

end MediaApi.Model.Pipeline
