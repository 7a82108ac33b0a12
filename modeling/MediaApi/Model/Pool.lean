import MediaApi.Model.Steps
import MediaApi.Model.Options

/-! # The decoder pool

`DecoderPool::new(size)` spawns `size` workers that share the receiving end of a job channel with
`size` slots. A worker takes the oldest job, runs `process_job` and comes back for the next one; a
panic in `process_job` ends its thread for good. `acquire` puts a job into the channel and blocks
while it is full; once every worker is gone it fails.

The state is the list of all jobs handed in so far, each a `Session` with an arbitrary holder. -/

namespace MediaApi.Model.Pool

open MediaApi.Lib.Transition MediaApi.Model.Audio MediaApi.Model.Pipeline
open MediaApi.Model.ProcessJob MediaApi.Model.Steps MediaApi.Model.Options

variable {ε : Type}

/-- The job waits in the job channel. -/
def isQueued (s : Session ε) : Bool := s.pc = .queued

/-- The job's worker has panicked. -/
def hasPanicked (s : Session ε) : Bool := s.pc.outcome = some .panicked

/-- A worker is in `process_job` with this job. -/
def isRunning (s : Session ε) : Bool :=
  match s.pc with
  | .queued => false
  | .ended _ => false
  | _ => !hasPanicked s

/-- The jobs handed to the pool, oldest first. -/
structure DecoderPool (ε : Type) where
  jobs : List (Session ε)

/-- A fresh pool. -/
def DecoderPool.new : DecoderPool ε := ⟨[]⟩

/-- The number of workers whose thread is alive. -/
def DecoderPool.live (size : ℕ) (p : DecoderPool ε) : ℕ := size - p.jobs.countP hasPanicked

/-- The number of workers that are in `process_job`. -/
def DecoderPool.busy (p : DecoderPool ε) : ℕ := p.jobs.countP isRunning

/-- The number of jobs in the job channel. -/
def DecoderPool.waiting (p : DecoderPool ε) : ℕ := p.jobs.countP isQueued

/-- What happens in a pool: a front end acquires a decoder, or the job `k` makes a step. -/
inductive PoolLabel (ε : Type) where
  | acquire (r : Request)
  | job (k : ℕ) (l : Label ε)

/-- A step of the pool. A queued job is taken when it is the oldest and a live worker is idle. -/
def DecoderPool.step [ToString ε] (B : DecodeOptions → Behaviour ε) (size : ℕ)
    (defaults : DecodeOptions) (p : DecoderPool ε) : PoolLabel ε → Option (DecoderPool ε)
  | .acquire r =>
    if 0 < p.live size ∧ p.waiting < size then
      some ⟨p.jobs ++ [acquire (jobOptions defaults r)]⟩
    else none
  | .job k l =>
    match p.jobs[k]? with
    | none => none
    | some s =>
      match s.pc, l with
      | .queued, .inner .worker =>
        if (p.jobs.take k).all (!isQueued ·) ∧ p.busy < p.live size then
          s.worker.map fun s' => ⟨p.jobs.set k s'⟩
        else none
      | _, _ => (s.step B l).map fun s' => ⟨p.jobs.set k s'⟩

variable [ToString ε] {B : DecodeOptions → Behaviour ε} {size : ℕ} {defaults : DecodeOptions}
  {p p' : DecoderPool ε} {l : PoolLabel ε}

/-- The steps of a pool. -/
theorem pool_step_cases (h : p.step B size defaults l = some p') :
    (∃ r, l = .acquire r ∧ p'.jobs = p.jobs ++ [acquire (jobOptions defaults r)]) ∨
      ∃ k l' s s', l = .job k l' ∧ p.jobs[k]? = some s ∧ s.step B l' = some s' ∧
        p'.jobs = p.jobs.set k s' := by
  cases l with
  | acquire r =>
    simp only [DecoderPool.step] at h
    split_ifs at h
    cases h; exact Or.inl ⟨r, rfl, rfl⟩
  | job k l =>
    simp only [DecoderPool.step] at h
    split at h
    · cases h
    · next s hk =>
      right
      split at h
      · split_ifs at h
        obtain ⟨s', hs, rfl⟩ := Option.map_eq_some_iff.mp h
        exact ⟨k, _, s, s', rfl, hk, hs, rfl⟩
      · obtain ⟨s', hs, rfl⟩ := Option.map_eq_some_iff.mp h
        exact ⟨k, _, s, s', rfl, hk, hs, rfl⟩

/-- **Every job of a pool is a session of its own**, with the options of some request. -/
theorem reach_job (h : Reach (DecoderPool.step B size defaults) DecoderPool.new p) :
    ∀ s ∈ p.jobs, ∃ r, Reach (Session.step B) (acquire (jobOptions defaults r)) s := by
  refine h.invariant (I := fun p => ∀ s ∈ p.jobs,
    ∃ r, Reach (Session.step B) (acquire (jobOptions defaults r)) s) (by simp [DecoderPool.new]) ?_
  intro p l p' hI hs s hmem
  rcases pool_step_cases hs with ⟨r, -, hjobs⟩ | ⟨k, l', s₁, s₂, -, hk, hstep, hjobs⟩
  · rw [hjobs, List.mem_append, List.mem_singleton] at hmem
    rcases hmem with hmem | rfl
    · exact hI s hmem
    · exact ⟨r, Reach.refl _⟩
  · rw [hjobs] at hmem
    rcases List.mem_or_eq_of_mem_set hmem with hmem | rfl
    · exact hI s hmem
    · obtain ⟨r, hr⟩ := hI s₁ (List.mem_of_getElem? hk)
      exact ⟨r, hr.tail hstep⟩

end MediaApi.Model.Pool
