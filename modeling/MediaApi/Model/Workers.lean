import MediaApi.Lib.Threads
import MediaApi.Model.Pool

/-! # The threads of the decoder pool

`DecoderPool` counts its workers; here they are the threads that `DecoderPool::new` spawns. Each
runs the same loop: it locks `job_rx`, receives a job under the lock, lets go of the lock and runs
`process_job`. A failed receive ends the loop, a panic in `process_job` the thread. The job channel
holds the numbers of the jobs, in the order of their `acquire`.

When the last thread is gone so is the receiver, and the jobs that still wait in the channel are
dropped with it, each with its ends of its two channels. -/

namespace MediaApi.Model.Workers

open MediaApi.Lib.Channel MediaApi.Lib.Threads MediaApi.Lib.Transition MediaApi.Model.Audio
open MediaApi.Model.Pipeline MediaApi.Model.ProcessJob MediaApi.Model.Steps MediaApi.Model.Options
open MediaApi.Model.Pool

variable {ε : Type} {size : ℕ}

/-- The pool with its threads. -/
structure WorkerPool (ε : Type) (size : ℕ) where
  crew : Crew ℕ size
  jobs : List (Session ε)

/-- `DecoderPool::new`. -/
def WorkerPool.new : WorkerPool ε size := ⟨Crew.new size, []⟩

/-- The job is dropped without having been taken. -/
def abandon (s : Session ε) : Session ε :=
  { s with input := s.input.dropRx, output := s.output.dropTx }

/-- The threads have made a step, to `c`. -/
def WorkerPool.follow (p : WorkerPool ε size) (c : Crew ℕ size) : WorkerPool ε size where
  crew := c
  jobs :=
    if c.chan.rx then p.jobs
    else p.jobs.mapIdx fun k s => if k ∈ c.chan.queue then abandon s else s

/-- `DecoderPool::acquire`: `none` while it blocks, else whether it returned `Ok`. Otherwise its
error is "Decoder pool shutdown". -/
def WorkerPool.acquire (p : WorkerPool ε size) (options : DecodeOptions) :
    Option (Bool × WorkerPool ε size) :=
  match p.crew.send p.jobs.length with
  | some (true, c) => some (true, ⟨c, p.jobs ++ [ProcessJob.acquire options]⟩)
  | some (false, _) => some (false, p)
  | none => none

variable [ToString ε]

/-- **The next step of a thread** in its loop. A job that is received is started at once. -/
def WorkerPool.thread (p : WorkerPool ε size) (w : ℕ) : Option (WorkerPool ε size) :=
  match p.crew.threads[w]? with
  | some .lock => (p.crew.step (.lock w)).map p.follow
  | some .recv =>
    match p.crew.chan.queue with
    | k :: _ =>
      (p.crew.step (.recv w)).bind fun c =>
        p.jobs[k]?.bind fun s => s.worker.map fun s' => ⟨c, p.jobs.set k s'⟩
    | [] => (p.crew.step (.recv w)).map p.follow
  | some (.work k) =>
    p.jobs[k]?.bind fun s =>
      match s.pc with
      | .ended .panicked => (p.crew.step (.die w)).map p.follow
      | .ended _ => (p.crew.step (.finish w)).map p.follow
      | _ => s.worker.map fun s' => { p with jobs := p.jobs.set k s' }
  | _ => none

/-- What happens in the pool: a front end acquires a decoder, the pool is dropped, a thread goes on,
or what is not a worker makes a step in the job `k`. -/
inductive WorkersLabel (ε : Type) where
  | acquire (r : Request)
  | shutdown
  | thread (w : ℕ)
  | job (k : ℕ) (l : Label ε)

/-- **A step of the pool.** -/
def WorkerPool.step (B : DecodeOptions → Behaviour ε) (defaults : DecodeOptions)
    (p : WorkerPool ε size) : WorkersLabel ε → Option (WorkerPool ε size)
  | .acquire r =>
    if p.crew.chan.tx then (p.acquire (jobOptions defaults r)).map Prod.snd else none
  | .shutdown => (p.crew.step .close).map p.follow
  | .thread w => p.thread w
  | .job _ (.inner .worker) => none
  | .job k l => p.jobs[k]?.bind fun s =>
    (s.step B l).map fun s' => { p with jobs := p.jobs.set k s' }

/-! ### The steps by name -/

/-- The steps of the pool, one case for each branch. -/
inductive WorkersStep (B : DecodeOptions → Behaviour ε) (defaults : DecodeOptions)
    (p : WorkerPool ε size) : WorkersLabel ε → WorkerPool ε size → Prop where
  | acquire (r : Request) (c : Crew ℕ size) (htx : p.crew.chan.tx = true)
      (h : p.crew.send p.jobs.length = some (true, c)) :
      WorkersStep B defaults p (.acquire r)
        ⟨c, p.jobs ++ [ProcessJob.acquire (jobOptions defaults r)]⟩
  | refused (r : Request) (hrx : p.crew.chan.rx = false) : WorkersStep B defaults p (.acquire r) p
  | shutdown (c : Crew ℕ size) (h : p.crew.step .close = some c) :
      WorkersStep B defaults p .shutdown (p.follow c)
  | lock (w : ℕ) (c : Crew ℕ size) (hw : p.crew.threads[w]? = some .lock)
      (h : p.crew.step (.lock w) = some c) : WorkersStep B defaults p (.thread w) (p.follow c)
  | take (w k : ℕ) (rest : List ℕ) (c : Crew ℕ size) (s s' : Session ε)
      (hw : p.crew.threads[w]? = some .recv) (hq : p.crew.chan.queue = k :: rest)
      (h : p.crew.step (.recv w) = some c) (hk : p.jobs[k]? = some s) (hs : s.worker = some s') :
      WorkersStep B defaults p (.thread w) ⟨c, p.jobs.set k s'⟩
  | exit (w : ℕ) (c : Crew ℕ size) (hw : p.crew.threads[w]? = some .recv)
      (hq : p.crew.chan.queue = []) (h : p.crew.step (.recv w) = some c) :
      WorkersStep B defaults p (.thread w) (p.follow c)
  | work (w k : ℕ) (s s' : Session ε) (hw : p.crew.threads[w]? = some (.work k))
      (hk : p.jobs[k]? = some s) (hs : s.worker = some s') :
      WorkersStep B defaults p (.thread w) { p with jobs := p.jobs.set k s' }
  | finish (w k : ℕ) (s : Session ε) (o : Outcome) (c : Crew ℕ size)
      (hw : p.crew.threads[w]? = some (.work k)) (hk : p.jobs[k]? = some s)
      (hpc : s.pc = .ended o) (ho : o ≠ .panicked) (h : p.crew.step (.finish w) = some c) :
      WorkersStep B defaults p (.thread w) (p.follow c)
  | die (w k : ℕ) (s : Session ε) (c : Crew ℕ size) (hw : p.crew.threads[w]? = some (.work k))
      (hk : p.jobs[k]? = some s) (hpc : s.pc = .ended .panicked)
      (h : p.crew.step (.die w) = some c) : WorkersStep B defaults p (.thread w) (p.follow c)
  | job (k : ℕ) (l : Label ε) (s s' : Session ε) (hl : l ≠ .inner .worker)
      (hk : p.jobs[k]? = some s) (hs : s.step B l = some s') :
      WorkersStep B defaults p (.job k l) { p with jobs := p.jobs.set k s' }

variable {B : DecodeOptions → Behaviour ε} {defaults : DecodeOptions} {p p' : WorkerPool ε size}
  {l : WorkersLabel ε}

theorem thread_cases {w : ℕ} (h : p.thread w = some p') :
    WorkersStep B defaults p (.thread w) p' := by
  unfold WorkerPool.thread at h
  split at h
  · next hw =>
    obtain ⟨c, hc, rfl⟩ := Option.map_eq_some_iff.mp h
    exact .lock w c hw hc
  · next hw =>
    split at h
    · next k rest hq =>
      obtain ⟨c, hc, h⟩ := Option.bind_eq_some_iff.mp h
      obtain ⟨s, hk, h⟩ := Option.bind_eq_some_iff.mp h
      obtain ⟨s', hs, rfl⟩ := Option.map_eq_some_iff.mp h
      exact .take w k rest c s s' hw hq hc hk hs
    · next hq =>
      obtain ⟨c, hc, rfl⟩ := Option.map_eq_some_iff.mp h
      exact .exit w c hw hq hc
  · next k hw =>
    obtain ⟨s, hk, h⟩ := Option.bind_eq_some_iff.mp h
    split at h
    · next hpc =>
      obtain ⟨c, hc, rfl⟩ := Option.map_eq_some_iff.mp h
      exact .die w k s c hw hk hpc hc
    · next o ho hpc =>
      obtain ⟨c, hc, rfl⟩ := Option.map_eq_some_iff.mp h
      exact .finish w k s o c hw hk hpc (fun he => ho he) hc
    · obtain ⟨s', hs, rfl⟩ := Option.map_eq_some_iff.mp h
      exact .work w k s s' hw hk hs
  · cases h

theorem workers_step_cases (h : p.step B defaults l = some p') :
    WorkersStep B defaults p l p' := by
  cases l with
  | acquire r =>
    simp only [WorkerPool.step, WorkerPool.acquire] at h
    split_ifs at h with htx
    split at h
    · next c hc => cases h; exact .acquire r c htx hc
    · next c hc => cases h; exact .refused r (send_false hc)
    · cases h
  | shutdown =>
    simp only [WorkerPool.step] at h
    obtain ⟨c, hc, rfl⟩ := Option.map_eq_some_iff.mp h
    exact .shutdown c hc
  | thread w => exact thread_cases h
  | job k l =>
    have hl : l ≠ .inner .worker := by
      rintro rfl
      cases h
    have h' : (p.jobs[k]?.bind fun s =>
        (s.step B l).map fun s' => ({ p with jobs := p.jobs.set k s' } : WorkerPool ε size)) =
        some p' := by
      rw [← h]
      unfold WorkerPool.step
      split <;> simp_all
    obtain ⟨s, hk, h'⟩ := Option.bind_eq_some_iff.mp h'
    obtain ⟨s', hs, rfl⟩ := Option.map_eq_some_iff.mp h'
    exact .job k l s s' hl hk hs

/-- What the threads do is a run of their crew. -/
theorem workers_crew (h : p.step B defaults l = some p') :
    Reach Crew.step p.crew p'.crew := by
  cases workers_step_cases h with
  | acquire r c htx hc =>
    refine .single (l := .send p.jobs.length) ?_
    rw [Crew.step, if_pos htx, hc]
    rfl
  | refused => exact .refl _
  | shutdown c hc => exact .single hc
  | lock w c hw hc => exact .single hc
  | take w k rest c s s' hw hq hc => exact .single hc
  | exit w c hw hq hc => exact .single hc
  | work => exact .refl _
  | finish w k s o c hw hk hpc ho hc => exact .single hc
  | die w k s c hw hk hpc hc => exact .single hc
  | job => exact .refl _

theorem reach_crew (h : Reach (WorkerPool.step B defaults) WorkerPool.new p) :
    Reach Crew.step (Crew.new size) p.crew :=
  Reach.map (f := WorkerPool.crew) (fun _ _ _ h => workers_crew h) h

end MediaApi.Model.Workers
