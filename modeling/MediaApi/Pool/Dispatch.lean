import MediaApi.Model.Workers
import MediaApi.Pool.Backpressure

/-! # How the threads of the pool take their jobs

The threads are a crew at the receiving end of the job channel, so what holds of every crew holds of
them. `Tied` is how the jobs go with them: the channel holds the numbers of the jobs that have not
been started, and a thread that has done a job, or died of it, has run `process_job` to its end.

Together (`dispatches`): the jobs are taken in the order of their `acquire`, each by one thread and
once; one thread at a time receives, and `job_rx.lock().unwrap()` never panics; a thread leaves its
loop only after the pool was dropped and the channel is empty; and while a thread is idle the oldest
job can be taken. -/

namespace MediaApi.Pool.Dispatch

open MediaApi.Lib.Channel MediaApi.Lib.Components MediaApi.Lib.Threads MediaApi.Lib.Transition
open MediaApi.Model.Audio MediaApi.Model.Pipeline MediaApi.Model.ProcessJob MediaApi.Model.Steps
open MediaApi.Model.Options MediaApi.Model.Pool MediaApi.Model.Workers MediaApi.Pool.Backpressure
open MediaApi.Pool.Forwarding

variable {ε : Type} {size : ℕ}

/-! ### What a step of a session does to its program point -/

section Session

variable [ToString ε] {B : DecodeOptions → Behaviour ε} {s s' : Session ε} {l : Label ε}

/-- A job that has an outcome keeps it. -/
theorem outcome_step {o : Outcome} (ho : s.pc.outcome = some o) (h : s.step B l = some s') :
    s'.pc.outcome = some o := by
  cases step_cases h with
  | worker h =>
    cases h with
    | dropInput o' hpc | dropOutput o' hpc => simpa [hpc, Pc.outcome] using ho
    | start hpc | skip hpc | idle hpc | disconnected hpc | finish hpc | measure _ hpc | panic hpc
    | drained hpc | eof _ hpc | chunk _ _ hpc | put _ _ _ hpc | abort _ _ hpc | forward _ _ hpc
    | forwardFinal _ _ hpc =>
      rw [hpc] at ho
      cases ho
  | answer ok h =>
    cases h with
    | eofAccepted hpc | eofRefused hpc | accepted _ hpc =>
      rw [hpc] at ho
      cases ho
    | refused => exact ho
  | pipe => exact ho
  | client a h => cases h <;> exact ho

/-- A job that has ended stays ended. -/
theorem ended_step {o : Outcome} (ho : s.pc = .ended o) (h : s.step B l = some s') :
    s'.pc = .ended o := by
  cases l with
  | inner i =>
    cases i with
    | worker => simp [Session.step, Session.inner, Session.worker, ho] at h
    | answer ok => simp [Session.step, Session.inner, Session.answer, ho] at h
    | pipe a =>
      cases step_cases h with
      | pipe => exact ho
  | client a => cases client_cases h <;> exact ho

/-- A job that waits is started by a worker only. -/
theorem queued_step (hl : l ≠ .inner .worker) (h : s.step B l = some s') :
    isQueued s' = isQueued s := by
  rcases job_step h with ⟨-, h, -⟩ | hpc | ⟨hq, hq', -⟩
  · exact absurd h hl
  · simp only [isQueued, hpc]
  · rw [hq, hq']

/-- A job that a worker goes on with has been started. -/
theorem queued_worker (h : s.worker = some s') : isQueued s' = false := by
  cases worker_cases h with
  | drained | put =>
    simp only [isQueued]
    split_ifs <;> rfl
  | _ => rfl

end Session

/-! ### The jobs of a pool -/

/-- How the jobs go with the threads. -/
structure Tied (p : WorkerPool ε size) : Prop where
  sent : p.crew.sent = List.range p.jobs.length
  queued : ∀ k s, p.jobs[k]? = some s → (isQueued s = true ↔ k ∈ p.crew.chan.queue)
  done : ∀ k s, p.jobs[k]? = some s → k ∈ p.crew.done → ∃ o, s.pc = .ended o ∧ o ≠ .panicked
  died : ∀ k s, p.jobs[k]? = some s → .died (some k) ∈ p.crew.threads → s.pc = .ended .panicked

/-- What the threads do among themselves leaves a job as it is, or abandons it. -/
theorem follow_job {p : WorkerPool ε size} {c : Crew ℕ size} {k : ℕ} {s : Session ε}
    (h : (p.follow c).jobs[k]? = some s) :
    ∃ s₀, p.jobs[k]? = some s₀ ∧
      (s = s₀ ∨ c.chan.rx = false ∧ k ∈ c.chan.queue ∧ s = abandon s₀) := by
  simp only [WorkerPool.follow] at h
  split_ifs at h with hrx
  · exact ⟨s, h, Or.inl rfl⟩
  · rw [List.getElem?_mapIdx] at h
    obtain ⟨s₀, hk, rfl⟩ := Option.map_eq_some_iff.mp h
    refine ⟨s₀, hk, ?_⟩
    split_ifs with hq
    · exact Or.inr ⟨by simpa using hrx, hq, rfl⟩
    · exact Or.inl rfl

theorem follow_pc {p : WorkerPool ε size} {c : Crew ℕ size} {k : ℕ} {s : Session ε}
    (h : (p.follow c).jobs[k]? = some s) : ∃ s₀, p.jobs[k]? = some s₀ ∧ s.pc = s₀.pc := by
  obtain ⟨s₀, hk, h⟩ := follow_job h
  refine ⟨s₀, hk, ?_⟩
  rcases h with rfl | ⟨-, -, rfl⟩ <;> rfl

/-- A count of program points does not see what the threads do among themselves. -/
theorem countP_follow (p : WorkerPool ε size) (c : Crew ℕ size) (f : Pc → Bool) :
    (p.follow c).jobs.countP (fun s => f s.pc) = p.jobs.countP fun s => f s.pc := by
  have hmap : (p.follow c).jobs.map Session.pc = p.jobs.map Session.pc := by
    unfold WorkerPool.follow
    dsimp only
    split_ifs
    · rfl
    · refine List.ext_getElem? fun k => ?_
      simp only [List.getElem?_map, List.getElem?_mapIdx, Option.map_map]
      congr 1
      funext s
      show (if _ then _ else _ : Session ε).pc = s.pc
      split_ifs <;> rfl
  have hcount : ∀ jobs : List (Session ε),
      jobs.countP (fun s => f s.pc) = (jobs.map Session.pc).countP f := by
    intro jobs
    rw [List.countP_map]
    rfl
  rw [hcount, hcount, hmap]

theorem follow_length (p : WorkerPool ε size) (c : Crew ℕ size) :
    (p.follow c).jobs.length = p.jobs.length := by
  unfold WorkerPool.follow
  dsimp only
  split_ifs
  · rfl
  · exact List.length_mapIdx

/-- While the receiver is alive, or no job waits, none is dropped. -/
theorem follow_jobs {p : WorkerPool ε size} {c : Crew ℕ size}
    (h : c.chan.rx = true ∨ c.chan.queue = []) :
    (p.follow c).jobs = p.jobs := by
  unfold WorkerPool.follow
  dsimp only
  split_ifs with hrx
  · rfl
  · refine List.ext_getElem? fun k => ?_
    rw [List.getElem?_mapIdx, h.resolve_left hrx]
    simp

/-- The threads keep `Tied`, if they neither take nor lose a job. -/
theorem Tied.follow {p : WorkerPool ε size} (ht : Tied p) {c : Crew ℕ size}
    (hsent : c.sent = p.crew.sent) (hqueue : c.chan.queue = p.crew.chan.queue)
    (hdone : ∀ k s, p.jobs[k]? = some s → k ∈ c.done → ∃ o, s.pc = .ended o ∧ o ≠ .panicked)
    (hdied : ∀ k s, p.jobs[k]? = some s → .died (some k) ∈ c.threads → s.pc = .ended .panicked) :
    Tied (p.follow c) := by
  refine ⟨?_, fun k s hk => ?_, fun k s hk hd => ?_, fun k s hk hd => ?_⟩
  · rw [follow_length]
    exact hsent.trans ht.sent
  · obtain ⟨s₀, hk₀, hpc⟩ := follow_pc hk
    show isQueued s = true ↔ k ∈ c.chan.queue
    rw [hqueue, ← ht.queued k s₀ hk₀]
    simp only [isQueued, hpc]
  · obtain ⟨s₀, hk₀, hpc⟩ := follow_pc hk
    rw [hpc]
    exact hdone k s₀ hk₀ hd
  · obtain ⟨s₀, hk₀, hpc⟩ := follow_pc hk
    rw [hpc]
    exact hdied k s₀ hk₀ hd

/-- A job that steps keeps `Tied`, if it was started before. -/
theorem Tied.set {p : WorkerPool ε size} (ht : Tied p) {k : ℕ} {s s' : Session ε}
    (hk : p.jobs[k]? = some s) (hq : isQueued s' = isQueued s)
    (hended : ∀ o, s.pc = .ended o → s'.pc = .ended o) :
    Tied { p with jobs := p.jobs.set k s' } := by
  refine ⟨?_, fun j z hj => ?_, fun j z hj hd => ?_, fun j z hj hd => ?_⟩
  · show p.crew.sent = List.range (p.jobs.set k s').length
    rw [List.length_set]
    exact ht.sent
  · rcases getElem_set hk hj with ⟨rfl, rfl⟩ | ⟨-, hj⟩
    · rw [hq]
      exact ht.queued _ s hk
    · exact ht.queued j z hj
  · rcases getElem_set hk hj with ⟨rfl, rfl⟩ | ⟨-, hj⟩
    · obtain ⟨o, ho, hne⟩ := ht.done _ s hk hd
      exact ⟨o, hended o ho, hne⟩
    · exact ht.done j z hj hd
  · rcases getElem_set hk hj with ⟨rfl, rfl⟩ | ⟨-, hj⟩
    · exact hended _ (ht.died _ s hk hd)
    · exact ht.died j z hj hd

theorem Tied.nodup {p : WorkerPool ε size} (ht : Tied p) : p.crew.sent.Nodup := by
  rw [ht.sent]
  exact List.nodup_range

/-- The next job is neither done nor dead. -/
theorem Tied.fresh {p : WorkerPool ε size} (ht : Tied p) (hc : Conserved p.crew) :
    ¬ (p.jobs.length ∈ p.crew.done ∨ 0 < p.crew.loads (· == p.jobs.length)) := by
  intro h
  have hmem := (hc.out h).1
  rw [ht.sent, List.mem_range] at hmem
  omega

section Steps

variable [ToString ε] {B : DecodeOptions → Behaviour ε} {defaults : DecodeOptions}
  {p p' : WorkerPool ε size} {l : WorkersLabel ε}

theorem tied_step (hm : Mutual p.crew) (hc : Conserved p.crew) (ht : Tied p)
    (h : p.step B defaults l = some p') : Tied p' := by
  cases workers_step_cases h with
  | acquire r c htx hs =>
    obtain ⟨-, hthreads, hsent, hqueue, hdone, -⟩ := send_true hs
    have hfresh := not_or.mp (ht.fresh hc)
    refine ⟨?_, fun k s hk => ?_, fun k s hk hd => ?_, fun k s hk hd => ?_⟩
    · rw [hsent, ht.sent, List.length_append, List.length_singleton, List.range_succ]
    · rw [hqueue, List.mem_append, List.mem_singleton]
      rcases getElem_append_one hk with ⟨rfl, rfl⟩ | ⟨hne, hk⟩
      · simp [isQueued, acquire]
      · rw [ht.queued k s hk]
        simp [hne]
    · rw [hdone] at hd
      rcases getElem_append_one hk with ⟨rfl, -⟩ | ⟨-, hk⟩
      · exact absurd hd hfresh.1
      · exact ht.done k s hk hd
    · rw [hthreads] at hd
      rcases getElem_append_one hk with ⟨rfl, -⟩ | ⟨-, hk⟩
      · exact absurd (load_of_died hd) hfresh.2
      · exact ht.died k s hk hd
  | refused => exact ht
  | shutdown c hs =>
    cases crew_step_cases hs with
    | close => exact ht.follow rfl rfl ht.done ht.died
  | lock w c hw hs =>
    cases crew_step_cases hs with
    | poisoned _ _ _ hp => rw [hm.clean] at hp; cases hp
    | lock =>
      exact ht.follow rfl (put_queue _) ht.done fun k s hk hd =>
        ht.died k s hk (mem_of_mem_set (by simp) hd)
  | take w k rest c s s' hw hq hs hk hs' =>
    have hin : k ∈ p.crew.chan.queue := by simp [hq]
    have hout := fun h => (hc.out (x := k) h).2 ht.nodup hin
    cases crew_step_cases hs with
    | exit _ _ hr =>
      rw [(Chan.tryRecv_closed.mp hr).1] at hq
      cases hq
    | take _ x chan _ hr =>
      have hx := (Chan.tryRecv_got hr).1
      rw [hq] at hx
      cases hx
      have hn := ht.nodup
      rw [hc.order, hq] at hn
      have hnotin : k ∉ chan.queue := (List.nodup_cons.mp (List.nodup_append.mp hn).2.1).1
      refine ⟨?_, fun j z hj => ?_, fun j z hj hd => ?_, fun j z hj hd => ?_⟩
      · show p.crew.sent = List.range (p.jobs.set k s').length
        rw [List.length_set]
        exact ht.sent
      · show isQueued z = true ↔ j ∈ (Crew.put _ w (.work k)).chan.queue
        rw [put_queue]
        rcases getElem_set hk hj with ⟨rfl, rfl⟩ | ⟨hne, hj⟩
        · simp [queued_worker hs', hnotin]
        · rw [ht.queued j z hj, hq]
          simp [hne]
      · rcases getElem_set hk hj with ⟨rfl, -⟩ | ⟨-, hj⟩
        · exact (hout (Or.inl hd)).elim
        · exact ht.done j z hj hd
      · have hdied : .died (some j) ∈ p.crew.threads := mem_of_mem_set (by simp) hd
        rcases getElem_set hk hj with ⟨rfl, -⟩ | ⟨-, hj⟩
        · exact (hout (Or.inr (load_of_died hdied))).elim
        · exact ht.died j z hj hdied
  | exit w c hw hq hs =>
    cases crew_step_cases hs with
    | take _ x chan _ hr =>
      rw [(Chan.tryRecv_got hr).1] at hq
      cases hq
    | exit =>
      exact ht.follow rfl (put_queue _) ht.done fun k s hk hd =>
        ht.died k s hk (mem_of_mem_set (by simp) hd)
  | work w k s s' hw hk hs =>
    have hq := (ht.queued k s hk).not.mpr ((hc.out (Or.inr (load_of_mem hw))).2 ht.nodup)
    refine ht.set hk ?_ fun o ho => ended_step (B := B) (l := .inner .worker) ho hs
    rw [queued_worker hs]
    simpa using hq
  | finish w k s o c hw hk hpc ho hs =>
    cases crew_step_cases hs with
    | finish _ x hx =>
      rw [hw] at hx
      cases hx
      refine ht.follow rfl (put_queue _) (fun j z hj hd => ?_) fun j z hj hd =>
        ht.died j z hj (mem_of_mem_set (by simp) hd)
      rcases List.mem_append.mp hd with hd | hd
      · exact ht.done j z hj hd
      · rw [List.mem_singleton.mp hd, hk] at hj
        cases hj
        exact ⟨o, hpc, ho⟩
  | die w k s c hw hk hpc hs =>
    cases crew_step_cases hs with
    | die _ x hx =>
      rw [hw] at hx
      cases hx
      refine ht.follow rfl (put_queue _) ht.done fun j z hj hd => ?_
      by_cases hjk : j = k
      · rw [hjk, hk] at hj
        cases hj
        exact hpc
      · exact ht.died j z hj (mem_of_mem_set (by simpa using fun e => hjk e.symm) hd)
  | job k l s s' hl hk hs =>
    exact ht.set hk (queued_step hl hs) fun o ho => ended_step ho hs

theorem reach_tied (h : Reach (WorkerPool.step B defaults) WorkerPool.new p) : Tied p := by
  refine h.rec_tail (P := Tied) ⟨rfl, by simp [WorkerPool.new], by simp [WorkerPool.new],
    by simp [WorkerPool.new]⟩ ?_
  intro m l m' hm ht hs
  exact tied_step (reach_mutual (reach_crew hm)) (reach_conserved (reach_crew hm)) ht hs

end Steps

/-! ### The dispatch -/

section Dispatch

variable [ToString ε] {B : DecodeOptions → Behaviour ε} {defaults : DecodeOptions}
  {p p' : WorkerPool ε size}

/-- What the threads of a pool do with its jobs. -/
structure Dispatches (B : DecodeOptions → Behaviour ε) (defaults : DecodeOptions)
    (p : WorkerPool ε size) : Prop where
  /-- The jobs were taken in the order of their `acquire`, and the others wait in that order. -/
  order : p.crew.taken.map Prod.snd ++ p.crew.chan.queue = List.range p.jobs.length
  /-- A job has been taken exactly if it has been started. -/
  started : ∀ (k : ℕ) (s : Session ε), p.jobs[k]? = some s →
    (s.pc ≠ .queued ↔ k ∈ p.crew.taken.map Prod.snd)
  /-- A job is with one thread, which runs it for the first time. -/
  once : ∀ (k v : ℕ), p.crew.threads[v]? = some (Thread.work k) → k ∉ p.crew.done ∧
    ∀ w, p.crew.threads[w]? = some (Thread.work k) → w = v
  /-- One thread at a time receives. -/
  receives : ∀ (v w : ℕ), p.crew.threads[v]? = some .recv → p.crew.threads[w]? = some .recv → v = w
  /-- The lock is never poisoned. -/
  clean : p.crew.poisoned = false ∧ .died none ∉ p.crew.threads
  /-- A thread leaves its loop only when the pool was dropped and no job waits. -/
  leaves : .exited ∈ p.crew.threads → p.crew.chan.tx = false ∧ p.crew.chan.queue = []
  /-- An idle thread, or the one that holds the lock, takes the oldest job next. -/
  takes : ∀ (k : ℕ) (rest : List ℕ) (w : ℕ), p.crew.chan.queue = k :: rest →
    p.crew.threads[w]? = some .lock ∨ p.crew.threads[w]? = some .recv →
    ∃ v p', (run (WorkerPool.step B defaults) p [.thread v] = some p' ∨
        run (WorkerPool.step B defaults) p [.thread v, .thread v] = some p') ∧
      p'.crew.taken = p.crew.taken ++ [(v, k)]

/-- A thread that receives takes the oldest job. -/
theorem take_job (B : DecodeOptions → Behaviour ε) (defaults : DecodeOptions)
    (hc : Conserved p.crew) (ht : Tied p) {k w : ℕ} {rest : List ℕ} {c : Crew ℕ size}
    (hq : p.crew.chan.queue = k :: rest) (hs : p.crew.step (.recv w) = some c) :
    ∃ s, p.jobs[k]? = some s ∧ s.pc = .queued ∧ p.step B defaults (.thread w) =
      some ⟨c, p.jobs.set k { s with pc := .poll }⟩ := by
  have hw : p.crew.threads[w]? = some .recv := by
    cases crew_step_cases hs with
    | take _ _ _ hw => exact hw
    | exit _ hw => exact hw
  have hlt : k < p.jobs.length := by
    have hmem : k ∈ p.crew.sent := by
      rw [hc.order, hq]
      simp
    rwa [ht.sent, List.mem_range] at hmem
  have hget := List.getElem?_eq_getElem hlt
  have hpc : p.jobs[k].pc = .queued := by
    have := (ht.queued k _ hget).mpr (by simp [hq])
    simpa [isQueued] using this
  have hworker : p.jobs[k].worker = some { p.jobs[k] with pc := .poll } := by
    simp [Session.worker, hpc]
  refine ⟨p.jobs[k], hget, hpc, ?_⟩
  simp only [WorkerPool.step, WorkerPool.thread, hw, hq, hs, Option.bind_some, hget, hworker,
    Option.map_some]

/-- **The threads of the pool dispatch its jobs**, in every state of every run. -/
theorem dispatches (B : DecodeOptions → Behaviour ε) (size : ℕ) (defaults : DecodeOptions)
    (ls : List (WorkersLabel ε)) (p : WorkerPool ε size)
    (h : run (WorkerPool.step B defaults) WorkerPool.new ls = some p) :
    Dispatches B defaults p := by
  have hreach := reach_of_run h
  have hm := reach_mutual (reach_crew hreach)
  have hc := reach_conserved (reach_crew hreach)
  have ht := reach_tied hreach
  refine ⟨hc.order.symm.trans ht.sent, fun k s hk => ?_, fun k v hv => ?_, fun v w hv hw =>
    hm.unique hv hw, ⟨hm.clean, hm.unpoisoned⟩, hm.exits, fun k rest w hq hw => ?_⟩
  · have hlt : k ∈ p.crew.sent := by
      rw [ht.sent, List.mem_range]
      exact (List.getElem?_eq_some_iff.mp hk).1
    have hq := ht.queued k s hk
    have hn := ht.nodup
    rw [hc.order] at hlt hn
    simp only [isQueued, decide_eq_true_eq] at hq
    rw [Ne, hq]
    refine ⟨(List.mem_append.mp hlt).resolve_right, fun hmem hin => ?_⟩
    exact (List.nodup_append.mp hn).2.2 k hmem k hin rfl
  · obtain ⟨hone, hd⟩ := hc.with_one ht.nodup hv (x := k) (by simp [Thread.load])
    exact ⟨hd, fun w hw => hone w _ hw (by simp [Thread.load])⟩
  · obtain ⟨v, m, d, hlock, hrecv, htaken, -⟩ := take_oldest hm hq
      (t := (p.crew.threads[w]?).getD .lock) (w := w) (by rcases hw with hw | hw <;> simp [hw])
      (by rcases hw with hw | hw <;> simp [hw])
    rcases hlock with rfl | hlock
    · obtain ⟨s, -, -, hs⟩ := take_job B defaults hc ht hq hrecv
      exact ⟨v, _, Or.inl (by rw [run_cons, hs]; rfl), htaken⟩
    · have hstep : p.step B defaults (.thread v) = some (p.follow m) := by
        have hv : p.crew.threads[v]? = some .lock := by
          cases crew_step_cases hlock with
          | poisoned _ hv => exact hv
          | lock _ hv => exact hv
        simp only [WorkerPool.step, WorkerPool.thread, hv, hlock, Option.map_some]
      have hreach' := hreach.tail hstep
      have hq' : (p.follow m).crew.chan.queue = k :: rest := by
        rw [← hq]
        cases crew_step_cases hlock with
        | poisoned => exact put_queue _
        | lock => exact put_queue _
      obtain ⟨s, -, -, hs⟩ := take_job B defaults (reach_conserved (reach_crew hreach'))
        (reach_tied hreach') hq' hrecv
      exact ⟨v, _, Or.inr (by rw [run_cons, hstep, Option.bind_some, run_cons, hs]; rfl), htaken⟩

/-- Two jobs in a pool of one thread: it has taken the first, the second waits. -/
def twoJobs : List (WorkersLabel String) :=
  [.acquire .tcp, .thread 0, .thread 0, .acquire .tcp, .thread 0]

theorem dispatches_twoJobs : ∃ p : WorkerPool String 1,
    run (WorkerPool.step echo {}) WorkerPool.new twoJobs = some p ∧ p.crew.chan.queue = [1] ∧
      Dispatches echo {} p := by
  have hrun : (run (WorkerPool.step echo {}) (WorkerPool.new : WorkerPool String 1) twoJobs).map
      (fun p => p.crew.chan.queue) = some [1] := by decide
  obtain ⟨p, hp, hq⟩ := Option.map_eq_some_iff.mp hrun
  exact ⟨p, hp, hq, dispatches echo 1 {} twoJobs p hp⟩

end Dispatch

end MediaApi.Pool.Dispatch
