import MediaApi.Pool.Dispatch
import MediaApi.Pool.Survival

/-! # The threads refine the counted pool

`DecoderPool` only counts its workers. As long as one of them has not panicked, every run of the
threads is a run of it (`refines`): the length of the job channel is the number of jobs that wait,
and a thread that receives is a worker that the counts show as idle. What is proved of the counted
pool so holds of the threads. -/

namespace MediaApi.Pool.Counts

open MediaApi.Lib.Channel MediaApi.Lib.Components MediaApi.Lib.Threads MediaApi.Lib.Transition
open MediaApi.Model.Audio MediaApi.Model.Pipeline MediaApi.Model.ProcessJob MediaApi.Model.Steps
open MediaApi.Model.Options MediaApi.Model.Pool MediaApi.Model.Workers MediaApi.Pool.Backpressure
open MediaApi.Pool.Dispatch MediaApi.Pool.Forwarding

variable {ε : Type} {size : ℕ}

/-- The pool as its counts see it. -/
def counted (p : WorkerPool ε size) : DecoderPool ε := ⟨p.jobs⟩

/-! ### What the counts are -/

section Counts

variable {p : WorkerPool ε size}

/-- A count over the jobs is a count over their numbers. -/
theorem countP_range (f : Session ε → Bool) (jobs : List (Session ε)) :
    jobs.countP f = (List.range jobs.length).countP fun k => jobs[k]?.any f := by
  have hmap : (List.range jobs.length).map (fun k => jobs[k]?) = jobs.map some := by
    refine List.ext_getElem (by simp) fun k h1 h2 => ?_
    have hk : k < jobs.length := by simpa using h2
    simp [List.getElem?_eq_getElem hk]
  calc jobs.countP f = (jobs.map some).countP fun o => o.any f := by rw [List.countP_map]; rfl
    _ = _ := by rw [← hmap, List.countP_map]; rfl

/-- The jobs of a kind: those with a thread, those done, and those in the channel. -/
theorem count_jobs (ht : Tied p) (hc : Conserved p.crew) (f : Session ε → Bool) :
    p.jobs.countP f = p.crew.loads (fun k => p.jobs[k]?.any f) +
      p.crew.done.countP (fun k => p.jobs[k]?.any f) +
      p.crew.chan.queue.countP fun k => p.jobs[k]?.any f := by
  rw [countP_range, ← ht.sent, hc.order, List.countP_append, hc.hands]

/-- A job in the channel waits; one done has returned. -/
theorem count_queue (ht : Tied p) (hc : Conserved p.crew) {f : Session ε → Bool} {b : Bool}
    (hf : ∀ s, isQueued s = true → f s = b) :
    p.crew.chan.queue.countP (fun k => p.jobs[k]?.any f) =
      if b then p.crew.chan.queue.length else 0 := by
  have hall : ∀ k ∈ p.crew.chan.queue, p.jobs[k]?.any f = b := by
    intro k hk
    have hlt : k < p.jobs.length := by
      have hmem : k ∈ p.crew.sent := by
        rw [hc.order]
        exact List.mem_append_right _ hk
      rwa [ht.sent, List.mem_range] at hmem
    have hget := List.getElem?_eq_getElem hlt
    rw [hget, Option.any_some]
    exact hf _ ((ht.queued k _ hget).mpr hk)
  cases b with
  | true => exact List.countP_eq_length.mpr fun k hk => hall k hk
  | false => exact List.countP_eq_zero.mpr fun k hk => by simp [hall k hk]

theorem count_done (ht : Tied p) {f : Session ε → Bool}
    (hf : ∀ s, hasReturned s = true → f s = false) :
    p.crew.done.countP (fun k => p.jobs[k]?.any f) = 0 := by
  refine List.countP_eq_zero.mpr fun k hk => ?_
  cases hget : p.jobs[k]? with
  | none => simp
  | some s =>
    obtain ⟨o, ho, hne⟩ := ht.done k s hget hk
    have hr : hasReturned s = true := by simp [hasReturned, ho, hne]
    simp [hf s hr]

theorem not_queued (ht : Tied p) (hc : Conserved p.crew) {k : ℕ}
    (h : 0 < p.crew.loads (· == k)) : p.jobs[k]?.any isQueued = false := by
  have hnotin := (hc.out (Or.inr h)).2 ht.nodup
  cases hk : p.jobs[k]? with
  | none => rfl
  | some s =>
    have := (ht.queued k s hk).not.mpr hnotin
    simpa using this

theorem load_queue (ht : Tied p) (hc : Conserved p.crew) :
    p.crew.loads (fun k => p.jobs[k]?.any isQueued) = 0 := by
  unfold Crew.loads
  refine List.sum_eq_zero fun n hn => ?_
  obtain ⟨t, hmem, rfl⟩ := List.mem_map.mp hn
  obtain ⟨w, hw⟩ := List.mem_iff_getElem?.mp hmem
  unfold Thread.load
  split
  · simp [not_queued ht hc (load_of_mem hw)]
  · simp [not_queued ht hc (load_of_died hmem)]
  · rfl

/-- **The jobs that wait are those in the channel.** -/
theorem waiting_eq (ht : Tied p) (hc : Conserved p.crew) :
    (counted p).waiting = p.crew.chan.queue.length := by
  have hd := count_done ht (f := isQueued) fun s hs => by
    cases hpc : s.pc <;> simp_all [isQueued, hasReturned]
  have hq := count_queue ht hc (f := isQueued) (b := true) fun s hs => hs
  have hl := load_queue ht hc
  have hcount := count_jobs ht hc isQueued
  rw [hd, hq, hl, if_pos rfl] at hcount
  show p.jobs.countP isQueued = _
  omega

/-- **The jobs that occupy a worker are with a thread.** -/
theorem occupied_load (ht : Tied p) (hc : Conserved p.crew) :
    occupied (counted p) = p.crew.loads fun k => p.jobs[k]?.any isOccupied := by
  have hd := count_done ht (f := isOccupied) fun s hs => by
    have := (not_hasReturned s).1
    simp_all
  have hq := count_queue ht hc (f := isOccupied) (b := false) fun s hs => by
    have := (not_hasReturned s).2.1
    simp_all
  have hcount := count_jobs ht hc isOccupied
  rw [hd, hq, if_neg (by simp)] at hcount
  show p.jobs.countP isOccupied = _
  omega

/-- A thread with nothing in its hands is an idle worker. -/
theorem idle_of_thread (hlen : p.crew.threads.length = size) (ht : Tied p)
    (hc : Conserved p.crew) {w : ℕ} (hw : p.crew.threads[w]? = some .recv) :
    (counted p).busy < (counted p).live size := by
  have hlt := p.crew.loads_lt (fun k => p.jobs[k]?.any isOccupied) hw rfl
  have hocc := occupied_load ht hc
  have hsum := occupied_eq (counted p)
  unfold occupied at hocc
  unfold DecoderPool.live
  omega

/-- If all threads have ended and jobs wait, every worker has panicked. -/
theorem live_eq_zero (hlen : p.crew.threads.length = size) (hm : Mutual p.crew) (ht : Tied p)
    (hc : Conserved p.crew) (hrx : p.crew.chan.rx = false) (hq : p.crew.chan.queue ≠ []) :
    (counted p).live size = 0 := by
  have hall : ∀ t ∈ p.crew.threads, t.load (fun k => p.jobs[k]?.any hasPanicked) = 1 := by
    intro t hmem
    have hgone : t.gone = true := by
      rw [hm.receiver, Bool.not_eq_false', List.all_eq_true] at hrx
      exact hrx t hmem
    cases t with
    | lock | recv | work => cases hgone
    | exited => exact absurd (hm.exits hmem).2 hq
    | died o =>
      cases o with
      | none => exact absurd hmem hm.unpoisoned
      | some k =>
        have hlt : k < p.jobs.length := by
          have := (hc.out (Or.inr (load_of_died hmem))).1
          rwa [ht.sent, List.mem_range] at this
        have hget := List.getElem?_eq_getElem hlt
        have hpc := ht.died k _ hget hmem
        have hp : p.jobs[k]?.any hasPanicked = true := by
          rw [hget, Option.any_some]
          simp [hasPanicked, hpc, Pc.outcome]
        simp only [Thread.load, hp, if_true]
  have hloads := p.crew.loads_eq _ hall
  have hcount := count_jobs ht hc hasPanicked
  show size - p.jobs.countP hasPanicked = 0
  omega

end Counts

/-! ### The refinement -/

section Refinement

variable [ToString ε] {B : DecodeOptions → Behaviour ε} {defaults : DecodeOptions}
  {p p' : WorkerPool ε size} {l : WorkersLabel ε}

/-- A step of a started job, or of anyone but a worker, is a step of the counted pool. -/
theorem counted_job {k : ℕ} {s s' : Session ε} {i : Label ε} (hk : p.jobs[k]? = some s)
    (h : isQueued s = false ∨ i ≠ .inner .worker) (hs : s.step B i = some s') :
    (counted p).step B size defaults (.job k i) = some ⟨p.jobs.set k s'⟩ := by
  simp only [DecoderPool.step, counted, hk]
  split
  · next hpc =>
    rcases h with h | h
    · simp [isQueued, hpc] at h
    · exact absurd rfl h
  · rw [hs]
    rfl

/-- An idle worker takes the oldest job. -/
theorem take_step {q : DecoderPool ε} {k : ℕ} {s s' : Session ε} (hk : q.jobs[k]? = some s)
    (hpc : s.pc = .queued)
    (hguard : (q.jobs.take k).all (!isQueued ·) = true ∧ q.busy < q.live size)
    (hs : s.worker = some s') :
    q.step B size defaults (.job k (.inner .worker)) = some ⟨q.jobs.set k s'⟩ := by
  simp only [DecoderPool.step, hk, hpc]
  rw [if_pos hguard, hs]
  rfl

omit [ToString ε] in
/-- The channel gives the job that was handed in first. -/
theorem oldest_first (ht : Tied p) (hc : Conserved p.crew) {k : ℕ} {rest : List ℕ}
    (hq : p.crew.chan.queue = k :: rest) : ∀ j ∈ p.crew.chan.queue, k ≤ j := by
  have hsorted : p.crew.sent.Pairwise (· < ·) := by
    rw [ht.sent]
    exact List.pairwise_lt_range
  rw [hc.order, hq] at hsorted
  have hlt := (List.pairwise_cons.mp (List.pairwise_append.mp hsorted).2.1).1
  intro j hj
  rw [hq] at hj
  rcases List.mem_cons.mp hj with rfl | hj
  · exact le_rfl
  · exact (hlt j hj).le

/-- A thread that takes a job is an idle worker that takes the oldest. -/
theorem counted_take (hlen : p.crew.threads.length = size) (ht : Tied p) (hc : Conserved p.crew)
    {w k : ℕ} {rest : List ℕ} {s s' : Session ε} (hw : p.crew.threads[w]? = some .recv)
    (hq : p.crew.chan.queue = k :: rest) (hk : p.jobs[k]? = some s) (hs : s.worker = some s') :
    (counted p).step B size defaults (.job k (.inner .worker)) = some ⟨p.jobs.set k s'⟩ := by
  have hpc : s.pc = .queued := by
    have := (ht.queued k s hk).mpr (by simp [hq])
    simpa [isQueued] using this
  have hguard : (p.jobs.take k).all (!isQueued ·) = true ∧
      (counted p).busy < (counted p).live size := by
    refine ⟨List.all_eq_true.mpr fun z hz => ?_, idle_of_thread hlen ht hc hw⟩
    obtain ⟨j, hj⟩ := List.mem_iff_getElem?.mp hz
    rw [List.getElem?_take] at hj
    split_ifs at hj with hjk
    have hnotin : j ∉ p.crew.chan.queue := fun hmem => by
      have := oldest_first ht hc hq j hmem
      omega
    have := (ht.queued j z hj).not.mpr hnotin
    simpa using this
  exact take_step (q := counted p) hk hpc hguard hs

omit [ToString ε] in
/-- A worker that panics has panicked for good. -/
theorem live_set {k : ℕ} {s s' : Session ε} (hk : p.jobs[k]? = some s)
    (h : hasPanicked s = true → hasPanicked s' = true) :
    (DecoderPool.mk (p.jobs.set k s')).live size ≤ (counted p).live size := by
  have hcount := countP_set (y := s') hasPanicked hk
  show size - (p.jobs.set k s').countP hasPanicked ≤ size - p.jobs.countP hasPanicked
  by_cases hp : hasPanicked s = true
  · simp only [hp, h hp, if_true] at hcount
    omega
  · rw [if_neg hp] at hcount
    omega

theorem panicked_step {s s' : Session ε} {i : Label ε} (h : s.step B i = some s')
    (hp : hasPanicked s = true) : hasPanicked s' = true := by
  simp only [hasPanicked, decide_eq_true_eq] at hp ⊢
  exact outcome_step hp h

omit [ToString ε] in
theorem live_follow (c : Crew ℕ size) :
    (counted (p.follow c)).live size = (counted p).live size := by
  show size - (p.follow c).jobs.countP hasPanicked = size - p.jobs.countP hasPanicked
  exact congrArg (size - ·) (countP_follow p c fun pc => pc.outcome = some .panicked)

/-- **The threads of the pool refine its counts**: as long as one worker has not panicked, every run
of the threads is a run of the counted pool. -/
theorem refines (B : DecodeOptions → Behaviour ε) (size : ℕ) (defaults : DecodeOptions)
    (ls : List (WorkersLabel ε)) (p : WorkerPool ε size)
    (h : run (WorkerPool.step B defaults) WorkerPool.new ls = some p)
    (hlive : 0 < (counted p).live size) :
    Reach (DecoderPool.step B size defaults) DecoderPool.new (counted p) := by
  revert hlive
  refine (reach_of_run h).rec_tail (P := fun p => 0 < (counted p).live size →
    Reach (DecoderPool.step B size defaults) DecoderPool.new (counted p)) (fun _ => .refl _) ?_
  intro m l m' hreach ih hstep hlive
  have hm := reach_mutual (reach_crew hreach)
  have hc := reach_conserved (reach_crew hreach)
  have ht := reach_tied hreach
  have hlen := reach_length (reach_crew hreach)
  have hfollow : ∀ c, m' = m.follow c →
      Reach (DecoderPool.step B size defaults) DecoderPool.new (counted m') := by
    rintro c rfl
    have hreach' := hreach.tail hstep
    have hcrew' := reach_crew hreach'
    rw [live_follow] at hlive
    by_cases hkept : c.chan.rx = true ∨ c.chan.queue = []
    · have heq : counted (m.follow c) = counted m := congrArg DecoderPool.mk (follow_jobs hkept)
      rw [heq]
      exact ih hlive
    · have hzero := live_eq_zero (reach_length hcrew') (reach_mutual hcrew') (reach_tied hreach')
        (reach_conserved hcrew') (Bool.eq_false_iff.mpr (not_or.mp hkept).1) (not_or.mp hkept).2
      rw [live_follow] at hzero
      omega
  have hset : ∀ {k s s' i}, m.jobs[k]? = some s → s.step B i = some s' →
      0 < (DecoderPool.mk (m.jobs.set k s')).live size →
      (counted m).step B size defaults (.job k i) = some ⟨m.jobs.set k s'⟩ →
      Reach (DecoderPool.step B size defaults) DecoderPool.new ⟨m.jobs.set k s'⟩ :=
    fun hk hs hlive hcounted =>
      (ih (hlive.trans_le (live_set hk (panicked_step hs)))).tail hcounted
  cases workers_step_cases hstep with
  | acquire r c htx hs =>
    have hmono : (counted m).live size ≥
        (DecoderPool.mk (m.jobs ++ [acquire (jobOptions defaults r)])).live size := by
      show size - m.jobs.countP hasPanicked ≥ size - (m.jobs ++ [_]).countP hasPanicked
      rw [List.countP_append]
      omega
    have hpos : 0 < (counted m).live size := hlive.trans_le hmono
    refine (ih hpos).tail (l := .acquire r) ?_
    have hwait : (counted m).waiting < size := by
      rw [waiting_eq ht hc]
      exact (send_true hs).1.2
    simp only [DecoderPool.step, if_pos (And.intro hpos hwait)]
    rfl
  | refused => exact ih hlive
  | shutdown c => exact hfollow c rfl
  | lock w c => exact hfollow c rfl
  | exit w c => exact hfollow c rfl
  | finish w k s o c => exact hfollow c rfl
  | die w k s c => exact hfollow c rfl
  | take w k rest c s s' hw hq hs hk hs' =>
    exact hset (i := .inner .worker) hk hs' hlive (counted_take hlen ht hc hw hq hk hs')
  | work w k s s' hw hk hs =>
    have hstarted : isQueued s = false := by
      have := (ht.queued k s hk).not.mpr ((hc.out (Or.inr (load_of_mem hw))).2 ht.nodup)
      simpa using this
    exact hset (i := .inner .worker) hk hs hlive (counted_job hk (Or.inl hstarted) hs)
  | job k l s s' hl hk hs => exact hset hk hs hlive (counted_job hk (Or.inr hl) hs)

theorem refines_twoJobs : ∃ p : WorkerPool String 1,
    run (WorkerPool.step echo {}) WorkerPool.new twoJobs = some p ∧
      Reach (DecoderPool.step echo 1 {}) DecoderPool.new (counted p) := by
  have hrun : (run (WorkerPool.step echo {}) (WorkerPool.new : WorkerPool String 1) twoJobs).map
      (fun p => (counted p).live 1) = some 1 := by decide
  obtain ⟨p, hp, hlive⟩ := Option.map_eq_some_iff.mp hrun
  exact ⟨p, hp, refines echo 1 {} twoJobs p hp (by rw [hlive]; exact Nat.one_pos)⟩

end Refinement

end MediaApi.Pool.Counts
