import MediaApi.Pool.Dispatch
import MediaApi.Pool.Retry

/-! # How a pool ends

A pool whose threads are all gone refuses every `acquire`, and nobody waits for it: the jobs that
were still in the channel were dropped with its receiver, so a holder that sends is told so, and one
that receives is not blocked (`deserted`).

A pool whose handles have all been dropped works off its jobs, those in the channel as well, if the
pipelines let the workers get rid of what they send (`works_off`); if the pool itself is dropped
then and no job can panic, all threads leave their loops, with every job returned
(`shuts_down`). -/

namespace MediaApi.Pool.Shutdown

open MediaApi.Lib.Channel MediaApi.Lib.Components MediaApi.Lib.Threads MediaApi.Lib.Transition
open MediaApi.Model.Audio MediaApi.Model.Pipeline MediaApi.Model.ProcessJob MediaApi.Model.Steps
open MediaApi.Model.Options MediaApi.Model.Pool MediaApi.Model.Workers MediaApi.Pool.Forwarding
open MediaApi.Pool.Handle MediaApi.Pool.Progress MediaApi.Pool.Retry MediaApi.Pool.Dispatch

variable {ε : Type} {size : ℕ}

/-- The job was dropped in the channel. -/
def Abandoned (s : Session ε) : Prop :=
  s.pc = .queued ∧ s.input.rx = false ∧ s.output.tx = false

/-- The job is over: `process_job` has ended, or will never be called. -/
def Over (s : Session ε) : Prop := (∃ o, s.pc = .ended o) ∨ Abandoned s

variable [ToString ε] {B : DecodeOptions → Behaviour ε} {defaults : DecodeOptions}
  {p p' : WorkerPool ε size} {k w : ℕ} {s s' : Session ε}

/-! ### The sessions of the jobs -/

/-- A job is a session of its own, unless it was in the channel when the receiver went. -/
def Own (B : DecodeOptions → Behaviour ε) (defaults : DecodeOptions) (p : WorkerPool ε size) :
    Prop :=
  ∀ k s, p.jobs[k]? = some s →
    if p.crew.chan.rx = false ∧ k ∈ p.crew.chan.queue then Abandoned s
    else ∃ r, Reach (Session.step B) (acquire (jobOptions defaults r)) s

/-- A holder changes nothing of an abandoned job that counts. -/
theorem abandoned_step {l : Label ε} (ha : Abandoned s) (hl : l ≠ .inner .worker)
    (h : s.step B l = some s') : Abandoned s' := by
  obtain ⟨hpc, hrx, htx⟩ := ha
  cases step_cases h with
  | worker => exact absurd rfl hl
  | answer ok h =>
    cases h with
    | eofAccepted hpc' | eofRefused hpc' | accepted _ hpc' | refused _ hpc' =>
      rw [hpc] at hpc'
      cases hpc'
  | pipe a q hq => exact absurd hpc hq
  | client a h =>
    cases h with
    | send data c _ hc =>
      rw [(Chan.send_sent hc).1] at hrx
      cases hrx
    | recv i c _ hc => exact ⟨hpc, hrx, (Chan.tryRecv_got hc).2.1.trans htx⟩
    | dropTx | dropRx => exact ⟨hpc, hrx, htx⟩

theorem Own.follow (hown : Own B defaults p) (ht : Tied p) {c : Crew ℕ size}
    (hqueue : c.chan.queue = p.crew.chan.queue)
    (hrx : p.crew.chan.rx = false → c.chan.rx = false) : Own B defaults (p.follow c) := by
  intro k s hk
  show if c.chan.rx = false ∧ k ∈ c.chan.queue then Abandoned s else _
  rw [hqueue]
  by_cases hc : c.chan.rx = true
  · have hp : p.crew.chan.rx = true := by
      by_contra hp
      rw [hrx (by simpa using hp)] at hc
      cases hc
    rw [follow_jobs (Or.inl hc)] at hk
    have := hown k s hk
    simpa [hp, hc] using this
  · simp only [WorkerPool.follow, if_neg hc, List.getElem?_mapIdx] at hk
    obtain ⟨s₀, hk₀, rfl⟩ := Option.map_eq_some_iff.mp hk
    by_cases hin : k ∈ p.crew.chan.queue
    · rw [if_pos ⟨by simpa using hc, hin⟩, hqueue, if_pos hin]
      have hpc : s₀.pc = .queued := by simpa [isQueued] using (ht.queued k s₀ hk₀).mpr hin
      exact ⟨hpc, rfl, rfl⟩
    · have := hown k s₀ hk₀
      rw [if_neg fun h => hin h.2] at this
      rw [if_neg fun h => hin h.2, hqueue, if_neg hin]
      exact this

/-- A job that steps. -/
theorem Own.set (hown : Own B defaults p) {c : Crew ℕ size} {l : Label ε}
    (hrx : c.chan.rx = p.crew.chan.rx)
    (hin : ∀ j, p.crew.chan.rx = false → (j ∈ c.chan.queue ↔ j ∈ p.crew.chan.queue))
    (hk : p.jobs[k]? = some s) (hs : s.step B l = some s')
    (hl : p.crew.chan.rx = true ∨ l ≠ .inner .worker) :
    Own B defaults ⟨c, p.jobs.set k s'⟩ := by
  intro j z hj
  have hcond : c.chan.rx = false ∧ j ∈ c.chan.queue ↔
      p.crew.chan.rx = false ∧ j ∈ p.crew.chan.queue := by
    rw [hrx]
    exact and_congr_right fun h => hin j h
  show if c.chan.rx = false ∧ j ∈ c.chan.queue then Abandoned z else _
  rw [if_congr hcond rfl rfl]
  rcases getElem_set hk hj with ⟨rfl, rfl⟩ | ⟨-, hj⟩
  · have := hown _ s hk
    by_cases h : p.crew.chan.rx = false ∧ j ∈ p.crew.chan.queue
    · rw [if_pos h] at this ⊢
      refine abandoned_step this (hl.resolve_left ?_) hs
      rw [h.1]
      simp
    · rw [if_neg h] at this ⊢
      obtain ⟨r, hr⟩ := this
      exact ⟨r, hr.tail hs⟩
  · exact hown j z hj

theorem own_step {l : WorkersLabel ε} (hm : Mutual p.crew) (hm' : Mutual p'.crew) (ht : Tied p)
    (hown : Own B defaults p) (h : p.step B defaults l = some p') : Own B defaults p' := by
  cases workers_step_cases h with
  | acquire r c htx hs =>
    obtain ⟨⟨hrx, -⟩, -, -, -, -, hrx'⟩ := send_true hs
    intro j z hj
    show if c.chan.rx = false ∧ j ∈ c.chan.queue then Abandoned z else _
    rw [hrx', hrx, if_neg (by simp)]
    rcases getElem_append_one hj with ⟨-, rfl⟩ | ⟨-, hj⟩
    · exact ⟨r, Reach.refl _⟩
    · have := hown j z hj
      rwa [hrx, if_neg (by simp)] at this
  | refused => exact hown
  | shutdown c hs =>
    refine hown.follow ht ?_ (crew_step_rx hs)
    cases crew_step_cases hs with
    | close => rfl
  | lock w c hw hs =>
    refine hown.follow ht ?_ (crew_step_rx hs)
    cases crew_step_cases hs with
    | poisoned | lock => exact put_queue _
  | take w k rest c s s' hw hq hs hk hs' =>
    have hrx := hm.rx hw rfl
    have hrx' : c.chan.rx = true := by
      refine hm'.rx (w := w) (u := .work k) ?_ rfl
      cases crew_step_cases hs with
      | take _ x chan _ hr =>
        have hx := (Chan.tryRecv_got hr).1
        rw [hq] at hx
        cases hx
        exact (getElem_put hw).trans (if_pos rfl)
      | exit _ _ hr =>
        rw [(Chan.tryRecv_closed.mp hr).1] at hq
        cases hq
    refine hown.set (l := .inner .worker) (hrx'.trans hrx.symm) (fun j hj => ?_) hk hs' (Or.inl hrx)
    rw [hrx] at hj
    cases hj
  | exit w c hw hq hs =>
    refine hown.follow ht ?_ (crew_step_rx hs)
    cases crew_step_cases hs with
    | take _ x chan _ hr =>
      rw [(Chan.tryRecv_got hr).1] at hq
      cases hq
    | exit => exact put_queue _
  | work w k s s' hw hk hs =>
    exact hown.set (l := .inner .worker) rfl (fun _ _ => Iff.rfl) hk hs (Or.inl (hm.rx hw rfl))
  | finish w k s o c hw hk hpc ho hs =>
    refine hown.follow ht ?_ (crew_step_rx hs)
    cases crew_step_cases hs with
    | finish => exact put_queue _
  | die w k s c hw hk hpc hs =>
    refine hown.follow ht ?_ (crew_step_rx hs)
    cases crew_step_cases hs with
    | die => exact put_queue _
  | job k l s s' hl hk hs => exact hown.set rfl (fun _ _ => Iff.rfl) hk hs (Or.inr hl)

theorem reach_own (h : Reach (WorkerPool.step B defaults) WorkerPool.new p) : Own B defaults p := by
  refine h.rec_tail (P := Own B defaults) (fun k s hk => by cases hk) ?_
  intro m l m' hreach hown hs
  exact own_step (reach_mutual (reach_crew hreach)) (reach_mutual (reach_crew (hreach.tail hs)))
    (reach_tied hreach) hown hs

/-! ### A pool without threads -/

omit [ToString ε] in
/-- Where a job is: it has ended, waits in the channel, or is with a thread. -/
theorem job_place (hc : Conserved p.crew) (ht : Tied p) (hk : p.jobs[k]? = some s) :
    k ∈ p.crew.chan.queue ∨ (∃ o, s.pc = .ended o) ∨ .work k ∈ p.crew.threads := by
  have hlt : k ∈ p.crew.sent := by
    rw [ht.sent, List.mem_range]
    exact (List.getElem?_eq_some_iff.mp hk).1
  rw [hc.order] at hlt
  rcases List.mem_append.mp hlt with htaken | hq
  · right
    have hpos : 0 < (p.crew.taken.map Prod.snd).countP (· == k) :=
      List.countP_pos_iff.mpr ⟨k, htaken, by simp⟩
    rw [hc.hands] at hpos
    by_cases hd : k ∈ p.crew.done
    · obtain ⟨o, ho, -⟩ := ht.done k s hk hd
      exact Or.inl ⟨o, ho⟩
    · have hzero : p.crew.done.countP (· == k) = 0 := List.count_eq_zero.mpr hd
      rcases mem_of_loads (c := p.crew) (x := k) (by omega) with hwork | hdied
      · exact Or.inr hwork
      · exact Or.inl ⟨_, ht.died k s hk hdied⟩
  · exact Or.inl hq

/-- Where a job is when all threads are gone. -/
theorem over_of_gone (h : Reach (WorkerPool.step B defaults) WorkerPool.new p)
    (hgone : p.crew.threads.all Thread.gone = true) (hk : p.jobs[k]? = some s) : Over s := by
  have hrx : p.crew.chan.rx = false := by rw [(reach_mutual (reach_crew h)).receiver, hgone]; rfl
  have hown := reach_own h k s hk
  rcases job_place (reach_conserved (reach_crew h)) (reach_tied h) hk with hq | ho | hw
  · rw [if_pos ⟨hrx, hq⟩] at hown
    exact Or.inr hown
  · exact Or.inl ho
  · have := List.all_eq_true.mp hgone _ hw
    cases this

/-- A job that is over has let go of its ends of the channels. -/
theorem over_released (h : Reach (WorkerPool.step B defaults) WorkerPool.new p)
    (hk : p.jobs[k]? = some s) (ho : Over s) : s.input.rx = false ∧ s.output.tx = false := by
  rcases ho with ⟨o, ho⟩ | ⟨-, hrx, htx⟩
  · have hown := reach_own h k s hk
    by_cases hq : p.crew.chan.rx = false ∧ k ∈ p.crew.chan.queue
    · rw [if_pos hq] at hown
      exact hown.2
    · rw [if_neg hq] at hown
      obtain ⟨r, hr⟩ := hown
      exact ⟨reach_gone hr ⟨o, Or.inr ho⟩, (reach_ending hr).outputTx.mpr ⟨o, ho⟩⟩
  · exact ⟨hrx, htx⟩

/-- The handles of a pool whose threads are all gone. -/
structure Deserted (p : WorkerPool ε size) : Prop where
  /-- Every `acquire` fails at once. -/
  acquire : ∀ options, p.acquire options = some (false, p)
  /-- Every `send` on a handle fails at once. -/
  send : ∀ s ∈ p.jobs, ∀ data, s.send data = some (false, s)
  /-- No receive on a handle blocks. -/
  recv : ∀ s ∈ p.jobs, s.recv ≠ none

/-- **Nobody waits for a pool without threads.** -/
theorem deserted (B : DecodeOptions → Behaviour ε) (size : ℕ) (defaults : DecodeOptions)
    (ls : List (WorkersLabel ε)) (p : WorkerPool ε size)
    (h : run (WorkerPool.step B defaults) WorkerPool.new ls = some p) :
    (∀ t ∈ p.crew.threads, t.gone = true) ↔ Deserted p := by
  have hreach := reach_of_run h
  have hm := reach_mutual (reach_crew hreach)
  constructor
  · intro hgone
    have hall : p.crew.threads.all Thread.gone = true := List.all_eq_true.mpr hgone
    have hrx : p.crew.chan.rx = false := by rw [hm.receiver, hall]; rfl
    have hreleased : ∀ s ∈ p.jobs, s.input.rx = false ∧ s.output.tx = false := by
      intro s hs
      obtain ⟨k, hk⟩ := List.mem_iff_getElem?.mp hs
      exact over_released hreach hk (over_of_gone hreach hall hk)
    refine ⟨fun options => ?_, fun s hs data => ?_, fun s hs hrecv => ?_⟩
    · have hup : p.crew.chan.send p.jobs.length = .hungUp := Chan.send_hungUp.mpr hrx
      simp only [WorkerPool.acquire, Crew.send, hup]
    · have hup : s.input.send data = .hungUp := Chan.send_hungUp.mpr (hreleased s hs).1
      simp only [Session.send, hup]
    · have htx := (recv_none.mp hrecv).2
      rw [(hreleased s hs).2] at htx
      cases htx
  · intro hd t ht
    have hacquire := hd.acquire {}
    have hrx : p.crew.chan.rx = false := by
      unfold WorkerPool.acquire at hacquire
      split at hacquire
      · cases hacquire
      · next c hc => exact send_false hc
      · cases hacquire
    rw [hm.receiver, Bool.not_eq_false', List.all_eq_true] at hrx
    exact hrx t ht

/-- The steps of a session in a pool of one thread, which works on it. -/
def threaded : List (Label String) → List (WorkersLabel String)
  | [] => []
  | .inner .worker :: ls => .thread 0 :: threaded ls
  | l :: ls => .job 0 l :: threaded ls

/-- The only thread dies of a job with a zero bit depth, while the next job waits. -/
def lastThread : List (WorkersLabel String) :=
  .acquire (.grpc (some ⟨0, 256, 0⟩)) :: .thread 0 :: threaded echoRun.dropLast ++
    [.acquire .tcp, .thread 0, .thread 0]

theorem deserted_lastThread : ∃ p : WorkerPool String 1,
    run (WorkerPool.step echo {}) WorkerPool.new lastThread = some p ∧ p.jobs.length = 2 ∧
      Deserted p := by
  have hrun : (run (WorkerPool.step echo {}) (WorkerPool.new : WorkerPool String 1) lastThread).map
      (fun p => (p.jobs.length, p.crew.threads)) = some (2, [.died (some 0)]) := by decide
  obtain ⟨p, hp, he⟩ := Option.map_eq_some_iff.mp hrun
  rw [Prod.mk.injEq] at he
  refine ⟨p, hp, he.1, (deserted echo 1 {} lastThread p hp).mp ?_⟩
  rw [he.2]
  simp [Thread.gone]

/-! ### Working off the jobs -/

/-- The job is over, or its holder has dropped its handle. -/
def LetGo (s : Session ε) : Prop := Over s ∨ Holds .dropped s

/-- The job is over, or its pipeline has not refused EOF before and can make room for what is sent
to it from now on. -/
def Unhindered (B : DecodeOptions → Behaviour ε) (s : Session ε) : Prop :=
  Over s ∨ EofKept s ∧ ∀ s', Reach (Session.inner B) s s' → Room B s'

/-- A run of a job behind its handle, in the pool. -/
theorem inners_pool (hw : p.crew.threads[w]? = some (.work k)) (hk : p.jobs[k]? = some s)
    (h : Reach (Session.inner B) s s') :
    Reach (WorkerPool.step B defaults) p { p with jobs := p.jobs.set k s' } := by
  obtain ⟨hlt, hget⟩ := List.getElem?_eq_some_iff.mp hk
  have hself : ({ p with jobs := p.jobs.set k s } : WorkerPool ε size) = p := by
    rw [← hget, List.set_getElem_self]
  refine h.invariant
    (I := fun m => Reach (WorkerPool.step B defaults) p { p with jobs := p.jobs.set k m })
    (by rw [hself]) ?_
  intro m i m' hI hs
  have hkm : (p.jobs.set k m)[k]? = some m := by rw [List.getElem?_set_self hlt]
  have hset : (p.jobs.set k m).set k m' = p.jobs.set k m' := List.set_set _
  cases i with
  | worker =>
    refine hI.tail (l := .thread w) ?_
    have hnot : ∀ o, m.pc ≠ .ended o := by
      intro o ho
      simp [Session.inner, Session.worker, ho] at hs
    have hworker : m.worker = some m' := hs
    simp only [WorkerPool.step, WorkerPool.thread, hw, hkm, Option.bind_some]
    split
    · next hpc => exact absurd hpc (hnot _)
    · next o _ hpc => exact absurd hpc (hnot o)
    · rw [hworker, Option.map_some, hset]
  | answer ok =>
    refine hI.tail (l := .job k (.inner (.answer ok))) ?_
    simp only [WorkerPool.step, hkm, Option.bind_some, Session.step, hs, Option.map_some, hset]
  | pipe a =>
    refine hI.tail (l := .job k (.inner (.pipe a))) ?_
    simp only [WorkerPool.step, hkm, Option.bind_some, Session.step, hs, Option.map_some, hset]

/-- The job has still to come to its end. -/
def unended : Pc → Bool
  | .ended _ => false
  | _ => true

/-- How far a thread is from its end. -/
def way : Thread ℕ → ℕ
  | .work _ => 3
  | .lock => 2
  | .recv => 1
  | .exited | .died _ => 0

/-- What is left to do. -/
def left (p : WorkerPool ε size) : ℕ :=
  3 * p.crew.chan.queue.length + p.jobs.countP (fun s => unended s.pc) +
    (p.crew.threads.map way).sum

omit [ToString ε] in
/-- A thread gets nearer to its end by itself. -/
theorem left_follow {c : Crew ℕ size} {t u : Thread ℕ} (hw : p.crew.threads[w]? = some u)
    (hthreads : c.threads = p.crew.threads.set w t) (hqueue : c.chan.queue = p.crew.chan.queue)
    (hway : way t < way u) : left (p.follow c) < left p := by
  have hsum := sum_map_set (y := t) way hw
  have hcount := countP_follow p c unended
  show 3 * c.chan.queue.length + (p.follow c).jobs.countP (fun s => unended s.pc) +
    (c.threads.map way).sum < left p
  rw [hqueue, hcount, hthreads]
  unfold left
  omega

/-- What the threads do among themselves keeps what is true of abandoned jobs. -/
theorem follow_keeps {P : Session ε → Prop} (habandoned : ∀ s, Abandoned s → P s) {c : Crew ℕ size}
    (hown : Own B defaults (p.follow c)) (h : ∀ s ∈ p.jobs, P s) :
    ∀ s ∈ (p.follow c).jobs, P s := by
  intro s hs
  obtain ⟨k, hk⟩ := List.mem_iff_getElem?.mp hs
  obtain ⟨s₀, hk₀, rfl | ⟨hrx, hq, -⟩⟩ := follow_job hk
  · exact h s (List.mem_of_getElem? hk₀)
  · have := hown k s hk
    rw [if_pos ⟨hrx, hq⟩] at this
    exact habandoned s this

/-- A pool in which every holder has let go, and no pipeline hinders its job. -/
structure Leaving (B : DecodeOptions → Behaviour ε) (defaults : DecodeOptions)
    (p : WorkerPool ε size) : Prop where
  reach : Reach (WorkerPool.step B defaults) WorkerPool.new p
  jobs : ∀ s ∈ p.jobs, LetGo s ∧ Unhindered B s

/-- Some run of a pool in which every holder has let go brings it nearer to its end. -/
def Nearer (B : DecodeOptions → Behaviour ε) (defaults : DecodeOptions) (p : WorkerPool ε size) :
    Prop :=
  ∃ p', Reach (WorkerPool.step B defaults) p p' ∧ (∀ s ∈ p'.jobs, LetGo s ∧ Unhindered B s) ∧
    p'.crew.chan.tx = p.crew.chan.tx ∧ left p' < left p

/-- A thread goes on among the others. -/
theorem nearer_follow (h : Leaving B defaults p) {c : Crew ℕ size} {l : CrewLabel ℕ}
    {t u : Thread ℕ} (hs : p.step B defaults (.thread w) = (p.crew.step l).map p.follow)
    (hc : p.crew.step l = some c) (hw : p.crew.threads[w]? = some u)
    (hthreads : c.threads = p.crew.threads.set w t) (hqueue : c.chan.queue = p.crew.chan.queue)
    (htx : c.chan.tx = p.crew.chan.tx) (hway : way t < way u) : Nearer B defaults p := by
  rw [hc, Option.map_some] at hs
  refine ⟨p.follow c, .single hs, ?_, htx, left_follow hw hthreads hqueue hway⟩
  exact follow_keeps (fun s ha => ⟨Or.inl (Or.inr ha), Or.inl (Or.inr ha)⟩)
    (reach_own (h.reach.tail hs)) h.jobs

omit [ToString ε] in
theorem unended_iff {pc : Pc} : unended pc = false ↔ ∃ o, pc = .ended o := by
  cases pc <;> simp [unended]

/-- A thread whose job has ended comes back from it, or dies of it. -/
theorem nearer_ended (h : Leaving B defaults p) (hw : p.crew.threads[w]? = some (.work k))
    (hk : p.jobs[k]? = some s) {o : Outcome} (ho : s.pc = .ended o) : Nearer B defaults p := by
  by_cases hpanic : o = .panicked
  · subst hpanic
    have hdie : p.crew.step (.die w) = some { p.crew.put w (.died (some k)) with
        mutex := p.crew.mutex.filter (· ≠ w)
        poisoned := p.crew.poisoned || p.crew.mutex = some w } := by
      simp only [Crew.step, hw]
    refine nearer_follow h ?_ hdie hw rfl (put_queue _) (put_tx _) (by simp [way])
    simp only [WorkerPool.step, WorkerPool.thread, hw, hk, Option.bind_some, ho]
  · have hfinish : p.crew.step (.finish w) =
        some { p.crew.put w .lock with done := p.crew.done ++ [k] } := by
      simp only [Crew.step, hw]
    refine nearer_follow h ?_ hfinish hw rfl (put_queue _) (put_tx _) (by simp [way])
    simp only [WorkerPool.step, WorkerPool.thread, hw, hk, Option.bind_some, ho]

/-- A job at work is not in the channel any more. -/
theorem not_queued_of_work (h : Reach (WorkerPool.step B defaults) WorkerPool.new p)
    (hw : p.crew.threads[w]? = some (.work k)) (hk : p.jobs[k]? = some s) : s.pc ≠ .queued := by
  have ht := reach_tied h
  obtain ⟨-, hnotin⟩ := (reach_conserved (reach_crew h)).out (Or.inr (load_of_mem hw))
  exact fun hpc => hnotin ht.nodup ((ht.queued k s hk).mp (by simp [isQueued, hpc]))

/-- A thread at work ends its job, or comes back from it. -/
theorem nearer_work (hB : ∀ o, EndsAfterEof (B o)) (h : Leaving B defaults p)
    (hw : p.crew.threads[w]? = some (.work k)) : Nearer B defaults p := by
  have hc := reach_conserved (reach_crew h.reach)
  have ht := reach_tied h.reach
  obtain ⟨hsent, hnotin⟩ := hc.out (Or.inr (load_of_mem hw))
  rw [ht.sent, List.mem_range] at hsent
  have hk := List.getElem?_eq_getElem hsent
  have hq := hnotin ht.nodup
  by_cases hend : ∃ o, p.jobs[k].pc = .ended o
  · obtain ⟨o, ho⟩ := hend
    exact nearer_ended h hw hk ho
  · have hover : ¬ Over p.jobs[k] := by
      rintro (ho | ⟨hpc, -⟩)
      · exact hend ho
      · exact not_queued_of_work h.reach hw hk hpc
    obtain ⟨hlet, hfree⟩ := h.jobs _ (List.getElem_mem hsent)
    have hholds := hlet.resolve_left hover
    obtain ⟨hkept, hroom⟩ := hfree.resolve_left hover
    have hown := reach_own h.reach k _ hk
    rw [if_neg fun h => hq h.2] at hown
    obtain ⟨r, hr⟩ := hown
    obtain ⟨s', o, hs', ho⟩ := dropped_ends (hB _) hr hroom hkept hholds
    refine ⟨{ p with jobs := p.jobs.set k s' }, inners_pool hw hk hs', fun z hz => ?_, rfl, ?_⟩
    · rcases List.mem_or_eq_of_mem_set hz with hz | rfl
      · exact h.jobs z hz
      · exact ⟨Or.inl (Or.inl ⟨o, ho⟩), Or.inl (Or.inl ⟨o, ho⟩)⟩
    · have hcount := countP_set (y := s') (fun s => unended s.pc) hk
      have h1 : unended p.jobs[k].pc = true := by
        rw [← Bool.not_eq_false, unended_iff]
        exact hend
      have h2 : unended s'.pc = false := unended_iff.mpr ⟨o, ho⟩
      simp only [h1, h2, if_true, Bool.false_eq_true, if_false] at hcount
      unfold left
      dsimp only
      omega

/-- While a thread can take a job from the channel, the jobs in it are not over. -/
theorem not_over_of_taken (h : Reach (WorkerPool.step B defaults) WorkerPool.new p)
    (hw : p.crew.threads[w]? = some .recv) (hk : p.jobs[k]? = some s) (hpc : s.pc = .queued) :
    ¬ Over s := by
  have hrx := (reach_mutual (reach_crew h)).rx hw rfl
  have hown := reach_own h k s hk
  rw [if_neg (by simp [hrx])] at hown
  obtain ⟨r, hr⟩ := hown
  rintro (⟨o, ho⟩ | ⟨-, -, htx⟩)
  · rw [hpc] at ho
    cases ho
  · obtain ⟨o, ho⟩ := (reach_ending hr).outputTx.mp htx
    rw [hpc] at ho
    cases ho

/-- The holder of the mutex takes the oldest job, or leaves. -/
theorem nearer_recv (h : Leaving B defaults p) (hw : p.crew.threads[w]? = some .recv)
    (hnext : p.crew.chan.queue ≠ [] ∨ p.crew.chan.tx = false) : Nearer B defaults p := by
  have hc := reach_conserved (reach_crew h.reach)
  have ht := reach_tied h.reach
  cases hq : p.crew.chan.queue with
  | nil =>
    have htx := hnext.resolve_left fun hne => hne hq
    have hclosed := Chan.tryRecv_closed.mpr ⟨hq, htx⟩
    have hexit : p.crew.step (.recv w) = some { p.crew.put w .exited with mutex := none } := by
      simp only [Crew.step, hw, hclosed]
    refine nearer_follow h ?_ hexit hw rfl (put_queue _) (put_tx _) (by simp [way])
    simp only [WorkerPool.step, WorkerPool.thread, hw, hq]
  | cons k rest =>
    obtain ⟨c, hs, hthreads, -, hqueue, htx⟩ := recv_step hq hw
    obtain ⟨s, hk, hpc, hstep⟩ := take_job B defaults hc ht hq hs
    refine ⟨_, .single hstep, fun z hz => ?_, htx, ?_⟩
    · rcases List.mem_or_eq_of_mem_set hz with hz | rfl
      · exact h.jobs z hz
      · obtain ⟨hlet, hfree⟩ := h.jobs s (List.mem_of_getElem? hk)
        have hover := not_over_of_taken h.reach hw hk hpc
        refine ⟨Or.inr (hlet.resolve_left hover), Or.inr ?_⟩
        obtain ⟨hkept, hroom⟩ := hfree.resolve_left hover
        have hstart : s.inner B .worker = some { s with pc := .poll } := by
          simp [Session.inner, Session.worker, hpc]
        exact ⟨hkept, fun z hz => hroom z (hz.head hstart)⟩
    · have hcount := countP_set (y := { s with pc := .poll }) (fun s => unended s.pc) hk
      have hsum := sum_map_set (y := .work k) way hw
      have h1 : unended s.pc = true := by rw [hpc]; rfl
      have h2 : unended .poll = true := rfl
      simp only [h1, h2, if_true] at hcount
      simp only [way] at hsum
      unfold left
      dsimp only
      rw [hthreads, hqueue, hq, List.length_cons]
      omega

/-- An idle thread goes on, as long as there is a job or the pool was dropped. -/
theorem nearer_idle (h : Leaving B defaults p) {t : Thread ℕ} (hw : p.crew.threads[w]? = some t)
    (ht : t = .lock ∨ t = .recv)
    (hnext : p.crew.chan.queue ≠ [] ∨ p.crew.chan.tx = false) : Nearer B defaults p := by
  rcases idle_step (reach_mutual (reach_crew h.reach)) hw ht with ⟨v, hv⟩ | ⟨hlock, hstep⟩
  · exact nearer_recv h hv hnext
  · refine nearer_follow h ?_ hstep hlock rfl (put_queue _) (put_tx _) (by simp [way])
    simp only [WorkerPool.step, WorkerPool.thread, hlock]

theorem Leaving.nearer {G : WorkerPool ε size → Prop} {ls : List (WorkersLabel ε)}
    (h : run (WorkerPool.step B defaults) WorkerPool.new ls = some p)
    (hjobs : ∀ s ∈ p.jobs, LetGo s ∧ Unhindered B s)
    (hG : ∀ m, Leaving B defaults m → m.crew.chan.tx = p.crew.chan.tx → ¬ G m →
      Nearer B defaults m) :
    ∃ p', Reach (WorkerPool.step B defaults) p p' ∧ Leaving B defaults p' ∧ G p' := by
  have hp : Leaving B defaults p := ⟨reach_of_run h, hjobs⟩
  have hnearer : ∀ m, (Reach (WorkerPool.step B defaults) p m ∧ Leaving B defaults m ∧
      m.crew.chan.tx = p.crew.chan.tx) → ¬ G m → ∃ m', Reach (WorkerPool.step B defaults) m m' ∧
        (Reach (WorkerPool.step B defaults) p m' ∧ Leaving B defaults m' ∧
          m'.crew.chan.tx = p.crew.chan.tx) ∧ left m' < left m := by
    rintro m ⟨hr, hm, htx⟩ hgoal
    obtain ⟨m', hr', hjobs', htx', hless⟩ := hG m hm htx hgoal
    exact ⟨m', hr', ⟨hr.trans hr', ⟨hm.reach.trans hr', hjobs'⟩, htx'.trans htx⟩, hless⟩
  obtain ⟨p', -, ⟨hr, hleaving, -⟩, hg⟩ := Reach.of_wellFounded (InvImage.wf left wellFounded_lt)
    hnearer ⟨Reach.refl p, hp, rfl⟩
  exact ⟨p', hr, hleaving, hg⟩

/-- A thread that is not gone goes on, as long as there is a job or the pool was dropped. -/
theorem nearer_thread (hB : ∀ o, EndsAfterEof (B o)) (h : Leaving B defaults p) {t : Thread ℕ}
    (ht : t ∈ p.crew.threads) (hgone : t.gone = false)
    (hnext : (∃ k, t = .work k) ∨ p.crew.chan.queue ≠ [] ∨ p.crew.chan.tx = false) :
    Nearer B defaults p := by
  obtain ⟨w, hw⟩ := List.mem_iff_getElem?.mp ht
  cases t with
  | work k => exact nearer_work hB h hw
  | lock => exact nearer_idle h hw (Or.inl rfl) (hnext.resolve_left (by simp))
  | recv => exact nearer_idle h hw (Or.inr rfl) (hnext.resolve_left (by simp))
  | exited | died => cases hgone

/-- **A pool works off its jobs.** From every state of every run in which the holders have let go
and no pipeline hinders its job, with any jobs in the channel and at work, some run ends every job:
`process_job` comes to its end, unless the last thread panicked and the job was dropped in the
channel. -/
theorem works_off (B : DecodeOptions → Behaviour ε) (size : ℕ) (defaults : DecodeOptions)
    (ls : List (WorkersLabel ε)) (p : WorkerPool ε size) (hB : ∀ o, EndsAfterEof (B o))
    (h : run (WorkerPool.step B defaults) WorkerPool.new ls = some p)
    (hlet : ∀ s ∈ p.jobs, LetGo s) (hfree : ∀ s ∈ p.jobs, Unhindered B s) :
    ∃ p', Reach (WorkerPool.step B defaults) p p' ∧ (∀ s ∈ p'.jobs, Over s) ∧
      ∀ k, Thread.work k ∉ p'.crew.threads := by
  obtain ⟨p', hr, hp', hidle, hend⟩ := Leaving.nearer h (fun s hs => ⟨hlet s hs, hfree s hs⟩)
    (G := fun m => (∀ k, Thread.work k ∉ m.crew.threads) ∧
      (m.crew.chan.queue = [] ∨ m.crew.threads.all Thread.gone = true)) fun m hm _ hgoal => by
    by_cases hwork : ∃ k, Thread.work k ∈ m.crew.threads
    · obtain ⟨k, hk⟩ := hwork
      exact nearer_thread hB hm hk rfl (Or.inl ⟨k, rfl⟩)
    · have hmore := not_or.mp fun hend => hgoal ⟨fun k hk => hwork ⟨k, hk⟩, hend⟩
      obtain ⟨t, ht, hgone⟩ := List.all_eq_false.mp (Bool.eq_false_iff.mpr hmore.2)
      exact nearer_thread hB hm ht (by simpa using hgone) (Or.inr (Or.inl hmore.1))
  refine ⟨p', hr, fun s hs => ?_, hidle⟩
  obtain ⟨k, hk⟩ := List.mem_iff_getElem?.mp hs
  rcases hend with hq | hgone
  · rcases job_place (reach_conserved (reach_crew hp'.reach)) (reach_tied hp'.reach) hk with
      hin | ho | hw
    · rw [hq] at hin
      cases hin
    · exact Or.inl ho
    · exact absurd hw (hidle k)
  · exact over_of_gone hp'.reach hgone hk

/-- The two jobs of `twoJobs`, given up by their holders, and the pool as well; the worker of the
first one is in its retry loop. -/
def givenUp : List (WorkersLabel String) :=
  twoJobs ++ [.job 0 (.client (.send [7])), .job 0 (.client (.send [8])),
    .job 1 (.client (.send [9])), .thread 0, .thread 0, .job 0 (.inner (.answer true)), .thread 0,
    .thread 0, .job 0 (.client .dropTx), .job 0 (.client .dropRx), .job 1 (.client .dropTx),
    .job 1 (.client .dropRx), .shutdown]

/-- The holder of the job has dropped its handle before the worker has sent EOF. -/
def forsaken (s : Session String) : Bool :=
  !s.inputDone && !s.input.tx && !s.output.rx && s.options.outputBitsPerSample = none &&
    s.sent.length < 3

theorem givenUp_run : ∃ p : WorkerPool String 1,
    run (WorkerPool.step ticking {}) WorkerPool.new givenUp = some p ∧
      p.jobs.map Session.pc = [.retry [8], .queued] ∧ p.crew.chan.rx = true ∧
      p.crew.chan.tx = false ∧ ∀ s ∈ p.jobs, forsaken s = true := by
  have hrun : (run (WorkerPool.step ticking {}) (WorkerPool.new : WorkerPool String 1) givenUp).map
      (fun p => (p.jobs.map Session.pc, p.crew.chan.rx, p.crew.chan.tx, p.jobs.all forsaken)) =
      some ([.retry [8], .queued], true, false, true) := by decide
  obtain ⟨p, hp, he⟩ := Option.map_eq_some_iff.mp hrun
  simp only [Prod.mk.injEq, List.all_eq_true] at he
  exact ⟨p, hp, he⟩

/-- The jobs of that run are let go, unhindered, and do not panic. -/
theorem givenUp_jobs {p : WorkerPool String 1}
    (hp : run (WorkerPool.step ticking {}) WorkerPool.new givenUp = some p)
    (hrx : p.crew.chan.rx = true) (hall : ∀ s ∈ p.jobs, forsaken s = true) :
    ∀ s ∈ p.jobs, LetGo s ∧ Unhindered ticking s ∧
      ∀ s', Reach (Session.step ticking) s s' → Measures s' := by
  intro s hs
  have hs' := hall s hs
  simp only [forsaken, Bool.and_eq_true, Bool.not_eq_true', decide_eq_true_eq] at hs'
  obtain ⟨⟨⟨⟨hdone, htx⟩, hrxo⟩, hbits⟩, hsent⟩ := hs'
  obtain ⟨k, hk⟩ := List.mem_iff_getElem?.mp hs
  have hown := reach_own (reach_of_run hp) k s hk
  rw [if_neg (by simp [hrx])] at hown
  obtain ⟨r, hr⟩ := hown
  refine ⟨Or.inr ⟨htx, hrxo⟩, Or.inr ⟨fun hd => ?_, fun m hm => ?_⟩, fun m hm => ?_⟩
  · rw [hdone] at hd
    cases hd
  · exact ticking_room (hr.trans (inners_reach hm))
  · have hbits' : m.options = s.options :=
      (reach_options (hr.trans hm)).trans (reach_options hr).symm
    exact ticking_measures (hr.trans hm) (by rw [hbits', hbits])
      (by rw [sent_of_closed htx hm]; omega)

theorem works_off_givenUp : ∃ p : WorkerPool String 1,
    run (WorkerPool.step ticking {}) WorkerPool.new givenUp = some p ∧
      p.jobs.map Session.pc = [.retry [8], .queued] ∧
      ∃ p', Reach (WorkerPool.step ticking {}) p p' ∧ (∀ s ∈ p'.jobs, Over s) ∧
        ∀ k, Thread.work k ∉ p'.crew.threads := by
  obtain ⟨p, hp, hpc, hrx, -, hall⟩ := givenUp_run
  have hjobs := givenUp_jobs hp hrx hall
  exact ⟨p, hp, hpc, works_off ticking 1 {} givenUp p ticking_ends hp (fun s hs => (hjobs s hs).1)
    fun s hs => (hjobs s hs).2.1⟩

/-! ### The end of the pool -/

/-- The pool was dropped, and the metrics of its jobs do not panic; a job that was dropped in the
channel has none. -/
structure Safe (B : DecodeOptions → Behaviour ε) (p : WorkerPool ε size) : Prop where
  shut : p.crew.chan.tx = false
  jobs : ∀ s ∈ p.jobs, Abandoned s ∨ ∀ s', Reach (Session.step B) s s' → Measures s'

theorem Safe.follow (hs : Safe B p) {c : Crew ℕ size} (htx : c.chan.tx = false)
    (hown : Own B defaults (p.follow c)) : Safe B (p.follow c) :=
  ⟨htx, follow_keeps (fun _ => Or.inl) hown hs.jobs⟩

theorem Safe.set (hs : Safe B p) {c : Crew ℕ size} {l : Label ε} (htx : c.chan.tx = false)
    (hk : p.jobs[k]? = some s) (hstep : s.step B l = some s')
    (hl : ¬ Abandoned s ∨ l ≠ .inner .worker) : Safe B ⟨c, p.jobs.set k s'⟩ := by
  refine ⟨htx, fun z hz => ?_⟩
  rcases List.mem_or_eq_of_mem_set hz with hz | rfl
  · exact hs.jobs z hz
  · rcases hs.jobs s (List.mem_of_getElem? hk) with ha | hm
    · exact Or.inl (abandoned_step ha (hl.resolve_left (not_not.mpr ha)) hstep)
    · exact Or.inr fun z hz => hm z (hz.head hstep)

theorem safe_step {l : WorkersLabel ε} (hr : Reach (WorkerPool.step B defaults) WorkerPool.new p)
    (hs : Safe B p) (h : p.step B defaults l = some p') : Safe B p' := by
  have hown := reach_own (hr.tail h)
  cases workers_step_cases h with
  | acquire r c htx =>
    rw [hs.shut] at htx
    cases htx
  | refused => exact hs
  | shutdown c hc => exact hs.follow (crew_step_tx hc hs.shut) hown
  | lock w c hw hc => exact hs.follow (crew_step_tx hc hs.shut) hown
  | take w k rest c s s' hw hq hc hk hworker =>
    refine hs.set (l := .inner .worker) (crew_step_tx hc hs.shut) hk hworker (Or.inl fun ha => ?_)
    exact not_over_of_taken hr hw hk ha.1 (Or.inr ha)
  | exit w c hw hq hc => exact hs.follow (crew_step_tx hc hs.shut) hown
  | work w k s s' hw hk hworker =>
    refine hs.set (l := .inner .worker) hs.shut hk hworker (Or.inl fun ha => ?_)
    exact not_queued_of_work hr hw hk ha.1
  | finish w k s o c hw hk hpc ho hc => exact hs.follow (crew_step_tx hc hs.shut) hown
  | die w k s c hw hk hpc hc => exact hs.follow (crew_step_tx hc hs.shut) hown
  | job k l s s' hl hk hjob => exact hs.set hs.shut hk hjob (Or.inr hl)

/-- No job of such a pool has panicked. -/
theorem Safe.not_panicked (hs : Safe B p) (hr : Reach (WorkerPool.step B defaults) WorkerPool.new p)
    (hk : p.jobs[k]? = some s) (hnotin : k ∉ p.crew.chan.queue) : s.pc ≠ .ended .panicked := by
  intro hpc
  have hown := reach_own hr k s hk
  rw [if_neg fun hq => hnotin hq.2] at hown
  obtain ⟨r, hjob⟩ := hown
  rcases hs.jobs s (List.mem_of_getElem? hk) with ⟨hq, -⟩ | hm
  · rw [hpc] at hq
    cases hq
  · exact (hm s (Reach.refl s)).not_panicked hjob (by rw [hpc]; rfl)

theorem Safe.not_died (hs : Safe B p) (hr : Reach (WorkerPool.step B defaults) WorkerPool.new p)
    (ho : Option ℕ) : .died ho ∉ p.crew.threads := by
  intro hmem
  cases ho with
  | none => exact (reach_mutual (reach_crew hr)).unpoisoned hmem
  | some k =>
    have ht := reach_tied hr
    obtain ⟨hsent, hnotin⟩ := (reach_conserved (reach_crew hr)).out (Or.inr (load_of_died hmem))
    rw [ht.sent, List.mem_range] at hsent
    have hk := List.getElem?_eq_getElem hsent
    exact hs.not_panicked hr hk (hnotin ht.nodup) (ht.died k _ hk hmem)

/-- **A pool shuts down.** Once the pool has been dropped as well as its handles, and none of its
jobs can panic, some run leads to a state in which every job has been run by a thread and has
returned or aborted, those that were still in the channel too, and all threads have left their
loops. -/
theorem shuts_down (B : DecodeOptions → Behaviour ε) (size : ℕ) (defaults : DecodeOptions)
    (ls : List (WorkersLabel ε)) (p : WorkerPool ε size) (hB : ∀ o, EndsAfterEof (B o))
    (h : run (WorkerPool.step B defaults) WorkerPool.new ls = some p) (hlet : ∀ s ∈ p.jobs, LetGo s)
    (hfree : ∀ s ∈ p.jobs, Unhindered B s) (hsafe : Safe B p) :
    ∃ p', Reach (WorkerPool.step B defaults) p p' ∧
      (∀ s ∈ p'.jobs, ∃ o, s.pc = .ended o ∧ o ≠ .panicked) ∧
      ∀ t ∈ p'.crew.threads, t = .exited := by
  obtain ⟨p', hr, hp', hgone⟩ := Leaving.nearer h (fun s hs => ⟨hlet s hs, hfree s hs⟩)
    (G := fun m => m.crew.threads.all Thread.gone = true) fun m hm htx hgoal => by
    obtain ⟨t, ht, hgone⟩ := List.all_eq_false.mp (Bool.eq_false_iff.mpr hgoal)
    exact nearer_thread hB hm ht (by simpa using hgone) (Or.inr (Or.inr (htx.trans hsafe.shut)))
  have hsafe' : Safe B p' := hr.rec_tail (P := Safe B) hsafe
    fun _ _ _ hm hs h => safe_step ((reach_of_run ‹_›).trans hm) hs h
  have hexited : ∀ t ∈ p'.crew.threads, t = .exited := by
    intro t ht
    have hg := List.all_eq_true.mp hgone t ht
    cases t with
    | exited => rfl
    | died ho => exact absurd ht (hsafe'.not_died hp'.reach ho)
    | lock | recv | work => cases hg
  have hqueue : p'.crew.chan.queue = [] := by
    cases hthreads : p'.crew.threads with
    | nil =>
      -- without threads the channel has no room
      have hlen := reach_length (reach_crew hp'.reach)
      have hbound := p'.crew.chan.bounded
      rw [hthreads] at hlen
      exact List.length_eq_zero_iff.mp (by simp only [List.length_nil] at hlen; omega)
    | cons t rest =>
      have hmem : t ∈ p'.crew.threads := by simp [hthreads]
      refine ((reach_mutual (reach_crew hp'.reach)).exits ?_).2
      rw [← hexited t hmem]
      exact hmem
  refine ⟨p', hr, fun s hs => ?_, hexited⟩
  obtain ⟨k, hk⟩ := List.mem_iff_getElem?.mp hs
  have hnotin : k ∉ p'.crew.chan.queue := by simp [hqueue]
  rcases job_place (reach_conserved (reach_crew hp'.reach)) (reach_tied hp'.reach) hk with
    hin | ⟨o, ho⟩ | hw
  · exact absurd hin hnotin
  · exact ⟨o, ho, fun hpanic => hsafe'.not_panicked hp'.reach hk hnotin (hpanic ▸ ho)⟩
  · have := hexited _ hw
    cases this

theorem shuts_down_givenUp : ∃ p : WorkerPool String 1,
    run (WorkerPool.step ticking {}) WorkerPool.new givenUp = some p ∧
      p.jobs.map Session.pc = [.retry [8], .queued] ∧
      ∃ p', Reach (WorkerPool.step ticking {}) p p' ∧
        (∀ s ∈ p'.jobs, ∃ o, s.pc = .ended o ∧ o ≠ .panicked) ∧
        ∀ t ∈ p'.crew.threads, t = .exited := by
  obtain ⟨p, hp, hpc, hrx, htx, hall⟩ := givenUp_run
  have hjobs := givenUp_jobs hp hrx hall
  exact ⟨p, hp, hpc, shuts_down ticking 1 {} givenUp p ticking_ends hp (fun s hs => (hjobs s hs).1)
    (fun s hs => (hjobs s hs).2.1) ⟨htx, fun s hs => Or.inr (hjobs s hs).2.2⟩⟩

end MediaApi.Pool.Shutdown
