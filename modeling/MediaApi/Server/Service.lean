import MediaApi.Server.Moves

/-! # Every session is served

A task that waits for its job holds a runtime thread, and a job that waits for input holds a worker.
On a server on which no step leaves less work (`Stuck`) some thread is held by a task whose job is
queued, and every worker has a job whose task is off its thread, in a session with data. So a server
with more workers than clients that send data, or with as many as clients with a session, is not
stuck before every session is served. More threads do not help: the one that is held may be the one
that was at the I/O driver. -/

namespace MediaApi.Server.Service

open MediaApi.Lib.Transition MediaApi.Lib.Components MediaApi.Model.Audio MediaApi.Model.Pipeline
open MediaApi.Model.ProcessJob MediaApi.Model.Steps MediaApi.Model.Pool MediaApi.Model.Tcp
open MediaApi.Model.Server MediaApi.Pool.Forwarding MediaApi.Pool.Handle MediaApi.Pool.Script
open MediaApi.Pool.Progress MediaApi.Tcp.Reference MediaApi.Tcp.Sessions MediaApi.Server.Tasks
open MediaApi.Server.Work MediaApi.Server.Moves

variable {ε : Type} [ToString ε] {B : DecodeOptions → Behaviour ε} {options : DecodeOptions}
  {threads size k : ℕ} {clients : List (List Frame)} {sv sv' : TcpDecodeServer ε}
  {t t' : ConnTask ε} {o : Open ε} {s : Session ε}

/-! ### The threads and the workers -/

/-- The client has a session with data. -/
def hasData (client : List Frame) : Bool := (segment client).any (· ≠ [])

/-- The client has a session. -/
def hasSession (client : List Frame) : Bool := segment client ≠ []

/-- Fewer clients with data than workers, or no more with a session than workers. -/
def Fits (size : ℕ) (clients : List (List Frame)) : Prop :=
  clients.countP hasData < size ∨ clients.countP hasSession ≤ size

omit [ToString ε] in
theorem working_iff : t.working = true ↔
    ∃ o, t.conn.phase = .session o ∧ isRunning o.decoder = true := by
  unfold ConnTask.working Conn.decoder
  split <;> simp_all

omit [ToString ε] in
theorem isRunning_pc (h : isRunning s = true) : s.pc ≠ .queued ∧ ∀ out, s.pc ≠ .ended out := by
  unfold isRunning at h
  split at h
  · cases h
  · cases h
  · next h1 h2 => exact ⟨h1, h2⟩

/-- A task with a session has one of its client's. -/
theorem hasSession_of_session (hkeeps : Keeps B options t)
    (hph : (∃ data, t.conn.phase = .acquire data) ∨ ∃ o, t.conn.phase = .session o) :
    hasSession t.client = true := by
  have hne : segment t.client ≠ [] := by
    rcases hph with ⟨data, hph⟩ | ⟨o, hph⟩
    · obtain ⟨log, -, hf⟩ := reach_follows hkeeps.reach
      simp only [hph] at hf
      rw [hf.1]
      simp only [segmentFrom, if_true]
      split_ifs
      · simp
      · obtain ⟨qs, rest, hqs, -⟩ := segmentFrom_some t.conn.frames [data]
        simp [hqs]
    · obtain ⟨ps, rest, out, hps, -⟩ := hkeeps.serves hph
      exact List.ne_nil_of_mem hps
  simpa [hasSession] using hne

/-- A job that waits for input is one of a task off its thread, in a session with data. -/
theorem starving (hkeeps : Keeps B options t) (hph : t.conn.phase = .session o)
    (hrun : isRunning o.decoder = true) (hfed : ¬ Fed o.decoder)
    (hblock : t.running = true → Blocking size sv t) :
    t.running = false ∧ hasData t.client = true := by
  obtain ⟨ps, rest, out, hps, hf⟩ := hkeeps.serves hph
  have hr := hf.owns.reach
  have hno : [] ∉ o.decoder.sent := fun hm => hfed (fed_of_eof hr hm)
  have hcut := hf.cut
  have hoff : t.running = false := by
    by_contra hon
    rcases hblock (by simpa using hon) with ⟨⟨data, hacq⟩, -⟩ | ⟨o', hph', hpc, -⟩
    · rw [hph] at hacq; cases hacq
    · rw [hph] at hph'; cases hph'
      simp only [Cut, hpc] at hcut
      rw [hcut.1] at hno
      exact hno (by simp)
  refine ⟨hoff, ?_⟩
  have hsent : o.decoder.sent ≠ [] := by
    have hreg := hkeeps.regular
    have hpark := hkeeps.parked hoff
    simp only [ConnTask.reads, ConnTask.writes, ConnTask.ended, hph, Bool.false_eq_true,
      or_false] at hpark
    simp only [Regular, hph] at hreg
    have heof : o.decoder.sent ≠ ps ++ [[]] := fun hs => hno (by rw [hs]; simp)
    cases hpc : o.pc <;> simp only [hpc, reduceCtorEq, decide_false, Bool.false_eq_true,
      or_self] at hpark
    · next a flush =>
      cases flush with
      | false => simpa only [hpc] using hreg
      | true => simp only [Cut, hpc] at hcut; exact absurd hcut.1 heof
    · next a flush =>
      cases flush with
      | false => simpa only [hpc] using hreg
      | true => simp only [Cut, hpc] at hcut; exact absurd hcut.1 heof
    · simpa only [hpc] using hreg
    · simp only [Cut, hpc] at hcut; exact absurd hcut.1 heof
  have hne : ps ≠ [] := by
    rintro rfl
    have hdrop : o.pc.dropping = none := by
      by_contra hd
      obtain ⟨d, failed, hpc⟩ : ∃ d failed, o.pc = .drop d failed := by
        cases hpc : o.pc <;> simp_all [TcpPc.dropping]
      have hreg := hkeeps.regular
      simp only [Regular, hph, hpc] at hreg
      obtain ⟨-, out, ho⟩ := hreg
      exact (isRunning_pc hrun).2 out ho
    have hpre := (hf.script hdrop).sent
    rcases List.prefix_concat_iff.mp hpre with hs | hs
    · rw [hs] at hno; exact hno (by simp)
    · exact hsent (List.prefix_nil.mp hs)
  exact List.any_eq_true.mpr ⟨ps, hps, by simpa using hne⟩

/-! ### A server on which nothing moves -/

/-- No run leaves less work on the server. -/
def Stuck (B : DecodeOptions → Behaviour ε) (options : DecodeOptions) (threads size : ℕ)
    (sv : TcpDecodeServer ε) : Prop :=
  ¬ ∃ sv', Reach (TcpDecodeServer.step B options threads size) sv sv' ∧ Relieved sv' sv

/-- Every job that a worker has waits for input. -/
theorem Stuck.not_fed (hstuck : Stuck B options threads size sv)
    (hB : AllObliging B options clients) (h : Ordered B options size clients sv)
    (hk : sv.tasks[k]? = some t) (hph : t.conn.phase = .session o)
    (hrun : isRunning o.decoder = true) : ¬ Fed o.decoder := by
  intro hfed
  obtain ⟨hq, hend⟩ := isRunning_pc hrun
  exact hstuck (job_advances hB h hk hph hq hend hfed)

/-- Every task on its thread blocks it. -/
theorem Stuck.blocking (hstuck : Stuck B options threads size sv) (hsize : 1 ≤ size)
    (hB : AllObliging B options clients) (h : Ordered B options size clients sv)
    (hk : sv.tasks[k]? = some t) (hrun : t.running = true) (hc : Complete t) :
    Blocking size sv t := by
  cases hfin : finished t with
  | true => exact absurd (finished_leaves h hk hrun hfin) hstuck
  | false =>
    rcases task_steps hsize hB h hk hrun hc hfin with hblock | hgo
    · exact hblock
    · exact absurd hgo hstuck

/-- A task blocks its thread for a job in the job channel, its own or others. -/
theorem Stuck.queue_ne (hstuck : Stuck B options threads size sv) (hsize : 1 ≤ size)
    (hB : AllObliging B options clients) (h : Ordered B options size clients sv)
    (hk : sv.tasks[k]? = some t) (hblock : Blocking size sv t) : sv.queue ≠ [] := by
  rcases hblock with ⟨-, hfull⟩ | ⟨o, hph, hpc, hr⟩
  · exact List.ne_nil_of_length_pos (hsize.trans hfull)
  have hmem := List.mem_of_getElem? hk
  have hkeeps := h.keeps t hmem
  have hend : ∀ out, o.decoder.pc ≠ .ended out := by
    intro out hend
    obtain ⟨ps, rest, out', -, hf⟩ := hkeeps.serves hph
    have htx := (reach_ending hf.owns.reach).outputTx.mpr ⟨out, hend⟩
    rw [(recv_none.mp hr).2] at htx
    cases htx
  obtain ⟨ps, rest, out, hps, hf, hs⟩ := hkeeps.scripted hph hend
  have hfed : Fed o.decoder := by
    have hcut := hf.cut
    simp only [Cut, hpc] at hcut
    exact fed_of_eof hf.owns.reach (by rw [hcut.1]; simp)
  have hqueued : o.decoder.pc = .queued := by
    by_contra hq
    have hrun : isRunning o.decoder = true := by
      unfold isRunning
      split
      · next hpc => exact absurd hpc hq
      · next out hpc => exact absurd hpc (hend out)
      · simp [hasPanicked, (hB t.client (h.client hmem) ps hps).not_panicked hs]
    exact hstuck.not_fed hB h hk hph hrun hfed
  have hin : k ∈ sv.queue :=
    (h.queue k).mpr ⟨t, hk, by simp [ConnTask.waiting, Conn.decoder, hph, isQueued, hqueued]⟩
  exact List.ne_nil_of_mem hin

/-- While a job is queued, every worker has one. -/
theorem Stuck.busy (hstuck : Stuck B options threads size sv)
    (h : Ordered B options size clients sv) (hq : sv.queue ≠ []) : size ≤ sv.busy := by
  by_contra hb
  obtain ⟨k, rest, hq⟩ := List.exists_cons_of_ne_nil hq
  exact hstuck (job_taken h hq (by rw [h.workers]; exact Nat.not_le.mp hb))

/-- While a task is not finished, a thread is held. -/
theorem Stuck.held (hstuck : Stuck B options threads size sv)
    (h : Ordered B options size clients sv) (hc : ∀ t ∈ sv.tasks, Complete t)
    (hun : ∃ t ∈ sv.tasks, finished t = false) : ∃ t ∈ sv.tasks, t.running = true := by
  by_contra hoff
  obtain ⟨t, ht, hfin⟩ := hun
  obtain ⟨k, hk⟩ := List.mem_iff_getElem?.mp ht
  have hp := not_pending (h.keeps t ht) (hc t ht) hfin
  have hoff : ∀ t ∈ sv.tasks, t.running = false := fun t ht => by
    simpa using fun hrun => hoff ⟨t, ht, hrun⟩
  exact hstuck (task_started h hoff hk hfin hp)

/-- **A server that fits its clients is not stuck** while a task is not finished. -/
theorem not_stuck (hsize : 1 ≤ size) (hB : AllObliging B options clients)
    (hfits : Fits size clients) (h : Ordered B options size clients sv)
    (hc : ∀ t ∈ sv.tasks, Complete t) (hun : ∃ t ∈ sv.tasks, finished t = false) :
    ¬ Stuck B options threads size sv := by
  intro hstuck
  have hblock : ∀ t ∈ sv.tasks, t.running = true → Blocking size sv t := by
    intro t ht hrun
    obtain ⟨k, hk⟩ := List.mem_iff_getElem?.mp ht
    exact hstuck.blocking hsize hB h hk hrun (hc t ht)
  have hstarve : ∀ t ∈ sv.tasks, t.working = true →
      t.running = false ∧ hasData t.client = true ∧ hasSession t.client = true := by
    intro t ht hw
    obtain ⟨o, hph, hrun⟩ := working_iff.mp hw
    obtain ⟨k, hk⟩ := List.mem_iff_getElem?.mp ht
    obtain ⟨hoff, hdata⟩ := starving (h.keeps t ht) hph hrun (hstuck.not_fed hB h hk hph hrun)
      (hblock t ht)
    exact ⟨hoff, hdata, hasSession_of_session (h.keeps t ht) (Or.inr ⟨o, hph⟩)⟩
  -- some thread is held, so a job is queued, so every worker has a job that waits for input
  obtain ⟨t, ht, hrun⟩ := hstuck.held h hc hun
  obtain ⟨k, hk⟩ := List.mem_iff_getElem?.mp ht
  have hbusy := hstuck.busy h (hstuck.queue_ne hsize hB h hk (hblock t ht hrun))
  have hcount : ∀ p : List Frame → Bool,
      clients.countP p = sv.tasks.countP fun t => p t.client := by
    intro p
    rw [← h.clients, List.countP_map]
    rfl
  rcases hfits with hfew | hfew
  · have : sv.busy ≤ clients.countP hasData := by
      rw [hcount]
      exact List.countP_mono_left fun t ht hw => (hstarve t ht hw).2.1
    omega
  · -- and the task on the thread has a session of its own
    have hheld : 1 ≤ sv.held := List.countP_pos_iff.mpr ⟨t, ht, hrun⟩
    have hsession : ∀ t ∈ sv.tasks, t.running = true → hasSession t.client = true := by
      intro t ht hrun
      refine hasSession_of_session (h.keeps t ht) ?_
      rcases hblock t ht hrun with ⟨hacq, -⟩ | ⟨o, hph, -⟩
      · exact Or.inl hacq
      · exact Or.inr ⟨o, hph⟩
    have : sv.busy + sv.held ≤ clients.countP hasSession := by
      rw [hcount]
      exact countP_add_countP_le (fun t ht hw => (hstarve t ht hw).2.2) hsession
        fun t ht hw => (hstarve t ht hw).1
    omega

/-! ### Every session is served -/

/-- Every session of the client has its DONE frame. -/
def Answered (t : ConnTask ε) : Prop :=
  t.conn.written.countP (·.tag = .done) = (segment t.client).length

omit [ToString ε] in
theorem countP_done_render (outs : List (Decoded ε)) :
    (render outs).countP (·.tag = .done) = 1 := by
  have haudio : (audio (oks outs)).countP (·.tag = .done) = 0 := by
    rw [List.countP_eq_zero]
    intro f hf
    simp only [audio, metaOf, List.mem_append, Option.mem_toList, Option.map_eq_some_iff,
      List.mem_map] at hf
    obtain ⟨a, -, rfl⟩ | ⟨a, -, rfl⟩ := hf <;> simp [metaFrame, pcmsFrame]
  rw [render, List.countP_append, haudio]
  rfl

theorem countP_done_rendered (log : Log) :
    (rendered log).countP (·.tag = .done) = log.length := by
  induction log with
  | nil => rfl
  | cons e log ih =>
    have : rendered (e :: log) = render e.2 ++ rendered log := by simp [rendered]
    rw [this, List.countP_append, countP_done_render, ih, List.length_cons, Nat.add_comm]

/-- A finished task has served every session of its client. -/
theorem answered_of_finished (hkeeps : Keeps B options t) (hfin : finished t = true) :
    Answered t := by
  obtain ⟨log, -, hf⟩ := reach_follows hkeeps.reach
  have hreg := hkeeps.regular
  obtain ⟨hseg, hw⟩ : segment t.client = log.map Prod.fst ∧ t.conn.written = rendered log := by
    unfold finished at hfin
    split at hfin
    · next ok hph =>
      simp only [Regular, hph] at hreg hf
      subst hreg
      exact hf
    · next hph =>
      have hframes : t.conn.frames = [] := by simpa using hfin
      simp only [hph, hframes, segmentFrom, List.append_nil] at hf
      exact hf
    · cases hfin
  rw [Answered, hseg, hw, countP_done_rendered, List.length_map]

/-- **Blocking calls do not wedge a server that fits its clients.** From every reachable state in
which every client has sent all its input, some continuation serves every session to its DONE frame.
-/
theorem never_wedged (B : DecodeOptions → Behaviour ε) (options : DecodeOptions) (threads size : ℕ)
    (clients : List (List Frame)) (ls : List (ServerLabel ε)) (sv : TcpDecodeServer ε)
    (hsize : 1 ≤ size) (hB : AllObliging B options clients)
    (hfits : Fits size clients)
    (hrun : run (TcpDecodeServer.step B options threads size)
      (TcpDecodeServer.new size clients) ls =
      some sv)
    (hc : ∀ t ∈ sv.tasks, Complete t) :
    ∃ sv', Reach (TcpDecodeServer.step B options threads size) sv sv' ∧
      sv'.tasks.map ConnTask.client = clients ∧ ∀ t ∈ sv'.tasks, Answered t := by
  have hord : Ordered B options size clients sv :=
    (reach_of_run hrun).invariant ordered_new fun _ _ _ hI hs => ordered_step hsize hB hI hs
  have hgo : ∀ m : TcpDecodeServer ε, Ordered B options size clients m ∧
      (∀ t ∈ m.tasks, Complete t) →
      ¬ (∀ t ∈ m.tasks, finished t = true) →
      ∃ m', Reach (TcpDecodeServer.step B options threads size) m m' ∧
        (Ordered B options size clients m' ∧ ∀ t ∈ m'.tasks, Complete t) ∧ Relieved m' m := by
    rintro m ⟨hm, hcm⟩ hun
    obtain ⟨m', hr, hless⟩ := not_not.mp
      (not_stuck hsize hB hfits hm hcm (by simpa using hun))
    refine ⟨m', hr, ?_, hless⟩
    exact hr.invariant (I := fun m => Ordered B options size clients m ∧ ∀ t ∈ m.tasks, Complete t)
      ⟨hm, hcm⟩ fun s l s' hI hs =>
        ⟨ordered_step hsize hB hI.1 hs, complete_step hI.1 hI.2 hs⟩
  obtain ⟨sv', hr, ⟨h, -⟩, hfin⟩ := Reach.of_wellFounded (falls_wf _ _) hgo ⟨hord, hc⟩
  exact ⟨sv', hr, h.clients, fun t ht => answered_of_finished (h.keeps t ht) (hfin t ht)⟩

/-- Two clients with a session each, and one that only closes one. -/
def twoSessions : List (List Frame) :=
  [[⟨.dcod, [7]⟩, ⟨.dcod, []⟩], [⟨.dcod, [8]⟩, ⟨.dcod, []⟩], [⟨.done, []⟩]]

/-- Both sessions begin on threads of their own, and their jobs are with workers when the rest of
the input arrives: the first task waits for it, off its thread, and the second one is on its
thread. -/
def twoRun : List (ServerLabel String) :=
  [.arrive 0, .arrive 1, .notice 0, .notice 1, .leave 0, .pick 1 false, .task 0, .task 1, .task 0,
    .task 1, .inner 0 .worker, .task 0, .inner 1 .worker, .task 0, .task 1, .park 0, .rest,
    .arrive 2, .arrive 0, .arrive 1]

theorem never_wedged_two : ∃ sv,
    run (TcpDecodeServer.step patient {} 2 2) (TcpDecodeServer.new 2 twoSessions) twoRun =
        some sv ∧
      ∃ sv', Reach (TcpDecodeServer.step patient {} 2 2) sv sv' ∧
        sv'.tasks.map ConnTask.client = twoSessions ∧ ∀ t ∈ sv'.tasks, Answered t :=
  ⟨_, rfl, never_wedged patient {} 2 2 twoSessions twoRun _ (by decide)
    (patient_allObliging (by decide)) (Or.inr (by decide)) rfl (by decide)⟩

end MediaApi.Server.Service
