import MediaApi.Server.Service

/-! # A wedged server

What a server looks like that is stuck for ever: every thread that is awake is held by a task that
waits for its queued job, nobody is at the I/O driver, and every worker polls for frames whose
arrival nobody notices. No pipeline can help it, no client, and no further thread. -/

namespace MediaApi.Server.Wedge

open MediaApi.Lib.Transition MediaApi.Lib.Components MediaApi.Model.Audio MediaApi.Model.Pipeline
open MediaApi.Model.ProcessJob MediaApi.Model.Steps MediaApi.Model.Pool MediaApi.Model.Tcp
open MediaApi.Model.Server MediaApi.Pool.Forwarding MediaApi.Pool.Handle MediaApi.Pool.Script
open MediaApi.Pool.Progress MediaApi.Tcp.Reference MediaApi.Tcp.Sessions MediaApi.Server.Tasks
open MediaApi.Server.Work MediaApi.Server.Moves MediaApi.Server.Service

variable {ε : Type} [ToString ε] {B : DecodeOptions → Behaviour ε} {options : DecodeOptions}
  {threads size k : ℕ} {clients : List (List Frame)} {sv sv' : TcpDecodeServer ε}
  {t t' : ConnTask ε} {o : Open ε} {s : Session ε}

/-! ### A wedged server -/

/-- Before the input of a job is done its worker goes round the loop of `process_job`. -/
def looping : Pc → Bool
  | .poll | .retry _ | .drain | .emit _ false => true
  | _ => false

/-- A job whose EOF nobody has sent. -/
structure Starved (s : Session ε) : Prop where
  tx : s.input.tx = true
  queue : [] ∉ s.input.queue
  rx : s.output.rx = true
  inputDone : s.inputDone = false
  pc : looping s.pc = true

theorem starved_worker (h : Starved s) (hs : WorkerStep s s') : Starved s' := by
  obtain ⟨htx, hq, hrx, hd, hpc⟩ := h
  cases hs with
  | skip hpc hd' => rw [hd] at hd'; cases hd'
  | eof c hpc hd hr =>
    rw [(Lib.Channel.Chan.tryRecv_got hr).1] at hq
    exact absurd List.mem_cons_self hq
  | chunk b c hpc hd hr hb =>
    obtain ⟨hcons, htx', -⟩ := Lib.Channel.Chan.tryRecv_got hr
    rw [hcons] at hq
    exact ⟨htx'.trans htx, fun hm => hq (List.mem_cons_of_mem _ hm), hrx, hd, rfl⟩
  | idle hpc hd hr => exact ⟨htx, hq, hrx, hd, rfl⟩
  | disconnected hpc hd hr =>
    rw [(Lib.Channel.Chan.tryRecv_closed.mp hr).2] at htx
    cases htx
  | forward r p hpc hp => exact ⟨htx, hq, hrx, hd, rfl⟩
  | drained hpc hp => exact ⟨htx, hq, hrx, hd, by simp [hd, looping]⟩
  | put i final c hpc' hc =>
    refine ⟨htx, hq, (Lib.Channel.Chan.send_sent hc).2.2.2.2.trans hrx, hd, ?_⟩
    cases final with
    | false => rfl
    | true => rw [hpc'] at hpc; cases hpc
  | abort i final hpc' hc =>
    rw [Lib.Channel.Chan.send_hungUp.mp hc] at hrx
    cases hrx
  | start hpc' | forwardFinal r p hpc' | finish hpc' | measure ms hpc' | panic hpc'
  | dropInput o hpc' | dropOutput o hpc' => rw [hpc'] at hpc; cases hpc

/-- **A starved job stays one**, whatever its pipeline does. -/
theorem starved_inner {i : Inner ε} (h : Starved s) (hi : s.inner B i = some s') : Starved s' := by
  cases step_cases (l := .inner i) hi with
  | worker hw => exact starved_worker h hw
  | answer ok ha =>
    obtain ⟨htx, hq, hrx, hd, hpc⟩ := h
    cases ha with
    | eofAccepted hpc' | eofRefused hpc' => rw [hpc'] at hpc; cases hpc
    | accepted chunk hpc' => exact ⟨htx, hq, hrx, hd, rfl⟩
    | refused => exact ⟨htx, hq, hrx, hd, hpc⟩
  | pipe a p hq' hp => exact ⟨h.tx, h.queue, h.rx, h.inputDone, h.pc⟩

omit [ToString ε] in
theorem Starved.isRunning (h : Starved s) : isRunning s = true := by
  have hpc := h.pc
  unfold Model.Pool.isRunning hasPanicked
  cases hp : s.pc <;> simp_all [looping, Pc.outcome]

/-- A worker does not come back to a job that it has left. -/
theorem stopped_inner {i : Inner ε} (h : isRunning s = false) (hq : s.pc ≠ .queued)
    (hi : s.inner B i = some s') : isRunning s' = false := by
  obtain ⟨out, hend⟩ | hpanic : (∃ out, s.pc = .ended out) ∨ s.pc.outcome = some .panicked := by
    unfold isRunning at h
    split at h
    · next hpc => exact absurd hpc hq
    · next out hend => exact Or.inl ⟨out, hend⟩
    · exact Or.inr (by simpa [hasPanicked] using h)
  · simp [isRunning, ended_inner hend hi]
  · have hpanic' : s'.pc.outcome = some .panicked := by
      cases step_cases (l := .inner i) hi with
      | worker hw =>
        cases hw with
        | dropInput o hpc | dropOutput o hpc => simpa [hpc, Pc.outcome] using hpanic
        | start hpc | skip hpc | eof c hpc | chunk b c hpc | idle hpc | disconnected hpc
        | forward r p hpc | drained hpc | put i final c hpc | abort i final hpc
        | forwardFinal r p hpc | finish hpc | measure ms hpc | panic hpc =>
          rw [hpc] at hpanic; cases hpanic
      | answer ok ha =>
        cases ha with
        | eofAccepted hpc | eofRefused hpc | accepted chunk hpc =>
          rw [hpc] at hpanic; cases hpanic
        | refused => exact hpanic
      | pipe a p hq hp => exact hpanic
    unfold isRunning
    split
    · rfl
    · rfl
    · simp [hasPanicked, hpanic']

/-- A task that holds a thread until its job, which is queued, is over. -/
def Waits (t : ConnTask ε) : Prop :=
  ∃ o, t.conn.phase = .session o ∧ o.pc = .flush ∧ o.decoder.pc = .queued ∧ o.decoder.recv = none

/-- Every task on a thread waits for its queued job, no other thread is awake, and every worker has
a job whose EOF nobody has sent. -/
structure Wedged (sv : TcpDecodeServer ε) : Prop where
  waits : ∀ t ∈ sv.tasks, t.running = true → Waits t
  starved : ∀ t ∈ sv.tasks, t.working = true → ∃ o, t.conn.phase = .session o ∧ Starved o.decoder
  driving : sv.driving = false
  looking : sv.looking = 0
  workers : sv.workers ≤ sv.busy

omit [ToString ε] in
theorem Wedged.not_idle (h : Wedged sv) : ¬ (sv.driving = true ∨ 0 < sv.looking) := by
  simp [h.driving, h.looking]

omit [ToString ε] in
/-- A wedged server after a step of one task that does not change its worker. -/
theorem Wedged.put (h : Wedged sv) (hk : sv.tasks[k]? = some t) (hwork : t'.working = t.working)
    (hwaits : t'.running = true → Waits t')
    (hstarved : t'.working = true → ∃ o, t'.conn.phase = .session o ∧ Starved o.decoder) :
    Wedged (sv.put k t') := by
  refine ⟨fun m hm => ?_, fun m hm => ?_, h.driving, h.looking, ?_⟩
  · rcases List.mem_or_eq_of_mem_set hm with hm | rfl
    · exact h.waits m hm
    · exact hwaits
  · rcases List.mem_or_eq_of_mem_set hm with hm | rfl
    · exact h.starved m hm
    · exact hstarved
  · exact h.workers.trans (countP_set_of_eq hk hwork).ge

/-- **A wedged server stays wedged**, and nobody is answered any more. -/
theorem wedged_step {l : ServerLabel ε} (h : Wedged sv)
    (hs : sv.step B options threads size l = some sv') : Wedged sv' ∧
      sv'.tasks.map (fun t => t.conn.written) = sv.tasks.map fun t => t.conn.written := by
  obtain ⟨driving, looking, hidle, -⟩ | ⟨k, t, hk, hs⟩ := server_step_cases hs
  · exact absurd hidle h.not_idle
  have hmem := List.mem_of_getElem? hk
  have hwaits := h.waits t hmem
  have hstarved := h.starved t hmem
  cases hs with
  | arrive t' ht =>
    obtain ⟨hrun, hconn⟩ : t'.running = t.running ∧ t'.conn = t.conn := by
      unfold ConnTask.arrive at ht
      split_ifs at ht <;> cases ht <;> exact ⟨rfl, rfl⟩
    refine ⟨h.put hk (by simp only [ConnTask.working, hconn]) ?_ ?_,
      map_set_of_eq hk (by rw [hconn])⟩
    · rw [hrun]; simpa only [Waits, hconn] using hwaits
    · simpa only [ConnTask.working, hconn] using hstarved
  | notice hd hready => rw [h.driving] at hd; cases hd
  | start driving looking hw hidle hawake =>
    exact absurd hidle h.not_idle
  | park hrun hpark =>
    obtain ⟨o, hph, hpc, -⟩ := hwaits hrun
    simp [ConnTask.pending, ConnTask.reads, ConnTask.writes, ConnTask.ended, hph, hpc] at hpark
  | refused data hrun hph hw =>
    obtain ⟨o, hph', -⟩ := hwaits hrun
    rw [hph] at hph'; cases hph'
  | acquire data hrun hph hq =>
    obtain ⟨o, hph', -⟩ := hwaits hrun
    rw [hph] at hph'; cases hph'
  | handler c hrun hp hph hc =>
    obtain ⟨o, hph', hpc, -, hr⟩ := hwaits hrun
    simp [Conn.handler, hph', hpc, hr] at hc
  | take o s rest hph hpc hq hb i hi => exact absurd h.workers (Nat.not_le.mpr hb)
  | inner o s i hph hpc hi =>
    have hoff : t.running = false := by
      by_contra hrun
      obtain ⟨o', hph', -, hq, -⟩ := hwaits (by simpa using hrun)
      rw [hph] at hph'; cases hph'
      exact hpc hq
    have hworking : t.working = isRunning o.decoder := by
      simp [ConnTask.working, Conn.decoder, hph]
    have hstarved' : isRunning o.decoder = true → Starved s := by
      intro hrun
      obtain ⟨o', hph', ho⟩ := hstarved (hworking.trans hrun)
      rw [hph] at hph'; cases hph'
      exact starved_inner ho hi
    have hsame : isRunning s = isRunning o.decoder := by
      cases hrun : isRunning o.decoder with
      | true => exact (hstarved' hrun).isRunning
      | false => exact stopped_inner hrun hpc hi
    have hwork : (t.behind o s).working = isRunning s := rfl
    have hput : Wedged (sv.put k (t.behind o s)) := h.put hk
      (by rw [hwork, hsame, hworking])
      (fun hon => absurd hon (by simp [ConnTask.behind, hoff]))
      (fun hon => ⟨_, rfl, hstarved' (by rw [← hsame, ← hwork]; exact hon)⟩)
    refine ⟨⟨hput.waits, hput.starved, h.driving, h.looking, le_trans ?_ hput.workers⟩,
      map_set_of_eq hk rfl⟩
    dsimp only
    split_ifs
    · exact Nat.sub_le _ _
    · exact le_rfl

/-- **A wedged server answers nobody any more.** -/
theorem wedged_forever (h : Wedged sv)
    (hr : Reach (TcpDecodeServer.step B options threads size) sv sv') :
    sv'.tasks.map (fun t => t.conn.written) = sv.tasks.map fun t => t.conn.written := by
  have key := hr.invariant (I := fun m => Wedged m ∧
    m.tasks.map (fun t => t.conn.written) = sv.tasks.map fun t => t.conn.written) ⟨h, rfl⟩ (by
      rintro m l m' ⟨hm, hw⟩ hs
      obtain ⟨hm', hw'⟩ := wedged_step hm hs
      exact ⟨hm', hw'.trans hw⟩)
  exact key.2

/-- A client with a session of one chunk. -/
def wedgeClient (b : UInt8) : List Frame := [⟨.dcod, [b]⟩, ⟨.dcod, []⟩]

def wedgeClients : List (List Frame) := [wedgeClient 1, wedgeClient 2]

/-- The first client's task sends its chunk and waits for the next frame, off its thread, which goes
back to the I/O driver; the worker takes the job. -/
def firstRun : List (ServerLabel String) :=
  [.task 0, .task 0, .task 0, .task 0, .park 0, .rest, .inner 0 .worker, .arrive 1, .arrive 1,
    .notice 1]

/-- The thread serves the second client's whole session and waits for its job, while the other
threads sleep. Then the first client's next frame arrives. -/
def secondRun : List (ServerLabel String) :=
  [.task 1, .task 1, .task 1, .task 1, .task 1, .task 1, .arrive 0]

def wedgeRun : List (ServerLabel String) :=
  [.arrive 0, .notice 0] ++ .leave 0 :: (firstRun ++ .leave 1 :: secondRun)

/-- The first client's task, when it waits for its next frame. -/
def firstTask (arrived : ℕ) : ConnTask String :=
  let s : Session String := { acquire {} with
    input := ⟨[[1]], true, true, by decide⟩, pc := .poll, sent := [[1]] }
  ⟨wedgeClient 1, ⟨[⟨.dcod, []⟩], [], .session ⟨.read, false, s⟩⟩, arrived, false, false, false⟩

/-- The second client's task, when it waits for its job. -/
def secondTask : ConnTask String :=
  let s : Session String := { acquire {} with
    input := ⟨[[2], []], true, true, by decide⟩, sent := [[2], []] }
  ⟨wedgeClient 2, ⟨[], [], .session ⟨.flush, false, s⟩⟩, 0, false, false, true⟩

/-- The server in the end: the worker polls for the frame that nobody notices, and the only thread
that is awake waits for a job that only the worker can take. -/
def wedgedServer : TcpDecodeServer String := ⟨[firstTask 1, secondTask], [1], 1, false, 0⟩

/-- A thread that leaves the I/O driver with the only woken task wakes no other. -/
theorem leave_alone (t : ConnTask ε) (hk : sv.tasks[k]? = some t) (hd : sv.driving = true)
    (hw : t.woken = true) (halone : (sv.put k t.start).waking = false) :
    sv.step B options threads size (.leave k) =
      some { sv.put k t.start with driving := false } := by
  have halone : ({ sv.put k t.start with driving := false } : TcpDecodeServer ε).waking = false :=
    halone
  simp [TcpDecodeServer.step, hk, hd, hw, TcpDecodeServer.notify, halone]

theorem run_wedge (threads : ℕ) : run (TcpDecodeServer.step patient {} threads 1)
    (TcpDecodeServer.new 1 wedgeClients) wedgeRun = some wedgedServer := by
  let t : ConnTask String := { ConnTask.new (wedgeClient 1) with arrived := 1, woken := true }
  let t' : ConnTask String := { ConnTask.new (wedgeClient 2) with arrived := 2, woken := true }
  have h1 : run (TcpDecodeServer.step patient {} threads 1) (TcpDecodeServer.new 1 wedgeClients)
      [.arrive 0, .notice 0] = some ⟨[t, .new (wedgeClient 2)], [], 1, true, 0⟩ := rfl
  have h2 : run (TcpDecodeServer.step patient {} threads 1)
      ⟨[t.start, .new (wedgeClient 2)], [], 1, false, 0⟩ firstRun =
        some ⟨[firstTask 0, t'], [], 1, true, 0⟩ := rfl
  have h3 : run (TcpDecodeServer.step patient {} threads 1)
      ⟨[firstTask 0, t'.start], [], 1, false, 0⟩ secondRun = some wedgedServer := rfl
  have l1 : TcpDecodeServer.step patient {} threads 1 ⟨[t, .new (wedgeClient 2)], [], 1, true, 0⟩
      (.leave 0) = some ⟨[t.start, .new (wedgeClient 2)], [], 1, false, 0⟩ :=
    leave_alone t rfl rfl rfl rfl
  have l2 : TcpDecodeServer.step patient {} threads 1 ⟨[firstTask 0, t'], [], 1, true, 0⟩
      (.leave 1) = some ⟨[firstTask 0, t'.start], [], 1, false, 0⟩ := leave_alone t' rfl rfl rfl rfl
  refine (run_append _ _ _).trans ?_
  rw [h1, Option.bind_some]
  refine run_cons_some.mpr ⟨_, l1, ?_⟩
  refine (run_append _ _ _).trans ?_
  refine (congrArg (fun r => Option.bind r _) h2).trans ?_
  exact run_cons_some.mpr ⟨_, l2, h3⟩

theorem wedged_wedgedServer : Wedged wedgedServer where
  waits t ht hrun := by
    simp only [wedgedServer, List.mem_cons, List.not_mem_nil, or_false] at ht
    obtain rfl | rfl := ht
    · cases hrun
    · exact ⟨_, rfl, rfl, rfl, rfl⟩
  starved t ht hwork := by
    simp only [wedgedServer, List.mem_cons, List.not_mem_nil, or_false] at ht
    obtain rfl | rfl := ht
    · exact ⟨_, rfl, rfl, by decide, rfl, rfl, rfl⟩
    · cases hwork
  driving := rfl
  looking := rfl
  workers := le_rfl

/-- **One worker and two clients** with a session each, and any number of threads: nobody gets a
DONE frame. -/
theorem server_wedges : AllObliging patient {} wedgeClients ∧ ∀ threads, ∃ sv,
    run (TcpDecodeServer.step patient {} threads 1) (TcpDecodeServer.new 1 wedgeClients) wedgeRun =
      some sv ∧ (∀ t ∈ sv.tasks, Complete t) ∧
      ∀ sv', Reach (TcpDecodeServer.step patient {} threads 1) sv sv' → ∀ t ∈ sv'.tasks,
        ¬ Answered t := by
  have hobliging : AllObliging patient {} wedgeClients := patient_allObliging (by decide)
  refine ⟨hobliging, fun threads => ⟨wedgedServer, run_wedge threads, by decide,
    fun sv' hr t ht => ?_⟩⟩
  have hord : Ordered patient {} 1 wedgeClients sv' :=
    ((reach_of_run (run_wedge threads)).trans hr).invariant ordered_new fun _ _ _ hI hs =>
      ordered_step le_rfl hobliging hI hs
  have hwritten : t.conn.written ∈ sv'.tasks.map fun t => t.conn.written := List.mem_map_of_mem ht
  rw [wedged_forever wedged_wedgedServer hr] at hwritten
  have hw : t.conn.written = [] := by simpa [wedgedServer, firstTask, secondTask] using hwritten
  have hlen : (segment t.client).length = 1 := by
    have hclient := hord.client ht
    simp only [wedgeClients, List.mem_cons, List.not_mem_nil, or_false] at hclient
    rcases hclient with h | h <;> rw [h] <;> rfl
  simp [Answered, hw, hlen]

end MediaApi.Server.Wedge
