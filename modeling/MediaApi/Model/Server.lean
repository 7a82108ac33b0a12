import MediaApi.Lib.Components
import MediaApi.Model.Pool
import MediaApi.Model.Tcp

/-! # The TCP decode server: runtime threads, workers and connections

Each connection is a task of the async runtime. A task keeps its runtime thread until an `await` is
pending: a read of a frame that has not arrived, or a write. The calls of the pool are not `await`s:
in `acquire` with a full job channel, and in `decoder.recv()` or `decoder.send(..)` that blocks, the
task blocks the thread. `DecoderPool::new(size)` has `size` workers and a job channel of `size`
slots; a worker takes the oldest job.

Of the runtime's threads without a task at most one waits at the I/O driver, and only that one
notices that a socket is ready. It leaves the driver with a task to run, and nobody is there then
until a thread that looks for a task finds none; the other threads sleep until one that takes a task
wakes them, which it must do if it leaves woken tasks behind that nobody looks for. The thread at
the driver may be woken instead, and then looks for a task as well.

`TcpDecodeServer` is such a system with the connections of some clients, each of which sends its
frames and closes its end when it likes, and reads every reply; its labels say who moves. -/

namespace MediaApi.Model.Server

open MediaApi.Lib.Transition MediaApi.Lib.Components MediaApi.Model.Audio MediaApi.Model.Pipeline
open MediaApi.Model.ProcessJob MediaApi.Model.Steps MediaApi.Model.Pool MediaApi.Model.Tcp

variable {ε : Type}

/-- The task of a connection. -/
structure ConnTask (ε : Type) where
  /-- All frames the client sends. -/
  client : List Frame
  conn : Conn ε
  /-- How many of the frames to come have arrived. -/
  arrived : ℕ
  /-- The client has closed its end. -/
  eof : Bool
  /-- The I/O driver has noticed that the task can go on, and no thread has taken it yet. -/
  woken : Bool
  /-- The task holds a runtime thread. -/
  running : Bool
deriving DecidableEq

/-- The task of a client that has just connected. -/
def ConnTask.new (client : List Frame) : ConnTask ε :=
  ⟨client, Conn.new client, 0, false, false, false⟩

/-- The task is in `read_frame(..).await`. -/
def ConnTask.reads (t : ConnTask ε) : Bool :=
  match t.conn.phase with
  | .first => true
  | .session o => o.pc = .read
  | _ => false

/-- The task is in `write_frame(..).await`. -/
def ConnTask.writes (t : ConnTask ε) : Bool :=
  match t.conn.phase with
  | .session o =>
    match o.pc with
    | .writeMeta .. | .writePcms .. | .writeDone => true
    | _ => false
  | _ => false

/-- There is something to read: a frame or the end of the stream. -/
def ConnTask.readable (t : ConnTask ε) : Bool := 0 < t.arrived || (t.conn.frames = [] && t.eof)

/-- The task waits for its client. -/
def ConnTask.pending (t : ConnTask ε) : Bool := t.reads && !t.readable

/-- The task has returned. -/
def ConnTask.ended (t : ConnTask ε) : Bool :=
  match t.conn.phase with
  | .closed _ => true
  | _ => false

/-- The task is off its thread and can go on, and nobody has noticed it yet. -/
def ConnTask.ready (t : ConnTask ε) : Bool := !t.running && !t.woken && !t.pending && !t.ended

/-- A thread has taken the task. -/
def ConnTask.start (t : ConnTask ε) : ConnTask ε := { t with woken := false, running := true }

/-- The client's next frame arrives, or after all of them the end of its stream. -/
def ConnTask.arrive (t : ConnTask ε) : Option (ConnTask ε) :=
  if t.arrived < t.conn.frames.length then some { t with arrived := t.arrived + 1 }
  else if t.eof then none else some { t with eof := true }

/-- The handler has made a step, to `c`. -/
def ConnTask.move (t : ConnTask ε) (c : Conn ε) : ConnTask ε :=
  { t with conn := c, arrived := t.arrived - (t.conn.frames.length - c.frames.length) }

/-- The session of the task has made a step, to `s`. -/
def ConnTask.behind (t : ConnTask ε) (o : Open ε) (s : Session ε) : ConnTask ε :=
  { t with conn := { t.conn with phase := .session { o with decoder := s } } }

/-- The task's job is in the job channel. -/
def ConnTask.waiting (t : ConnTask ε) : Bool := t.conn.decoder.any isQueued

/-- A worker is in `process_job` with the task's job. -/
def ConnTask.working (t : ConnTask ε) : Bool := t.conn.decoder.any isRunning

/-- The server with its connections. -/
structure TcpDecodeServer (ε : Type) where
  tasks : List (ConnTask ε)
  /-- The job channel: the connections whose jobs wait in it, oldest first. -/
  queue : List ℕ
  /-- The workers whose thread is alive. -/
  workers : ℕ
  /-- A runtime thread waits at the I/O driver. -/
  driving : Bool
  /-- The runtime threads that look for a task. -/
  looking : ℕ
deriving DecidableEq

/-- A fresh server: one thread waits at the I/O driver, all others sleep. -/
def TcpDecodeServer.new (size : ℕ) (clients : List (List Frame)) : TcpDecodeServer ε :=
  ⟨clients.map ConnTask.new, [], size, true, 0⟩

/-- The runtime threads that are held by a task. -/
def TcpDecodeServer.held (sv : TcpDecodeServer ε) : ℕ := sv.tasks.countP ConnTask.running

/-- The runtime threads that a task holds, that look for one, or that wait at the I/O driver; all
others sleep. -/
def TcpDecodeServer.awake (sv : TcpDecodeServer ε) : ℕ :=
  sv.held + sv.looking + if sv.driving then 1 else 0

/-- Some task is woken, and no thread has taken it. -/
def TcpDecodeServer.waking (sv : TcpDecodeServer ε) : Bool := sv.tasks.any ConnTask.woken

/-- The workers that are in `process_job`. -/
def TcpDecodeServer.busy (sv : TcpDecodeServer ε) : ℕ := sv.tasks.countP ConnTask.working

def TcpDecodeServer.put (sv : TcpDecodeServer ε) (k : ℕ) (t : ConnTask ε) : TcpDecodeServer ε :=
  { sv with tasks := sv.tasks.set k t }

/-- A thread has taken a task: it wakes a sleeping one, if it likes to (`wakes`) or leaves woken
tasks behind that nobody looks for. -/
def TcpDecodeServer.notify (threads : ℕ) (wakes : Bool) (sv : TcpDecodeServer ε) :
    TcpDecodeServer ε :=
  if (wakes || sv.waking && sv.looking = 0) && sv.awake < threads then
    { sv with looking := sv.looking + 1 }
  else sv

/-- What happens: something arrives from client `k`; the thread at the I/O driver notices that its
task can go on, leaves with it, or is woken; a thread that looks for a task takes it, or finds none
and waits at the driver if nobody does; the task makes a step, or gives up its thread; the parties
behind its decoder make a step. -/
inductive ServerLabel (ε : Type) where
  | arrive (k : ℕ)
  | notice (k : ℕ)
  | leave (k : ℕ)
  | wake
  | pick (k : ℕ) (wakes : Bool)
  | rest
  | task (k : ℕ)
  | park (k : ℕ)
  | inner (k : ℕ) (i : Inner ε)
deriving DecidableEq

/-- A step of a task on its thread; `none` while it waits for its client or blocks the thread. -/
def TcpDecodeServer.task (options : DecodeOptions) (size : ℕ) (sv : TcpDecodeServer ε) (k : ℕ)
    (t : ConnTask ε) : Option (TcpDecodeServer ε) :=
  if t.pending then none
  else
    match t.conn.phase with
    | .acquire _ =>
      if sv.workers = 0 then
        some (sv.put k { t with conn := { t.conn with phase := .closed false } })
      else if sv.queue.length < size then
        (t.conn.handler options).map fun c =>
          { sv.put k (t.move c) with queue := sv.queue ++ [k] }
      else none
    | _ => (t.conn.handler options).map fun c => sv.put k (t.move c)

variable [ToString ε]

/-- A step behind the decoder of a task. An idle worker takes the oldest job; a panic ends its
thread. -/
def TcpDecodeServer.inner (B : DecodeOptions → Behaviour ε) (sv : TcpDecodeServer ε) (k : ℕ)
    (t : ConnTask ε) (i : Inner ε) : Option (TcpDecodeServer ε) :=
  match t.conn.phase with
  | .session o =>
    if o.decoder.pc = .queued then
      if sv.queue.head? = some k ∧ sv.busy < sv.workers then
        (o.decoder.inner B i).map fun s =>
          { sv.put k (t.behind o s) with queue := sv.queue.tail }
      else none
    else
      (o.decoder.inner B i).map fun s =>
        { sv.put k (t.behind o s) with
          workers := if hasPanicked s && !hasPanicked o.decoder then sv.workers - 1
            else sv.workers }
  | _ => none

/-- **A step of the server** with `threads` runtime threads and a pool of `size` workers. -/
def TcpDecodeServer.step (B : DecodeOptions → Behaviour ε) (options : DecodeOptions)
    (threads size : ℕ) (sv : TcpDecodeServer ε) : ServerLabel ε → Option (TcpDecodeServer ε)
  | .arrive k => sv.tasks[k]?.bind fun t => t.arrive.map (sv.put k)
  | .notice k => sv.tasks[k]?.bind fun t =>
    if sv.driving && t.ready then some (sv.put k { t with woken := true }) else none
  | .leave k => sv.tasks[k]?.bind fun t =>
    if sv.driving && t.woken then
      some (TcpDecodeServer.notify threads false { sv.put k t.start with driving := false })
    else none
  | .wake =>
    if sv.driving then some { sv with driving := false, looking := sv.looking + 1 } else none
  | .pick k wakes => sv.tasks[k]?.bind fun t =>
    if 0 < sv.looking && t.woken then
      some (TcpDecodeServer.notify threads wakes
        { sv.put k t.start with looking := sv.looking - 1 })
    else none
  | .rest =>
    if 0 < sv.looking && (!sv.waking || 1 < sv.looking) then
      some { sv with looking := sv.looking - 1, driving := true }
    else none
  | .task k => sv.tasks[k]?.bind fun t => if t.running then sv.task options size k t else none
  | .park k => sv.tasks[k]?.bind fun t =>
    if t.running && (t.pending || t.writes || t.ended) then
      some { sv.put k { t with running := false } with looking := sv.looking + 1 }
    else none
  | .inner k i => sv.tasks[k]?.bind fun t => sv.inner B k t i

/-! ### The steps by name -/

/-- The steps of the server that concern the task `t`, with the number `k`; the others are those of
a thread without a task. -/
inductive ServerStep (B : DecodeOptions → Behaviour ε) (options : DecodeOptions)
    (threads size : ℕ) (sv : TcpDecodeServer ε) (k : ℕ)
    (t : ConnTask ε) : TcpDecodeServer ε → Prop where
  | arrive (t' : ConnTask ε) (h : t.arrive = some t') :
      ServerStep B options threads size sv k t (sv.put k t')
  | notice (hd : sv.driving = true) (hready : t.ready = true) :
      ServerStep B options threads size sv k t (sv.put k { t with woken := true })
  | start (driving : Bool) (looking : ℕ) (hw : t.woken = true)
      (hidle : sv.driving = true ∨ 0 < sv.looking)
      (hawake : TcpDecodeServer.awake { sv.put k t.start with
        driving := driving, looking := looking } ≤ max threads sv.awake) :
      ServerStep B options threads size sv k t
        { sv.put k t.start with driving := driving, looking := looking }
  | park (hrun : t.running = true) (h : t.pending = true ∨ t.writes = true ∨ t.ended = true) :
      ServerStep B options threads size sv k t
        { sv.put k { t with running := false } with looking := sv.looking + 1 }
  | refused (data : Bytes) (hrun : t.running = true) (hph : t.conn.phase = .acquire data)
      (hw : sv.workers = 0) : ServerStep B options threads size sv k t
        (sv.put k { t with conn := { t.conn with phase := .closed false } })
  | acquire (data : Bytes) (hrun : t.running = true) (hph : t.conn.phase = .acquire data)
      (hq : sv.queue.length < size) : ServerStep B options threads size sv k t
        { sv.put k (t.move { t.conn with
            phase := .session ⟨firstPc data, false, ProcessJob.acquire options⟩ }) with
          queue := sv.queue ++ [k] }
  | handler (c : Conn ε) (hrun : t.running = true) (hp : t.pending = false)
      (hph : ∀ data, t.conn.phase ≠ .acquire data) (h : t.conn.handler options = some c) :
      ServerStep B options threads size sv k t (sv.put k (t.move c))
  | take (o : Open ε) (s : Session ε) (rest : List ℕ) (hph : t.conn.phase = .session o)
      (hpc : o.decoder.pc = .queued) (hq : sv.queue = k :: rest) (hb : sv.busy < sv.workers)
      (i : Inner ε) (h : o.decoder.inner B i = some s) : ServerStep B options threads size sv k t
        { sv.put k (t.behind o s) with queue := rest }
  | inner (o : Open ε) (s : Session ε) (i : Inner ε) (hph : t.conn.phase = .session o)
      (hpc : o.decoder.pc ≠ .queued) (h : o.decoder.inner B i = some s) :
      ServerStep B options threads size sv k t
        { sv.put k (t.behind o s) with
          workers := if hasPanicked s && !hasPanicked o.decoder then sv.workers - 1
            else sv.workers }

variable {B : DecodeOptions → Behaviour ε} {options : DecodeOptions} {threads size : ℕ}
  {sv sv' : TcpDecodeServer ε} {l : ServerLabel ε}

theorem task_cases {k : ℕ} {t : ConnTask ε} (hrun : t.running = true)
    (h : sv.task options size k t = some sv') : ServerStep B options threads size sv k t sv' := by
  unfold TcpDecodeServer.task at h
  by_cases hp : t.pending = true
  · rw [if_pos hp] at h; cases h
  · rw [if_neg hp] at h
    split at h
    · next data hph =>
      split_ifs at h with hw hq
      · cases h; exact .refused data hrun hph hw
      · simp only [Conn.handler, hph, Option.map_some, Option.some.injEq] at h
        rw [← h]
        exact .acquire data hrun hph hq
    · next hph =>
      obtain ⟨c, hc, rfl⟩ := Option.map_eq_some_iff.mp h
      exact .handler c hrun (by simpa using hp) hph hc

omit [ToString ε] in
/-- What a thread that takes a task leaves of the server. -/
theorem notify_eq (threads : ℕ) (wakes : Bool) (sv : TcpDecodeServer ε) :
    ∃ looking, sv.notify threads wakes = { sv with looking := looking } ∧
      TcpDecodeServer.awake { sv with looking := looking } ≤ max threads sv.awake := by
  unfold TcpDecodeServer.notify
  split_ifs with h
  · simp only [Bool.and_eq_true, decide_eq_true_eq] at h
    refine ⟨_, rfl, ?_⟩
    have hlt := h.2
    unfold TcpDecodeServer.awake TcpDecodeServer.held at hlt ⊢
    dsimp only at hlt ⊢
    omega
  · exact ⟨sv.looking, rfl, le_max_right _ _⟩

omit [ToString ε] in
/-- A thread that takes a task was awake. -/
theorem awake_start {k : ℕ} {t : ConnTask ε} (driving : Bool) {looking : ℕ}
    (hk : sv.tasks[k]? = some t) (h : looking + (if driving then 1 else 0) + 1 ≤
      sv.looking + if sv.driving then 1 else 0) :
    TcpDecodeServer.awake { sv.put k t.start with driving := driving, looking := looking } ≤
      sv.awake := by
  have hheld := countP_set (y := t.start) ConnTask.running hk
  have hrun : t.start.running = true := rfl
  rw [if_pos hrun] at hheld
  unfold TcpDecodeServer.awake TcpDecodeServer.held TcpDecodeServer.put
  dsimp only
  omega

omit [ToString ε] in
/-- A thread without a task goes elsewhere. -/
theorem awake_idle {driving : Bool} {looking : ℕ} (h : looking + (if driving then 1 else 0) ≤
      sv.looking + if sv.driving then 1 else 0) :
    TcpDecodeServer.awake { sv with driving := driving, looking := looking } ≤ sv.awake := by
  unfold TcpDecodeServer.awake TcpDecodeServer.held
  dsimp only
  omega

theorem server_step_cases (h : sv.step B options threads size l = some sv') :
    (∃ driving looking, (sv.driving = true ∨ 0 < sv.looking) ∧ (driving = true ∨ 0 < looking) ∧
        TcpDecodeServer.awake { sv with driving := driving, looking := looking } ≤ sv.awake ∧
        sv' = { sv with driving := driving, looking := looking }) ∨
      ∃ k t, sv.tasks[k]? = some t ∧ ServerStep B options threads size sv k t sv' := by
  cases l with
  | rest =>
    simp only [TcpDecodeServer.step] at h
    split_ifs at h with hc
    simp only [Bool.and_eq_true, decide_eq_true_eq] at hc
    cases h
    refine Or.inl ⟨true, sv.looking - 1, Or.inr hc.1, Or.inl rfl, awake_idle ?_, rfl⟩
    rw [if_pos rfl]
    omega
  | wake =>
    simp only [TcpDecodeServer.step] at h
    split_ifs at h with hd
    cases h
    refine Or.inl ⟨false, sv.looking + 1, Or.inl hd, Or.inr (Nat.succ_pos _), awake_idle ?_, rfl⟩
    simp [hd]
  | arrive k =>
    obtain ⟨t, hk, h⟩ := Option.bind_eq_some_iff.mp h
    obtain ⟨t', ht, rfl⟩ := Option.map_eq_some_iff.mp h
    exact Or.inr ⟨k, t, hk, .arrive t' ht⟩
  | notice k =>
    obtain ⟨t, hk, h⟩ := Option.bind_eq_some_iff.mp h
    split_ifs at h with hc
    simp only [Bool.and_eq_true] at hc
    cases h
    exact Or.inr ⟨k, t, hk, .notice hc.1 hc.2⟩
  | leave k =>
    obtain ⟨t, hk, h⟩ := Option.bind_eq_some_iff.mp h
    split_ifs at h with hc
    simp only [Bool.and_eq_true] at hc
    obtain ⟨looking, hnotify, hawake⟩ := notify_eq threads false
      { sv.put k t.start with driving := false }
    rw [hnotify] at h
    cases h
    refine Or.inr ⟨k, t, hk, .start false looking hc.2 (Or.inl hc.1)
      (hawake.trans (max_le_max_left _ (awake_start false hk ?_)))⟩
    simp [TcpDecodeServer.put, hc.1]
  | pick k wakes =>
    obtain ⟨t, hk, h⟩ := Option.bind_eq_some_iff.mp h
    split_ifs at h with hc
    simp only [Bool.and_eq_true, decide_eq_true_eq] at hc
    obtain ⟨looking, hnotify, hawake⟩ := notify_eq threads wakes
      { sv.put k t.start with looking := sv.looking - 1 }
    rw [hnotify] at h
    cases h
    refine Or.inr ⟨k, t, hk, .start sv.driving looking hc.2 (Or.inr hc.1)
      (hawake.trans (max_le_max_left _ (awake_start sv.driving hk ?_)))⟩
    omega
  | task k =>
    obtain ⟨t, hk, h⟩ := Option.bind_eq_some_iff.mp h
    split_ifs at h with hrun
    exact Or.inr ⟨k, t, hk, task_cases hrun h⟩
  | park k =>
    obtain ⟨t, hk, h⟩ := Option.bind_eq_some_iff.mp h
    split_ifs at h with hc
    simp only [Bool.and_eq_true, Bool.or_eq_true, or_assoc] at hc
    cases h
    exact Or.inr ⟨k, t, hk, .park hc.1 hc.2⟩
  | inner k i =>
    obtain ⟨t, hk, h⟩ := Option.bind_eq_some_iff.mp h
    unfold TcpDecodeServer.inner at h
    split at h
    · next o hph =>
      split_ifs at h with hpc hq
      · obtain ⟨s, hs, rfl⟩ := Option.map_eq_some_iff.mp h
        obtain ⟨rest, hrest⟩ := List.head?_eq_some_iff.mp hq.1
        refine Or.inr ⟨k, t, hk, ?_⟩
        rw [hrest, List.tail_cons]
        exact .take o s rest hph hpc hrest hq.2 i hs
      · obtain ⟨s, hs, rfl⟩ := Option.map_eq_some_iff.mp h
        exact Or.inr ⟨k, t, hk, .inner o s i hph hpc hs⟩
    · cases h

end MediaApi.Model.Server
