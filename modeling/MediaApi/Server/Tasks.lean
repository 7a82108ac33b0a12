import MediaApi.Lib.Components
import MediaApi.Model.Server
import MediaApi.Pool.Progress
import MediaApi.Tcp.Sessions

/-! # What the tasks of the server keep

`Keeps`, the invariant of one task: its connection is a run of the handler without a failed `await`
(`Regular`), what has arrived is part of what the client sends, and off its thread the task is in an
`await`. `Obliging` is what is asked of a session and its pipeline, for the data of that session
only. `Ordered` is the invariant of the server: the job channel holds exactly the connections whose
jobs are queued, each once, and while no thread is held or looks for a task, one is at the I/O
driver. -/

namespace MediaApi.Server.Tasks

open MediaApi.Lib.Transition MediaApi.Lib.Components MediaApi.Model.Audio MediaApi.Model.Pipeline
open MediaApi.Model.ProcessJob MediaApi.Model.Steps MediaApi.Model.Pool MediaApi.Model.Tcp
open MediaApi.Model.Server MediaApi.Pool.Forwarding MediaApi.Pool.Handle MediaApi.Pool.Script
open MediaApi.Pool.Progress MediaApi.Pool.Survival MediaApi.Tcp.Reference MediaApi.Tcp.Sessions

variable {ε : Type}

/-! ### Open sessions -/

/-- Whether frames leave a session open that only the end of the stream can end; the flag says
whether one is open before them. -/
def endsOpen : Bool → List Frame → Bool
  | b, [] => b
  | b, f :: fs =>
    if f.tag = .dcod then endsOpen (f.data ≠ []) fs else endsOpen (b && f.tag ≠ .done) fs

/-- The handler will read on for the session at hand. -/
def readsOn : TcpPc → Bool
  | .send _ | .drain | .read | .writeMeta _ false | .writePcms _ false => true
  | _ => false

/-- The next frame belongs to a session that has begun. -/
def inSession : Phase ε → Bool
  | .acquire data => data ≠ []
  | .session o => readsOn o.pc
  | _ => false

theorem endsOpen_false {b : Bool} {fs : List Frame} (h : endsOpen b fs = false) :
    endsOpen false fs = false := by
  induction fs generalizing b with
  | nil => rfl
  | cons f fs ih =>
    simp only [endsOpen] at h ⊢
    split_ifs at h ⊢ with htag
    · exact h
    · exact ih h

/-- A step of the handler leaves no session open that the frames to come end. -/
theorem endsOpen_open {o o' : Open ε} {frames frames' out : List Frame}
    (hs : OpenStep o frames frames' out o') (h : endsOpen (readsOn o.pc) frames = false) :
    endsOpen (readsOn o'.pc) frames' = false := by
  cases hs with
  | send data s _ hpc hsend => simpa [hpc, readsOn] using h
  | item flush i s _ hpc hi =>
    cases flush <;> cases i <;> cases hm : o.firstMetaSent <;>
      simpa [hpc, readsOn, Open.write, hm] using h
  | drained r s _ hpc hr hrecv => simpa [hpc, readsOn] using h
  | writeMeta a flush _ hpc | writePcms a flush _ hpc =>
    cases flush <;> simpa [hpc, readsOn] using h
  | read f rest hpc =>
    simp only [hpc, readsOn, endsOpen, Bool.true_and] at h
    simp only [nextPc]
    split_ifs at h ⊢ with htag hdata hdone <;> simp_all [readsOn]
  | endOfStream hpc => rfl
  | _ => exact endsOpen_false h

/-! ### A handler that does not fail -/

/-- The handler has not failed: before EOF it has sent a chunk, and at the end its job is over. -/
def Regular : Phase ε → Prop
  | .closed ok => ok = true
  | .session o =>
    match o.pc with
    | .drain | .read | .writeMeta _ false | .writePcms _ false => o.decoder.sent ≠ []
    | .writeDone => ∃ out, o.decoder.pc = .ended out
    | .drop _ failed => failed = false ∧ ∃ out, o.decoder.pc = .ended out
    | _ => True
  | _ => True

theorem dropStep_pc {s s' : Session ε} {d d' : DropPc} (h : s.dropStep d = some (d', s')) :
    s'.pc = s.pc := by
  cases d with
  | send =>
    obtain ⟨⟨ok, m⟩, hm, he⟩ := Option.map_eq_some_iff.mp h
    cases he
    rcases send_cases hm with ⟨-, -, -, c, -, rfl⟩ | ⟨-, -, rfl⟩ <;> rfl
  | tx => cases h; rfl
  | rx => cases h; rfl
  | dropped => cases h

theorem regular_open {o o' : Open ε} {frames frames' out : List Frame}
    (hended : o.decoder.output.tx = false → ∃ out, o.decoder.pc = .ended out)
    (h : Regular (.session o)) (hs : OpenStep o frames frames' out o') : Regular (.session o') := by
  cases hs with
  | send data s _ hpc hsend => simp [Regular, send_sent hsend]
  | item flush i s _ hpc hi =>
    have hsent := tryRecv_sent hi
    cases flush with
    | false =>
      have h : o.decoder.sent ≠ [] := by simpa [Regular, hpc] using h
      cases i <;> cases hm : o.firstMetaSent <;> simpa [Regular, Open.write, hm, hsent] using h
    | true => cases i <;> cases hm : o.firstMetaSent <;> simp [Regular, Open.write, hm]
  | drained r s _ hpc hr hrecv =>
    obtain rfl := tryRecv_same hr hrecv
    simpa [Regular, hpc] using h
  | writeMeta a flush _ hpc | writePcms a flush _ hpc =>
    cases flush with
    | false => simpa [Regular, hpc] using h
    | true => trivial
  | read f rest hpc =>
    have h : o.decoder.sent ≠ [] := by simpa [Regular, hpc] using h
    simp only [Regular, nextPc]
    split_ifs
    · trivial
    · trivial
    · trivial
    · exact h
  | flushed s _ hpc hc =>
    obtain ⟨rfl, -, htx⟩ := tryRecv_closed hc
    exact hended htx
  | writeDone _ hpc => exact ⟨rfl, by simpa [Regular, hpc] using h⟩
  | drop d d' failed s _ hpc hd =>
    obtain ⟨hf, out, ho⟩ : failed = false ∧ ∃ out, o.decoder.pc = .ended out := by
      simpa [Regular, hpc] using h
    exact ⟨hf, out, (dropStep_pc hd).trans ho⟩
  | _ => trivial

variable [ToString ε] {B : DecodeOptions → Behaviour ε} {options : DecodeOptions}
  {c c' : Conn ε} {t t' : ConnTask ε} {o : Open ε} {s s' : Session ε}

/-- A job that is over stays over. -/
theorem ended_inner {i : Inner ε} {out : Outcome} (hpc : s.pc = .ended out)
    (h : s.inner B i = some s') : s'.pc = .ended out := by
  cases i with
  | worker => simp only [Session.inner, Session.worker, hpc] at h; cases h
  | answer ok => simp only [Session.inner, Session.answer, hpc] at h; cases h
  | pipe a =>
    cases step_cases (l := .inner (.pipe a)) h with
    | pipe => exact hpc

theorem regular_inner {i : Inner ε} (h : Regular (.session o)) (hi : o.decoder.inner B i = some s) :
    Regular (.session { o with decoder := s }) := by
  obtain ⟨hsent, -⟩ := inner_keeps hi
  unfold Regular at h ⊢
  dsimp only at h ⊢
  rw [hsent]
  split at h
  · exact h
  · exact h
  · exact h
  · exact h
  · obtain ⟨out, ho⟩ := h; exact ⟨out, ended_inner ho hi⟩
  · obtain ⟨hf, out, ho⟩ := h; exact ⟨hf, out, ended_inner ho hi⟩
  · trivial

/-- **A step of the handler** does not fail. -/
theorem regular_handler {frames : List Frame} (hr : Reach (Conn.step B options) (Conn.new frames) c)
    (h : Regular c.phase) (hs : c.handler options = some c') :
    Regular c'.phase ∧ (endsOpen (inSession c.phase) c.frames = false →
      endsOpen (inSession c'.phase) c'.frames = false) := by
  obtain ⟨log, -, hf⟩ := reach_follows hr
  have hs : c.step B options .handler = some c' := hs
  cases conn_step_cases hs with
  | eof hp hfr => exact ⟨rfl, fun _ => by simp [hfr, inSession, endsOpen]⟩
  | first f rest hp hfr =>
    simp only [hp, hfr, inSession, endsOpen, Bool.false_and]
    split_ifs <;> exact ⟨trivial, id⟩
  | acquire data hp =>
    simp only [hp, inSession]
    by_cases hdata : data = [] <;> simp [firstPc, hdata, Regular, readsOn]
  | session hp ho =>
    simp only [hp] at hf
    obtain ⟨ps, rest, out, -, hf, -⟩ := hf
    rw [hp] at h
    refine ⟨regular_open (fun htx => ?_) h ho, ?_⟩
    · exact (reach_ending hf.owns.reach).outputTx.mp htx
    · rw [hp]; exact endsOpen_open ho
  | dropped o failed hp hpc =>
    rw [hp] at h
    obtain ⟨rfl, -⟩ : failed = false ∧ ∃ out, o.decoder.pc = .ended out := by
      simpa [Regular, hpc] using h
    exact ⟨trivial, endsOpen_false⟩

/-! ### The invariant of a task -/

/-- **The invariant of a task.** -/
structure Keeps (B : DecodeOptions → Behaviour ε) (options : DecodeOptions) (t : ConnTask ε) :
    Prop where
  reach : Reach (Conn.step B options) (Conn.new t.client) t.conn
  regular : Regular t.conn.phase
  arrived : t.arrived ≤ t.conn.frames.length
  eof : t.eof = true → t.arrived = t.conn.frames.length
  session : endsOpen false t.client = false →
    endsOpen (inSession t.conn.phase) t.conn.frames = false
  parked : t.running = false → t.reads = true ∨ t.writes = true ∨ t.ended = true
  woken : t.woken = true → t.running = false ∧ t.pending = false ∧ t.ended = false

theorem keeps_new (client : List Frame) : Keeps B options (ConnTask.new client) :=
  ⟨Reach.refl _, trivial, Nat.zero_le _, nofun, id, fun _ => Or.inl rfl, nofun⟩

/-- A task on its thread is not woken. -/
theorem Keeps.not_woken (hk : Keeps B options t) (hrun : t.running = true) : t.woken = false := by
  by_contra hw
  rw [(hk.woken (by simpa using hw)).1] at hrun
  cases hrun

omit [ToString ε] in
theorem open_frames {o' : Open ε} {frames frames' out : List Frame}
    (hs : OpenStep o frames frames' out o') :
    frames'.length ≤ frames.length ∧ o'.decoder.pc = o.decoder.pc := by
  cases hs with
  | send data s _ hpc hsend | sendErr data s _ hpc hsend | sendEof ok s _ hpc hsend =>
    refine ⟨le_rfl, ?_⟩
    rcases send_cases hsend with ⟨-, -, -, c, -, rfl⟩ | ⟨-, -, rfl⟩ <;> rfl
  | item flush i s _ hpc hi => obtain ⟨c, -, rfl⟩ := tryRecv_item hi; exact ⟨le_rfl, rfl⟩
  | drained r s _ hpc hr hrecv => exact ⟨le_rfl, by rw [tryRecv_same hr hrecv]⟩
  | flushed s _ hpc hc => exact ⟨le_rfl, by rw [(tryRecv_closed hc).1]⟩
  | drop d d' failed s _ hpc hd => exact ⟨le_rfl, dropStep_pc hd⟩
  | read f rest hpc => exact ⟨Nat.le_succ _, rfl⟩
  | _ => exact ⟨le_rfl, rfl⟩

/-- A step of the handler reads at most what is there, and the job's worker does not move in it. -/
theorem handler_frames (hk : Keeps B options t) (h : t.conn.handler options = some c)
    (hph : ∀ data, t.conn.phase ≠ .acquire data) :
    c.frames.length ≤ t.conn.frames.length ∧ c.decoder.any isQueued = t.waiting := by
  have hs : t.conn.step B options .handler = some c := h
  cases conn_step_cases hs with
  | eof hp hf => exact ⟨le_rfl, by simp [ConnTask.waiting, Conn.decoder, hp]⟩
  | first f rest hp hf =>
    refine ⟨by rw [hf]; exact Nat.le_succ _, ?_⟩
    simp only [ConnTask.waiting, Conn.decoder, hp]
    split_ifs <;> rfl
  | acquire data hp => exact absurd hp (hph data)
  | session hp ho =>
    obtain ⟨h1, h2⟩ := open_frames ho
    exact ⟨h1, by simp [ConnTask.waiting, Conn.decoder, hp, isQueued, h2]⟩
  | dropped o failed hp hpc =>
    have hreg := hk.regular
    simp only [Regular, hp, hpc] at hreg
    obtain ⟨rfl, out, ho⟩ := hreg
    exact ⟨le_rfl, by simp [ConnTask.waiting, Conn.decoder, hp, isQueued, ho]⟩

theorem Keeps.frames_le (hk : Keeps B options t) (h : t.conn.handler options = some c) :
    c.frames.length ≤ t.conn.frames.length := by
  by_cases hph : ∃ data, t.conn.phase = .acquire data
  · obtain ⟨data, hph⟩ := hph
    simp only [Conn.handler, hph, Option.some.injEq] at h
    rw [← h]
  · exact (handler_frames hk h fun data hp => hph ⟨data, hp⟩).1

theorem Keeps.move (hk : Keeps B options t) (hrun : t.running = true)
    (h : t.conn.handler options = some c) : Keeps B options (t.move c) := by
  obtain ⟨hreg, hopen⟩ := regular_handler hk.reach hk.regular h
  have hle := hk.frames_le h
  refine ⟨hk.reach.tail (l := .handler) h, hreg, ?_, fun he => ?_, fun he => hopen (hk.session he),
    fun hf => ?_, fun hw => ?_⟩
  · have := hk.arrived
    show t.arrived - (t.conn.frames.length - c.frames.length) ≤ c.frames.length
    omega
  · have := hk.eof he
    show t.arrived - (t.conn.frames.length - c.frames.length) = c.frames.length
    omega
  · have hf : t.running = false := hf
    rw [hrun] at hf; cases hf
  · have hw : t.woken = true := hw
    rw [hk.not_woken hrun] at hw; cases hw

theorem Keeps.behind {i : Inner ε} (hk : Keeps B options t) (hph : t.conn.phase = .session o)
    (h : o.decoder.inner B i = some s) : Keeps B options (t.behind o s) := by
  refine ⟨hk.reach.tail (l := .inner i) (by simp only [Conn.step, hph, h]; rfl), ?_, hk.arrived,
    hk.eof, ?_, ?_, ?_⟩
  · have := hk.regular
    rw [hph] at this
    exact regular_inner this h
  · have := hk.session
    rw [hph] at this
    exact this
  · have := hk.parked
    simp only [ConnTask.reads, ConnTask.writes, ConnTask.ended, hph] at this
    exact this
  · have := hk.woken
    simp only [ConnTask.pending, ConnTask.readable, ConnTask.reads, ConnTask.ended, hph] at this
    exact fun hw => ⟨(this hw).1, (this hw).2.1, rfl⟩

theorem Keeps.arrive (hk : Keeps B options t) (h : t.arrive = some t') :
    Keeps B options t' ∧ t'.client = t.client ∧ t'.conn = t.conn ∧ t'.running = t.running := by
  obtain ⟨h1, h2, h3, h4, h5, h6, h7⟩ := hk
  unfold ConnTask.arrive at h
  split_ifs at h with hlt he
  · cases h
    refine ⟨⟨h1, h2, hlt, fun he => ?_, h5, h6, fun hw => ?_⟩, rfl, rfl, rfl⟩
    · have := h4 he
      omega
    · exact ⟨(h7 hw).1, by simp [ConnTask.pending, ConnTask.readable], (h7 hw).2.2⟩
  · cases h
    refine ⟨⟨h1, h2, h3, fun _ => Nat.le_antisymm h3 (Nat.not_lt.mp hlt), h5, h6, fun hw => ?_⟩,
      rfl, rfl, rfl⟩
    obtain ⟨hrun, hp, hend⟩ := h7 hw
    refine ⟨hrun, ?_, hend⟩
    simp only [ConnTask.pending, ConnTask.readable, Bool.and_eq_false_iff, Bool.not_eq_false',
      Bool.or_eq_true, Bool.and_eq_true, decide_eq_true_eq] at hp ⊢
    exact hp.imp_right (Or.imp_right fun h => ⟨h.1, trivial⟩)

/-- The session of a task is one of its client's. -/
theorem Keeps.serves (hk : Keeps B options t) (hph : t.conn.phase = .session o) :
    ∃ ps rest out, ps ∈ segment t.client ∧ Serves B options o t.conn.frames ps rest out := by
  obtain ⟨log, -, hf⟩ := reach_follows hk.reach
  simp only [hph] at hf
  obtain ⟨ps, rest, out, hall, hf, -⟩ := hf
  exact ⟨ps, rest, out, by rw [hall]; simp, hf⟩

/-! ### The sessions the law is asked for -/

/-- A pipe that a session with the data `ps` can come to. -/
def Of (B : Behaviour ε) (ps : List Bytes) (p : Pipe ε) : Prop :=
  Reach (pipeStep B) {} p ∧ p.accepted <+: ps ++ [[]]

/-- A session of fewer than 32 chunks and 32 results, of which the pipeline accepts every chunk,
which it finishes after EOF, and whose results do not make the metrics panic. -/
structure Obliging (B : Behaviour ε) (options : DecodeOptions) (ps : List Bytes) : Prop where
  short : ps.length < 32
  few : ∀ p, Of B ps p → p.emitted.length < 32
  accepts : ∀ p b, Of B ps p → p.accepted ++ [b] <+: ps ++ [[]] →
    B.accepts p b = true ∧ B.refuses p b = false
  ends : ∀ p, Of B ps p → [] ∈ p.accepted → CanEnd B p
  measures : ∀ p, Of B ps p → p.finished = true → audioMs options (tallyOf p.emitted) ≠ none

/-- So are all sessions of the clients. -/
def AllObliging (B : DecodeOptions → Behaviour ε) (options : DecodeOptions)
    (clients : List (List Frame)) : Prop :=
  ∀ client ∈ clients, ∀ ps ∈ segment client, Obliging (B options) options ps

variable {ps : List Bytes}

theorem of_scripted (h : Scripted B options ps s) : Of (B options) ps s.pipe :=
  ⟨reach_pipe h.reach, (accepted_sent h.reach h.held).trans h.sent⟩

theorem Obliging.not_panicked (hB : Obliging (B options) options ps)
    (h : Scripted B options ps s) : s.pc.outcome ≠ some .panicked := by
  refine Measures.not_panicked (fun hf => ?_) h.reach
  rw [reach_options h.reach]
  exact hB.measures s.pipe (of_scripted h) hf

/-- The output channel never fills. -/
theorem Obliging.not_blocked (hB : Obliging (B options) options ps)
    (h : Scripted B options ps s) : ¬ WorkerBlocked s := by
  rintro ⟨-, -, hfull⟩
  have h1 := received_add_queue_eq h.reach
  have h2 := hB.few s.pipe (of_scripted h)
  have h3 : s.output.queue.length = 32 := hfull
  omega

/-- What the worker sends is the next chunk of the script. -/
theorem offered (h : Scripted B options ps s) {b : Bytes}
    (hpc : s.pc = .retry b ∨ s.pc = .sendEof ∧ b = []) :
    s.pipe.accepted ++ [b] <+: ps ++ [[]] := by
  have hi := reach_input h.reach
  have htaken : s.pipe.accepted ++ [b] = s.taken := by
    rcases hpc with hpc | ⟨hpc, rfl⟩
    · rw [← (hi.before (hi.not_atEof hpc)).2, hpc]
      rfl
    · have htaken := (hi.after (Or.inr hpc)).2.1.resolve_right fun hn => by
        have htx := hn.2.2
        rw [h.held.1] at htx
        cases htx
      rw [htaken, hi.data_sendEof hpc]
  rw [htaken]
  refine List.IsPrefix.trans ?_ h.sent
  rw [(reach_flow h.reach).sent]
  exact List.prefix_append _ _

theorem Obliging.room (hB : Obliging (B options) options ps) (h : Scripted B options ps s) :
    Room B s := by
  have ho := reach_options h.reach
  have hmakes : ∀ b, (s.pc = .retry b ∨ s.pc = .sendEof ∧ b = []) →
      MakesRoom (B s.options) s.pipe b := fun b hpc => by
    rw [ho]
    exact ⟨s.pipe, Reach.refl _, (hB.accepts s.pipe b (of_scripted h) (offered h hpc)).1⟩
  exact ⟨fun chunk hpc => hmakes chunk (Or.inl hpc),
    fun hpc => Or.inl (hmakes [] (Or.inr ⟨hpc, rfl⟩))⟩

/-- EOF is never refused. -/
theorem Obliging.eofKept (hB : Obliging (B options) options ps) (h : Scripted B options ps s) :
    EofKept s := by
  refine h.rec_tail (P := EofKept) (fun hd => by cases hd) ?_
  intro m l m' hm hI hs
  have hm : Scripted B options ps m := hm
  cases step_cases (scripted_step hs) with
  | worker h => exact eofKept_worker hI h
  | answer ok h =>
    cases h with
    | eofAccepted => exact fun _ => Or.inl (by simp)
    | eofRefused hpc hb =>
      rw [reach_options hm.reach,
        (hB.accepts m.pipe [] (of_scripted hm) (offered hm (Or.inr ⟨hpc, rfl⟩))).2] at hb
      cases hb
    | accepted chunk hpc =>
      refine fun hd => (hI hd).imp_left fun hmem => ?_
      rw [push_accepted]
      exact List.mem_append_left _ hmem
    | refused => exact hI
  | pipe a p hq hp => exact hI.thread (.single hp)
  | client a h => cases h <;> exact hI

/-- Before its job has ended a task follows the script of one of its client's sessions. -/
theorem Keeps.scripted (hk : Keeps B options t) (hph : t.conn.phase = .session o)
    (hend : ∀ out, o.decoder.pc ≠ .ended out) :
    ∃ ps rest out, ps ∈ segment t.client ∧ Serves B options o t.conn.frames ps rest out ∧
      Scripted B options ps o.decoder := by
  obtain ⟨ps, rest, out, hps, hf⟩ := hk.serves hph
  refine ⟨ps, rest, out, hps, hf, hf.script ?_⟩
  by_contra hd
  obtain ⟨d, failed, hpc⟩ : ∃ d failed, o.pc = .drop d failed := by
    cases hpc : o.pc <;> simp_all [TcpPc.dropping]
  have hreg := hk.regular
  simp only [Regular, hph, hpc] at hreg
  obtain ⟨-, out, ho⟩ := hreg
  exact hend out ho

/-- **The job of such a session does not panic.** -/
theorem Keeps.not_panicked (hk : Keeps B options t) (hph : t.conn.phase = .session o)
    (hB : ∀ ps ∈ segment t.client, Obliging (B options) options ps) {i : Inner ε}
    (hi : o.decoder.inner B i = some s) : (hasPanicked s && !hasPanicked o.decoder) = false := by
  by_cases hend : ∃ out, o.decoder.pc = .ended out
  · obtain ⟨out, hend⟩ := hend
    simp [hasPanicked, hend, ended_inner hend hi]
  · obtain ⟨ps, rest, out, hps, -, hs⟩ := hk.scripted hph (not_exists.mp hend)
    simp [hasPanicked, (hB ps hps).not_panicked (hs.inner hi)]

/-! ### The invariant of the server -/

/-- **The invariant of the server** for a pool of `size` workers. -/
structure Ordered (B : DecodeOptions → Behaviour ε) (options : DecodeOptions) (size : ℕ)
    (clients : List (List Frame)) (sv : TcpDecodeServer ε) : Prop where
  keeps : ∀ t ∈ sv.tasks, Keeps B options t
  clients : sv.tasks.map ConnTask.client = clients
  nodup : sv.queue.Nodup
  queue : ∀ k, k ∈ sv.queue ↔ ∃ t, sv.tasks[k]? = some t ∧ t.waiting = true
  workers : sv.workers = size
  /-- If no thread is held or looks for a task, one waits at the I/O driver. -/
  driven : (∀ t ∈ sv.tasks, t.running = false) → sv.looking = 0 → sv.driving = true

variable {size threads k : ℕ} {clients : List (List Frame)} {sv sv' : TcpDecodeServer ε}

theorem ordered_new : Ordered B options size clients (TcpDecodeServer.new size clients) := by
  refine ⟨fun t ht => ?_, ?_, List.nodup_nil, fun k => ?_, rfl, fun _ _ => rfl⟩
  · obtain ⟨client, -, rfl⟩ := List.mem_map.mp ht
    exact keeps_new client
  · simp [TcpDecodeServer.new, ConnTask.new, Function.comp_def]
  · constructor
    · exact fun h => absurd h List.not_mem_nil
    · rintro ⟨t, ht, hw⟩
      obtain ⟨client, -, rfl⟩ := List.mem_map.mp (List.mem_of_getElem? ht)
      cases hw

/-- The invariant after a step of one task. -/
theorem Ordered.put {queue : List ℕ} {driving : Bool} {looking : ℕ}
    (h : Ordered B options size clients sv)
    (hk : sv.tasks[k]? = some t) (hkeeps : Keeps B options t') (hclient : t'.client = t.client)
    (hnodup : queue.Nodup) (hother : ∀ j, j ≠ k → (j ∈ queue ↔ j ∈ sv.queue))
    (hqueue : k ∈ queue ↔ t'.waiting = true)
    (hdriven : t'.running = true ∨ 0 < looking ∨
      t'.running = t.running ∧ driving = sv.driving ∧ looking = sv.looking) :
    Ordered B options size clients ⟨sv.tasks.set k t', queue, sv.workers, driving, looking⟩ := by
  obtain ⟨hlt, hget⟩ := List.getElem?_eq_some_iff.mp hk
  refine ⟨fun m hm => ?_, ?_, hnodup, fun j => ?_, h.workers, fun hoff hl => ?_⟩
  · rcases List.mem_or_eq_of_mem_set hm with hm | rfl
    · exact h.keeps m hm
    · exact hkeeps
  · rw [map_set_of_eq hk hclient]; exact h.clients
  · by_cases hj : j = k
    · subst hj
      rw [hqueue]
      simp [List.getElem?_set_self hlt]
    · rw [hother j hj, h.queue j]
      simp [List.getElem?_set_ne (Ne.symm hj)]
  · have hoff' : t'.running = false := hoff t' (List.mem_set hlt t')
    rcases hdriven with hrun | hpos | ⟨hrun, rfl, rfl⟩
    · rw [hoff'] at hrun
      cases hrun
    · exact absurd hl (Nat.pos_iff_ne_zero.mp hpos)
    · refine h.driven (fun m hm => ?_) hl
      obtain ⟨j, hj⟩ := List.mem_iff_getElem?.mp hm
      by_cases hjk : j = k
      · subst hjk
        rw [hk] at hj
        cases hj
        rw [← hrun, hoff']
      · exact hoff m (List.mem_of_getElem? ((List.getElem?_set_ne (Ne.symm hjk)).trans hj))

/-- With an unchanged job channel. -/
theorem Ordered.put_same {driving : Bool} {looking : ℕ} (h : Ordered B options size clients sv)
    (hk : sv.tasks[k]? = some t) (hkeeps : Keeps B options t') (hclient : t'.client = t.client)
    (hwait : t'.waiting = t.waiting)
    (hdriven : t'.running = true ∨ 0 < looking ∨
      t'.running = t.running ∧ driving = sv.driving ∧ looking = sv.looking) :
    Ordered B options size clients
      ⟨sv.tasks.set k t', sv.queue, sv.workers, driving, looking⟩ := by
  refine h.put hk hkeeps hclient h.nodup (fun _ _ => Iff.rfl) ?_ hdriven
  rw [h.queue k, hwait]
  simp [hk]

theorem Ordered.client (h : Ordered B options size clients sv) (ht : t ∈ sv.tasks) :
    t.client ∈ clients := by
  rw [← h.clients]
  exact List.mem_map_of_mem ht

/-- A step behind a decoder leaves its job with a worker. -/
theorem inner_not_queued {i : Inner ε} (h : s.inner B i = some s') : s'.pc ≠ .queued := by
  cases step_cases (l := .inner i) h with
  | worker h =>
    cases h with
    | drained | put => dsimp only; split <;> simp
    | _ => simp
  | answer ok h =>
    cases h with
    | refused chunk hpc => rw [hpc]; simp
    | _ => simp
  | pipe a p hq => exact hq

/-- **A step of the server.** -/
theorem ordered_step {l : ServerLabel ε} (hsize : 1 ≤ size) (hB : AllObliging B options clients)
    (h : Ordered B options size clients sv) (hs : sv.step B options threads size l = some sv') :
    Ordered B options size clients sv' := by
  obtain ⟨driving, looking, -, hidle, -, rfl⟩ | ⟨k, t, hk, hs⟩ := server_step_cases hs
  · exact ⟨h.keeps, h.clients, h.nodup, h.queue, h.workers,
      fun _ hl => hidle.resolve_right (by simpa using hl)⟩
  have hmem := List.mem_of_getElem? hk
  have hkeeps := h.keeps t hmem
  cases hs with
  | arrive t' ht =>
    obtain ⟨h1, h2, h3, h4⟩ := hkeeps.arrive ht
    exact h.put_same hk h1 h2 (by simp only [ConnTask.waiting, h3]) (Or.inr (Or.inr ⟨h4, rfl, rfl⟩))
  | notice hd hready =>
    obtain ⟨h1, h2, h3, h4, h5, h6, -⟩ := hkeeps
    simp only [ConnTask.ready, Bool.and_eq_true, Bool.not_eq_true'] at hready
    exact h.put_same hk ⟨h1, h2, h3, h4, h5, h6, fun _ => ⟨hready.1.1.1, hready.1.2, hready.2⟩⟩ rfl
      rfl (Or.inr (Or.inr ⟨rfl, rfl, rfl⟩))
  | start driving looking hw hidle hawake =>
    obtain ⟨h1, h2, h3, h4, h5, -, -⟩ := hkeeps
    exact h.put_same hk ⟨h1, h2, h3, h4, h5, nofun, nofun⟩ rfl rfl (Or.inl rfl)
  | park hrun hp =>
    have hw := hkeeps.not_woken hrun
    obtain ⟨h1, h2, h3, h4, h5, -, -⟩ := hkeeps
    refine h.put_same hk ⟨h1, h2, h3, h4, h5, fun _ => ?_, fun hw' => ?_⟩ rfl rfl
      (Or.inr (Or.inl (Nat.succ_pos _)))
    · refine hp.imp_left fun hp => ?_
      simp only [ConnTask.pending, Bool.and_eq_true] at hp
      exact hp.1
    · have hw' : t.woken = true := hw'
      rw [hw] at hw'
      cases hw'
  | refused data hrun hph hw => rw [h.workers] at hw; omega
  | acquire data hrun hph hq =>
    have hnot : k ∉ sv.queue := by
      rw [h.queue k]
      rintro ⟨t', ht', hw⟩
      rw [hk] at ht'; cases ht'
      simp [ConnTask.waiting, Conn.decoder, hph] at hw
    refine h.put hk (hkeeps.move hrun (by simp [Conn.handler, hph])) rfl ?_ (fun j hj => ?_) ?_
      (Or.inl hrun)
    · exact List.nodup_append_comm.mp (List.nodup_cons.mpr ⟨hnot, h.nodup⟩)
    · simp [hj]
    · simp [ConnTask.waiting, ConnTask.move, Conn.decoder, isQueued, acquire]
  | handler c hrun hp hph hc =>
    exact h.put_same hk (hkeeps.move hrun hc) rfl (handler_frames hkeeps hc hph).2 (Or.inl hrun)
  | take o s rest hph hpc hq hb i hi =>
    have hnodup := h.nodup
    rw [hq, List.nodup_cons] at hnodup
    refine h.put hk (hkeeps.behind hph hi) rfl hnodup.2 (fun j hj => ?_) ?_
      (Or.inr (Or.inr ⟨rfl, rfl, rfl⟩))
    · rw [hq]; simp [hj]
    · have hne := inner_not_queued hi
      simp [ConnTask.waiting, ConnTask.behind, Conn.decoder, isQueued, hne, hnodup.1]
  | inner o s i hph hpc hi =>
    rw [hkeeps.not_panicked hph (hB t.client (h.client hmem)) hi]
    refine h.put_same hk (hkeeps.behind hph hi) rfl ?_ (Or.inr (Or.inr ⟨rfl, rfl, rfl⟩))
    have hne := inner_not_queued hi
    simp [ConnTask.waiting, ConnTask.behind, Conn.decoder, isQueued, hne, hph, hpc]

/-! ### The threads -/

omit [ToString ε] in
/-- After a step of a task that stays where it runs. -/
theorem awake_put {queue : List ℕ} {workers : ℕ} (h : sv.awake ≤ threads)
    (hk : sv.tasks[k]? = some t) (hrun : t'.running = t.running) : TcpDecodeServer.awake
      ⟨sv.tasks.set k t', queue, workers, sv.driving, sv.looking⟩ ≤ threads := by
  unfold TcpDecodeServer.awake TcpDecodeServer.held at h ⊢
  dsimp only
  rwa [countP_set_of_eq hk hrun]

/-- A step wakes a thread only if one sleeps. -/
theorem awake_step {l : ServerLabel ε} (h : sv.awake ≤ threads)
    (hs : sv.step B options threads size l = some sv') : sv'.awake ≤ threads := by
  obtain ⟨driving, looking, -, -, hawake, rfl⟩ | ⟨k, t, hk, hs⟩ := server_step_cases hs
  · exact hawake.trans h
  cases hs with
  | arrive t' ht =>
    have hrun : t'.running = t.running := by
      unfold ConnTask.arrive at ht
      split_ifs at ht <;> cases ht <;> rfl
    exact awake_put h hk hrun
  | start driving looking hw hidle hawake => exact hawake.trans (max_le le_rfl h)
  | park hrun hp =>
    have hheld := countP_set (y := { t with running := false }) ConnTask.running hk
    rw [if_pos hrun] at hheld
    simp only [Bool.false_eq_true, if_false] at hheld
    unfold TcpDecodeServer.awake TcpDecodeServer.held at h
    show (sv.tasks.set k { t with running := false }).countP ConnTask.running + (sv.looking + 1) +
      (if sv.driving then 1 else 0) ≤ threads
    omega
  | notice hd hready => exact awake_put h hk rfl
  | refused data hrun hph hw => exact awake_put h hk rfl
  | acquire data hrun hph hq => exact awake_put h hk rfl
  | handler c hrun hp hph hc => exact awake_put h hk rfl
  | take o s rest hph hpc hq hb i hi => exact awake_put h hk rfl
  | inner o s i hph hpc hi => exact awake_put h hk rfl

/-- **No more threads are awake than there are.** -/
theorem awake_le (hthreads : 1 ≤ threads) (h : Reach (TcpDecodeServer.step B options threads size)
    (TcpDecodeServer.new size clients) sv) : sv.awake ≤ threads := by
  refine h.invariant (I := fun sv => sv.awake ≤ threads) ?_ fun _ _ _ hI hs => awake_step hI hs
  have hheld : (TcpDecodeServer.new size clients : TcpDecodeServer ε).held = 0 := by
    refine List.countP_eq_zero.mpr fun t ht => ?_
    obtain ⟨client, -, rfl⟩ := List.mem_map.mp ht
    exact Bool.false_ne_true
  rw [TcpDecodeServer.awake, hheld]
  exact hthreads

end MediaApi.Server.Tasks
