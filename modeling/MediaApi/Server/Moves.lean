import MediaApi.Pool.Retry
import MediaApi.Server.Work

/-! # Steps a server can always take

Obliging sessions (`Obliging`) leave few reasons to wait. A job that finds input gets on, an idle
worker takes the oldest job, a task on its thread steps, unless it blocks the thread in `acquire` or
in `decoder.recv()` (`Blocking`), and while no thread is held, the one at the I/O driver, or one
that comes back to it, picks up a task. Each such step leaves less work on the server. -/

namespace MediaApi.Server.Moves

open MediaApi.Lib.Transition MediaApi.Lib.Components MediaApi.Model.Audio MediaApi.Model.Pipeline
open MediaApi.Model.ProcessJob MediaApi.Model.Steps MediaApi.Model.Pool MediaApi.Model.Tcp
open MediaApi.Model.Server MediaApi.Pool.Forwarding MediaApi.Pool.Handle MediaApi.Pool.Script
open MediaApi.Pool.Progress MediaApi.Pool.Retry MediaApi.Pool.Survival MediaApi.Tcp.Reference
open MediaApi.Tcp.Sessions MediaApi.Server.Tasks MediaApi.Server.Work

variable {ε : Type} [ToString ε] {B : DecodeOptions → Behaviour ε} {options : DecodeOptions}
  {s s' : Session ε} {ps : List Bytes}

/-! ### What the clients have sent -/

/-- The client has sent the complete input of its sessions: all its frames have arrived, and if they
leave a session open the end of its stream has too. -/
def Complete (t : ConnTask ε) : Prop :=
  t.arrived = t.conn.frames.length ∧ (t.eof = true ∨ endsOpen false t.client = false)

omit [ToString ε] in
instance (t : ConnTask ε) : Decidable (Complete t) := inferInstanceAs (Decidable (_ ∧ _))

omit [ToString ε] in
theorem Complete.arrive {t t' : ConnTask ε} (hc : Complete t) (h : t.arrive = some t') :
    Complete t' := by
  unfold ConnTask.arrive at h
  split_ifs at h with hlt he
  · exact absurd hc.1 (Nat.ne_of_lt hlt)
  · cases h
    exact ⟨hc.1, Or.inl rfl⟩

theorem Complete.move {t : ConnTask ε} {c : Conn ε} (hc : Complete t) (hk : Keeps B options t)
    (h : t.conn.handler options = some c) : Complete (t.move c) := by
  have hle := hk.frames_le h
  have := hc.1
  refine ⟨?_, hc.2⟩
  show t.arrived - (t.conn.frames.length - c.frames.length) = c.frames.length
  omega

/-- **What the clients have sent stays sent.** -/
theorem complete_step {threads size : ℕ} {clients : List (List Frame)}
    {sv sv' : TcpDecodeServer ε} {l : ServerLabel ε} (h : Ordered B options size clients sv)
    (hc : ∀ t ∈ sv.tasks, Complete t) (hs : sv.step B options threads size l = some sv') :
    ∀ t ∈ sv'.tasks, Complete t := by
  obtain ⟨driving, looking, -, -, -, rfl⟩ | ⟨k, t, hk, hs⟩ := server_step_cases hs
  · exact hc
  have hmem := List.mem_of_getElem? hk
  have hput : ∀ t', Complete t' → ∀ m ∈ sv.tasks.set k t', Complete m := by
    intro t' ht' m hm
    rcases List.mem_or_eq_of_mem_set hm with hm | rfl
    · exact hc m hm
    · exact ht'
  have ht := hc t hmem
  cases hs with
  | arrive t' h => exact hput _ (ht.arrive h)
  | acquire data hrun hph hq =>
    exact hput _ (ht.move (h.keeps t hmem) (by simp [Conn.handler, hph]))
  | handler c hrun hp hph hh => exact hput _ (ht.move (h.keeps t hmem) hh)
  | _ => exact hput _ ht

/-! ### A job of an obliging session -/

/-- A worker whose holder has sent EOF finds something in its input channel. -/
theorem fed_of_eof (h : Reach (Session.step B) (acquire options) s) (hm : [] ∈ s.sent) : Fed s := by
  intro hpc
  by_cases hd : s.inputDone = true
  · exact Or.inl hd
  · refine Or.inr (Or.inl fun hq => ?_)
    have hat : ¬ AtEof s := by simp [AtEof, hd, hpc]
    have := ((reach_input h).before hat).1
    rw [(reach_flow h).sent, hq, List.append_nil] at hm
    exact this hm

omit [ToString ε] in
theorem drains_unreceived {p : Pipe ε} (h : p.emitted.length < 32) : Drains unreceived p := by
  intro r p' hp
  obtain ⟨hout, hgiven, hem, -⟩ := pipeRecv_some hp
  have hlen := congrArg List.length hem
  rw [Pipe.emitted, Pipe.emitted, List.length_append, List.length_append] at hlen
  rw [Pipe.emitted, List.length_append] at h
  rw [hout, List.length_cons] at hlen
  rw [hout, List.length_cons] at h
  unfold unreceived
  omega

/-- **A job that is fed gets on.** If it waits for its pipeline, that ends or has a result. -/
theorem job_gets_on (hB : Obliging (B options) options ps) (h : Scripted B options ps s)
    (hfed : Fed s) (hend : ∀ o, s.pc ≠ .ended o) :
    ∃ s', Reach (Session.inner B) s s' ∧ Less unreceived s' s := by
  have hgo : ∀ {m}, Scripted B options ps m → Fed m → ¬ Awaiting m → (∀ o, m.pc ≠ .ended o) →
      ∃ s', Reach (Session.inner B) m s' ∧ Less unreceived s' m := by
    intro m hm hfed hwait hend
    obtain ⟨s', hr, -, hless⟩ := advance (drains_unreceived (hB.few m.pipe (of_scripted hm)))
      hm.reach (hB.room hm) (hB.eofKept hm) hfed (hB.not_blocked hm) hwait hend
    exact ⟨s', hr, hless⟩
  by_cases ha : Awaiting s
  · have hd := (reach_ending h.reach).final (Or.inl ha.pc)
    have hacc := (hB.eofKept h hd).resolve_right (by simp [ha.finished])
    obtain ⟨p, hp, hr, hnext⟩ := ha.advance
      (by rw [reach_options h.reach]; exact hB.ends s.pipe (of_scripted h) hacc)
    rcases hnext with hf | hout
    · exact ⟨_, hr, Or.inl (by simp [todo, ha.finished, hf])⟩
    · -- the result is received next
      have hm : Scripted B options ps { s with pipe := p } :=
        hr.invariant h fun _ _ _ h hi => h.inner hi
      obtain ⟨s', hr', hless⟩ := hgo hm (fun hpc => absurd (ha.pc.symm.trans hpc) (by simp))
        (fun hw => hout hw.outbuf) hend
      refine ⟨s', hr.trans hr', ?_⟩
      have htodo : todo { s with pipe := p } ≤ todo s := Nat.add_le_add_left (finished_le hp) _
      have hback : backlog unreceived { s with pipe := p } = backlog unreceived s := by
        simp only [backlog, unreceived, (reach_pipe_accepted hp).2.1]
      rcases hless with hlt | ⟨hle, hlt⟩
      · exact Or.inl (hlt.trans_le htodo)
      · exact Or.inr ⟨hle.trans htodo, hlt.trans_eq hback⟩
  · exact hgo h hfed ha hend

/-! ### A pipeline that accepts every chunk -/

/-- `click` through buffers that hold a whole session. -/
def patient : DecodeOptions → Behaviour String := fun _ => relay 64 64 click ([] ∈ ·)

theorem patient_obliging {ps : List Bytes} (hps : [] ∉ ps) (hshort : ps.length < 31) :
    Obliging (patient {}) {} ps where
  short := by omega
  few p h := by
    have htaken : p.taken <+: ps ++ [[]] := (List.prefix_append p.taken p.inbuf).trans h.2
    have hle := htaken.length_le
    have hem : p.emitted.length ≤ p.taken.length := by
      simpa [click] using (relay_emitted click_mono h.1).length_le
    rw [List.length_append, List.length_singleton] at hle
    omega
  accepts p b h hb := by
    have hacc : p.accepted <+: ps := by
      have hle := hb.length_le
      rw [List.length_append, List.length_append, List.length_singleton,
        List.length_singleton] at hle
      exact List.prefix_of_prefix_length_le ((List.prefix_append _ _).trans hb)
        (List.prefix_append ps [[]]) (by omega)
    have hf : p.finished = false := by
      by_contra hf
      have hend : [] ∈ p.taken := by
        have hp : Reach (pipeStep (relay 64 64 click ([] ∈ ·))) {} p := h.1
        simpa using relay_finished hp (by simpa using hf)
      exact hps (hacc.subset (List.mem_append_left _ hend))
    have hroom : p.inbuf.length < 64 := by
      have hle := hacc.length_le
      rw [Pipe.accepted, List.length_append] at hle
      omega
    simp [patient, relay, hf, hroom]
  ends p h hm := relay_endsAfterEof (by decide) p h.1 hm
  measures p h _ := by
    have hle := h.2.length_le
    rw [List.length_append, List.length_singleton] at hle
    exact click_measures h.1 rfl (by omega)

theorem patient_allObliging {clients : List (List Frame)}
    (h : ∀ client ∈ clients, ∀ ps ∈ segment client, ps.length < 31) :
    AllObliging patient {} clients := fun client hc ps hps =>
  patient_obliging (nil_notMem_segment hps) (h client hc ps hps)

/-! ### Steps that are always possible -/

variable {threads size k : ℕ} {clients : List (List Frame)} {sv sv' : TcpDecodeServer ε}
  {t t' : ConnTask ε} {o : Open ε}

omit [ToString ε] in
theorem put_getElem? (hk : sv.tasks[k]? = some t) : (sv.put k t').tasks[k]? = some t' := by
  obtain ⟨hlt, -⟩ := List.getElem?_eq_some_iff.mp hk
  simp [TcpDecodeServer.put, List.getElem?_set_self hlt]

omit [ToString ε] in
theorem put_put (sv : TcpDecodeServer ε) (k : ℕ) (t t' : ConnTask ε) :
    (sv.put k t).put k t' = sv.put k t' := by
  simp [TcpDecodeServer.put]

omit [ToString ε] in
theorem put_self (hk : sv.tasks[k]? = some t) : sv.put k t = sv := by
  obtain ⟨hlt, hget⟩ := List.getElem?_eq_some_iff.mp hk
  simp [TcpDecodeServer.put, ← hget]

omit [ToString ε] in
theorem behind_self (hph : t.conn.phase = .session o) : t.behind o o.decoder = t := by
  simp [ConnTask.behind, ← hph]

/-- A run behind a decoder that a worker has taken. -/
theorem inners_server (hk : sv.tasks[k]? = some t) (hph : t.conn.phase = .session o)
    (hB : Obliging (B options) options ps) (hs : Scripted B options ps o.decoder)
    (hq : o.decoder.pc ≠ .queued) (h : Reach (Session.inner B) o.decoder s) :
    Reach (TcpDecodeServer.step B options threads size) sv (sv.put k (t.behind o s)) := by
  have key := h.invariant (I := fun m => m.pc ≠ .queued ∧ Scripted B options ps m ∧
      Reach (TcpDecodeServer.step B options threads size) sv (sv.put k (t.behind o m)))
    ⟨hq, hs, by rw [behind_self hph, put_self hk]⟩ (by
      rintro m i m' ⟨hq, hm, hI⟩ hi
      refine ⟨inner_not_queued hi, hm.inner hi, hI.tail (l := .inner k i) ?_⟩
      have hnp := hB.not_panicked (hm.inner hi)
      have hstep : (sv.put k (t.behind o m)).inner B k (t.behind o m) i =
          some ((sv.put k (t.behind o m)).put k (t.behind o m')) := by
        simp [TcpDecodeServer.inner, ConnTask.behind, hq, hi, hasPanicked, hnp, TcpDecodeServer.put]
      simp only [TcpDecodeServer.step, put_getElem? hk, Option.bind_some, hstep, put_put])
  exact key.2.2

/-- **A job that finds input, or needs none, gets on.** -/
theorem job_advances (hB : AllObliging B options clients) (h : Ordered B options size clients sv)
    (hk : sv.tasks[k]? = some t) (hph : t.conn.phase = .session o)
    (hq : o.decoder.pc ≠ .queued) (hend : ∀ out, o.decoder.pc ≠ .ended out)
    (hfed : Fed o.decoder) :
    ∃ sv', Reach (TcpDecodeServer.step B options threads size) sv sv' ∧ Relieved sv' sv := by
  have hmem := List.mem_of_getElem? hk
  obtain ⟨ps, rest, out, hps, -, hs⟩ := (h.keeps t hmem).scripted hph hend
  have hobl := hB t.client (h.client hmem) ps hps
  obtain ⟨s, hr, hless⟩ := job_gets_on hobl hs hfed hend
  exact ⟨_, inners_server hk hph hobl hs hq hr,
    relieved_set hk (fewer_of_falls (falls_behind hph hless)) rfl⟩

/-- **An idle worker takes the oldest job.** -/
theorem job_taken {rest : List ℕ} (h : Ordered B options size clients sv)
    (hq : sv.queue = k :: rest) (hb : sv.busy < sv.workers) :
    ∃ sv', Reach (TcpDecodeServer.step B options threads size) sv sv' ∧ Relieved sv' sv := by
  obtain ⟨t, hk, hw⟩ := (h.queue k).mp (by rw [hq]; exact List.mem_cons_self)
  obtain ⟨o, hph, hpc⟩ : ∃ o, t.conn.phase = .session o ∧ o.decoder.pc = .queued := by
    unfold ConnTask.waiting Conn.decoder at hw
    split at hw
    · next o hph => exact ⟨o, hph, by simpa [isQueued] using hw⟩
    · cases hw
  have hi : o.decoder.inner B .worker = some { o.decoder with pc := .poll } := by
    simp [Session.inner, Session.worker, hpc]
  have hless : Less unreceived { o.decoder with pc := .poll } o.decoder :=
    .of_backlog rfl (by simp [hpc, Pc.retrying]) rfl rfl (Nat.le_succ _)
      (by cases hd : o.decoder.inputDone <;> simp [rank, hpc])
  refine ⟨{ sv.put k (t.behind o { o.decoder with pc := .poll }) with queue := rest },
    .single (l := .inner k .worker) ?_,
    relieved_set hk (fewer_of_falls (falls_behind hph hless)) rfl⟩
  simp [TcpDecodeServer.step, hk, TcpDecodeServer.inner, hph, hpc, hq, hb, hi]

/-! ### A thread without a task -/

omit [ToString ε] in
@[simp] theorem notify_tasks (wakes : Bool) : (sv.notify threads wakes).tasks = sv.tasks := by
  unfold TcpDecodeServer.notify
  split_ifs <;> rfl

/-- A thread that is not held takes a woken task. -/
theorem task_taken (hk : sv.tasks[k]? = some t) (hw : t.woken = true)
    (hidle : sv.driving = true ∨ 0 < sv.looking) :
    ∃ sv', Reach (TcpDecodeServer.step B options threads size) sv sv' ∧
      sv'.tasks = sv.tasks.set k t.start := by
  rcases hidle with hd | hl
  · refine ⟨TcpDecodeServer.notify threads false { sv.put k t.start with driving := false },
      .single (l := .leave k) ?_, notify_tasks _⟩
    simp [TcpDecodeServer.step, hk, hd, hw]
  · refine ⟨TcpDecodeServer.notify threads false
      { sv.put k t.start with looking := sv.looking - 1 }, .single (l := .pick k false) ?_,
      notify_tasks _⟩
    simp [TcpDecodeServer.step, hk, hl, hw]

omit [ToString ε] in
/-- A task that is not finished has not ended. -/
theorem not_ended (hfin : finished t = false) : t.ended = false := by
  unfold finished at hfin
  unfold ConnTask.ended
  split at hfin
  · cases hfin
  · next hph => simp [hph]
  · next h1 h2 => split <;> simp_all

omit [ToString ε] in
/-- What is left of a finished task that is on a thread, or is woken, is the end of its stream. -/
theorem eof_of_finished (options : DecodeOptions) (hfin : finished t = true)
    (hend : t.ended = false) :
    t.conn.handler options = some { t.conn with phase := .closed true } ∧
      t.conn.phase = .first ∧ t.conn.frames = [] := by
  obtain ⟨hph, hf⟩ : t.conn.phase = .first ∧ t.conn.frames = [] := by
    unfold finished at hfin
    unfold ConnTask.ended at hend
    split at hfin
    · next ok hph => simp [hph] at hend
    · next hph => exact ⟨hph, by simpa using hfin⟩
    · cases hfin
  exact ⟨by simp [Conn.handler, hph, hf], hph, hf⟩

/-- **A woken task gets on**, while a thread is not held. -/
theorem woken_moves (h : Ordered B options size clients sv) (hk : sv.tasks[k]? = some t)
    (hw : t.woken = true) (hidle : sv.driving = true ∨ 0 < sv.looking) :
    ∃ sv', Reach (TcpDecodeServer.step B options threads size) sv sv' ∧ Relieved sv' sv := by
  obtain ⟨hrun, hp, hend⟩ := (h.keeps t (List.mem_of_getElem? hk)).woken hw
  obtain ⟨m, hr, htasks⟩ : ∃ m, Reach (TcpDecodeServer.step B options threads size) sv m ∧
      m.tasks = sv.tasks.set k t.start := task_taken hk hw hidle
  cases hfin : finished t with
  | false =>
    have hless : Fewer t.start t := fewer_of_thread (by rw [hfin, hrun]) rfl (by rw [hrun]; rfl)
    exact ⟨m, hr, relieved_set hk hless htasks⟩
  | true =>
    obtain ⟨hh, hph, hf⟩ := eof_of_finished options hfin hend
    have hkm : m.tasks[k]? = some t.start := by
      obtain ⟨hlt, -⟩ := List.getElem?_eq_some_iff.mp hk
      rw [htasks, List.getElem?_set_self hlt]
    refine ⟨m.put k (t.start.move { t.conn with phase := .closed true }),
      hr.tail (l := .task k) ?_, relieved_set hk ?_ (by rw [TcpDecodeServer.put, htasks,
        List.set_set])⟩
    · have hps : t.start.pending = false := hp
      have hphs : t.start.conn.phase = .first := hph
      have hhs : t.start.conn.handler options = some { t.conn with phase := .closed true } := hh
      have hruns : t.start.running = true := rfl
      simp [TcpDecodeServer.step, hkm, hruns, TcpDecodeServer.task, hps, hphs, hhs]
    · right
      simp [work, demand, supply, misplaced, finished, ConnTask.move, ConnTask.start, hph, hrun, hf]

/-- **A task that needs a thread gets one**, while no thread is held. -/
theorem task_started (h : Ordered B options size clients sv)
    (hoff : ∀ t ∈ sv.tasks, t.running = false) (hk : sv.tasks[k]? = some t)
    (hfin : finished t = false) (hp : t.pending = false) :
    ∃ sv', Reach (TcpDecodeServer.step B options threads size) sv sv' ∧ Relieved sv' sv := by
  have hidle : sv.driving = true ∨ 0 < sv.looking := by
    rcases Nat.eq_zero_or_pos sv.looking with hl | hl
    · exact Or.inl (h.driven hoff hl)
    · exact Or.inr hl
  by_cases hwaking : ∃ t ∈ sv.tasks, t.woken = true
  · obtain ⟨m, hm, hw⟩ := hwaking
    obtain ⟨j, hj⟩ := List.mem_iff_getElem?.mp hm
    exact woken_moves h hj hw hidle
  · -- a thread at the I/O driver notices the task
    have hmem := List.mem_of_getElem? hk
    have hw : t.woken = false := by
      by_contra hw
      exact hwaking ⟨t, hmem, by simpa using hw⟩
    obtain ⟨m, hr, htasks, hd⟩ : ∃ m, Reach (TcpDecodeServer.step B options threads size) sv m ∧
        m.tasks = sv.tasks ∧ m.driving = true := by
      rcases hidle with hd | hl
      · exact ⟨sv, Reach.refl sv, rfl, hd⟩
      · refine ⟨{ sv with looking := sv.looking - 1, driving := true }, .single (l := .rest) ?_,
          rfl, rfl⟩
        have hwaking : sv.waking = false := by
          rw [TcpDecodeServer.waking, List.any_eq_false]
          exact fun m hm hw => hwaking ⟨m, hm, hw⟩
        simp [TcpDecodeServer.step, hl, hwaking]
    have hready : t.ready = true := by
      simp [ConnTask.ready, hoff t hmem, hw, hp, not_ended hfin]
    have hkm : m.tasks[k]? = some t := by rw [htasks, hk]
    have hnotice : m.step B options threads size (.notice k) =
        some (m.put k { t with woken := true }) := by
      simp [TcpDecodeServer.step, hkm, hd, hready]
    obtain ⟨sv', hr', htasks'⟩ : ∃ sv', Reach (TcpDecodeServer.step B options threads size)
        (m.put k { t with woken := true }) sv' ∧
        sv'.tasks = (m.put k { t with woken := true }).tasks.set k t.start :=
      task_taken (t := { t with woken := true }) (put_getElem? hkm) rfl (Or.inl hd)
    have hless : Fewer t.start t :=
      fewer_of_thread (by rw [hfin, hoff t hmem]) rfl (by rw [hoff t hmem]; rfl)
    refine ⟨sv', (hr.tail hnotice).trans hr', relieved_set hk hless ?_⟩
    rw [htasks', TcpDecodeServer.put, List.set_set, htasks]

/-! ### A task on its thread -/

/-- A task whose client has sent everything does not wait for it. -/
theorem not_pending (hkeeps : Keeps B options t) (hc : Complete t)
    (hfin : finished t = false) : t.pending = false := by
  by_cases hf : t.conn.frames = []
  · have hopen : t.eof = true ∨ t.reads = false := by
      refine hc.2.imp_right fun he => ?_
      have := hkeeps.session he
      rw [hf] at this
      unfold ConnTask.reads
      unfold finished at hfin
      split
      · next hph => simp [hph, hf] at hfin
      · next o hph =>
        rw [hph] at this
        by_contra hpc
        have hpc : o.pc = .read := by simpa using hpc
        simp [endsOpen, inSession, hpc, readsOn] at this
      · rfl
    rcases hopen with h | h <;> simp [ConnTask.pending, ConnTask.readable, hf, h]
  · have hpos := List.length_pos_iff.mpr hf
    have harr : 0 < t.arrived := by rw [hc.1]; exact hpos
    simp [ConnTask.pending, ConnTask.readable, harr]

/-- A session of fewer than 32 chunks never fills its input channel. -/
theorem send_returns {ps : List Bytes} {rest : List (List Bytes)} {frames out : List Frame}
    (hf : Serves B options o frames ps rest out) (hshort : ps.length < 32)
    (hpc : (∃ data, o.pc = .send data) ∨ o.pc = .sendEof) (data : Bytes) :
    o.decoder.send data ≠ none := by
  intro hnone
  have hcut := hf.cut
  have hlen : o.decoder.sent.length ≤ ps.length := by
    rcases hpc with ⟨data, hpc⟩ | hpc <;> simp only [Cut, hpc] at hcut
    · have := (prefix_of_segmentFrom hcut).length_le
      rw [List.length_append] at this
      omega
    · rw [hcut.1]
  have hsent := congrArg List.length (reach_flow hf.owns.reach).sent
  have hfull : o.decoder.input.queue.length = 32 := (send_none.mp hnone).2
  rw [List.length_append] at hsent
  omega

/-- A task that blocks its thread: in `acquire`, or in `decoder.recv()`. -/
def Blocking (size : ℕ) (sv : TcpDecodeServer ε) (t : ConnTask ε) : Prop :=
  ((∃ data, t.conn.phase = .acquire data) ∧ size ≤ sv.queue.length) ∨
    ∃ o, t.conn.phase = .session o ∧ o.pc = .flush ∧ o.decoder.recv = none

/-- **A task on its thread makes a step**, unless it blocks the thread. -/
theorem task_steps (hsize : 1 ≤ size) (hB : AllObliging B options clients)
    (h : Ordered B options size clients sv) (hk : sv.tasks[k]? = some t)
    (hrun : t.running = true) (hc : Complete t) (hfin : finished t = false) : Blocking size sv t ∨
      ∃ sv', Reach (TcpDecodeServer.step B options threads size) sv sv' ∧ Relieved sv' sv := by
  have hmem := List.mem_of_getElem? hk
  have hkeeps := h.keeps t hmem
  have hp := not_pending hkeeps hc hfin
  have hstep : sv.step B options threads size (.task k) = sv.task options size k t := by
    simp [TcpDecodeServer.step, hk, hrun]
  cases hh : t.conn.handler options with
  | some c =>
    have hless : Fewer (t.move c) t := fewer_of_falls (falls_handler hkeeps hh)
    by_cases hacq : ∃ data, t.conn.phase = .acquire data
    · by_cases hq : sv.queue.length < size
      · obtain ⟨data, hph⟩ := hacq
        refine Or.inr ⟨{ sv.put k (t.move c) with queue := sv.queue ++ [k] },
          .single (l := .task k) (hstep.trans ?_), relieved_set hk hless rfl⟩
        have hw : sv.workers ≠ 0 := by rw [h.workers]; omega
        simp [TcpDecodeServer.task, hp, hph, hw, hq, hh]
      · exact Or.inl (Or.inl ⟨hacq, Nat.not_lt.mp hq⟩)
    · refine Or.inr ⟨sv.put k (t.move c), .single (l := .task k) (hstep.trans ?_),
        relieved_set hk hless rfl⟩
      unfold TcpDecodeServer.task
      rw [hp]
      simp only [Bool.false_eq_true, if_false]
      split
      · next data hph => exact absurd ⟨data, hph⟩ hacq
      · rw [hh]; rfl
  | none =>
    rcases handler_none hh with ⟨ok, hph⟩ | ⟨o, hph, hcall⟩
    · simp [finished, hph] at hfin
    · obtain ⟨ps, rest, out, hps, hf⟩ := hkeeps.serves hph
      have hlt := (hB t.client (h.client hmem) ps hps).short
      rcases hcall with ⟨data, hpc, hs⟩ | ⟨hpc, hs⟩ | ⟨hpc, hr⟩ | ⟨failed, hpc, hs⟩
      · exact absurd hs (send_returns hf hlt (Or.inl ⟨data, hpc⟩) data)
      · exact absurd hs (send_returns hf hlt (Or.inr hpc) [])
      · exact Or.inl (Or.inr ⟨o, hph, hpc, hr⟩)
      · have hreg := hkeeps.regular
        simp only [Regular, hph, hpc] at hreg
        obtain ⟨-, out, ho⟩ := hreg
        have hrx := (send_none.mp hs).1
        rw [reach_gone hf.owns.reach ⟨out, Or.inr ho⟩] at hrx
        cases hrx

/-- A finished task leaves its thread. -/
theorem finished_leaves (h : Ordered B options size clients sv) (hk : sv.tasks[k]? = some t)
    (hrun : t.running = true) (hfin : finished t = true) :
    ∃ sv', Reach (TcpDecodeServer.step B options threads size) sv sv' ∧ Relieved sv' sv := by
  by_cases hpark : t.pending = true ∨ t.ended = true
  · have hless : Fewer { t with running := false } t :=
      fewer_of_thread (by rw [hfin, hrun]) rfl (by rw [hrun]; rfl)
    refine ⟨{ sv.put k { t with running := false } with looking := sv.looking + 1 },
      .single (l := .park k) ?_, relieved_set hk hless rfl⟩
    rcases hpark with hp | he
    · simp [TcpDecodeServer.step, hk, hrun, hp]
    · simp [TcpDecodeServer.step, hk, hrun, he]
  · -- the end of the stream has arrived
    obtain ⟨hp, he⟩ := not_or.mp hpark
    obtain ⟨hh, hph, -⟩ := eof_of_finished options hfin (by simpa using he)
    refine ⟨sv.put k (t.move _), .single (l := .task k) ?_, relieved_set hk
      (fewer_of_falls (falls_handler (h.keeps t (List.mem_of_getElem? hk)) hh)) rfl⟩
    simp [TcpDecodeServer.step, hk, hrun, TcpDecodeServer.task, hp, hph, hh]

end MediaApi.Server.Moves
