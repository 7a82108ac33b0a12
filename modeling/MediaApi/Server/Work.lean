import MediaApi.Server.Tasks

/-! # The work that is left on a server

`demand` counts what a task has still to read and to send, and the input its job has still to take;
`supply` what it has still to receive and to write. A step of the handler makes `demand` smaller, or
leaves it and makes `supply` smaller (`falls_handler`); so does a step behind its decoder that
leaves the job less to do (`falls_behind`), a task that gets a thread it needs, and one that gives
up a thread it does not need. So the work on the whole server falls with each of them. -/

namespace MediaApi.Server.Work

open MediaApi.Lib.Transition MediaApi.Lib.Components MediaApi.Model.Audio MediaApi.Model.Pipeline
open MediaApi.Model.ProcessJob MediaApi.Model.Steps MediaApi.Model.Tcp MediaApi.Model.Server
open MediaApi.Pool.Forwarding MediaApi.Pool.Handle MediaApi.Pool.Script MediaApi.Pool.Progress
open MediaApi.Tcp.Reference MediaApi.Tcp.Sessions MediaApi.Server.Tasks

variable {ε : Type}

/-! ### The work of one task -/

/-- How far the handler is from having sent EOF. -/
def stage : TcpPc → ℕ
  | .send _ => 9
  | .drain | .read | .writeMeta _ false | .writePcms _ false => 5
  | .sendEof => 4
  | _ => 0

/-- How far the handler is from its next read or its next `try_recv`, and then from the session's
end. -/
def distance : TcpPc → ℕ
  | .send _ | .sendEof => 0
  | .writeMeta _ _ => 9
  | .writePcms _ _ => 8
  | .drain | .flush => 7
  | .read | .writeDone => 6
  | .drop .send _ => 5
  | .drop .tx _ => 4
  | .drop .rx _ => 3
  | .drop .dropped _ => 2

/-- The results of a session that the worker has still to receive, of fewer than 32. -/
def unreceived (p : Pipe ε) : ℕ := 32 - p.given.length

/-- What is left to read and to send, and for the job to take. -/
def demand (c : Conn ε) : ℕ :=
  20 * c.frames.length + match c.phase with
    | .acquire _ => 12
    | .session o => stage o.pc + todo o.decoder
    | _ => 0

/-- What is left to receive and to write. -/
def supply (c : Conn ε) : ℕ :=
  match c.phase with
  | .first => 1
  | .session o => distance o.pc + backlog unreceived o.decoder
  | _ => 0

@[simp] theorem todo_dropTx (s : Session ε) : todo s.dropTx = todo s := rfl
@[simp] theorem todo_dropRx (s : Session ε) : todo s.dropRx = todo s := rfl
@[simp] theorem backlog_dropTx (left : Pipe ε → ℕ) (s : Session ε) :
    backlog left s.dropTx = backlog left s := rfl
@[simp] theorem backlog_dropRx (left : Pipe ε → ℕ) (s : Session ε) :
    backlog left s.dropRx = backlog left s := rfl

theorem send_work {s s' : Session ε} {data : Bytes} {ok : Bool} (h : s.send data = some (ok, s')) :
    todo s' ≤ todo s + 3 := by
  rcases send_cases h with ⟨-, -, -, c, hc, rfl⟩ | ⟨-, -, rfl⟩
  · have hq := (Lib.Channel.Chan.send_sent hc).2.2.1
    simp only [todo, hq, List.length_append, List.length_singleton]
    omega
  · omega

theorem tryRecv_work {s s' : Session ε} {i : Item} (h : s.tryRecv = (.item i, s')) :
    todo s' = todo s ∧ backlog unreceived s' + 3 = backlog unreceived s := by
  obtain ⟨c, hc, rfl⟩ := tryRecv_item h
  have hq := (Lib.Channel.Chan.tryRecv_got hc).1
  refine ⟨rfl, ?_⟩
  simp only [backlog, hq, List.length_cons]
  omega

/-- A step of the handler inside a session. -/
theorem falls_open {o o' : Open ε} {frames frames' out written written' : List Frame}
    (hgone : (∃ d failed, o.pc = .drop d failed) → o.decoder.input.rx = false)
    (hs : OpenStep o frames frames' out o') :
    Falls demand supply ⟨frames', written', .session o'⟩ ⟨frames, written, .session o⟩ := by
  unfold Falls
  simp only [demand, supply]
  cases hs with
  | send data s _ hpc hsend | sendErr data s _ hpc hsend | sendEof ok s _ hpc hsend =>
    have := send_work hsend
    left
    simp only [hpc, stage]
    omega
  | item flush i s _ hpc hi =>
    obtain ⟨h1, h2⟩ := tryRecv_work hi
    right
    cases i <;> cases flush <;> cases hm : o.firstMetaSent <;>
      simp [hpc, stage, distance, Open.write, hm, h1] <;> omega
  | drained r s _ hpc hr hrecv =>
    obtain rfl := tryRecv_same hr hrecv
    right; simp [hpc, stage, distance]
  | writeMeta a flush _ hpc | writePcms a flush _ hpc =>
    right
    cases flush <;> simp [hpc, stage, distance]
  | endOfStream hpc => left; simp [hpc, stage]
  | read f rest hpc =>
    left
    have hle : stage (nextPc f) ≤ 9 := by
      unfold nextPc
      split_ifs <;> simp [stage]
    have hread : stage o.pc = 5 := by rw [hpc]; rfl
    simp only [List.length_cons, hread]
    omega
  | flushed s _ hpc hc =>
    obtain rfl := (tryRecv_closed hc).1
    right; simp [hpc, stage, distance]
  | writeDone _ hpc => right; simp [hpc, stage, distance]
  | drop d d' failed s _ hpc hd =>
    right
    cases d with
    | send =>
      obtain ⟨⟨ok, m⟩, hm, he⟩ := Option.map_eq_some_iff.mp hd
      cases he
      rcases send_cases hm with ⟨-, hrx, -⟩ | ⟨-, -, rfl⟩
      · rw [hgone ⟨_, _, hpc⟩] at hrx; cases hrx
      · simp [hpc, stage, distance]
    | tx => cases hd; simp [hpc, stage, distance]
    | rx => cases hd; simp [hpc, stage, distance]
    | dropped => cases hd

variable [ToString ε] {B : DecodeOptions → Behaviour ε} {options : DecodeOptions}
  {c : Conn ε} {t : ConnTask ε} {o : Open ε} {s : Session ε}

/-- **A step of the handler.** -/
theorem falls_handler (hk : Keeps B options t) (h : t.conn.handler options = some c) :
    Falls demand supply c t.conn := by
  have hs : t.conn.step B options .handler = some c := h
  cases conn_step_cases hs with
  | eof hp hf => right; simp [demand, supply, hp, hf]
  | first f rest hp hf =>
    left
    simp only [demand, hp, hf, List.length_cons]
    split_ifs
    · simp; omega
    · simp
  | acquire data hp =>
    left
    simp only [demand, hp]
    have : todo (acquire options : Session ε) = 2 := rfl
    unfold firstPc
    split_ifs <;> simp [stage, this]
  | session hp ho =>
    obtain ⟨ps, rest, out, -, hf⟩ := hk.serves hp
    rename_i o o' frames' out'
    have hconn : t.conn = ⟨t.conn.frames, t.conn.written, .session o⟩ := by rw [← hp]
    have hgone : (∃ d failed, o.pc = .drop d failed) → o.decoder.input.rx = false := by
      rintro ⟨d, failed, hpc⟩
      have hreg := hk.regular
      simp only [Regular, hp, hpc] at hreg
      obtain ⟨-, out, ho⟩ := hreg
      exact reach_gone hf.owns.reach ⟨out, Or.inr ho⟩
    have hfalls : Falls demand supply ⟨frames', t.conn.written ++ out', .session o'⟩
        ⟨t.conn.frames, t.conn.written, .session o⟩ := falls_open hgone ho
    rwa [← hconn] at hfalls
  | dropped o failed hp hpc =>
    have hreg := hk.regular
    simp only [Regular, hp, hpc] at hreg
    obtain ⟨rfl, -⟩ := hreg
    right
    simp [demand, supply, hp, hpc, distance]
    omega

omit [ToString ε] in
/-- **A step behind the decoder** that leaves the job less to do. -/
theorem falls_behind (hph : t.conn.phase = .session o) (h : Less unreceived s o.decoder) :
    Falls demand supply (t.behind o s).conn t.conn := by
  rcases h with h | ⟨h1, h2⟩
  · left; simp only [demand, ConnTask.behind, hph]; omega
  · right
    simp only [demand, supply, ConnTask.behind, hph]
    omega

/-! ### The work of the server -/

/-- The task has served all that its client sends. -/
def finished (t : ConnTask ε) : Bool :=
  match t.conn.phase with
  | .closed _ => true
  | .first => t.conn.frames = []
  | _ => false

/-- A finished task needs no thread, another one does. -/
def misplaced (t : ConnTask ε) : ℕ := if finished t = t.running then 1 else 0

/-- What one task has to read and send, and what to receive and write. -/
def work (t : ConnTask ε) : ℕ × ℕ := (demand t.conn, 2 * supply t.conn + misplaced t)

/-- Less work for a task. -/
def Fewer (t' t : ConnTask ε) : Prop := Falls (fun t => (work t).1) (fun t => (work t).2) t' t

/-- Less work for the server. -/
def Relieved (sv' sv : TcpDecodeServer ε) : Prop :=
  Falls (fun sv : TcpDecodeServer ε => (sv.tasks.map fun t => (work t).1).sum)
    (fun sv => (sv.tasks.map fun t => (work t).2).sum) sv' sv

variable {t' : ConnTask ε} {sv : TcpDecodeServer ε} {k : ℕ}

omit [ToString ε] in
theorem misplaced_le (t : ConnTask ε) : misplaced t ≤ 1 := by unfold misplaced; split_ifs <;> omega

omit [ToString ε] in
theorem fewer_of_falls (h : Falls demand supply t'.conn t.conn) : Fewer t' t := by
  have := misplaced_le t'
  rcases h with h | ⟨h1, h2⟩
  · exact Or.inl h
  · exact Or.inr ⟨h1, by simp only [work]; omega⟩

omit [ToString ε] in
/-- A task gets a thread, or gives one up. -/
theorem fewer_of_thread (h : finished t = t.running) (hconn : t'.conn = t.conn)
    (hrun : t'.running = !t.running) : Fewer t' t := by
  have hf : finished t' ≠ t'.running := by
    have hsame : finished t' = finished t := by simp only [finished, hconn]
    rw [hsame, h, hrun]
    cases t.running <;> simp
  refine Or.inr ⟨by simp only [work, hconn, le_refl], ?_⟩
  simp only [work, misplaced, if_pos h, if_neg hf, hconn]
  omega

omit [ToString ε] in
theorem relieved_set {sv' : TcpDecodeServer ε} (hk : sv.tasks[k]? = some t) (h : Fewer t' t)
    (htasks : sv'.tasks = sv.tasks.set k t') : Relieved sv' sv := by
  have h1 := sum_map_set (y := t') (fun t => (work t).1) hk
  have h2 := sum_map_set (y := t') (fun t => (work t).2) hk
  unfold Relieved Falls
  dsimp only
  rw [htasks]
  rcases h with h | ⟨h3, h4⟩
  · left; dsimp only at h; omega
  · right; dsimp only at h3 h4; omega

/-! ### Where a handler blocks -/

omit [ToString ε] in
/-- A handler without a step has returned, or is in a call on its decoder that blocks. -/
theorem handler_none {c : Conn ε} (h : c.handler options = none) : (∃ ok, c.phase = .closed ok) ∨
    ∃ o, c.phase = .session o ∧ ((∃ data, o.pc = .send data ∧ o.decoder.send data = none) ∨
      (o.pc = .sendEof ∧ o.decoder.send [] = none) ∨ (o.pc = .flush ∧ o.decoder.recv = none) ∨
      ∃ failed, o.pc = .drop .send failed ∧ o.decoder.send [] = none) := by
  cases hp : c.phase with
  | first =>
    simp only [Conn.handler, hp] at h
    split at h <;> cases h
  | acquire data => simp only [Conn.handler, hp] at h; cases h
  | closed ok => exact Or.inl ⟨ok, rfl⟩
  | session o =>
    refine Or.inr ⟨o, rfl, ?_⟩
    simp only [Conn.handler, hp] at h
    split at h
    · next data hpc => exact Or.inl ⟨data, hpc, Option.map_eq_none_iff.mp h⟩
    · next hpc => exact Or.inr (Or.inl ⟨hpc, Option.map_eq_none_iff.mp h⟩)
    · split at h <;> cases h
    · cases h
    · cases h
    · split at h <;> cases h
    · next hpc =>
      split at h
      · next hr => exact Or.inr (Or.inr (Or.inl ⟨hpc, hr⟩))
      · cases h
      · cases h
    · cases h
    · cases h
    · next d failed hd hpc =>
      have hnone := Option.map_eq_none_iff.mp h
      cases d with
      | send => exact Or.inr (Or.inr (Or.inr ⟨failed, hpc, Option.map_eq_none_iff.mp hnone⟩))
      | tx => cases hnone
      | rx => cases hnone
      | dropped => exact absurd rfl hd

end MediaApi.Server.Work
