import MediaApi.Grpc.Isolation
import MediaApi.Http.Requests
import MediaApi.Tcp.Sessions

/-! # The circular wait of a front end and its worker

A front end does not receive while it is in `PooledDecoder::send`, and the worker does not take
input while it is in `output_tx.send`. If both channels are full then, both wait for ever. A front
end that makes `N` sends for a session can only get there if the pipeline emits more results from
the first `N - 33` chunks than the output channel has slots (`no_circular_wait`); a chunk that gives
33 results, in a session of 33 chunks, is enough (`circular_wait`). -/

namespace MediaApi.FrontEnd.CircularWait

open MediaApi.Lib.Transition MediaApi.Model.Audio MediaApi.Model.Pipeline MediaApi.Model.ProcessJob
open MediaApi.Pool.Forwarding MediaApi.Pool.Script

variable {ε : Type}

/-! ### A front end in a send -/

/-- The TCP handler is in `PooledDecoder::send`, with this decoder. -/
def TcpSending (c : Model.Tcp.Conn ε) (s : Session ε) : Prop :=
  ∃ o, c.phase = .session o ∧ o.decoder = s ∧ ((∃ data, o.pc = .send data) ∨ o.pc = .sendEof)

/-- The HTTP handler is in `PooledDecoder::send`, with this decoder. -/
def HttpSending (x : Model.Http.Exchange ε) (s : Session ε) : Prop :=
  ∃ o, x.phase = .session o ∧ o.decoder = s ∧ ((∃ chunk, o.pc = .send chunk) ∨ o.pc = .sendEof)

/-- The task of a gRPC call is in `PooledDecoder::send`, with this decoder. -/
def GrpcSending (t : Model.Grpc.Call ε) (s : Session ε) : Prop :=
  ∃ pc, t.phase = .session pc s ∧ ((∃ data, pc = .send data) ∨ ∃ msg, pc = .drain .send msg)

variable [ToString ε] {B : DecodeOptions → Behaviour ε} {options defaults : DecodeOptions}
  {s : Session ε} {slack room : ℕ}

/-- Every session of the connection is calm. -/
def TcpCalm (B : DecodeOptions → Behaviour ε) (options : DecodeOptions) (slack room : ℕ)
    (frames : List Model.Tcp.Frame) : Prop :=
  ∀ ps ∈ Tcp.Reference.segment frames, Calm (B options) slack room ps

/-- The session of the request is calm. -/
def HttpCalm (B : DecodeOptions → Behaviour ε) (options : DecodeOptions) (slack room : ℕ)
    (body : List (Option Bytes)) : Prop :=
  Calm (B options) slack room (Http.Requests.bodyChunks body)

/-- Every segment of the call is calm, with the options it is decoded with. -/
def GrpcCalm (B : DecodeOptions → Behaviour ε) (defaults : DecodeOptions) (slack room : ℕ)
    (all : List (Option Model.Grpc.DecodeRequest)) : Prop :=
  ∀ init seg rest, Grpc.Segments.segments (Grpc.Segments.requests all) = init ++ seg :: rest →
    Calm (B (Grpc.Segments.segmentOptions defaults (init ++ [seg]))) slack room
      (Grpc.Segments.segmentData seg)

/-- In a send the decoder is a scripted one of a calm session, and the script is not all sent. -/
def Sending (B : DecodeOptions → Behaviour ε) (slack room : ℕ) (s : Session ε) : Prop :=
  ∃ options ps, Scripted B options ps s ∧ Calm (B options) slack room ps ∧ s.sent.length ≤ ps.length

theorem tcp_sending {frames : List Model.Tcp.Frame} {c : Model.Tcp.Conn ε}
    (hcalm : TcpCalm B options slack room frames)
    (h : Reach (Model.Tcp.Conn.step B options) (Model.Tcp.Conn.new frames) c)
    (hs : TcpSending c s) : Sending B slack room s := by
  obtain ⟨o, hp, rfl, hpc⟩ := hs
  obtain ⟨log, -, hf⟩ := Tcp.Sessions.reach_follows h
  simp only [hp] at hf
  obtain ⟨ps, rest, out, hall, hf, -⟩ := hf
  refine ⟨options, ps, hf.script ?_, hcalm ps (by rw [hall]; simp), ?_⟩
  · rcases hpc with ⟨data, hpc⟩ | hpc <;> rw [hpc] <;> rfl
  · have hcut := hf.cut
    rcases hpc with ⟨data, hpc⟩ | hpc <;> simp only [Tcp.Sessions.Cut, hpc] at hcut
    · have := (Tcp.Reference.prefix_of_segmentFrom hcut).length_le
      rw [List.length_append] at this
      omega
    · rw [hcut.1]

theorem http_sending {body : List (Option Bytes)} {x : Model.Http.Exchange ε}
    (hcalm : HttpCalm B options slack room body)
    (h : Reach (Model.Http.Exchange.step B options) (Model.Http.Exchange.new body) x)
    (hs : HttpSending x s) : Sending B slack room s := by
  obtain ⟨o, hp, rfl, hpc⟩ := hs
  have hf := Http.Requests.reach_follows h
  simp only [Http.Requests.Follows, hp] at hf
  refine ⟨options, _, hf.script ?_, hcalm, ?_⟩
  · rcases hpc with ⟨chunk, hpc⟩ | hpc <;> rw [hpc] <;> rfl
  · have hcut := hf.cut
    rcases hpc with ⟨chunk, hpc⟩ | hpc <;> simp only [Http.Requests.Cut, hpc] at hcut <;>
      rw [← hcut]
    rw [List.length_append]
    exact Nat.le_add_right _ _

theorem grpc_sending {all : List (Option Model.Grpc.DecodeRequest)} {t : Model.Grpc.Call ε}
    (hcalm : GrpcCalm B defaults slack room all)
    (h : Reach (Model.Grpc.Call.step B defaults) (Model.Grpc.Call.new defaults all) t)
    (hs : GrpcSending t s) : Sending B slack room s := by
  obtain ⟨pc, hp, hpc⟩ := hs
  have hf := Grpc.Isolation.reach_isolates h
  simp only [Grpc.Isolation.Isolates, hp] at hf
  obtain ⟨init, last, seg, hf⟩ := hf
  obtain ⟨rest, hwhole⟩ := hf.whole
  have hcalm := hcalm init seg rest hwhole
  rw [← hf.options_seg] at hcalm
  have hcut := hf.cut
  have hlen := (Grpc.Segments.segmentData_mono hf.begins.1).length_le
  rcases hpc with ⟨data, rfl⟩ | ⟨msg, rfl⟩
  · refine ⟨_, _, hf.owns, hcalm, ?_⟩
    have hcut := congrArg List.length (show s.sent ++ [data] = _ from hcut)
    rw [List.length_append] at hcut
    omega
  · exact ⟨_, _, hf.owns, hcalm, by rw [hcut.1]; exact hlen⟩

theorem Sending.not_deadlocked (h : Sending B slots slots s) : ¬ Deadlocked s := by
  obtain ⟨options, ps, hs, hcalm, hlen⟩ := h
  exact hs.not_deadlocked hcalm (by omega) (by omega)

/-- **A front end in a send and its worker never wait for each other**, in any run of any of the
three front ends whose sessions are calm: of a session with the data chunks `ps`, for which the
front end makes `ps.length + 1` sends, the pipeline emits at most 32 results while it has accepted
no more than `ps.length - 32` chunks. -/
theorem no_circular_wait (B : DecodeOptions → Behaviour ε) (options defaults : DecodeOptions) :
    (∀ frames ls c s, TcpCalm B options slots slots frames →
      run (Model.Tcp.Conn.step B options) (Model.Tcp.Conn.new frames) ls = some c →
      TcpSending c s → ¬ Deadlocked s) ∧
    (∀ body ls x s, HttpCalm B options slots slots body →
      run (Model.Http.Exchange.step B options) (Model.Http.Exchange.new body) ls = some x →
      HttpSending x s → ¬ Deadlocked s) ∧
    (∀ all ls t s, GrpcCalm B defaults slots slots all →
      run (Model.Grpc.Call.step B defaults) (Model.Grpc.Call.new defaults all) ls = some t →
      GrpcSending t s → ¬ Deadlocked s) :=
  ⟨fun _ _ _ _ hcalm h hs => (tcp_sending hcalm (reach_of_run h) hs).not_deadlocked,
    fun _ _ _ _ hcalm h hs => (http_sending hcalm (reach_of_run h) hs).not_deadlocked,
    fun _ _ _ _ hcalm h hs => (grpc_sending hcalm (reach_of_run h) hs).not_deadlocked⟩

/-- The three front ends at their first send. -/
theorem no_circular_wait_echo :
    (∃ c s, run (Model.Tcp.Conn.step echo {}) (Model.Tcp.Conn.new [⟨.dcod, [7]⟩])
        [.handler, .handler] = some c ∧ TcpSending c s ∧ ¬ Deadlocked s) ∧
      (∃ x s, run (Model.Http.Exchange.step echo {}) (Model.Http.Exchange.new [some [7]])
        [.handler, .handler, .handler] = some x ∧ HttpSending x s ∧ ¬ Deadlocked s) ∧
      ∃ t s, run (Model.Grpc.Call.step echo {}) (Model.Grpc.Call.new {} [some ⟨[7], none, false⟩])
        [.task, .task] = some t ∧ GrpcSending t s ∧ ¬ Deadlocked s := by
  obtain ⟨htcp, hhttp, hgrpc⟩ := no_circular_wait echo {} {}
  have hc : TcpSending ⟨[], [], .session ⟨.send [7], false, acquire {}⟩⟩
      (acquire {} : Session String) := ⟨_, rfl, rfl, Or.inl ⟨_, rfl⟩⟩
  have hx : HttpSending ⟨[], [.response], .session ⟨.send [7], acquire {}⟩⟩
      (acquire {} : Session String) := ⟨_, rfl, rfl, Or.inl ⟨_, rfl⟩⟩
  have ht : GrpcSending ⟨[], [], {}, .session (.send [7]) (acquire {}), [⟨[7], none, false⟩], []⟩
      (acquire {} : Session String) := ⟨_, rfl, Or.inl ⟨_, rfl⟩⟩
  refine ⟨⟨_, _, rfl, hc, htcp [⟨.dcod, [7]⟩] [.handler, .handler] _ _ (fun ps hps => ?_) rfl hc⟩,
    ⟨_, _, rfl, hx, hhttp [some [7]] [.handler, .handler, .handler] _ _ (calm_of_short (by decide))
      rfl hx⟩,
    ⟨_, _, rfl, ht, hgrpc [some ⟨[7], none, false⟩] [.task, .task] _ _
      (fun init seg rest hsegs => ?_) rfl ht⟩⟩
  · have hps : ps = [[7]] := by simpa [Tcp.Reference.segment, Tcp.Reference.segmentFrom] using hps
    exact calm_of_short (by rw [hps]; decide)
  · have hsegs : seg ∈ [[(⟨[7], none, false⟩ : Model.Grpc.DecodeRequest)]] := by
      have : Grpc.Segments.segments (Grpc.Segments.requests [some ⟨[7], none, false⟩]) =
        [[⟨[7], none, false⟩]] := by decide
      rw [← this, hsegs]; simp
    exact calm_of_short (by rw [List.mem_singleton.mp hsegs]; decide)

/-! ### The circular wait -/

/-- One byte of audio. -/
def tick : AudioData := ⟨[0], 8000, 1, 16, .other 0⟩

/-- A pipeline that gives 33 results for its first chunk. -/
def flood : DecodeOptions → Behaviour String := fun _ =>
  streaming 1 fun taken => if taken = [] then [] else List.replicate 33 (.ok tick)

/-- A session of 33 chunks. -/
def floodFrames : List Model.Tcp.Frame := List.replicate 33 ⟨.dcod, [7]⟩ ++ [⟨.dcod, []⟩]

/-- The worker takes one chunk and finds no output yet; meanwhile the handler sends 32 more,
draining nothing, and comes to its send of EOF; then the results come. -/
def floodRun : List (Model.Tcp.ConnLabel String) :=
  ([.handler, .handler, .handler, .inner .worker, .inner .worker, .inner (.answer true)] :
      List (Model.Tcp.ConnLabel String)) ++
    (List.replicate 32 [.handler, .handler, .handler]).flatten ++ [.handler, .handler] ++
    [.inner (.pipe .take)] ++ List.replicate 33 (.inner (.pipe (.emit (.ok tick)))) ++
    List.replicate 65 (.inner .worker)

/-- Where the handler and the worker of a connection's session are, with the ends of the channels
they send to and how full these are. -/
def standing (c : Model.Tcp.Conn ε) : Option (Model.Tcp.TcpPc × Bool × ℕ × Pc × Bool × ℕ) :=
  match c.phase with
  | .session o => some (o.pc, o.decoder.input.rx, o.decoder.input.queue.length, o.decoder.pc,
      o.decoder.output.rx, o.decoder.output.queue.length)
  | _ => none

omit [ToString ε] in
/-- A handler and a worker that stand before full channels wait for each other. -/
theorem deadlocked_of_standing {c : Model.Tcp.Conn ε} {pc : Model.Tcp.TcpPc} {i : Item}
    {final : Bool} (h : standing c = some (pc, true, slots, .emit i final, true, slots)) :
    ∃ o, c.phase = .session o ∧ o.pc = pc ∧ Deadlocked o.decoder := by
  unfold standing at h
  split at h
  · next o hp =>
    simp only [Option.some.injEq, Prod.mk.injEq] at h
    obtain ⟨hpc, hin, hfull, hemit, hout, hfull'⟩ := h
    exact ⟨o, hp, hpc, ⟨hin, hfull⟩, ⟨_, _, hemit⟩, hout, hfull'⟩
  · cases h

/-- **The circular wait**: the handler is blocked in its send of EOF on 32 chunks, the worker in its
send of the 33rd result of the first chunk on 32 results. -/
theorem circular_wait : ∃ c s,
    run (Model.Tcp.Conn.step flood {}) (Model.Tcp.Conn.new floodFrames) floodRun = some c ∧
      TcpSending c s ∧ Deadlocked s := by
  have hrun : (run (Model.Tcp.Conn.step flood {}) (Model.Tcp.Conn.new floodFrames) floodRun).bind
      standing = some (.sendEof, true, 32, .emit (.ok tick) false, true, 32) := by
    decide +kernel
  obtain ⟨c, hc, he⟩ := Option.bind_eq_some_iff.mp hrun
  obtain ⟨o, hp, hpc, hd⟩ := deadlocked_of_standing he
  exact ⟨c, o.decoder, hc, ⟨o, hp, rfl, Or.inr hpc⟩, hd⟩

end MediaApi.FrontEnd.CircularWait
