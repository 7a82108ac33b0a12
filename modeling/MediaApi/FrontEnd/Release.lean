import MediaApi.FrontEnd.CircularWait
import MediaApi.Pool.Release
import MediaApi.Pool.Retry

/-! # A front end that gives up its decoder lets the worker go

`Drop for PooledDecoder` sends EOF while the handle still holds its `output_rx`, so a worker with a
full output channel does not see that nobody will receive any more. The drop comes after at most
`ps.length + 1` sends, one more than a send of the session itself, so the bound on the output is one
chunk tighter than in `FrontEnd.CircularWait`; a TCP handler that has sent EOF has received a result
before it can fail. Within the bound the two never wait for each other, and unless something else
holds the worker back (a pipeline without room or with EOF refused, metrics that panic) the drop
returns and the job comes to its end (`drop_releases`); without it a failed write can block both for
ever (`drop_blocks`). -/

namespace MediaApi.FrontEnd.Release

open MediaApi.Lib.Transition MediaApi.Model.Audio MediaApi.Model.Pipeline MediaApi.Model.ProcessJob
open MediaApi.Model.Steps MediaApi.Pool.Forwarding MediaApi.Pool.Handle MediaApi.Pool.Script
open MediaApi.Pool.Progress MediaApi.Pool.Release MediaApi.Pool.Retry
open MediaApi.FrontEnd.CircularWait

variable {ε : Type} [ToString ε] {B : DecodeOptions → Behaviour ε}
  {options defaults : DecodeOptions} {s s' : Session ε} {d d' : DropPc} {ps : List Bytes}

/-! ### The drop in a front end -/

theorem tcp_drop {c : Model.Tcp.Conn ε} {o : Model.Tcp.Open ε} {failed : Bool}
    (hp : c.phase = .session o) (hpc : o.pc = .drop d failed)
    (h : Reach (letGo B) (d, o.decoder) (d', s')) :
    Reach (Model.Tcp.Conn.step B options) c
      { c with phase := .session { o with pc := .drop d' failed, decoder := s' } } := by
  have hc : c =
      { c with phase := .session { o with pc := .drop d failed, decoder := o.decoder } } := by
    rw [← hpc, ← hp]
  rw [hc]
  refine h.map (f := fun m => { c with
    phase := .session { o with pc := .drop m.1 failed, decoder := m.2 } }) ?_
  rintro ⟨e, m⟩ l ⟨e', m'⟩ hs
  rcases letGo_cases hs with ⟨he, hs⟩ | ⟨i, hi, rfl⟩
  · refine .single (l := .handler) ?_
    cases e with
    | dropped => exact absurd rfl he
    | _ => simp only [Model.Tcp.Conn.step, Model.Tcp.Conn.handler, hs, Option.map_some]
  · exact .single (l := .inner i) (by simp only [Model.Tcp.Conn.step, hi, Option.map_some])

theorem http_drop {x : Model.Http.Exchange ε} {o : Model.Http.Open ε} {failed : Bool}
    (hp : x.phase = .session o) (hpc : o.pc = .drop d failed)
    (h : Reach (letGo B) (d, o.decoder) (d', s')) :
    Reach (Model.Http.Exchange.step B options) x
      { x with phase := .session ⟨.drop d' failed, s'⟩ } := by
  have hx : x = { x with phase := .session ⟨.drop d failed, o.decoder⟩ } := by rw [← hpc, ← hp]
  rw [hx]
  refine h.map (f := fun m => { x with phase := .session ⟨.drop m.1 failed, m.2⟩ }) ?_
  rintro ⟨e, m⟩ l ⟨e', m'⟩ hs
  rcases letGo_cases hs with ⟨he, hs⟩ | ⟨i, hi, rfl⟩
  · refine .single (l := .handler) ?_
    cases e with
    | dropped => exact absurd rfl he
    | _ => simp only [Model.Http.Exchange.step, Model.Http.Exchange.handler, hs, Option.map_some]
  · exact .single (l := .inner i) (by simp only [Model.Http.Exchange.step, hi, Option.map_some])

theorem grpc_drop {t : Model.Grpc.Call ε} {after : Model.Grpc.AfterDrop}
    (hp : t.phase = .session (.drop d after) s) (h : Reach (letGo B) (d, s) (d', s')) :
    Reach (Model.Grpc.Call.step B defaults) t { t with phase := .session (.drop d' after) s' } := by
  have ht : t = { t with phase := .session (.drop d after) s } := by rw [← hp]
  rw [ht]
  refine h.map (f := fun m => { t with phase := .session (.drop m.1 after) m.2 }) ?_
  rintro ⟨e, m⟩ l ⟨e', m'⟩ hs
  rcases letGo_cases hs with ⟨he, hs⟩ | ⟨i, hi, rfl⟩
  · refine .single (l := .task) ?_
    cases e with
    | dropped => exact absurd rfl he
    | _ => simp only [Model.Grpc.Call.step, Model.Grpc.Call.session, hs, Option.map_some]
  · exact .single (l := .inner i) (by simp only [Model.Grpc.Call.step, hi, Option.map_some])

/-! ### What a TCP handler has received when it gives up -/

/-- A handler that writes after its send of EOF has received a result, one that writes DONE has seen
the output channel closed. So has one that gives up there. -/
def Awaited (o : Model.Tcp.Open ε) : Prop :=
  match o.pc with
  | .writeMeta _ true | .writePcms _ true => o.decoder.received ≠ []
  | .writeDone => o.decoder.output.tx = false
  | .drop .send _ =>
    [] ∉ o.decoder.sent ∨ o.decoder.received ≠ [] ∨ o.decoder.output.tx = false
  | _ => True

/-- The worker does not take up its end of the output channel again. -/
theorem inner_tx {i : Inner ε} (h : s.inner B i = some s') (htx : s.output.tx = false) :
    s'.output.tx = false := by
  cases step_cases (l := .inner i) h with
  | worker h =>
    cases h with
    | put i final c hpc hc => exact (Lib.Channel.Chan.send_sent hc).2.2.2.1.trans htx
    | dropOutput => rfl
    | _ => exact htx
  | answer ok h => cases h <;> exact htx
  | pipe => exact htx

theorem Awaited.inner {o : Model.Tcp.Open ε} {i : Inner ε} (h : Awaited o)
    (hi : o.decoder.inner B i = some s) : Awaited { o with decoder := s } := by
  obtain ⟨hsent, hrec, -⟩ := inner_keeps hi
  unfold Awaited at h ⊢
  dsimp only
  rw [hsent, hrec]
  split at h
  · exact h
  · exact h
  · exact inner_tx hi h
  · exact h.imp_right (Or.imp_right (inner_tx hi))
  · trivial

/-- Before its send of EOF a handler has sent none. -/
theorem no_eof_of_cut {o : Model.Tcp.Open ε} {frames out : List Model.Tcp.Frame}
    {rest : List (List Bytes)} (h : Tcp.Sessions.Serves B options o frames ps rest out)
    (hpc : o.pc = .read ∨ ∃ a, o.pc = .writeMeta a false ∨ o.pc = .writePcms a false) :
    [] ∉ o.decoder.sent := by
  have hcut : Tcp.Reference.segmentFrom (some o.decoder.sent) frames = ps :: rest := by
    have := h.cut
    rcases hpc with hpc | ⟨a, hpc | hpc⟩ <;> simpa only [Tcp.Sessions.Cut, hpc] using this
  exact fun hm => h.data ((Tcp.Reference.prefix_of_segmentFrom hcut).subset hm)

omit [ToString ε] in
theorem Awaited.open {o o' : Model.Tcp.Open ε} {frames frames' out : List Model.Tcp.Frame}
    (h : Awaited o) (hs : Model.Tcp.OpenStep o frames frames' out o') : Awaited o' := by
  cases hs with
  | item flush i s _ hpc hi =>
    have hrec : s.received ≠ [] := by rw [tryRecv_received hi]; simp
    cases i with
    | ok a =>
      cases hm : o.firstMetaSent <;> cases flush <;> simp [Awaited, Model.Tcp.Open.write, hm, hrec]
    | error e => cases flush <;> trivial
  | writeMeta a flush _ hpc =>
    simp only [Awaited, hpc] at h
    cases flush with
    | false => trivial
    | true => exact h
  | writePcms a flush _ hpc => cases flush <;> trivial
  | flushed s _ hpc hc => exact (tryRecv_closed hc).1 ▸ (tryRecv_closed hc).2.2
  | writeDone _ hpc =>
    simp only [Awaited, hpc] at h
    exact Or.inr (Or.inr h)
  | drop d d' failed s _ hpc hd =>
    cases d with
    | send =>
      obtain ⟨⟨ok, m⟩, -, he⟩ := Option.map_eq_some_iff.mp hd
      cases he; trivial
    | tx => cases hd; trivial
    | rx => cases hd; trivial
    | dropped => cases hd
  | read f rest hpc =>
    simp only [Awaited, Model.Tcp.nextPc]
    split_ifs <;> trivial
  | _ => trivial

theorem reach_awaited {frames : List Model.Tcp.Frame} {c : Model.Tcp.Conn ε}
    (h : Reach (Model.Tcp.Conn.step B options) (Model.Tcp.Conn.new frames) c) :
    ∀ o, c.phase = .session o → Awaited o := by
  refine h.rec_tail (P := fun c => ∀ o, c.phase = .session o → Awaited o) (fun o h => by cases h) ?_
  intro c l c' hr hI hs
  obtain ⟨log, -, hf⟩ := Tcp.Sessions.reach_follows hr
  cases Model.Tcp.conn_step_cases hs with
  | session hp ho => rintro o' ⟨⟩; exact (hI _ hp).open ho
  | inner i o s hp hi => rintro o' ⟨⟩; exact (hI _ hp).inner hi
  | acquire data hp =>
    rintro o ⟨⟩
    simp only [Awaited, Model.Tcp.firstPc]
    split_ifs <;> trivial
  | fail o hp hpc =>
    rintro o' ⟨⟩
    have hold := hI _ hp
    simp only [hp] at hf
    obtain ⟨ps, rest, out, -, hf, -⟩ := hf
    have heof := no_eof_of_cut hf
    show [] ∉ o.decoder.sent ∨ o.decoder.received ≠ [] ∨ o.decoder.output.tx = false
    rcases hpc with ⟨a, flush, hpc⟩ | hpc | hpc
    · cases flush with
      | false => exact Or.inl (heof (Or.inr ⟨a, hpc⟩))
      | true => rcases hpc with hpc | hpc <;> simp only [Awaited, hpc] at hold <;> simp [hold]
    · exact Or.inl (heof (Or.inl hpc))
    · simp only [Awaited, hpc] at hold
      exact Or.inr (Or.inr hold)
  | dropped o failed hp hpc => rintro o' h; cases failed <;> cases h
  | first f rest hp hf' => rintro o' h; dsimp only at h; split_ifs at h
  | _ => rintro o' ⟨⟩

/-! ### Giving up the decoder -/

/-- In a session that is calm up to its last 31 chunks no drop blocks. -/
theorem free_of_calm (h : Owns B options ps (some d) s) (hcalm : Calm (B options) 31 32 ps) :
    d = .send → ∀ m, Reach (Session.inner B) s m → ¬ Deadlocked m := by
  rintro rfl m hr
  have hm : Scripted B options ps m := hr.invariant h fun _ _ _ h hi => Scripted.inner h hi
  have hlen := hm.sent.length_le
  rw [List.length_append, List.length_singleton] at hlen
  have hslots : slots = 32 := rfl
  exact hm.not_deadlocked hcalm (by omega) (by omega)

/-- The same for a TCP handler, which has received a result if it has sent EOF. -/
theorem tcp_free {frames : List Model.Tcp.Frame} {c : Model.Tcp.Conn ε} {o : Model.Tcp.Open ε}
    {failed : Bool} (hcalm : TcpCalm B options 32 32 frames)
    (hcalm' : TcpCalm B options 31 33 frames)
    (h : Reach (Model.Tcp.Conn.step B options) (Model.Tcp.Conn.new frames) c)
    (hp : c.phase = .session o) (hpc : o.pc = .drop d failed) :
    ∃ ps, [] ∉ ps ∧ Owns B options ps (some d) o.decoder ∧
      (d = .send → ∀ m, Reach (Session.inner B) o.decoder m → ¬ Deadlocked m) := by
  obtain ⟨log, -, hf⟩ := Tcp.Sessions.reach_follows h
  have haw := reach_awaited h o hp
  simp only [hp] at hf
  obtain ⟨ps, rest, out, hall, hf, -⟩ := hf
  have howns := hf.owns
  rw [hpc] at howns
  refine ⟨ps, hf.data, howns, ?_⟩
  rintro rfl m hr
  have hps : ps ∈ Tcp.Reference.segment frames := by rw [hall]; simp
  have hm : Scripted B options ps m := hr.invariant howns fun _ _ _ h hi => Scripted.inner h hi
  obtain ⟨hsent, hrec⟩ := inners_keep hr
  simp only [Awaited, hpc] at haw
  rw [← hsent, ← hrec] at haw
  have hslots : slots = 32 := rfl
  rcases haw with hno | hne | htx
  · have hle : m.sent.length ≤ ps.length := by
      rcases hm.sent_cases hf.data with ⟨-, hpre, -⟩ | ⟨hs, -⟩
      · exact hpre.length_le
      · rw [hs] at hno; exact absurd (by simp) hno
    exact hm.not_deadlocked (hcalm ps hps) (by omega) (by omega)
  · have hpos := List.length_pos_iff.mpr hne
    have hlen := hm.sent.length_le
    rw [List.length_append, List.length_singleton] at hlen
    exact hm.not_deadlocked (hcalm' ps hps) (by omega) (by omega)
  · -- the job is over, so the send fails
    rintro ⟨⟨hrx, -⟩, -⟩
    have htx : m.output.tx = false := hr.invariant (I := fun m => m.output.tx = false) htx
      fun _ _ _ h hi => inner_tx hi h
    obtain ⟨o, ho⟩ := (reach_ending hm.reach).outputTx.mp htx
    rw [reach_gone hm.reach ⟨o, Or.inr ho⟩] at hrx
    cases hrx

/-- **Dropping a decoder lets its worker go**, wherever a front end gives it up, for every pipeline
and every run with calm sessions. -/
theorem drop_releases (B : DecodeOptions → Behaviour ε) (options defaults : DecodeOptions) :
    (∀ frames ls c o d failed,
      TcpCalm B options 32 32 frames → TcpCalm B options 31 33 frames →
      run (Model.Tcp.Conn.step B options) (Model.Tcp.Conn.new frames) ls = some c →
      c.phase = .session o → o.pc = .drop d failed →
      LetsGo B d o.decoder fun s => Reach (Model.Tcp.Conn.step B options) c
        { c with phase := .session { o with pc := .drop .dropped failed, decoder := s } }) ∧
    (∀ body ls x o d failed, HttpCalm B options 31 32 body →
      run (Model.Http.Exchange.step B options) (Model.Http.Exchange.new body) ls = some x →
      x.phase = .session o → o.pc = .drop d failed →
      LetsGo B d o.decoder fun s => Reach (Model.Http.Exchange.step B options) x
        { x with phase := .session ⟨.drop .dropped failed, s⟩ }) ∧
    (∀ all ls t s d after, GrpcCalm B defaults 31 32 all →
      run (Model.Grpc.Call.step B defaults) (Model.Grpc.Call.new defaults all) ls = some t →
      t.phase = .session (.drop d after) s →
      LetsGo B d s fun s => Reach (Model.Grpc.Call.step B defaults) t
        { t with phase := .session (.drop .dropped after) s }) := by
  refine ⟨fun frames ls c o d failed hcalm hcalm' h hp hpc => ?_,
    fun body ls x o d failed hcalm h hp hpc => ?_, fun all ls t s d after hcalm h hp => ?_⟩
  · obtain ⟨ps, hps, howns, hfree⟩ := tcp_free hcalm hcalm' (reach_of_run h) hp hpc
    exact letsGo hps howns hfree fun s' hr => tcp_drop hp hpc hr
  · have hf := Http.Requests.reach_follows (reach_of_run h)
    simp only [Http.Requests.Follows, hp] at hf
    have howns := hf.owns
    rw [hpc] at howns
    exact letsGo (Http.Requests.nil_notMem_bodyChunks body) howns (free_of_calm howns hcalm)
      fun s' hr => http_drop hp hpc hr
  · have hf := Grpc.Isolation.reach_isolates (reach_of_run h)
    simp only [Grpc.Isolation.Isolates, hp] at hf
    obtain ⟨init, last, seg, hf⟩ := hf
    obtain ⟨rest, hwhole⟩ := hf.whole
    have hcalm := hcalm init seg rest hwhole
    rw [← hf.options_seg] at hcalm
    exact letsGo (Grpc.Segments.nil_notMem_segmentData seg) hf.owns (free_of_calm hf.owns hcalm)
      fun s' hr => grpc_drop hp hr

/-- A decoder of `ticking` whose worker is in its retry loop. -/
theorem clickRun_clear : ∃ s, run (Session.step ticking) (acquire {}) clickRun = some s ∧
    s.pc = .retry [8] ∧ Clear ticking .send s := by
  have hrun : (run (Session.step ticking) (acquire {}) clickRun).map (fun s =>
      (s.pc, s.inputDone, s.input.tx, s.output.rx, s.sent.length)) =
      some (.retry [8], false, true, true, 2) := by decide
  obtain ⟨s, hs, he⟩ := Option.map_eq_some_iff.mp hrun
  simp only [Prod.mk.injEq] at he
  obtain ⟨hpc, hdone, htx, hrx, hsent⟩ := he
  have hr := reach_of_run hs
  have hdrop : ∀ d' s', Reach (letGo ticking) (.send, s) (d', s') →
      Reach (Session.step ticking) (acquire {}) s' ∧ s'.sent.length ≤ 3 := by
    intro d' s' h
    obtain ⟨h1, h2⟩ := letGo_reach (show Holds .send s from ⟨htx, hrx⟩) h
    exact ⟨hr.trans h1, by omega⟩
  refine ⟨s, hs, hpc, fun hd => ?_, fun d' s' h => ticking_room (hdrop d' s' h).1,
    fun d' s' h => ?_⟩
  · rw [hdone] at hd
    cases hd
  · obtain ⟨h1, h2⟩ := hdrop d' s' h
    exact ticking_measures h1 (by rw [reach_options h1]) (by omega)

/-- A TCP connection breaks after two frames, of which the worker retries the second one. -/
def tcpBreak : List (Model.Tcp.ConnLabel String) :=
  List.replicate 7 .handler ++ [.inner .worker, .inner .worker, .inner (.answer true),
    .inner .worker, .inner .worker, .fail]

/-- An HTTP request is cancelled after two chunks of its body. -/
def httpBreak : List (Model.Http.ExchangeLabel String) :=
  List.replicate 8 .handler ++ [.inner .worker, .inner .worker, .inner (.answer true),
    .inner .worker, .inner .worker, .fail]

/-- A gRPC call is cancelled after two messages. -/
def grpcBreak : List (Model.Grpc.CallLabel String) :=
  List.replicate 9 .task ++ [.inner .worker, .inner .worker, .inner (.answer true),
    .inner .worker, .inner .worker, .cancelled]

/-- A TCP connection that breaks, an HTTP request that is cancelled and a gRPC call that is
cancelled, after two chunks were sent: the worker has taken them and retries the second one. -/
theorem drop_releases_ticking :
    (∃ c s s' o, run (Model.Tcp.Conn.step ticking {})
        (Model.Tcp.Conn.new [⟨.dcod, [7]⟩, ⟨.dcod, [8]⟩]) tcpBreak = some c ∧
      c.phase = .session ⟨.drop .send true, false, s⟩ ∧ s.pc = .retry [8] ∧
      Reach (Model.Tcp.Conn.step ticking {}) c
        { c with phase := .session ⟨.drop .dropped true, false, s'⟩ } ∧
      s'.pc = .ended o ∧ o ≠ .panicked) ∧
    (∃ x s s' o, run (Model.Http.Exchange.step ticking {})
        (Model.Http.Exchange.new [some [7], some [8]]) httpBreak = some x ∧
      x.phase = .session ⟨.drop .send true, s⟩ ∧ s.pc = .retry [8] ∧
      Reach (Model.Http.Exchange.step ticking {}) x
        { x with phase := .session ⟨.drop .dropped true, s'⟩ } ∧
      s'.pc = .ended o ∧ o ≠ .panicked) ∧
    ∃ t s s' o, run (Model.Grpc.Call.step ticking {})
        (Model.Grpc.Call.new {} [some ⟨[7], none, false⟩, some ⟨[8], none, false⟩])
        grpcBreak = some t ∧
      t.phase = .session (.drop .send .ended) s ∧ s.pc = .retry [8] ∧
      Reach (Model.Grpc.Call.step ticking {}) t
        { t with phase := .session (.drop .dropped .ended) s' } ∧
      s'.pc = .ended o ∧ o ≠ .panicked := by
  obtain ⟨s, hs, hpc, hclear⟩ := clickRun_clear
  obtain ⟨htcp, hhttp, hgrpc⟩ := drop_releases ticking {} {}
  refine ⟨?_, ?_, ?_⟩
  · have hrun : (run (Model.Tcp.Conn.step ticking {})
        (Model.Tcp.Conn.new [⟨.dcod, [7]⟩, ⟨.dcod, [8]⟩]) tcpBreak).map Model.Tcp.Conn.phase =
        (run (Session.step ticking) (acquire {}) clickRun).map
          fun s => .session ⟨.drop .send true, false, s⟩ := by rfl
    rw [hs] at hrun
    obtain ⟨c, hc, hp⟩ := Option.map_eq_some_iff.mp hrun
    have hshort : ∀ slack room, 2 < slack →
        TcpCalm ticking {} slack room [⟨.dcod, [7]⟩, ⟨.dcod, [8]⟩] := by
      intro slack room hlt ps hps
      have hps : ps = [[7], [8]] := by
        simpa [Tcp.Reference.segment, Tcp.Reference.segmentFrom] using hps
      exact calm_of_short (by rw [hps]; exact hlt)
    obtain ⟨s', o, hs'⟩ := (htcp _ _ c _ _ _ (hshort 32 32 (by decide)) (hshort 31 33 (by decide))
      hc hp rfl).2 (ticking_ends _) hclear
    exact ⟨c, s, s', o, hc, hp, hpc, hs'⟩
  · have hrun : (run (Model.Http.Exchange.step ticking {})
        (Model.Http.Exchange.new [some [7], some [8]]) httpBreak).map Model.Http.Exchange.phase =
        (run (Session.step ticking) (acquire {}) clickRun).map
          fun s => .session ⟨.drop .send true, s⟩ := by rfl
    rw [hs] at hrun
    obtain ⟨x, hx, hp⟩ := Option.map_eq_some_iff.mp hrun
    obtain ⟨s', o, hs'⟩ := (hhttp _ _ x _ _ _ (calm_of_short (by decide)) hx hp rfl).2
      (ticking_ends _) hclear
    exact ⟨x, s, s', o, hx, hp, hpc, hs'⟩
  · have hrun : (run (Model.Grpc.Call.step ticking {})
        (Model.Grpc.Call.new {} [some ⟨[7], none, false⟩, some ⟨[8], none, false⟩])
        grpcBreak).map Model.Grpc.Call.phase =
        (run (Session.step ticking) (acquire {}) clickRun).map
          fun s => .session (.drop .send .ended) s := by rfl
    rw [hs] at hrun
    obtain ⟨t, ht, hp⟩ := Option.map_eq_some_iff.mp hrun
    have hsegments : Grpc.Segments.segments (Grpc.Segments.requests
        [some ⟨[7], none, false⟩, some ⟨[8], none, false⟩]) =
        [[⟨[7], none, false⟩, ⟨[8], none, false⟩]] := by decide
    obtain ⟨s', o, hs'⟩ := (hgrpc _ _ t _ _ _ (fun init seg rest hsegs => by
      have hseg : seg ∈ init ++ seg :: rest := by simp
      rw [← hsegs, hsegments] at hseg
      exact calm_of_short (by rw [List.mem_singleton.mp hseg]; decide)) ht hp).2
        (ticking_ends _) hclear
    exact ⟨t, s, s', o, ht, hp, hpc, hs'⟩

/-! ### A drop that blocks -/

/-- The worker takes one chunk; the handler sends 32 more and waits for the next frame when the
connection breaks. Then the results of the first chunk come. -/
def brokenRun : List (Model.Tcp.ConnLabel String) :=
  ([.handler, .handler, .handler, .inner .worker, .inner .worker, .inner (.answer true)] :
      List (Model.Tcp.ConnLabel String)) ++
    (List.replicate 32 [.handler, .handler, .handler]).flatten ++ [.handler, .fail] ++
    [.inner (.pipe .take)] ++ List.replicate 33 (.inner (.pipe (.emit (.ok tick)))) ++
    List.replicate 65 (.inner .worker)

/-- Nothing ends the wait of a drop and its worker. -/
theorem blocked_for_ever {c c' : Model.Tcp.Conn ε} {o : Model.Tcp.Open ε} {failed : Bool}
    (hp : c.phase = .session o) (hpc : o.pc = .drop .send failed) (hd : Deadlocked o.decoder)
    (h : Reach (Model.Tcp.Conn.step B options) c c') :
    ∃ o', c'.phase = .session o' ∧ o'.pc = .drop .send failed ∧ Deadlocked o'.decoder := by
  refine h.invariant (I := fun c => ∃ o, c.phase = .session o ∧ o.pc = .drop .send failed ∧
    Deadlocked o.decoder) ⟨o, hp, hpc, hd⟩ ?_
  rintro c l c' ⟨o, hp, hpc, hd⟩ hs
  cases l with
  | inner i =>
    simp only [Model.Tcp.Conn.step, hp] at hs
    obtain ⟨s, hi, rfl⟩ := Option.map_eq_some_iff.mp hs
    exact ⟨_, rfl, hpc, hd.inner hi⟩
  | handler =>
    simp only [Model.Tcp.Conn.step, Model.Tcp.Conn.handler, hp, hpc, Session.dropStep,
      send_none.mpr hd.1, Option.map_none] at hs
    cases hs
  | fail => simp only [Model.Tcp.Conn.step, Model.Tcp.Conn.fail, hp, hpc] at hs; cases hs
  | acquireErr => simp only [Model.Tcp.Conn.step, hp] at hs; cases hs

/-- **A drop blocks for ever**: a connection breaks while its worker has 32 chunks to take; the drop
waits for room in the input channel, and the worker, whose first chunk gives 33 results, for room in
the output channel. -/
theorem drop_blocks : ∃ c, run (Model.Tcp.Conn.step flood {}) (Model.Tcp.Conn.new floodFrames)
      brokenRun = some c ∧ ∀ c', Reach (Model.Tcp.Conn.step flood {}) c c' →
    ∃ o, c'.phase = .session o ∧ o.pc = .drop .send true ∧ Deadlocked o.decoder := by
  have hrun : (run (Model.Tcp.Conn.step flood {}) (Model.Tcp.Conn.new floodFrames) brokenRun).bind
      standing = some (.drop .send true, true, 32, .emit (.ok tick) false, true, 32) := by
    decide +kernel
  obtain ⟨c, hc, he⟩ := Option.bind_eq_some_iff.mp hrun
  obtain ⟨o, hp, hpc, hd⟩ := deadlocked_of_standing he
  exact ⟨c, hc, fun c' h => blocked_for_ever hp hpc hd h⟩

end MediaApi.FrontEnd.Release
