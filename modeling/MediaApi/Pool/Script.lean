import MediaApi.Pool.Handle

/-! # A holder that follows a script

Every front end sends a decoder the data chunks `ps` of one session, in order, and then EOF, and
keeps both ends of the handle while it does so. `scripted B ps` is a session with such a holder; how
its sends and receives interleave is left open.

The two channels then can only be full together once the pipeline has emitted 33 results
(`not_deadlocked`): a send blocks when the worker has 32 chunks still to take, and the worker blocks
with 32 results in the channel and one in its hand. `Calm` says that the pipeline has not emitted
too many by then. -/

namespace MediaApi.Pool.Script

open MediaApi.Lib.Channel MediaApi.Lib.Transition MediaApi.Model.Audio MediaApi.Model.Pipeline
open MediaApi.Model.ProcessJob MediaApi.Model.Steps MediaApi.Pool.Forwarding MediaApi.Pool.Handle

variable {ε : Type} [ToString ε]

/-- A step of a session whose holder sends `ps`, then EOF, and drops nothing. -/
def scripted (B : DecodeOptions → Behaviour ε) (ps : List Bytes) (s : Session ε) :
    Label ε → Option (Session ε)
  | .inner i => s.inner B i
  | .client (.send data) =>
    if s.sent ++ [data] <+: ps ++ [[]] then s.client (.send data) else none
  | .client .recv => s.client .recv
  | .client .dropTx => none
  | .client .dropRx => none

/-- The session of a holder that follows the script `ps`. -/
def Scripted (B : DecodeOptions → Behaviour ε) (options : DecodeOptions) (ps : List Bytes)
    (s : Session ε) : Prop :=
  Reach (scripted B ps) (acquire options) s

variable {B : DecodeOptions → Behaviour ε} {options : DecodeOptions} {ps : List Bytes}
  {s s' : Session ε} {l : Label ε}

/-- A scripted step is a step. -/
theorem scripted_step (h : scripted B ps s l = some s') : s.step B l = some s' := by
  unfold scripted at h
  split at h
  · exact h
  · split_ifs at h; exact h
  · exact h
  · cases h
  · cases h

theorem Scripted.reach (h : Scripted B options ps s) : Reach (Session.step B) (acquire options) s :=
  Reach.map (f := id) (fun _ _ _ h => Reach.single (scripted_step h)) h

/-- The holder keeps both ends and has sent a beginning of the script. -/
theorem Scripted.keeps (h : Scripted B options ps s) : Held s ∧ s.sent <+: ps ++ [[]] := by
  refine h.invariant (I := fun s => Held s ∧ s.sent <+: ps ++ [[]])
    ⟨⟨rfl, rfl⟩, List.nil_prefix⟩ ?_
  rintro s l s' ⟨hh, hs⟩ hstep
  unfold scripted at hstep
  split at hstep
  · next i =>
    obtain ⟨hsent, -⟩ := inner_keeps hstep
    exact ⟨inner_held hh hstep, by rw [hsent]; exact hs⟩
  · next data =>
    split_ifs at hstep with hps
    cases client_cases hstep with
    | send _ c htx hc =>
      obtain ⟨-, -, -, htx', -⟩ := Chan.send_sent hc
      exact ⟨⟨htx'.trans hh.1, hh.2⟩, hps⟩
  · cases client_cases hstep with
    | recv i c hrx hc =>
      obtain ⟨-, -, hrx'⟩ := Chan.tryRecv_got hc
      exact ⟨⟨hh.1, hrx'.trans hh.2⟩, hs⟩
  · cases hstep
  · cases hstep

theorem Scripted.held (h : Scripted B options ps s) : Held s := h.keeps.1

theorem Scripted.sent (h : Scripted B options ps s) : s.sent <+: ps ++ [[]] := h.keeps.2

/-! ### The calls of a scripted holder -/

theorem scripted_acquire : Scripted B options ps (acquire options) := Reach.refl _

theorem Scripted.inner {i : Inner ε} (h : Scripted B options ps s) (hi : s.inner B i = some s') :
    Scripted B options ps s' :=
  h.tail (l := .inner i) hi

theorem Scripted.send {data : Bytes} {ok : Bool} (h : Scripted B options ps s)
    (hps : s.sent ++ [data] <+: ps ++ [[]]) (hs : s.send data = some (ok, s')) :
    Scripted B options ps s' := by
  cases ok with
  | true =>
    refine h.tail (l := .client (.send data)) ?_
    simp only [scripted, if_pos hps, Session.client, h.held.1, if_true, hs]
  | false =>
    rcases send_cases hs with ⟨hok, -⟩ | ⟨-, -, rfl⟩
    · cases hok
    · exact h

theorem Scripted.tryRecv {r : Polled} (h : Scripted B options ps s) (hr : s.tryRecv = (r, s')) :
    Scripted B options ps s' := by
  cases r with
  | item i =>
    refine h.tail (l := .client .recv) ?_
    simp only [scripted, Session.client, h.held.2, if_true, hr]
  | empty => rw [(tryRecv_empty hr).1]; exact h
  | closed => rw [(tryRecv_closed hr).1]; exact h

/-- The script is a session's: its chunks are data. Before EOF is sent, part of it has been sent;
then all of it. -/
theorem Scripted.sent_cases (hps : [] ∉ ps) (h : Scripted B options ps s) :
    ([] ∉ s.sent ∧ s.sent <+: ps ∧ dataSent s = s.sent) ∨
    (s.sent = ps ++ [[]] ∧ dataSent s = ps) := by
  rcases List.prefix_concat_iff.mp h.sent with hs | hs
  · exact Or.inr ⟨hs, dataSent_concat_eof hs hps⟩
  · have hdata : [] ∉ s.sent := fun hm => hps (hs.subset hm)
    exact Or.inl ⟨hdata, hs, dataSent_of_data hdata⟩

/-- A send before EOF does not fail. -/
theorem Scripted.send_ok {data : Bytes} {ok : Bool} (h : Scripted B options ps s)
    (hs : [] ∉ s.sent) (hsend : s.send data = some (ok, s')) : ok = true :=
  Handle.send_ok h.reach h.held hs hsend

section Decodes

variable {D : List Bytes → List (Decoded ε)}

/-- What the holder has received is a beginning of what `D` gives for the whole script. -/
theorem Scripted.received_begins (hD : Decodes (B options) D) (hps : [] ∉ ps)
    (h : Scripted B options ps s) : s.received <+: (D ps).map mapErr := by
  rcases h.sent_cases hps with ⟨hdata, hs, he⟩ | ⟨hs, he⟩
  · refine Handle.received_begins hD h.reach (by rw [he]; exact hs) ?_
    rintro (hm | htx)
    · exact absurd hm hdata
    · rw [h.held.1] at htx; cases htx
  · exact Handle.received_begins hD h.reach (by rw [he]) fun _ => he.symm

/-- Once the output channel is closed, the script was sent and all of `D` was received. -/
theorem Scripted.closed_complete (hD : Decodes (B options) D) (hps : [] ∉ ps)
    (h : Scripted B options ps s) (hc : s.tryRecv = (.closed, s')) :
    s.sent = ps ++ [[]] ∧ s.received = (D ps).map mapErr := by
  obtain ⟨hm, hrec⟩ := Handle.closed_complete hD h.reach h.held hc
  rcases h.sent_cases hps with ⟨hdata, -, -⟩ | ⟨hs, he⟩
  · exact absurd hm hdata
  · exact ⟨hs, by rw [hrec, he]⟩

/-- `rs` was received at some moment of a session with the script `ps`. -/
def Begun (B : DecodeOptions → Behaviour ε) (options : DecodeOptions) (ps : List Bytes)
    (rs : List Item) : Prop :=
  ∃ s, Scripted B options ps s ∧ s.received = rs

/-- `rs` was received from a session with the script `ps` when its output channel was closed. -/
def Served (B : DecodeOptions → Behaviour ε) (options : DecodeOptions) (ps : List Bytes)
    (rs : List Item) : Prop :=
  ∃ s s', Scripted B options ps s ∧ s.tryRecv = (.closed, s') ∧ s.received = rs

variable {rs : List Item}

theorem begun_nil : Begun B options ps [] := ⟨acquire options, scripted_acquire, rfl⟩

theorem Served.begun (h : Served B options ps rs) : Begun B options ps rs := by
  obtain ⟨s, -, hs, -, hrs⟩ := h
  exact ⟨s, hs, hrs⟩

end Decodes

/-! ### Letting go of the handle -/

/-- The holder follows its script until the send of EOF in its `drop` has returned; then it lets go
of one end after the other. -/
def Owns (B : DecodeOptions → Behaviour ε) (options : DecodeOptions) (ps : List Bytes) :
    Option DropPc → Session ε → Prop
  | none, s | some .send, s => Scripted B options ps s
  | some d, s => Reach (Session.step B) (acquire options) s ∧ Holds d s

theorem Owns.reach {d : Option DropPc} (h : Owns B options ps d s) :
    Reach (Session.step B) (acquire options) s := by
  cases d with
  | none => exact Scripted.reach h
  | some d => cases d with
    | send => exact Scripted.reach h
    | _ => exact h.1

theorem Owns.inner {d : Option DropPc} {i : Inner ε} (h : Owns B options ps d s)
    (hi : s.inner B i = some s') : Owns B options ps d s' := by
  cases d with
  | none => exact Scripted.inner h hi
  | some d => cases d with
    | send => exact Scripted.inner h hi
    | _ => exact ⟨h.1.trans (inner_reach hi), inner_holds h.2 hi⟩

theorem Owns.drop {d d' : DropPc} (h : Owns B options ps (some d) s)
    (hd : s.dropStep d = some (d', s')) : Owns B options ps (some d') s' := by
  have hh : Reach (Session.step B) (acquire options) s ∧ Holds d s := by
    cases d with
    | send => exact ⟨Scripted.reach h, Scripted.held h⟩
    | _ => exact h
  have hnew : Reach (Session.step B) (acquire options) s' ∧ Holds d' s' :=
    ⟨hh.1.trans (dropStep_reach hh.2 hd), dropStep_holds hh.2 hd⟩
  cases d with
  | send =>
    obtain ⟨⟨ok, m⟩, -, he⟩ := Option.map_eq_some_iff.mp hd
    cases he; exact hnew
  | tx => cases hd; exact hnew
  | rx => cases hd; exact hnew
  | dropped => cases hd

omit [ToString ε] in
theorem dropStep_received {d d' : DropPc} (h : s.dropStep d = some (d', s')) :
    s'.received = s.received := by
  cases d with
  | send =>
    obtain ⟨⟨ok, m⟩, hm, he⟩ := Option.map_eq_some_iff.mp h
    cases he; exact send_received hm
  | tx => cases h; rfl
  | rx => cases h; rfl
  | dropped => cases h

/-! ### What the pipeline has been given -/

omit [ToString ε] in
/-- Behind a held handle the pipeline has accepted a beginning of what the worker took. -/
theorem accepted_taken (hi : Input s) (hh : Held s) : s.pipe.accepted <+: s.taken := by
  by_cases hat : AtEof s
  · obtain ⟨-, htaken, hacc⟩ := hi.after hat
    have ht : s.taken = chunks s.pipe.accepted ++ [[]] := by
      refine htaken.resolve_right ?_
      rintro ⟨-, -, htx⟩
      rw [hh.1] at htx; cases htx
    rw [ht]
    rcases hacc with hacc | ⟨-, hacc⟩
    · rw [← hacc]; exact List.prefix_append _ _
    · rw [← hacc]
  · rw [← (hi.before hat).2]; exact List.prefix_append _ _

theorem accepted_sent (h : Reach (Session.step B) (acquire options) s) (hh : Held s) :
    s.pipe.accepted <+: s.sent := by
  rw [(reach_flow h).sent]
  exact (accepted_taken (reach_input h) hh).trans (List.prefix_append _ _)

/-- The chunks the pipeline has accepted and those still queued are at most those sent. -/
theorem accepted_add_queue_le (h : Reach (Session.step B) (acquire options) s) (hh : Held s) :
    s.pipe.accepted.length + s.input.queue.length ≤ s.sent.length := by
  rw [(reach_flow h).sent, List.length_append]
  exact Nat.add_le_add_right (accepted_taken (reach_input h) hh).length_le _

/-- The results received, queued and in the worker's hand, and those still in the pipeline's output
buffer, are those emitted. -/
theorem received_add_queue_eq (h : Reach (Session.step B) (acquire options) s) :
    s.received.length + s.output.queue.length + s.pc.hand.length + s.pipe.outbuf.length =
      s.pipe.emitted.length := by
  have := congrArg List.length (results_eq (reach_flow h))
  simpa [Nat.add_assoc] using this

/-! ### The circular wait -/

/-- A send of the holder blocks on the full input channel. -/
def SendBlocked (s : Session ε) : Prop := s.input.rx = true ∧ s.input.Full

/-- The worker is blocked in `output_tx.send` on the full output channel. -/
def WorkerBlocked (s : Session ε) : Prop :=
  (∃ i final, s.pc = .emit i final) ∧ s.output.rx = true ∧ s.output.Full

/-- A holder in a send and its worker wait for each other. -/
def Deadlocked (s : Session ε) : Prop := SendBlocked s ∧ WorkerBlocked s

instance (s : Session ε) : Decidable (SendBlocked s) := inferInstanceAs (Decidable (_ ∧ _))

/-- Only the pipeline's thread moves behind a holder and a worker that wait for each other. -/
theorem Deadlocked.inner {i : Inner ε} (h : Deadlocked s) (hi : s.inner B i = some s') :
    Deadlocked s' := by
  obtain ⟨hin, ⟨⟨item, final, hpc⟩, hrx, hfull⟩⟩ := h
  cases step_cases (l := .inner i) hi with
  | worker hw =>
    have hw : s.worker = some s' := hi
    simp only [Session.worker, hpc, Chan.send_blocked.mpr ⟨hrx, hfull⟩] at hw
    cases hw
  | answer ok h =>
    cases h <;> next hpc' _ => rw [hpc] at hpc'; cases hpc'
  | pipe => exact ⟨hin, ⟨item, final, hpc⟩, hrx, hfull⟩

/-- Of the session `ps` the pipeline emits at most `room` results until it has accepted all but
fewer than `slack` of the data chunks. -/
def Calm (B : Behaviour ε) (slack room : ℕ) (ps : List Bytes) : Prop :=
  ∀ p r, p.accepted <+: ps ++ [[]] → p.accepted.length + slack ≤ ps.length →
    B.emits p r = true → p.emitted.length < room

omit [ToString ε] in
/-- A session of fewer than `slack` data chunks is calm whatever the pipeline does. -/
theorem calm_of_short {B : Behaviour ε} {slack room : ℕ} (h : ps.length < slack) :
    Calm B slack room ps :=
  fun _ _ _ hle _ => by omega

/-- **The output of a calm session** has room until the input is nearly accepted. -/
theorem Scripted.quiet {slack room : ℕ} (hcalm : Calm (B options) slack room ps)
    (h : Scripted B options ps s) :
    s.pipe.emitted.length ≤ room ∨ ps.length < s.pipe.accepted.length + slack := by
  refine h.rec_tail (P := fun s => s.pipe.emitted.length ≤ room ∨
    ps.length < s.pipe.accepted.length + slack) (Or.inl (Nat.zero_le _)) ?_
  intro m l m' hm hI hs
  have hm : Scripted B options ps m := hm
  cases step_cases (scripted_step hs) with
  | worker h =>
    cases h with
    | forward r p hpc hp | forwardFinal r p hpc hp =>
      obtain ⟨-, -, hem, hacc, -⟩ := pipeRecv_some hp
      rw [hem, hacc]; exact hI
    | _ => exact hI
  | answer ok h =>
    cases h with
    | eofAccepted | accepted =>
      rw [push_accepted, push_emitted, List.length_append]
      exact hI.imp_right fun h => by omega
    | _ => exact hI
  | pipe a p hq hp =>
    obtain ⟨-, hacc, ⟨-, -, hem, -⟩ | ⟨r, -, hb, rfl⟩ | ⟨-, -, rfl⟩⟩ := pipe_step_cases hp
    · rw [hem, hacc]; exact hI
    · by_cases hle : m.pipe.accepted.length + slack ≤ ps.length
      · left
        rw [reach_options hm.reach] at hb
        have := hcalm m.pipe r ((accepted_sent hm.reach hm.held).trans hm.sent) hle hb
        simp only [Pipe.emitted, List.length_append, List.length_singleton] at this ⊢
        omega
      · right; exact Nat.lt_of_not_le hle
    · exact hI
  | client a h => cases h <;> exact hI

/-- **No circular wait** in a calm session, at a send that comes early enough in the script and when
enough results have been received. -/
theorem Scripted.not_deadlocked {slack room : ℕ} (hcalm : Calm (B options) slack room ps)
    (h : Scripted B options ps s) (hsent : s.sent.length + slack ≤ ps.length + slots)
    (hroom : room ≤ s.received.length + slots) : ¬ Deadlocked s := by
  rintro ⟨⟨-, hin⟩, ⟨i, final, hpc⟩, -, hout⟩
  have haccepted := accepted_add_queue_le h.reach h.held
  have hres := received_add_queue_eq h.reach
  have hhand : s.pc.hand.length = 1 := by rw [hpc]; rfl
  rw [hin] at haccepted
  rw [hout, hhand] at hres
  rcases h.quiet hcalm with hq | hq <;> omega

end MediaApi.Pool.Script
