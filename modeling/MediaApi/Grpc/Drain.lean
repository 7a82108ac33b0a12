import MediaApi.Model.Grpc
import MediaApi.Pool.Script

/-! # When the gRPC drain loses nothing

`drain_decoder_sync` sends EOF and polls. It stops when the output channel is closed, and then it
has everything; but it also stops at the eleventh poll that finds the channel empty, errors between
the polls not counting as progress. What it returns is complete exactly when it never stops in that
way with an `Ok` result in the worker's hand, in the pipeline or still to be emitted
(`drain_complete_iff`). A job that is still queued, or slow, is enough for it to lose all
(`drain_loses`). -/

namespace MediaApi.Grpc.Drain

open MediaApi.Lib.Channel MediaApi.Lib.Transition MediaApi.Model.Audio MediaApi.Model.Pipeline
open MediaApi.Model.ProcessJob MediaApi.Model.Steps MediaApi.Model.Grpc MediaApi.Pool.Forwarding
open MediaApi.Pool.Handle

variable {ε : Type}

inductive DrainLabel (ε : Type) where
  | drain
  | inner (i : Inner ε)
deriving DecidableEq

/-- A drain and what is behind the decoder. -/
def draining [ToString ε] (B : DecodeOptions → Behaviour ε) (c : DrainPc × Session ε) :
    DrainLabel ε → Option (DrainPc × Session ε)
  | .drain => drainStep c.2 c.1
  | .inner i => (c.2.inner B i).map fun s => (c.1, s)

/-- None of the `results` is still to come with audio: there is no `Ok` in the output channel, in
the worker's hand and in the pipeline's output buffer, and none that the pipeline has still to
emit. -/
structure Spent (results : List (Decoded ε)) (s : Session ε) : Prop where
  queue : oks s.output.queue = []
  hand : oks s.pc.hand = []
  outbuf : oks s.pipe.outbuf = []
  unemitted : oks (results.drop s.pipe.emitted.length) = []

/-- If the drain gives up in this step, none of the `results` is still to come. -/
def Patient (results : List (Decoded ε)) (c : DrainPc × Session ε) (l : DrainLabel ε) : Prop :=
  l = .drain → ∀ tries pcmChunks, c.1 = .poll tries pcmChunks → maxTries < tries + 1 →
    c.2.output.tryRecv = .empty → Spent results c.2

section patient

variable {results : List (Decoded ε)} {acc : List Bytes} {d : DrainPc} {s : Session ε} {tries : ℕ}

theorem patient_inner {i : Inner ε} : Patient results (d, s) (.inner i) := fun h => by cases h

theorem patient_send : Patient results (.send, s) .drain := fun _ _ _ h => by cases h

theorem patient_poll : Patient results (.poll tries acc, s) .drain ↔
    (maxTries < tries + 1 → s.output.tryRecv = .empty → Spent results s) := by
  constructor
  · exact fun h => h rfl tries acc rfl
  · intro h _ tries' acc' he
    cases he
    exact h

end patient

variable [ToString ε] {B : DecodeOptions → Behaviour ε} {D : List Bytes → List (Decoded ε)}
  {options : DecodeOptions} {s₀ s s' : Session ε} {d d' : DrainPc}

/-- **What is still to come**: the results are those received, those on their way, and those that
the pipeline has still to emit. -/
theorem spent_iff (hD : Decodes (B options) D) (h : Reach (Session.step B) (acquire options) s) :
    Spent (D (dataSent s)) s ↔ payloads s.received = payloads (D (dataSent s)) := by
  obtain ⟨rest, hrest⟩ := emitted_begins_sent hD h (List.prefix_refl _) fun _ => rfl
  have hdrop : (D (dataSent s)).drop s.pipe.emitted.length = rest := by
    rw [← hrest, List.drop_left]
  have hall : oks (D (dataSent s)) = oks s.received ++ (oks s.output.queue ++
      (oks s.pc.hand ++ (oks s.pipe.outbuf ++ oks rest))) := by
    have hres := congrArg oks (results_eq (reach_flow h))
    simp only [oks_append, oks_map_mapErr, List.append_assoc] at hres
    rw [← hrest, oks_append, ← hres]
    simp only [List.append_assoc]
  constructor
  · rintro ⟨hqueue, hhand, houtbuf, hunemitted⟩
    rw [hdrop] at hunemitted
    rw [payloads, payloads, hall, hqueue, hhand, houtbuf, hunemitted]
    simp
  · intro hp
    have hlen := congrArg List.length hp
    simp only [payloads, hall, List.length_map, List.length_append] at hlen
    exact ⟨List.length_eq_zero_iff.mp (by omega), List.length_eq_zero_iff.mp (by omega),
      List.length_eq_zero_iff.mp (by omega), by
        rw [hdrop]; exact List.length_eq_zero_iff.mp (by omega)⟩

/-- A drain from `s₀`: what it has sent and what it has collected. -/
structure Draining (B : DecodeOptions → Behaviour ε) (options : DecodeOptions) (s₀ : Session ε)
    (d : DrainPc) (s : Session ε) : Prop where
  reach : Reach (Session.step B) (acquire options) s
  held : Held s
  sent : s.sent = s₀.sent ∧ d = .send ∨ s.sent = s₀.sent ++ [[]] ∧ d ≠ .send
  collected : payloads s.received = payloads s₀.received ∧ d = .send ∨
    ∃ tries pcmChunks, (d = .poll tries pcmChunks ∨ d = .returned pcmChunks) ∧
      payloads s.received = payloads s₀.received ++ pcmChunks

theorem Draining.inner {i : Inner ε} (h : Draining B options s₀ d s) (hi : s.inner B i = some s') :
    Draining B options s₀ d s' := by
  obtain ⟨hsent, hrec, -⟩ := inner_keeps hi
  exact ⟨h.reach.trans (inner_reach hi), inner_held h.held hi, by rw [hsent]; exact h.sent,
    by rw [hrec]; exact h.collected⟩

/-- **A step of the drain.** -/
theorem Draining.step (hdata : [] ∉ s₀.sent) (h : Draining B options s₀ d s)
    (hs : drainStep s d = some (d', s')) : Draining B options s₀ d' s' := by
  obtain ⟨hr, hh, hsent, hcol⟩ := h
  cases drain_cases hs with
  | send ok _ hsend =>
    have hsent : s.sent = s₀.sent := by simpa using hsent
    have hok := send_ok hr hh (by rw [hsent]; exact hdata) hsend
    subst hok
    refine ⟨hr.trans (send_reach hh.1 hsend), send_held hh hsend, Or.inr ⟨?_, nofun⟩,
      Or.inr ⟨0, [], Or.inl rfl, ?_⟩⟩
    · rw [send_sent hsend, hsent]
    · rw [send_received hsend]; simpa using hcol
  | item tries tries' pcmChunks i _ hrecv =>
    refine ⟨hr.trans (tryRecv_reach hh.2 hrecv), tryRecv_held hh hrecv, Or.inr ⟨?_, nofun⟩,
      Or.inr ⟨tries', _, Or.inl rfl, ?_⟩⟩
    · rw [tryRecv_sent hrecv]; simpa using hsent
    · have hcol : payloads s.received = payloads s₀.received ++ pcmChunks := by simpa using hcol
      rw [tryRecv_received hrecv, payloads_append, hcol, List.append_assoc]
  | empty tries pcmChunks => exact ⟨hr, hh, by simpa using hsent, by simpa using hcol⟩
  | giveUp tries pcmChunks => exact ⟨hr, hh, by simpa using hsent, by simpa using hcol⟩
  | closed tries pcmChunks => exact ⟨hr, hh, by simpa using hsent, by simpa using hcol⟩

/-- A drain that has returned does nothing more. -/
theorem returned_run (results : List (Decoded ε)) {pcmChunks pcmChunks' : List Bytes} :
    ∀ {ls : List (DrainLabel ε)} {s s' : Session ε},
      run (draining B) (.returned pcmChunks, s) ls = some (.returned pcmChunks', s') →
      pcmChunks' = pcmChunks ∧
        Meets (draining B) (Patient results) (.returned pcmChunks, s) ls := by
  intro ls
  induction ls with
  | nil => intro s s' h; cases h; exact ⟨rfl, trivial⟩
  | cons l ls ih =>
    intro s s' h
    obtain ⟨c, h1, h2⟩ := run_cons_some.mp h
    cases l with
    | drain => cases h1
    | inner i =>
      obtain ⟨m, hm, rfl⟩ := Option.map_eq_some_iff.mp h1
      obtain ⟨h3, h4⟩ := ih h2
      exact ⟨h3, (meets_cons h1).mpr ⟨patient_inner, h4⟩⟩

/-- The law for a drain under way. -/
theorem run_iff (hD : Decodes (B options) D) (hdata : [] ∉ s₀.sent) {pcmChunks : List Bytes} :
    ∀ {ls : List (DrainLabel ε)} {d : DrainPc} {s : Session ε}, (∀ acc, d ≠ .returned acc) →
      Draining B options s₀ d s → run (draining B) (d, s) ls = some (.returned pcmChunks, s') →
      (payloads s₀.received ++ pcmChunks = payloads (D s₀.sent) ↔
        Meets (draining B) (Patient (D s₀.sent)) (d, s) ls) := by
  intro ls
  induction ls with
  | nil =>
    intro d s hd _ h
    cases h; exact absurd rfl (hd _)
  | cons l ls ih =>
    intro d s hd hinv h
    obtain ⟨⟨d', m⟩, h1, h2⟩ := run_cons_some.mp h
    -- the condition on this step, and the rest of the run
    rw [meets_cons h1]
    cases l with
    | inner i =>
      obtain ⟨m', hm, he⟩ := Option.map_eq_some_iff.mp h1
      cases he
      rw [iff_true_intro patient_inner, true_and]
      exact ih hd (hinv.inner hm) h2
    | drain =>
      have hinv' := hinv.step hdata h1
      have hcol : ∀ tries acc, d = .poll tries acc →
          payloads s.received = payloads s₀.received ++ acc := by
        rintro tries acc rfl
        simpa using hinv.collected
      have hsent : ∀ tries acc, d = .poll tries acc → s.sent = s₀.sent ++ [[]] := by
        rintro tries acc rfl
        simpa using hinv.sent
      cases drain_cases h1 with
      | send ok _ hsend =>
        rw [iff_true_intro patient_send, true_and]
        exact ih nofun hinv' h2
      | item tries tries' acc i _ hrecv =>
        obtain ⟨c, hc, -⟩ := tryRecv_item hrecv
        have hne : s.output.tryRecv ≠ .empty := by simp [hc]
        rw [patient_poll, iff_true_intro fun _ he => absurd he hne, true_and]
        exact ih nofun hinv' h2
      | empty tries acc hle hrecv =>
        rw [patient_poll, iff_true_intro fun hlt => absurd hle (Nat.not_le.mpr hlt), true_and]
        exact ih nofun hinv' h2
      | giveUp tries acc hlt hrecv =>
        obtain ⟨rfl, hrest⟩ := returned_run (D s₀.sent) h2
        have hempty := Chan.tryRecv_empty.mpr (tryRecv_empty hrecv).2
        have hspent : Spent (D s₀.sent) s ↔ payloads s.received = payloads (D s₀.sent) := by
          have := spent_iff hD hinv.reach
          rwa [dataSent_concat_eof (hsent tries _ rfl) hdata] at this
        rw [patient_poll, ← hcol tries _ rfl, ← hspent]
        exact ⟨fun hall => ⟨fun _ _ => hall, hrest⟩, fun h => h.1 hlt hempty⟩
      | closed tries acc hrecv =>
        obtain ⟨rfl, hrest⟩ := returned_run (D s₀.sent) h2
        have htx := (tryRecv_closed hrecv).2.2
        have hne : s.output.tryRecv ≠ .empty := fun he => by
          rw [(Chan.tryRecv_empty.mp he).2] at htx
          cases htx
        -- the channel is closed: all of `D` was received
        have hall : payloads s.received = payloads (D s₀.sent) := by
          rw [(closed_complete hD hinv.reach hinv.held hrecv).2, payloads_map_mapErr,
            dataSent_concat_eof (hsent tries _ rfl) hdata]
        rw [patient_poll, ← hcol tries _ rfl]
        exact ⟨fun _ => ⟨fun _ he => absurd he hne, hrest⟩, fun _ => hall⟩

/-- **The drain loses nothing exactly when it is patient.** For a decoder in any reachable state,
before EOF was sent, and every schedule of the drain and the worker: what the drain returns is what
is left of the payloads of the `Ok` results if and only if, when it gives up, none of them is on its
way or still to be emitted. -/
theorem drain_complete_iff (B : DecodeOptions → Behaviour ε) (D : List Bytes → List (Decoded ε))
    (options : DecodeOptions) (hD : Decodes (B options) D) (s₀ : Session ε)
    (h₀ : Reach (Session.step B) (acquire options) s₀) (hh : Held s₀) (hdata : [] ∉ s₀.sent)
    (ls : List (DrainLabel ε)) (pcmChunks : List Bytes) (s : Session ε)
    (h : run (draining B) (.send, s₀) ls = some (.returned pcmChunks, s)) :
    payloads s₀.received ++ pcmChunks = payloads (D s₀.sent) ↔
      Meets (draining B) (Patient (D s₀.sent)) (.send, s₀) ls :=
  run_iff hD hdata nofun ⟨h₀, hh, Or.inl ⟨rfl, rfl⟩, Or.inl ⟨rfl, rfl⟩⟩ h

/-- The drain waits for the worker: it polls once for the result and once for the closed channel. -/
def patientRun : List (DrainLabel String) :=
  .drain :: echoRun.filterMap (fun | .inner i => some (.inner i) | .client _ => none) ++
    [.drain, .drain]

theorem drain_complete_patient : ∃ s₀ s,
    run (Session.step echo) (acquire {}) [.client (.send [7])] = some s₀ ∧
      run (draining echo) (.send, s₀) patientRun = some (.returned [[7]], s) ∧
      (payloads s₀.received ++ [[7]] = payloads (echoResults s₀.sent) ↔
        Meets (draining echo) (Patient (echoResults s₀.sent)) (.send, s₀) patientRun) := by
  have hrun : ((run (Session.step echo) (acquire {}) [.client (.send [7])]).bind fun s₀ =>
      (run (draining echo) (.send, s₀) patientRun).map fun c =>
        (s₀.input.tx && s₀.output.rx && !s₀.sent.contains [], c.1)) =
      some (true, .returned [[7]]) := by decide
  obtain ⟨s₀, h₀, hrun⟩ := Option.bind_eq_some_iff.mp hrun
  obtain ⟨⟨d, s⟩, h, he⟩ := Option.map_eq_some_iff.mp hrun
  simp only [Prod.mk.injEq, Bool.and_eq_true, Bool.not_eq_true', List.contains_eq_mem,
    decide_eq_false_iff_not] at he
  obtain ⟨⟨⟨htx, hrx⟩, hdata⟩, rfl⟩ := he
  exact ⟨s₀, s, h₀, h, drain_complete_iff echo echoResults {} (echo_decodes {}) s₀ (reach_of_run h₀)
    ⟨htx, hrx⟩ hdata patientRun [[7]] s h⟩

/-- **The drain gives up on a job that is still queued**: after twelve of its own steps it returns
nothing, and the audio of the segment is lost. -/
theorem drain_loses : Decodes (echo {}) echoResults ∧ ∃ s₀ s,
    run (Session.step echo) (acquire {}) [.client (.send [7])] = some s₀ ∧
      run (draining echo) (.send, s₀) (List.replicate 12 .drain) = some (.returned [], s) ∧
      s.pc = .queued ∧ payloads s₀.received ++ [] ≠ payloads (echoResults s₀.sent) := by
  refine ⟨echo_decodes {}, ?_⟩
  have hrun : ((run (Session.step echo) (acquire {}) [.client (.send [7])]).bind fun s₀ =>
      (run (draining echo) (.send, s₀) (List.replicate 12 .drain)).map fun c =>
        (s₀.sent, s₀.received, c.1, c.2.pc)) = some ([[7]], [], .returned [], .queued) := by decide
  obtain ⟨s₀, h₀, hrun⟩ := Option.bind_eq_some_iff.mp hrun
  obtain ⟨⟨d, s⟩, h, he⟩ := Option.map_eq_some_iff.mp hrun
  simp only [Prod.mk.injEq] at he
  obtain ⟨hsent, hrec, rfl, hpc⟩ := he
  refine ⟨s₀, s, h₀, h, hpc, ?_⟩
  rw [hsent, hrec]; decide

end MediaApi.Grpc.Drain
