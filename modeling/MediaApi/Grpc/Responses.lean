import MediaApi.Grpc.Isolation

/-! # gRPC segments are isolated and ordered

`Replies` is the invariant of the response channel: for each decoder so far, in order, it has got a
beginning of the payloads received from that decoder, and what is missing of the current one is in
the task's hands. With the invariant of the segments it gives `segments_isolated`, the law of a
call. -/

namespace MediaApi.Grpc.Responses

open MediaApi.Lib.Transition MediaApi.Model.Audio MediaApi.Model.Pipeline MediaApi.Model.ProcessJob
open MediaApi.Model.Steps MediaApi.Model.Options MediaApi.Model.Grpc MediaApi.Pool.Handle
open MediaApi.Pool.Script MediaApi.Pool.Forwarding MediaApi.Grpc.Segments MediaApi.Grpc.Isolation

variable {ε : Type}

/-! ### The invariant -/

/-- The PCM responses. -/
def pcmOf (rs : List Response) : List Bytes :=
  rs.filterMap fun | .pcm b => some b | .resourceExhausted => none

/-- The chunks that were received from the current decoder and are still to be sent. -/
def pending : OpenPc → List Bytes
  | .collect chunks | .reply chunks _ | .drain (.poll _ chunks) _ | .drain (.returned chunks) _
  | .drop _ (.segment chunks _) => chunks
  | _ => []

/-- The responses `part` to the current decoder's audio, of which `received` has been received. -/
def Owes (pc : OpenPc) (part : List Bytes) (received : List Item) : Prop :=
  match pc with
  | .drop _ .ended => part <+: payloads received
  | pc => part ++ pending pc = payloads received

/-- The responses to a decoder that is gone. -/
def Answers (part : List Bytes) (s : Session ε) : Prop := part <+: payloads s.received

/-- **The invariant of the responses.** -/
def Replies (t : Call ε) : Prop :=
  match t.phase with
  | .idle (.reply chunks _) => ∃ parts part past s, t.past = past ++ [s] ∧
      List.Forall₂ Answers parts past ∧ pcmOf t.responses = parts.flatten ++ part ∧
      part ++ chunks = payloads s.received
  | .idle _ => ∃ parts, List.Forall₂ Answers parts t.past ∧ pcmOf t.responses = parts.flatten
  | .session pc s => ∃ parts part, List.Forall₂ Answers parts t.past ∧
      pcmOf t.responses = parts.flatten ++ part ∧ Owes pc part s.received

variable {ms ms' : List (Option DecodeRequest)} {t t' : Call ε} {pc pc' : OpenPc} {s s' : Session ε}
  {read : List DecodeRequest} {out : List Response} {part : List Bytes}

theorem Owes.answers (h : Owes pc part s.received) : Answers part s := by
  unfold Owes at h
  split at h
  · exact h
  · rw [Answers, ← h]; exact List.prefix_append _ _

theorem Owes.congr (h : Owes pc part s.received) (hp : pending pc' = pending pc)
    (hpc : ∀ d, pc ≠ .drop d .ended) (hrec : s'.received = s.received) :
    Owes pc' part s'.received := by
  have h : part ++ pending pc = payloads s.received := by
    unfold Owes at h
    split at h
    · next d => exact absurd rfl (hpc d)
    · exact h
  unfold Owes
  split
  · rw [hrec, ← h]; exact List.prefix_append _ _
  · rw [hrec, hp]; exact h

theorem Owes.silent {received : List Item} (h : Owes pc part received) :
    Owes pc (part ++ pcmOf []) received := by
  rw [show pcmOf [] = [] from rfl, List.append_nil]; exact h

/-- A step of the drain. -/
theorem owes_drain {d d' : DrainPc} {msg : Option DecodeRequest}
    (h : Owes (.drain d msg) part s.received) (hs : drainStep s d = some (d', s')) :
    Owes (.drain d' msg) part s'.received := by
  cases drain_cases hs with
  | send ok _ hsend => exact h.congr rfl nofun (send_received hsend)
  | item tries tries' chunks i _ hrecv =>
    have h : part ++ chunks = payloads s.received := h
    show part ++ (chunks ++ payloads [i]) = payloads s'.received
    rw [tryRecv_received hrecv, payloads_append, ← h, List.append_assoc]
  | empty | giveUp | closed => exact h.congr rfl nofun rfl

/-- **A step of the task with its decoder.** -/
theorem owes_open (h : Owes pc part s.received) (hs : OpenStep pc s ms ms' read out pc' s') :
    Owes pc' (part ++ pcmOf out) s'.received := by
  cases hs with
  | reply pcm chunks after _ hpc =>
    subst hpc
    have h : part ++ pcm :: chunks = payloads s.received := h
    show part ++ [pcm] ++ chunks = payloads s.received
    rw [← h, List.append_assoc]; rfl
  | collect chunks i _ _ hpc hrecv =>
    subst hpc
    have h : part ++ chunks = payloads s.received := h
    show part ++ [] ++ (chunks ++ payloads [i]) = payloads s'.received
    rw [tryRecv_received hrecv, payloads_append, ← h, List.append_nil, List.append_assoc]
  | message msg rest hpc =>
    subst hpc
    refine (h.congr ?_ nofun rfl).silent
    unfold messagePc
    split_ifs <;> rfl
  | endOfStream _ hpc => subst hpc; exact (h.congr rfl nofun rfl).silent
  | drain d d' msg _ _ hpc hd => subst hpc; exact (owes_drain h hd).silent
  | drained chunks msg _ hpc => subst hpc; cases msg <;> exact (h.congr rfl nofun rfl).silent
  | send data _ _ hpc hsend | sendErr data _ _ hpc hsend =>
    subst hpc; exact (h.congr rfl nofun (send_received hsend)).silent
  | collected chunks decoderClosed _ hpc => subst hpc; exact (h.congr rfl nofun rfl).silent
  | replied after _ hpc =>
    subst hpc
    refine (h.congr ?_ nofun rfl).silent
    cases after with
    | message decoderClosed => cases decoderClosed <;> rfl
    | finish => rfl
  | drop d d' after _ _ hpc hd =>
    subst hpc
    have hrec := dropStep_received hd
    cases after with
    | segment chunks msg => exact (h.congr rfl nofun hrec).silent
    | select => exact (h.congr rfl nofun hrec).silent
    | ended => exact Owes.silent (by simp only [Owes, hrec] at h ⊢; exact h)

variable [ToString ε] {B : DecodeOptions → Behaviour ε} {defaults : DecodeOptions}
  {all : List (Option DecodeRequest)} {l : CallLabel ε}

theorem forall₂_concat {α β : Type*} {R : α → β → Prop} {l₁ : List α} {l₂ : List β} {a : α} {b : β}
    (h : List.Forall₂ R l₁ l₂) (hab : R a b) : List.Forall₂ R (l₁ ++ [a]) (l₂ ++ [b]) :=
  List.rel_append h (.cons hab .nil)

omit [ToString ε] in
/-- Behind an idle task every decoder is gone. -/
theorem Replies.idle {pc : IdlePc} (hp : t.phase = .idle pc) (h : Replies t) :
    ∃ parts, List.Forall₂ Answers parts t.past ∧ pcmOf t.responses = parts.flatten := by
  simp only [Replies, hp] at h
  cases pc with
  | reply chunks msg =>
    obtain ⟨parts, part, past, s, hpast, hparts, hrs, hpart⟩ := h
    refine ⟨parts ++ [part], ?_, by rw [hrs]; simp⟩
    rw [hpast]
    exact forall₂_concat hparts (by rw [Answers, ← hpart]; exact List.prefix_append _ _)
  | _ => exact h

/-- **A step of a call.** -/
theorem replies_step (h : Replies t) (hs : t.step B defaults l = some t') : Replies t' := by
  cases call_step_cases hs with
  | message msg rest hp hm => have h := h.idle hp; exact h
  | endOfStream hp => have h := h.idle hp; exact h
  | replied msg hp => have h := h.idle hp; exact h
  | reply pcm chunks msg hp =>
    simp only [Replies, hp] at h
    obtain ⟨parts, part, past, s, hpast, hparts, hrs, hpart⟩ := h
    refine ⟨parts, part ++ [pcm], past, s, hpast, hparts, ?_, by rw [← hpart]; simp⟩
    simp only [pcmOf, List.filterMap_append] at hrs ⊢
    rw [hrs, List.append_assoc]; rfl
  | acquire msg hp =>
    obtain ⟨parts, hparts, hrs⟩ := h.idle hp
    refine ⟨parts, [], hparts, by rw [hrs, List.append_nil], ?_⟩
    unfold messagePc; split_ifs <;> rfl
  | status hp =>
    obtain ⟨parts, hparts, hrs⟩ := h.idle hp
    refine ⟨parts, hparts, ?_⟩
    simp only [pcmOf, List.filterMap_append] at hrs ⊢
    rw [hrs]; simp
  | session hp ho =>
    simp only [Replies, hp] at h
    obtain ⟨parts, part, hparts, hrs, h⟩ := h
    refine ⟨parts, _, hparts, ?_, owes_open h ho⟩
    simp only [pcmOf, List.filterMap_append] at hrs ⊢
    rw [hrs, List.append_assoc]
  | dropped after s hp =>
    simp only [Replies, hp] at h
    obtain ⟨parts, part, hparts, hrs, h⟩ := h
    cases after with
    | segment chunks msg => exact ⟨parts, part, t.past, s, rfl, hparts, hrs, h⟩
    | select | ended =>
      exact ⟨parts ++ [part], forall₂_concat hparts h.answers, by rw [hrs]; simp⟩
  | leaveIdle l pc hp hpc => have h := h.idle hp; exact h
  | leave l pc s hp hpc =>
    simp only [Replies, hp] at h
    obtain ⟨parts, part, hparts, hrs, h⟩ := h
    exact ⟨parts, part, hparts, hrs, h.answers⟩
  | acquireErr msg hp => have h := h.idle hp; exact h
  | inner i pc s s' hp hi =>
    simp only [Replies, hp] at h
    obtain ⟨parts, part, hparts, hrs, h⟩ := h
    exact ⟨parts, part, hparts, hrs, by rw [(inner_keeps hi).2.1]; exact h⟩

theorem reach_replies (h : Reach (Call.step B defaults) (Call.new defaults all) t) :
    ∃ parts, List.Forall₂ Answers parts (decoders t) ∧ pcmOf t.responses = parts.flatten := by
  have hr : Replies t := h.invariant ⟨[], .nil, rfl⟩ fun _ _ _ hI hs => replies_step hI hs
  cases hp : t.phase with
  | idle pc =>
    have hdec : decoders t = t.past := by simp [decoders, Call.decoder, hp]
    rw [hdec]; exact hr.idle hp
  | session pc s =>
    have hdec : decoders t = t.past ++ [s] := by simp [decoders, Call.decoder, hp]
    simp only [Replies, hp] at hr
    obtain ⟨parts, part, hparts, hrs, h⟩ := hr
    rw [hdec]
    exact ⟨parts ++ [part], forall₂_concat hparts h.answers, by rw [hrs]; simp⟩

/-! ### The law of a call -/

/-- The options a message asks for: each zero field stands for the server's default, and so do all
of them without a message. -/
def Resolves (defaults : DecodeOptions) (msg : Option OptionsMsg) (options : DecodeOptions) :
    Prop :=
  match msg with
  | none => options = defaults
  | some o =>
    options.outputSampleRate =
        (if o.outputSampleRate = 0 then defaults.outputSampleRate else some o.outputSampleRate) ∧
      options.outputBitsPerSample.map UInt8.toNat =
        (if o.outputBitsPerSample = 0 then defaults.outputBitsPerSample.map UInt8.toNat
          else some o.outputBitsPerSample.toNat) ∧
      options.outputChannels.map UInt8.toNat =
        (if o.outputChannels = 0 then defaults.outputChannels.map UInt8.toNat
          else some o.outputChannels.toNat)

/-- The narrow fields of an options message fit into a byte. -/
def Small (o : OptionsMsg) : Prop := o.outputBitsPerSample < 256 ∧ o.outputChannels < 256

omit [ToString ε] in
theorem narrow_field {n : UInt32} (hn : n < 256) (d : Option UInt8) :
    (if n > 0 then some n.toUInt8 else d).map UInt8.toNat =
      if n = 0 then d.map UInt8.toNat else some n.toNat := by
  have hlt : n.toNat < 256 := by simpa using UInt32.lt_iff_toNat_lt.mp hn
  by_cases h0 : n = 0
  · simp [h0]
  · have hpos : n > 0 := by
      rw [gt_iff_lt, UInt32.lt_iff_toNat_lt]
      have : n.toNat ≠ 0 := fun h => h0 (UInt32.toNat_inj.mp (by simpa using h))
      simpa using Nat.pos_of_ne_zero this
    rw [if_pos hpos, if_neg h0]
    simp [Nat.mod_eq_of_lt hlt]

theorem resolves_jobOptions {msg : Option OptionsMsg} (h : ∀ o, msg = some o → Small o) :
    Resolves defaults msg (jobOptions defaults (.grpc msg)) := by
  cases msg with
  | none => rfl
  | some o =>
    obtain ⟨hb, hc⟩ := h o rfl
    refine ⟨?_, narrow_field hb _, narrow_field hc _⟩
    by_cases h0 : o.outputSampleRate = 0
    · simp [jobOptions, ofMsg, h0]
    · have hpos : o.outputSampleRate > 0 := by
        rw [gt_iff_lt, UInt32.lt_iff_toNat_lt]
        have : o.outputSampleRate.toNat ≠ 0 := fun h => h0 (UInt32.toNat_inj.mp (by simpa using h))
        simpa using Nat.pos_of_ne_zero this
      simp [jobOptions, ofMsg, h0, hpos]

/-- The options of the segments are those of messages. -/
theorem mem_of_latestOptions {ms : List DecodeRequest} {n : ℕ} {o : OptionsMsg}
    (h : latestOptions ((segments ms).take n) = some o) : ∃ m ∈ ms, m.options = some o := by
  have hm := List.mem_of_getLast? h
  rw [List.mem_filterMap] at hm
  obtain ⟨seg, hseg, ho⟩ := hm
  obtain ⟨m, hhead, ho⟩ := Option.bind_eq_some_iff.mp ho
  refine ⟨m, ?_, ho⟩
  have : (segments ms).flatten = ms := List.flatten_splitBy _ ms
  rw [← this]
  exact List.mem_flatten.mpr ⟨seg, List.mem_of_mem_take hseg, List.mem_of_head? hhead⟩

/-- The messages read come from the input. -/
theorem reach_read (h : Reach (Call.step B defaults) (Call.new defaults all) t) :
    (∀ m ∈ t.read, some m ∈ all) ∧ ∀ x ∈ t.messages, x ∈ all := by
  refine h.invariant (I := fun t => (∀ m ∈ t.read, some m ∈ all) ∧ ∀ x ∈ t.messages, x ∈ all)
    ⟨nofun, fun _ h => h⟩ ?_
  rintro t l t' ⟨h1, h2⟩ hs
  have hread : ∀ {m : DecodeRequest} {rest : List (Option DecodeRequest)},
      t.messages = some m :: rest →
      (∀ m' ∈ t.read ++ [m], some m' ∈ all) ∧ ∀ x ∈ rest, x ∈ all := by
    intro m rest hm
    refine ⟨fun m' hm' => ?_, fun x hx => h2 x (by rw [hm]; exact List.mem_cons_of_mem _ hx)⟩
    rcases List.mem_append.mp hm' with hm' | hm'
    · exact h1 m' hm'
    · rw [List.mem_singleton.mp hm']; exact h2 _ (by rw [hm]; exact List.mem_cons_self)
  cases call_step_cases hs with
  | message msg rest hp hm => exact hread hm
  | endOfStream hp => exact ⟨h1, fun x hx => h2 x (List.mem_of_mem_tail hx)⟩
  | session hp ho =>
    generalize hms : t.messages = ms₀ at ho
    cases ho with
    | message msg rest => exact hread hms
    | endOfStream =>
      exact ⟨by simpa using h1, fun x hx => h2 x (by rw [hms]; exact List.mem_of_mem_tail hx)⟩
    | _ => exact ⟨by simpa using h1, by rw [← hms]; exact h2⟩
  | _ => exact ⟨h1, h2⟩

/-- **What a call owes to its client and to its decoders.** -/
structure Lawful (defaults : DecodeOptions) (t : Call ε) : Prop where
  /-- Every segment has its decoder, but perhaps the last one, that is being started. -/
  counted : (decoders t).length ≤ (segments t.read).length ∧
    (segments t.read).length ≤ (decoders t).length + 1
  /-- A decoder is sent the data of its segment, each chunk once and in order, then EOF. -/
  supplied : ∀ (i : ℕ) (s : Session ε), (decoders t)[i]? = some s →
    ∃ seg, (segments t.read)[i]? = some seg ∧ Supplied (segmentData seg) s
  /-- All of it was sent before the decoder is drained. -/
  drained : ∀ d msg s, t.phase = .session (.drain d msg) s →
    ∃ seg, (segments t.read)[t.past.length]? = some seg ∧ segmentData seg <+: s.sent
  /-- It was acquired with the options of the latest segment-starting message that has some. -/
  options : ∀ (i : ℕ) (s : Session ε), (decoders t)[i]? = some s →
    Resolves defaults (latestOptions ((segments t.read).take (i + 1))) s.options
  /-- The responses are a beginning of each decoder's audio, one decoder after the other. -/
  responses : ∃ parts, pcmOf t.responses = parts.flatten ∧
    List.Forall₂ (fun part s => part <+: payloads s.pipe.emitted) parts (decoders t)

/-- What was received was emitted. -/
theorem received_emitted {options : DecodeOptions}
    (h : Reach (Session.step B) (acquire options) s) :
    payloads s.received <+: payloads s.pipe.emitted := by
  have hres := results_eq (reach_flow h)
  rw [← payloads_map_mapErr s.pipe.emitted, ← hres]
  simp only [List.append_assoc, payloads_append]
  exact List.prefix_append _ _

/-- **gRPC segments are isolated and ordered**: for every sequence of messages whose options fit,
every behaviour of the pipelines and every schedule, cancellation and closing included. -/
theorem segments_isolated (B : DecodeOptions → Behaviour ε) (defaults : DecodeOptions)
    (all : List (Option DecodeRequest))
    (hsmall : ∀ m, some m ∈ all → ∀ o, m.options = some o → Small o)
    (ls : List (CallLabel ε)) (t : Call ε)
    (h : run (Call.step B defaults) (Call.new defaults all) ls = some t) : Lawful defaults t := by
  have hr := reach_of_run h
  obtain ⟨segs, more, hread, hmore, hsealed⟩ := reach_sealed hr
  obtain ⟨hlen, hget⟩ := hsealed.get
  have hlt : ∀ {i s}, (decoders t)[i]? = some s → i < segs.length := by
    intro i s hi
    rw [hlen]; exact (List.getElem?_eq_some_iff.mp hi).1
  refine ⟨?_, fun i s hi => ?_, fun d msg s hp => ?_, fun i s hi => ?_, ?_⟩
  · rw [hread, List.length_append]; omega
  · obtain ⟨seg, h1, -, h3⟩ := hget i s hi
    exact ⟨seg, by rw [hread, List.getElem?_append_left (hlt hi)]; exact h1, h3⟩
  · have hi := reach_isolates hr
    simp only [Isolates, hp] at hi
    obtain ⟨init, last, seg, hi⟩ := hi
    refine ⟨last, by rw [hi.read, ← hi.past.get.1]; simp, ?_⟩
    have hcut := hi.cut
    cases d with
    | send => rw [hcut.1]
    | poll | returned =>
      have hcut : s.sent = segmentData last ++ [[]] := hcut
      rw [hcut]; exact List.prefix_append _ _
  · obtain ⟨seg, -, h2, -⟩ := hget i s hi
    have htake : (segments t.read).take (i + 1) = segs.take (i + 1) := by
      rw [hread, List.take_append_of_le_length (by have := hlt hi; omega)]
    rw [reach_options h2, htake]
    refine resolves_jobOptions fun o ho => ?_
    rw [← htake] at ho
    obtain ⟨m, hm, hmo⟩ := mem_of_latestOptions ho
    exact hsmall m ((reach_read hr).1 m hm) o hmo
  · obtain ⟨parts, hparts, hrs⟩ := reach_replies hr
    refine ⟨parts, hrs, ?_⟩
    rw [List.forall₂_iff_get] at hparts ⊢
    refine ⟨hparts.1, fun i h1 h2 => ?_⟩
    obtain ⟨seg, -, hreach, -⟩ := hget i ((decoders t).get ⟨i, h2⟩) (by simp)
    exact (hparts.2 i h1 h2).trans (received_emitted hreach)

/-- A call of two segments, up to the data of the second one. -/
def twoSegments : List (CallLabel String) :=
  List.replicate 7 .task ++
    echoRun.filterMap (fun | .inner i => some (.inner i) | .client _ => none) ++
    List.replicate 12 .task

theorem segments_isolated_two : ∃ t : Call String,
    run (Call.step echo {}) (Call.new {} [some ⟨[7], some ⟨8000, 16, 1⟩, false⟩,
      some ⟨[8], none, true⟩]) twoSegments = some t ∧
    pcmOf t.responses = [[7]] ∧ t.past.length = 1 ∧ Lawful {} t := by
  have hrun : (run (Call.step echo {}) (Call.new {} [some ⟨[7], some ⟨8000, 16, 1⟩, false⟩,
      some ⟨[8], none, true⟩]) twoSegments).map (fun t => (pcmOf t.responses, t.past.length)) =
      some ([[7]], 1) := by decide
  obtain ⟨t, ht, he⟩ := Option.map_eq_some_iff.mp hrun
  obtain ⟨h1, h2⟩ := Prod.mk.inj he
  refine ⟨t, ht, h1, h2, segments_isolated echo {} _ ?_ twoSegments t ht⟩
  intro m hm o ho
  simp only [List.mem_cons, Option.some.injEq, List.not_mem_nil, or_false] at hm
  rcases hm with rfl | rfl
  · cases ho; exact ⟨by decide, by decide⟩
  · cases ho

end MediaApi.Grpc.Responses
