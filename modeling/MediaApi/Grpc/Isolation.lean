import MediaApi.Grpc.Segments

/-! # What each decoder of a gRPC call is for

The invariant `Isolates` of a call: the decoders dropped so far are sealed, one for each of the
first segments, and the current decoder belongs to the next one. Until it is dropped it is a
scripted session: the script is the data of its segment in the whole input, of which the messages
read so far are a part. -/

namespace MediaApi.Grpc.Isolation

open MediaApi.Lib.Transition MediaApi.Model.Audio MediaApi.Model.Pipeline MediaApi.Model.ProcessJob
open MediaApi.Model.Steps MediaApi.Model.Options MediaApi.Model.Grpc MediaApi.Pool.Handle
open MediaApi.Pool.Script MediaApi.Grpc.Segments

variable {ε : Type}

/-! ### The invariant -/

/-- The decoder was sent a beginning of the data, each chunk once and in order, and EOF only after
all of it. -/
def Supplied (data : List Bytes) (s : Session ε) : Prop :=
  ∃ qs n, s.sent = qs ++ List.replicate n [] ∧ qs <+: data ∧ (0 < n → qs = data)

/-- The task may still read messages. -/
def Reading : OpenPc → Prop
  | .drain _ none | .reply _ .finish | .drop _ .ended => False
  | _ => True

/-- The segment that has been started while the decoder of the one before is still there. -/
def nextSegment : OpenPc → List (List DecodeRequest)
  | .drain _ (some m) | .drop _ (.segment _ m) => [[m]]
  | _ => []

/-- What has been sent to the decoder of a segment, of which the messages read have the data `data`
and all messages the data `script`. -/
def Cut (pc : OpenPc) (s : Session ε) (data script : List Bytes) : Prop :=
  match pc with
  | .select | .collect _ | .reply _ (.message false) => s.sent = data
  | .send d => s.sent ++ [d] = data
  | .drain .send _ => s.sent = data ∧ data = script
  | .drain _ _ | .reply _ .finish => s.sent = data ++ [[]]
  | .reply _ (.message true) | .drop _ .select => False
  | .drop _ _ => ∃ n, s.sent = data ++ List.replicate n []

variable [ToString ε]

/-- The decoders of finished segments: each was acquired with the options of its segment and sent
its data. -/
inductive Sealed (B : DecodeOptions → Behaviour ε) (defaults : DecodeOptions) :
    List (List DecodeRequest) → List (Session ε) → Prop where
  | nil : Sealed B defaults [] []
  | concat {init : List (List DecodeRequest)} {past : List (Session ε)} {seg : List DecodeRequest}
      {s : Session ε} (h : Sealed B defaults init past)
      (hr : Reach (Session.step B) (acquire (segmentOptions defaults (init ++ [seg]))) s)
      (hs : Supplied (segmentData seg) s) : Sealed B defaults (init ++ [seg]) (past ++ [s])

/-- The current decoder: it belongs to the segment after `init`, of which the messages `last` have
been read and which is `seg` in the whole input. -/
structure Opens (B : DecodeOptions → Behaviour ε) (defaults : DecodeOptions)
    (all : List (Option DecodeRequest)) (t : Call ε) (pc : OpenPc) (s : Session ε)
    (init : List (List DecodeRequest)) (last seg : List DecodeRequest) : Prop where
  past : Sealed B defaults init t.past
  read : segments t.read = init ++ last :: nextSegment pc
  options : t.currentOptions = segmentOptions defaults (init ++ [last])
  whole : ∃ rest, segments (requests all) = init ++ seg :: rest
  begins : last <+: seg ∧ last ≠ []
  stream : Reading pc → requests all = t.read ++ requests t.messages
  cut : Cut pc s (segmentData last) (segmentData seg)
  owns : Owns B t.currentOptions (segmentData seg) pc.dropping s

/-- **The invariant of a call.** -/
def Isolates (B : DecodeOptions → Behaviour ε) (defaults : DecodeOptions)
    (all : List (Option DecodeRequest)) (t : Call ε) : Prop :=
  match t.phase with
  | .idle .select => t.read = [] ∧ t.past = [] ∧ t.currentOptions = defaults ∧ t.messages = all
  | .idle (.reply _ m) | .idle (.acquire m) => ∃ init, segments t.read = init ++ [[m]] ∧
      Sealed B defaults init t.past ∧ t.currentOptions = segmentOptions defaults init ∧
      requests all = t.read ++ requests t.messages
  | .idle .status | .idle .ended => ∃ init more, segments t.read = init ++ more ∧ more.length ≤ 1 ∧
      Sealed B defaults init t.past
  | .session pc s => ∃ init last seg, Opens B defaults all t pc s init last seg

variable {B : DecodeOptions → Behaviour ε} {defaults : DecodeOptions}
  {all ms : List (Option DecodeRequest)} {t t' : Call ε} {pc pc' : OpenPc} {s s' : Session ε}
  {init : List (List DecodeRequest)} {last seg : List DecodeRequest} {out : List Response}
  {read : List DecodeRequest} {l : CallLabel ε}

omit [ToString ε] in
theorem Cut.supplied {data script : List Bytes} (h : Cut pc s data script) : Supplied data s := by
  have key : ∀ n, s.sent = data ++ List.replicate n [] → Supplied data s :=
    fun n hs => ⟨data, n, hs, List.prefix_refl _, fun _ => rfl⟩
  unfold Cut at h
  split at h
  · exact key 0 (by simpa using h)
  · exact key 0 (by simpa using h)
  · exact key 0 (by simpa using h)
  · exact ⟨s.sent, 0, by simp, by rw [← h]; exact List.prefix_append _ _, fun h => by cases h⟩
  · exact key 0 (by simpa using h.1)
  · exact key 1 h
  · exact key 1 h
  · cases h
  · cases h
  · obtain ⟨n, h⟩ := h; exact key n h

/-- With its current decoder the first segments are all sealed. -/
theorem Opens.sealed (h : Opens B defaults all t pc s init last seg) :
    Sealed B defaults (init ++ [last]) (t.past ++ [s]) :=
  h.past.concat (by rw [← h.options]; exact h.owns.reach) h.cut.supplied

/-- While the task reads, the segment at hand is what is left of it in the input. -/
theorem Opens.seg_eq (h : Opens B defaults all t pc s init last seg) (hr : Reading pc)
    (hn : nextSegment pc = []) :
    seg = last ++ (requests t.messages).takeWhile (!·.newSegment) := by
  obtain ⟨rest, hw⟩ := h.whole
  have hread := h.read
  rw [hn] at hread
  rw [h.stream hr, segments_append _ _ init last hread] at hw
  have := List.append_cancel_left hw
  cases this; rfl

/-- The options are those of the segment in the whole input. -/
theorem Opens.options_seg (h : Opens B defaults all t pc s init last seg) :
    t.currentOptions = segmentOptions defaults (init ++ [seg]) := by
  obtain ⟨⟨more, hseg⟩, hne⟩ := h.begins
  have hhead : seg.head? = last.head? := by rw [← hseg, List.head?_append_of_ne_nil _ hne]
  rw [h.options, segmentOptions, segmentOptions, latestOptions_congr init hhead]

/-- A step that reads nothing. -/
theorem Opens.move (h : Opens B defaults all t pc s init last seg)
    (hn : nextSegment pc' = nextSegment pc) (hr : Reading pc' → Reading pc ∧ ms = t.messages)
    (hcut : Cut pc' s' (segmentData last) (segmentData seg))
    (howns : Owns B t.currentOptions (segmentData seg) pc'.dropping s') :
    Isolates B defaults all
      ⟨ms, t.responses ++ out, t.currentOptions, .session pc' s', t.read ++ [], t.past⟩ := by
  refine ⟨init, last, seg, h.past, ?_, h.options, h.whole, h.begins, fun hr' => ?_, hcut, howns⟩
  · rw [hn, List.append_nil]; exact h.read
  · obtain ⟨hr', hms⟩ := hr hr'
    rw [List.append_nil, hms]; exact h.stream hr'

/-- Before the drain the decoder is not closed. -/
theorem Opens.not_closed (h : Opens B defaults all t pc s init last seg) (hd : pc.dropping = none)
    (hs : s.sent = segmentData last) (hc : s.tryRecv = (.closed, s')) : False := by
  obtain ⟨-, -, htx⟩ := tryRecv_closed hc
  have hscript : Scripted B t.currentOptions (segmentData seg) s := by
    have := h.owns
    rw [hd] at this; exact this
  obtain ⟨o, hpc⟩ := (Pool.Forwarding.reach_ending hscript.reach).outputTx.mp htx
  have ho : s.pc.outcome = some o := by rw [hpc]; rfl
  have := (eof_of_over hscript.reach hscript.held ho).2.1
  rw [hs] at this
  exact nil_notMem_segmentData _ this

/-! ### The steps -/

theorem isolates_message {m : DecodeRequest} {rest : List (Option DecodeRequest)}
    (hm : t.messages = some m :: rest) (h : Opens B defaults all t .select s init last seg) :
    Isolates B defaults all ⟨rest, t.responses ++ [], t.currentOptions,
      .session (if m.newSegment then .drain .send (some m) else messagePc m) s, t.read ++ [m],
      t.past⟩ := by
  have hseg := h.seg_eq trivial rfl
  have hread := h.read
  have hcut := h.cut
  have howns := h.owns
  have hstream := h.stream trivial
  rw [hm, requests] at hseg hstream
  have hstream : requests all = (t.read ++ [m]) ++ requests rest := by rw [hstream]; simp
  cases hnew : m.newSegment with
  | true =>
    -- the segment at hand is complete
    have hseg : seg = last := by simpa [hnew] using hseg
    rw [if_pos rfl]
    refine ⟨init, last, seg, h.past, ?_, h.options, h.whole, h.begins, fun _ => hstream, ⟨hcut, ?_⟩,
      howns⟩
    · have := segments_append_new t.read [] hnew
      rw [this, hread, segments_singleton]
      simp [nextSegment]
    · rw [hseg]
  | false =>
    rw [if_neg (by simp)]
    have hlast : last ++ [m] <+: seg := by
      refine ⟨(requests rest).takeWhile (!·.newSegment), ?_⟩
      rw [hseg]; simp [hnew]
    have hnext : nextSegment (messagePc m) = [] := by
      unfold messagePc; split_ifs <;> rfl
    refine ⟨init, last ++ [m], seg, h.past, ?_, ?_, h.whole, ⟨hlast, by simp⟩, fun _ => hstream, ?_,
      ?_⟩
    · rw [hnext]; exact segments_concat hnew hread
    · have hhead : (last ++ [m]).head? = last.head? := by
        rw [List.head?_append_of_ne_nil _ h.begins.2]
      rw [segmentOptions, latestOptions_congr init hhead]; exact h.options
    · rw [segmentData_concat]
      unfold messagePc
      split_ifs with hdata
      · simp only [Cut, hdata, chunks_eof, List.append_nil]; exact hcut
      · simp only [Cut, chunks_singleton hdata]; rw [hcut]
    · unfold messagePc; split_ifs <;> exact howns

/-- A step of the drain. -/
theorem isolates_drain {d d' : DrainPc} {msg : Option DecodeRequest}
    (h : Opens B defaults all t (.drain d msg) s init last seg)
    (hs : drainStep s d = some (d', s')) :
    Isolates B defaults all ⟨t.messages, t.responses ++ [], t.currentOptions,
      .session (.drain d' msg) s', t.read ++ [], t.past⟩ := by
  have hscript : Scripted B t.currentOptions (segmentData seg) s := h.owns
  have hcut := h.cut
  have hn : nextSegment (.drain d' msg) = nextSegment (.drain d msg) := by cases msg <;> rfl
  have hr : Reading (.drain d' msg) → Reading (.drain d msg) ∧ t.messages = t.messages := by
    cases msg <;> exact fun h => ⟨h, rfl⟩
  cases drain_cases hs with
  | send ok _ hsend =>
    obtain ⟨hsent, hfull⟩ := hcut
    have hok : ok = true :=
      hscript.send_ok (by rw [hsent]; exact nil_notMem_segmentData _) hsend
    subst hok
    have hs := hscript.send (by rw [hsent, hfull]) hsend
    exact h.move hn hr (by simp only [Cut, send_sent hsend, hsent]) hs
  | item tries tries' pcmChunks i _ hrecv =>
    exact h.move hn hr (by simp only [Cut, tryRecv_sent hrecv]; exact hcut)
      (hscript.tryRecv hrecv)
  | empty | giveUp | closed => exact h.move hn hr hcut hscript

/-- A step of dropping the handle. -/
theorem isolates_drop {d d' : DropPc} {after : AfterDrop}
    (h : Opens B defaults all t (.drop d after) s init last seg)
    (hs : s.dropStep d = some (d', s')) :
    Isolates B defaults all ⟨t.messages, t.responses ++ [], t.currentOptions,
      .session (.drop d' after) s', t.read ++ [], t.past⟩ := by
  have hcut := h.cut
  have hsent : ∃ n, s'.sent = s.sent ++ List.replicate n [] := by
    cases d with
    | send =>
      obtain ⟨⟨ok, m⟩, hsend, he⟩ := Option.map_eq_some_iff.mp hs
      cases he
      rcases send_cases hsend with ⟨-, -, -, c, -, hm⟩ | ⟨-, -, hm⟩
      · exact ⟨1, by rw [hm]; rfl⟩
      · exact ⟨0, by simp [hm]⟩
    | tx => cases hs; exact ⟨0, by simp [Session.dropTx]⟩
    | rx => cases hs; exact ⟨0, by simp [Session.dropRx]⟩
    | dropped => cases hs
  refine h.move (by cases after <;> rfl) (by cases after <;> exact fun h => ⟨h, rfl⟩) ?_
    (h.owns.drop hs)
  obtain ⟨n, hn⟩ := hsent
  cases after with
  | select => exact hcut
  | segment pcmChunks msg | ended =>
    obtain ⟨k, hk⟩ := hcut
    exact ⟨k + n, by rw [hn, hk, List.append_assoc, List.replicate_add]⟩

/-- **A step of the task with its decoder.** -/
theorem isolates_open {ms₀ : List (Option DecodeRequest)} (hms : t.messages = ms₀)
    (h : Opens B defaults all t pc s init last seg) (hs : OpenStep pc s ms₀ ms read out pc' s') :
    Isolates B defaults all
      ⟨ms, t.responses ++ out, t.currentOptions, .session pc' s', t.read ++ read, t.past⟩ := by
  have hcut := h.cut
  have hmono := segmentData_mono h.begins.1
  cases hs with
  | message msg rest hpc => subst hpc; exact isolates_message hms h
  | endOfStream _ hpc hnone =>
    subst hpc
    have hreq : requests t.messages = [] := by
      cases hm : t.messages with
      | nil => rfl
      | cons m rest => cases m with
        | none => rfl
        | some m => exact absurd (hms ▸ hm) (hnone m rest)
    have hseg : seg = last := by simpa [hreq] using h.seg_eq trivial rfl
    exact h.move rfl nofun ⟨hcut, by rw [hseg]⟩ h.owns
  | drain d d' msg _ _ hpc hd => subst hpc hms; exact isolates_drain h hd
  | drained pcmChunks msg _ hpc =>
    subst hpc hms
    cases msg with
    | some m =>
      exact h.move rfl (fun h => ⟨h, rfl⟩) ⟨1, hcut⟩ h.owns
    | none => exact h.move rfl nofun hcut h.owns
  | send data _ _ hpc hsend =>
    subst hpc hms
    have hcut : s.sent ++ [data] = segmentData last := hcut
    have hs := Scripted.send h.owns (hcut ▸ hmono.trans (List.prefix_append _ _)) hsend
    exact h.move rfl (fun _ => ⟨trivial, rfl⟩) (by simp only [Cut, send_sent hsend]; exact hcut)
      hs
  | sendErr data _ _ hpc hsend =>
    subst hpc
    have hcut : s.sent ++ [data] = segmentData last := hcut
    have := Scripted.send_ok h.owns (fun hm => nil_notMem_segmentData last
      (by rw [← hcut]; exact List.mem_append_left _ hm)) hsend
    cases this
  | collect pcmChunks i _ _ hpc hrecv =>
    subst hpc hms
    exact h.move rfl (fun _ => ⟨trivial, rfl⟩) (by simp only [Cut, tryRecv_sent hrecv]; exact hcut)
      (Scripted.tryRecv h.owns hrecv)
  | collected pcmChunks decoderClosed _ hpc hrecv =>
    subst hpc hms
    cases decoderClosed with
    | true => exact absurd hrecv fun hc => h.not_closed rfl hcut hc
    | false => exact h.move rfl (fun _ => ⟨trivial, rfl⟩) hcut h.owns
  | reply pcm pcmChunks after _ hpc =>
    subst hpc hms
    refine h.move rfl (by cases after <;> exact fun h => ⟨h, rfl⟩) ?_ h.owns
    cases after with
    | message decoderClosed => cases decoderClosed <;> exact hcut
    | finish => exact hcut
  | replied after _ hpc =>
    subst hpc hms
    cases after with
    | message decoderClosed =>
      cases decoderClosed with
      | true => cases hcut
      | false => exact h.move rfl (fun _ => ⟨trivial, rfl⟩) hcut h.owns
    | finish => exact h.move rfl nofun ⟨1, hcut⟩ h.owns
  | drop d d' after _ _ hpc hd => subst hpc hms; exact isolates_drop h hd

/-- A step behind the decoder. -/
theorem Opens.inner {i : Inner ε} (h : Opens B defaults all t pc s init last seg)
    (hi : s.inner B i = some s') :
    Opens B defaults all { t with phase := .session pc s' } pc s' init last seg := by
  obtain ⟨hsent, -⟩ := inner_keeps hi
  refine ⟨h.past, h.read, h.options, h.whole, h.begins, h.stream, ?_, h.owns.inner hi⟩
  have := h.cut
  simp only [Cut, hsent] at this ⊢; exact this

/-- The decoder of a segment is acquired. -/
theorem isolates_acquire {m : DecodeRequest} (hread : segments t.read = init ++ [[m]])
    (hpast : Sealed B defaults init t.past) (hopt : t.currentOptions = segmentOptions defaults init)
    (hall : requests all = t.read ++ requests t.messages) :
    Isolates B defaults all { t with
      currentOptions := updateOptions defaults t.currentOptions m
      phase := .session (messagePc m) (acquire (updateOptions defaults t.currentOptions m)) } := by
  have hnext : nextSegment (messagePc m) = [] := by unfold messagePc; split_ifs <;> rfl
  have hwhole := segments_append (requests t.messages) t.read init [m] hread
  rw [← hall] at hwhole
  refine ⟨init, [m], _, hpast, by rw [hnext]; exact hread, ?_, ⟨_, hwhole⟩,
    ⟨List.prefix_append _ _, by simp⟩, fun _ => hall, ?_, ?_⟩
  · show updateOptions defaults t.currentOptions m = _
    rw [hopt]; exact updateOptions_eq defaults init m
  · unfold messagePc
    split_ifs with hdata
    · simp [Cut, acquire, segmentData, hdata]
    · simp [Cut, acquire, segmentData, chunks_singleton hdata]
  · unfold messagePc; split_ifs <;> exact scripted_acquire

/-- The task returns while it has a decoder. -/
theorem isolates_leave (h : Opens B defaults all t pc s init last seg)
    (hpc : pc = .select ∨ ∃ pcm pcmChunks after, pc = .reply (pcm :: pcmChunks) after) :
    Isolates B defaults all { t with phase := .session (.drop .send .ended) s } := by
  have howns : Owns B t.currentOptions (segmentData seg) none s := by
    have := h.owns
    rcases hpc with rfl | ⟨pcm, pcmChunks, after, rfl⟩ <;> exact this
  have hn : nextSegment pc = [] := by
    rcases hpc with rfl | ⟨pcm, pcmChunks, after, rfl⟩ <;> rfl
  have hread := h.read
  rw [hn] at hread
  refine ⟨init, last, seg, h.past, hread, h.options, h.whole, h.begins, nofun, ?_, howns⟩
  have hcut := h.cut
  rcases hpc with rfl | ⟨pcm, pcmChunks, after, rfl⟩
  · exact ⟨0, by simpa [Cut] using hcut⟩
  · cases after with
    | message decoderClosed =>
      cases decoderClosed with
      | true => cases hcut
      | false => exact ⟨0, by simpa [Cut] using hcut⟩
    | finish => exact ⟨1, hcut⟩

/-- **A step of a call.** -/
theorem isolates_step (h : Isolates B defaults all t) (hs : t.step B defaults l = some t') :
    Isolates B defaults all t' := by
  cases call_step_cases hs with
  | message msg rest hp hm =>
    simp only [Isolates, hp] at h
    obtain ⟨hread, hpast, hopt, hall⟩ := h
    refine ⟨[], by rw [hread]; exact segments_singleton msg, by rw [hpast]; exact .nil, hopt, ?_⟩
    rw [hread, ← hall, hm]; rfl
  | endOfStream hp =>
    simp only [Isolates, hp] at h
    obtain ⟨hread, hpast, -, -⟩ := h
    exact ⟨[], [], by rw [hread]; rfl, by simp, by rw [hpast]; exact .nil⟩
  | replied msg hp =>
    simp only [Isolates, hp] at h
    exact h
  | reply pcm pcmChunks msg hp =>
    simp only [Isolates, hp] at h
    exact h
  | acquire msg hp =>
    simp only [Isolates, hp] at h
    obtain ⟨init, hread, hpast, hopt, hall⟩ := h
    exact isolates_acquire hread hpast hopt hall
  | status hp =>
    simp only [Isolates, hp] at h
    exact h
  | session hp ho =>
    simp only [Isolates, hp] at h
    obtain ⟨init, last, seg, h⟩ := h
    exact isolates_open rfl h ho
  | dropped after s hp =>
    simp only [Isolates, hp] at h
    obtain ⟨init, last, seg, h⟩ := h
    have hread := h.read
    cases after with
    | segment pcmChunks m =>
      exact ⟨init ++ [last], by rw [hread]; simp [nextSegment], h.sealed, h.options,
        h.stream trivial⟩
    | select => exact absurd h.cut id
    | ended => exact ⟨init ++ [last], [], by rw [hread]; simp [nextSegment], by simp, h.sealed⟩
  | leaveIdle l pc hp hpc =>
    simp only [Isolates, hp] at h
    cases pc with
    | select =>
      obtain ⟨hread, hpast, -, -⟩ := h
      exact ⟨[], [], by rw [hread]; rfl, by simp, by rw [hpast]; exact .nil⟩
    | reply pcmChunks m | acquire m =>
      obtain ⟨init, hread, hpast, -, -⟩ := h
      exact ⟨init, [[m]], hread, by simp, hpast⟩
    | status => exact h
    | ended => exact absurd rfl hpc
  | leave l pc s hp hpc =>
    simp only [Isolates, hp] at h
    obtain ⟨init, last, seg, h⟩ := h
    exact isolates_leave h hpc
  | acquireErr msg hp =>
    simp only [Isolates, hp] at h
    obtain ⟨init, hread, hpast, -, -⟩ := h
    exact ⟨init, [[msg]], hread, by simp, hpast⟩
  | inner i pc s s' hp hi =>
    simp only [Isolates, hp] at h
    obtain ⟨init, last, seg, h⟩ := h
    exact ⟨init, last, seg, h.inner hi⟩

theorem reach_isolates (h : Reach (Call.step B defaults) (Call.new defaults all) t) :
    Isolates B defaults all t :=
  h.invariant ⟨rfl, rfl, rfl, rfl⟩ fun _ _ _ hI hs => isolates_step hI hs

/-! ### The decoders of a call -/

/-- A sealed decoder, by its number. -/
theorem Sealed.get {segs : List (List DecodeRequest)} {ss : List (Session ε)}
    (h : Sealed B defaults segs ss) : segs.length = ss.length ∧ ∀ i s, ss[i]? = some s →
      ∃ seg, segs[i]? = some seg ∧
        Reach (Session.step B) (acquire (segmentOptions defaults (segs.take (i + 1)))) s ∧
        Supplied (segmentData seg) s := by
  induction h with
  | nil => exact ⟨rfl, fun i s h => by simp at h⟩
  | @concat init past seg s h hr hs ih =>
    obtain ⟨hlen, ih⟩ := ih
    refine ⟨by simp [hlen], fun i s' hi => ?_⟩
    by_cases hlt : i < past.length
    · rw [List.getElem?_append_left hlt] at hi
      obtain ⟨seg', h1, h2, h3⟩ := ih i s' hi
      refine ⟨seg', by rw [List.getElem?_append_left (by omega)]; exact h1, ?_, h3⟩
      rw [List.take_append_of_le_length (by omega)]; exact h2
    · have hi' : i = past.length := by
        have := (List.getElem?_eq_some_iff.mp hi).1
        simp only [List.length_append, List.length_singleton] at this
        omega
      subst hi'
      simp only [List.getElem?_concat_length, Option.some.injEq] at hi
      subst hi
      refine ⟨seg, by rw [← hlen]; simp, ?_, hs⟩
      rw [← hlen, List.take_of_length_le (by simp)]; exact hr

/-- The decoders of a call, the current one last. -/
def decoders (t : Call ε) : List (Session ε) := t.past ++ t.decoder.toList

/-- **Every decoder of a call belongs to a segment**, and at most the last segment has none yet. -/
theorem reach_sealed (h : Reach (Call.step B defaults) (Call.new defaults all) t) :
    ∃ segs more, segments t.read = segs ++ more ∧ more.length ≤ 1 ∧
      Sealed B defaults segs (decoders t) := by
  have hi := reach_isolates h
  have hidle : ∀ {pc : IdlePc}, t.phase = .idle pc → decoders t = t.past := by
    intro pc hp
    simp [decoders, Call.decoder, hp]
  unfold Isolates at hi
  split at hi
  · next hp =>
    obtain ⟨hread, hpast, -, -⟩ := hi
    exact ⟨[], [], by rw [hread]; rfl, by simp, by rw [hidle hp, hpast]; exact .nil⟩
  · next c m hp =>
    obtain ⟨init, hread, hpast, -, -⟩ := hi
    exact ⟨init, [[m]], hread, by simp, by rw [hidle hp]; exact hpast⟩
  · next m hp =>
    obtain ⟨init, hread, hpast, -, -⟩ := hi
    exact ⟨init, [[m]], hread, by simp, by rw [hidle hp]; exact hpast⟩
  · next hp => rw [hidle hp]; exact hi
  · next hp => rw [hidle hp]; exact hi
  · next pc s hp =>
    obtain ⟨init, last, seg, h⟩ := hi
    have hdec : decoders t = t.past ++ [s] := by simp [decoders, Call.decoder, hp]
    refine ⟨init ++ [last], nextSegment pc, by rw [h.read]; simp, ?_, by rw [hdec]; exact h.sealed⟩
    unfold nextSegment; split <;> simp

end MediaApi.Grpc.Isolation
