import MediaApi.Model.Options
import MediaApi.Model.Steps

/-! # The gRPC front end

`GrpcDecodeService::decode` spawns one task for each call. It carries the current decoder and the
current options through the stream of request messages; a message with `new_segment`, and any
message that finds no decoder, drains the decoder (`drain_decoder_sync`), drops it, and acquires a
new one. `Call` is the task between two of its atomic actions. Labels: the task itself, the shutdown
token, the closing of the response channel (a `tx.send` fails), a failing `acquire`, and the parties
behind the current decoder.

`read` and `past` only record the messages read and the decoders dropped so far. -/

namespace MediaApi.Model.Grpc

open MediaApi.Lib.Channel MediaApi.Model.Audio MediaApi.Model.Pipeline MediaApi.Model.ProcessJob
open MediaApi.Model.Steps MediaApi.Model.Options

variable {ε : Type}

/-- `decode::DecodeRequest`. -/
structure DecodeRequest where
  data : Bytes
  options : Option OptionsMsg
  newSegment : Bool
deriving DecidableEq, Repr

/-- What is put into the response channel: a PCM chunk, or the status of a failed `acquire`. -/
inductive Response where
  | pcm (data : Bytes)
  | resourceExhausted
deriving DecidableEq, Repr

/-! ### `drain_decoder_sync` -/

/-- The program point of `drain_decoder_sync`. -/
inductive DrainPc where
  /-- `let _ = decoder.send(Bytes::new())`. -/
  | send
  /-- `decoder.try_recv()`, after `tries` empty polls since the last PCM chunk. -/
  | poll (tries : ℕ) (pcmChunks : List Bytes)
  | returned (pcmChunks : List Bytes)
deriving DecidableEq

/-- The number of empty polls after which the drain stops at the next one. -/
abbrev maxTries : ℕ := 10

/-- A step of `drain_decoder_sync`; `none` while its send blocks, and once it has returned. -/
def drainStep (s : Session ε) : DrainPc → Option (DrainPc × Session ε)
  | .send => (s.send []).map fun r => (.poll 0 [], r.2)
  | .poll tries pcmChunks =>
    match s.tryRecv with
    | (.item (.ok a), s') => some (.poll 0 (pcmChunks ++ [a.data]), s')
    | (.item (.error _), s') => some (.poll tries pcmChunks, s')
    | (.empty, s') =>
      if tries + 1 > maxTries then some (.returned pcmChunks, s')
      else some (.poll (tries + 1) pcmChunks, s')
    | (.closed, s') => some (.returned pcmChunks, s')
  | .returned _ => none

/-! ### The task -/

/-- What follows when the collected chunks of a message, or of the final drain, are sent. -/
inductive AfterReply where
  | message (decoderClosed : Bool)
  | finish
deriving DecidableEq

/-- What follows when the decoder is dropped. -/
inductive AfterDrop where
  /-- The segment switch goes on with the drained chunks and the message that starts the segment. -/
  | segment (pcmChunks : List Bytes) (msg : DecodeRequest)
  | select
  | ended
deriving DecidableEq

/-- The program point while there is no current decoder. -/
inductive IdlePc where
  /-- `tokio::select!`. -/
  | select
  /-- `tx.send(..).await` for the chunks of the segment before. -/
  | reply (pcmChunks : List Bytes) (msg : DecodeRequest)
  /-- The options are updated, then `decoder_pool.acquire(current_options.clone())`. -/
  | acquire (msg : DecodeRequest)
  /-- `tx.send(Err(Status::resource_exhausted(..))).await`. -/
  | status
  | ended
deriving DecidableEq

/-- The program point while there is a decoder. -/
inductive OpenPc where
  | select
  /-- `drain_decoder_sync`, for the message that starts the next segment, or at the end. -/
  | drain (d : DrainPc) (msg : Option DecodeRequest)
  /-- `decoder.send(Bytes::from(msg.data))`. -/
  | send (data : Bytes)
  /-- `decoder.try_recv()`. -/
  | collect (pcmChunks : List Bytes)
  | reply (pcmChunks : List Bytes) (after : AfterReply)
  | drop (d : DropPc) (after : AfterDrop)
deriving DecidableEq

/-- Which step of dropping the decoder the task is at. -/
def OpenPc.dropping : OpenPc → Option DropPc
  | .drop d _ => some d
  | _ => none

/-- Where the task is, with `current_decoder` if there is one. -/
inductive Phase (ε : Type) where
  | idle (pc : IdlePc)
  | session (pc : OpenPc) (decoder : Session ε)
deriving DecidableEq

/-- The task of one call: the messages to come (`none` is an error of the input stream), what was
put into the response channel, and the locals. -/
structure Call (ε : Type) where
  messages : List (Option DecodeRequest)
  responses : List Response
  currentOptions : DecodeOptions
  phase : Phase ε
  read : List DecodeRequest
  past : List (Session ε)
deriving DecidableEq

def Call.new (defaults : DecodeOptions) (messages : List (Option DecodeRequest)) : Call ε :=
  ⟨messages, [], defaults, .idle .select, [], []⟩

/-- The current decoder. -/
def Call.decoder (t : Call ε) : Option (Session ε) :=
  match t.phase with
  | .session _ s => some s
  | .idle _ => none

/-- Where a message leads that has a decoder: its data is sent, unless it is empty. -/
def messagePc (msg : DecodeRequest) : OpenPc :=
  if msg.data = [] then .collect [] else .send msg.data

/-- `current_options`, updated by a message that starts a segment. -/
def updateOptions (defaults current : DecodeOptions) (msg : DecodeRequest) : DecodeOptions :=
  match msg.options with
  | some o => ofMsg defaults o
  | none => current

/-- The task goes where a dropped decoder leaves it. -/
def AfterDrop.pc : AfterDrop → IdlePc
  | .segment pcmChunks msg => .reply pcmChunks msg
  | .select => .select
  | .ended => .ended

/-- Where the task goes when a reply is sent. -/
def AfterReply.pc : AfterReply → OpenPc
  | .message decoderClosed => if decoderClosed then .drop .send .select else .select
  | .finish => .drop .send .ended

/-- Where a finished drain leads. -/
def drainedPc (pcmChunks : List Bytes) : Option DecodeRequest → OpenPc
  | some msg => .drop .send (.segment pcmChunks msg)
  | none => .reply pcmChunks .finish

/-- The task's next step without a decoder. -/
def Call.idle (defaults : DecodeOptions) (t : Call ε) : IdlePc → Option (Call ε)
  | .select =>
    match t.messages with
    | some msg :: rest =>
      some { t with messages := rest, read := t.read ++ [msg], phase := .idle (.acquire msg) }
    | none :: rest => some { t with messages := rest, phase := .idle .ended }
    | [] => some { t with phase := .idle .ended }
  | .reply [] msg => some { t with phase := .idle (.acquire msg) }
  | .reply (pcm :: pcmChunks) msg =>
    some { t with responses := t.responses ++ [.pcm pcm], phase := .idle (.reply pcmChunks msg) }
  | .acquire msg =>
    let options := updateOptions defaults t.currentOptions msg
    some { t with currentOptions := options, phase := .session (messagePc msg) (acquire options) }
  | .status =>
    some { t with responses := t.responses ++ [.resourceExhausted], phase := .idle .ended }
  | .ended => none

/-- The task's next step with its decoder. -/
def Call.session (t : Call ε) (s : Session ε) : OpenPc → Option (Call ε)
  | .select =>
    match t.messages with
    | some msg :: rest =>
      some { t with
        messages := rest
        read := t.read ++ [msg]
        phase := .session (if msg.newSegment then .drain .send (some msg) else messagePc msg) s }
    | none :: rest => some { t with messages := rest, phase := .session (.drain .send none) s }
    | [] => some { t with phase := .session (.drain .send none) s }
  | .drain (.returned pcmChunks) msg =>
      some { t with phase := .session (drainedPc pcmChunks msg) s }
  | .drain d msg => (drainStep s d).map fun r => { t with phase := .session (.drain r.1 msg) r.2 }
  | .send data =>
    (s.send data).map fun r =>
      { t with phase := .session (if r.1 then .collect [] else .drop .send .select) r.2 }
  | .collect pcmChunks =>
    match s.tryRecv with
    | (.item (.ok a), s') => some { t with phase := .session (.collect (pcmChunks ++ [a.data])) s' }
    | (.item (.error _), s') => some { t with phase := .session (.collect pcmChunks) s' }
    | (.empty, s') => some { t with phase := .session (.reply pcmChunks (.message false)) s' }
    | (.closed, s') => some { t with phase := .session (.reply pcmChunks (.message true)) s' }
  | .reply [] after => some { t with phase := .session after.pc s }
  | .reply (pcm :: pcmChunks) after =>
    some { t with
      responses := t.responses ++ [.pcm pcm], phase := .session (.reply pcmChunks after) s }
  | .drop .dropped after => some { t with past := t.past ++ [s], phase := .idle after.pc }
  | .drop d after => (s.dropStep d).map fun r => { t with phase := .session (.drop r.1 after) r.2 }

/-- The task returns; a current decoder is dropped. -/
def Call.leave (t : Call ε) : Call ε :=
  match t.phase with
  | .idle _ => { t with phase := .idle .ended }
  | .session _ s => { t with phase := .session (.drop .send .ended) s }

/-- The shutdown token is cancelled while the task waits in `select!`. -/
def Call.cancelled (t : Call ε) : Option (Call ε) :=
  match t.phase with
  | .idle .select | .session .select _ => some t.leave
  | _ => none

/-- The response channel is closed: a `tx.send` fails. -/
def Call.closed (t : Call ε) : Option (Call ε) :=
  match t.phase with
  | .idle (.reply (_ :: _) _) | .idle .status | .session (.reply (_ :: _) _) _ => some t.leave
  | _ => none

inductive CallLabel (ε : Type) where
  | task
  | cancelled
  | closed
  | acquireErr
  | inner (i : Inner ε)
deriving DecidableEq

variable [ToString ε]

/-- **A step of a call** and of what is behind its decoder. -/
def Call.step (B : DecodeOptions → Behaviour ε) (defaults : DecodeOptions) (t : Call ε) :
    CallLabel ε → Option (Call ε)
  | .task =>
    match t.phase with
    | .idle pc => t.idle defaults pc
    | .session pc s => t.session s pc
  | .cancelled => t.cancelled
  | .closed => t.closed
  | .acquireErr =>
    match t.phase with
    | .idle (.acquire msg) =>
      some { t with
        currentOptions := updateOptions defaults t.currentOptions msg, phase := .idle .status }
    | _ => none
  | .inner i =>
    match t.phase with
    | .session pc s => (s.inner B i).map fun s' => { t with phase := .session pc s' }
    | .idle _ => none

/-! ### The steps by name -/

/-- The steps of `drain_decoder_sync`. -/
inductive DrainStep (s : Session ε) : DrainPc → DrainPc → Session ε → Prop where
  | send (ok : Bool) (s' : Session ε) (h : s.send [] = some (ok, s')) :
      DrainStep s .send (.poll 0 []) s'
  | item (tries tries' : ℕ) (pcmChunks : List Bytes) (i : Item) (s' : Session ε)
      (h : s.tryRecv = (.item i, s')) :
      DrainStep s (.poll tries pcmChunks) (.poll tries' (pcmChunks ++ payloads [i])) s'
  | empty (tries : ℕ) (pcmChunks : List Bytes) (hle : tries + 1 ≤ maxTries)
      (h : s.tryRecv = (.empty, s)) :
      DrainStep s (.poll tries pcmChunks) (.poll (tries + 1) pcmChunks) s
  | giveUp (tries : ℕ) (pcmChunks : List Bytes) (hlt : maxTries < tries + 1)
      (h : s.tryRecv = (.empty, s)) :
      DrainStep s (.poll tries pcmChunks) (.returned pcmChunks) s
  | closed (tries : ℕ) (pcmChunks : List Bytes) (h : s.tryRecv = (.closed, s)) :
      DrainStep s (.poll tries pcmChunks) (.returned pcmChunks) s

omit [ToString ε] in
theorem drain_cases {s s' : Session ε} {d d' : DrainPc} (h : drainStep s d = some (d', s')) :
    DrainStep s d d' s' := by
  unfold drainStep at h
  split at h
  · obtain ⟨⟨ok, m⟩, hs, he⟩ := Option.map_eq_some_iff.mp h
    cases he; exact .send ok _ hs
  · next tries pcmChunks =>
    split at h
    · next a m hs => cases h; exact .item tries 0 pcmChunks (.ok a) _ hs
    · next e m hs =>
      cases h
      have := DrainStep.item tries tries pcmChunks (.error e) _ hs
      rwa [payloads_error, List.append_nil] at this
    · next m hs =>
      obtain rfl := tryRecv_same (by simp) hs
      split_ifs at h with ht
      · cases h; exact .giveUp tries pcmChunks ht hs
      · cases h; exact .empty tries pcmChunks (Nat.le_of_not_lt ht) hs
    · next m hs =>
      obtain rfl := tryRecv_same (by simp) hs
      cases h; exact .closed tries pcmChunks hs
  · cases h

/-- The steps of the task with its decoder: the messages before and after, the message read, the
responses, the program point and the decoder. -/
inductive OpenStep (pc : OpenPc) (s : Session ε) : List (Option DecodeRequest) →
    List (Option DecodeRequest) → List DecodeRequest → List Response → OpenPc → Session ε →
      Prop where
  | message (msg : DecodeRequest) (rest : List (Option DecodeRequest)) (hpc : pc = .select) :
      OpenStep pc s (some msg :: rest) rest [msg] []
        (if msg.newSegment then .drain .send (some msg) else messagePc msg) s
  | endOfStream (ms : List (Option DecodeRequest)) (hpc : pc = .select)
      (hms : ∀ msg rest, ms ≠ some msg :: rest) :
      OpenStep pc s ms ms.tail [] [] (.drain .send none) s
  | drain (d d' : DrainPc) (msg : Option DecodeRequest) (s' : Session ε)
      (ms : List (Option DecodeRequest)) (hpc : pc = .drain d msg)
      (h : drainStep s d = some (d', s')) : OpenStep pc s ms ms [] [] (.drain d' msg) s'
  | drained (pcmChunks : List Bytes) (msg : Option DecodeRequest)
      (ms : List (Option DecodeRequest)) (hpc : pc = .drain (.returned pcmChunks) msg) :
      OpenStep pc s ms ms [] [] (drainedPc pcmChunks msg) s
  | send (data : Bytes) (s' : Session ε) (ms : List (Option DecodeRequest)) (hpc : pc = .send data)
      (h : s.send data = some (true, s')) : OpenStep pc s ms ms [] [] (.collect []) s'
  | sendErr (data : Bytes) (s' : Session ε) (ms : List (Option DecodeRequest))
      (hpc : pc = .send data)
      (h : s.send data = some (false, s')) : OpenStep pc s ms ms [] [] (.drop .send .select) s'
  | collect (pcmChunks : List Bytes) (i : Item) (s' : Session ε) (ms : List (Option DecodeRequest))
      (hpc : pc = .collect pcmChunks) (h : s.tryRecv = (.item i, s')) :
      OpenStep pc s ms ms [] [] (.collect (pcmChunks ++ payloads [i])) s'
  | collected (pcmChunks : List Bytes) (decoderClosed : Bool) (ms : List (Option DecodeRequest))
      (hpc : pc = .collect pcmChunks)
      (h : s.tryRecv = (if decoderClosed then .closed else .empty, s)) :
      OpenStep pc s ms ms [] [] (.reply pcmChunks (.message decoderClosed)) s
  | reply (pcm : Bytes) (pcmChunks : List Bytes) (after : AfterReply)
      (ms : List (Option DecodeRequest)) (hpc : pc = .reply (pcm :: pcmChunks) after) :
      OpenStep pc s ms ms [] [.pcm pcm] (.reply pcmChunks after) s
  | replied (after : AfterReply) (ms : List (Option DecodeRequest)) (hpc : pc = .reply [] after) :
      OpenStep pc s ms ms [] [] after.pc s
  | drop (d d' : DropPc) (after : AfterDrop) (s' : Session ε) (ms : List (Option DecodeRequest))
      (hpc : pc = .drop d after) (h : s.dropStep d = some (d', s')) :
      OpenStep pc s ms ms [] [] (.drop d' after) s'

/-- The steps of a call. -/
inductive CallStep (B : DecodeOptions → Behaviour ε) (defaults : DecodeOptions) (t : Call ε) :
    CallLabel ε → Call ε → Prop where
  | message (msg : DecodeRequest) (rest : List (Option DecodeRequest))
      (hp : t.phase = .idle .select)
      (hm : t.messages = some msg :: rest) :
      CallStep B defaults t .task
        { t with messages := rest, read := t.read ++ [msg], phase := .idle (.acquire msg) }
  | endOfStream (hp : t.phase = .idle .select) :
      CallStep B defaults t .task { t with messages := t.messages.tail, phase := .idle .ended }
  | replied (msg : DecodeRequest) (hp : t.phase = .idle (.reply [] msg)) :
      CallStep B defaults t .task { t with phase := .idle (.acquire msg) }
  | reply (pcm : Bytes) (pcmChunks : List Bytes) (msg : DecodeRequest)
      (hp : t.phase = .idle (.reply (pcm :: pcmChunks) msg)) :
      CallStep B defaults t .task
        { t with responses := t.responses ++ [.pcm pcm], phase := .idle (.reply pcmChunks msg) }
  | acquire (msg : DecodeRequest) (hp : t.phase = .idle (.acquire msg)) :
      CallStep B defaults t .task { t with
        currentOptions := updateOptions defaults t.currentOptions msg
        phase := .session (messagePc msg) (acquire (updateOptions defaults t.currentOptions msg)) }
  | status (hp : t.phase = .idle .status) :
      CallStep B defaults t .task
        { t with responses := t.responses ++ [.resourceExhausted], phase := .idle .ended }
  | session {pc pc' : OpenPc} {s s' : Session ε} {ms : List (Option DecodeRequest)}
      {read : List DecodeRequest} {out : List Response} (hp : t.phase = .session pc s)
      (h : OpenStep pc s t.messages ms read out pc' s') :
      CallStep B defaults t .task
        ⟨ms, t.responses ++ out, t.currentOptions, .session pc' s', t.read ++ read, t.past⟩
  | dropped (after : AfterDrop) (s : Session ε) (hp : t.phase = .session (.drop .dropped after) s) :
      CallStep B defaults t .task { t with past := t.past ++ [s], phase := .idle after.pc }
  | leaveIdle (l : CallLabel ε) (pc : IdlePc) (hp : t.phase = .idle pc) (hpc : pc ≠ .ended) :
      CallStep B defaults t l { t with phase := .idle .ended }
  | leave (l : CallLabel ε) (pc : OpenPc) (s : Session ε) (hp : t.phase = .session pc s)
      (hpc : pc = .select ∨ ∃ pcm pcmChunks after, pc = .reply (pcm :: pcmChunks) after) :
      CallStep B defaults t l { t with phase := .session (.drop .send .ended) s }
  | acquireErr (msg : DecodeRequest) (hp : t.phase = .idle (.acquire msg)) :
      CallStep B defaults t .acquireErr
        { t with
          currentOptions := updateOptions defaults t.currentOptions msg, phase := .idle .status }
  | inner (i : Inner ε) (pc : OpenPc) (s s' : Session ε) (hp : t.phase = .session pc s)
      (h : s.inner B i = some s') :
      CallStep B defaults t (.inner i) { t with phase := .session pc s' }

variable {B : DecodeOptions → Behaviour ε} {defaults : DecodeOptions} {t t' : Call ε}
  {l : CallLabel ε}

theorem idle_cases {pc : IdlePc} (hp : t.phase = .idle pc) (h : t.idle defaults pc = some t') :
    CallStep B defaults t .task t' := by
  unfold Call.idle at h
  split at h
  · split at h
    · next msg rest hm => cases h; exact .message msg rest hp hm
    · next rest hm =>
      cases h
      have : CallStep B defaults t .task _ := .endOfStream hp
      simpa [hm] using this
    · next hm =>
      cases h
      have : CallStep B defaults t .task _ := .endOfStream hp
      simpa [hm] using this
  · next msg => cases h; exact .replied msg hp
  · next pcm pcmChunks msg => cases h; exact .reply pcm pcmChunks msg hp
  · next msg => cases h; exact .acquire msg hp
  · cases h; exact .status hp
  · cases h

theorem session_cases {pc : OpenPc} {s : Session ε} (hp : t.phase = .session pc s)
    (h : t.session s pc = some t') : CallStep B defaults t .task t' := by
  -- a step that reads no message and sends no response
  have quiet : ∀ {pc' : OpenPc} {s' : Session ε},
      OpenStep pc s t.messages t.messages [] [] pc' s' →
      CallStep B defaults t .task { t with phase := .session pc' s' } := by
    intro pc' s' ho
    have : CallStep B defaults t .task _ := .session hp ho
    simpa using this
  unfold Call.session at h
  split at h
  · split at h
    · next msg rest hm =>
      cases h
      have : CallStep B defaults t .task _ := .session hp (by rw [hm]; exact .message msg rest rfl)
      simpa using this
    · next rest hm =>
      cases h
      have : CallStep B defaults t .task _ := .session hp (.endOfStream _ rfl (by simp [hm]))
      simpa [hm] using this
    · next hm =>
      cases h
      have : CallStep B defaults t .task _ := .session hp (.endOfStream _ rfl (by simp [hm]))
      simpa [hm] using this
  · next pcmChunks msg => cases h; exact quiet (.drained pcmChunks msg _ rfl)
  · next d msg hd =>
    obtain ⟨⟨d', s'⟩, hs, rfl⟩ := Option.map_eq_some_iff.mp h
    exact quiet (.drain d d' msg s' _ rfl hs)
  · next data =>
    obtain ⟨⟨ok, s'⟩, hs, rfl⟩ := Option.map_eq_some_iff.mp h
    cases ok with
    | true => exact quiet (.send data s' _ rfl hs)
    | false => exact quiet (.sendErr data s' _ rfl hs)
  · next pcmChunks =>
    split at h
    · next a s' hs => cases h; exact quiet (.collect pcmChunks (.ok a) s' _ rfl hs)
    · next e s' hs =>
      cases h
      have := OpenStep.collect pcmChunks (.error e) s' t.messages rfl hs
      rw [payloads_error, List.append_nil] at this
      exact quiet this
    · next s' hs =>
      cases h
      obtain rfl := tryRecv_same (by simp) hs
      exact quiet (.collected pcmChunks false _ rfl hs)
    · next s' hs =>
      cases h
      obtain rfl := tryRecv_same (by simp) hs
      exact quiet (.collected pcmChunks true _ rfl hs)
  · next after => cases h; exact quiet (.replied after _ rfl)
  · next pcm pcmChunks after =>
    cases h
    have : CallStep B defaults t .task _ :=
      .session hp (.reply pcm pcmChunks after t.messages rfl)
    simpa using this
  · next after => cases h; exact .dropped after s hp
  · next d after hd =>
    obtain ⟨⟨d', s'⟩, hs, rfl⟩ := Option.map_eq_some_iff.mp h
    exact quiet (.drop d d' after s' _ rfl hs)

theorem call_step_cases (h : t.step B defaults l = some t') : CallStep B defaults t l t' := by
  cases l with
  | task =>
    simp only [Call.step] at h
    split at h
    · next pc hp => exact idle_cases hp h
    · next pc s hp => exact session_cases hp h
  | cancelled =>
    simp only [Call.step, Call.cancelled] at h
    split at h
    · next hp => cases h; simp only [Call.leave, hp]; exact .leaveIdle _ _ hp (by simp)
    · next s hp => cases h; simp only [Call.leave, hp]; exact .leave _ _ s hp (Or.inl rfl)
    · cases h
  | closed =>
    simp only [Call.step, Call.closed] at h
    split at h
    · next hp => cases h; simp only [Call.leave, hp]; exact .leaveIdle _ _ hp (by simp)
    · next hp => cases h; simp only [Call.leave, hp]; exact .leaveIdle _ _ hp (by simp)
    · next pcm pcmChunks after s hp =>
      cases h; simp only [Call.leave, hp]
      exact .leave _ _ s hp (Or.inr ⟨pcm, pcmChunks, after, rfl⟩)
    · cases h
  | acquireErr =>
    simp only [Call.step] at h
    split at h
    · next msg hp => cases h; exact .acquireErr msg hp
    · cases h
  | inner i =>
    simp only [Call.step] at h
    split at h
    · next pc s hp =>
      obtain ⟨s', hs, rfl⟩ := Option.map_eq_some_iff.mp h
      exact .inner i pc s s' hp hs
    · cases h

end MediaApi.Model.Grpc
