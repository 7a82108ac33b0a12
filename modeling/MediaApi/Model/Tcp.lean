import MediaApi.Model.Steps

/-! # The TCP front end

`TcpDecodeServer::handle_decode_stream` serves one connection. `Conn` is the connection between two
of its atomic actions: the frames the client sends that have not been read yet, the frames written
so far, and the program point. Every label of `Conn.step` names who moves: the handler, one of the
parties behind the decoder's handle, or the failure of the `await` or the `acquire` the handler is
in. A failed `await` (an I/O error, or the task being cancelled there) gives up the decoder.

The code that turns a result into frames stands twice in the source, in the drain between two reads
and in the flush; `Conn.handler` has it once, with the flag `flush`. -/

namespace MediaApi.Model.Tcp

open MediaApi.Lib.Channel MediaApi.Model.Audio MediaApi.Model.Pipeline
open MediaApi.Model.ProcessJob MediaApi.Model.Steps

/-! ### Frames -/

/-- `tcp_changes::framing::tags`, and any other tag by its four bytes. -/
inductive Tag where
  | dcod
  | pcms
  | done
  | «meta»
  | other (bytes : Bytes)
deriving DecidableEq, Repr

structure Frame where
  tag : Tag
  data : Bytes
deriving DecidableEq, Repr

/-- `PcmEncoding`. -/
inductive PcmEncoding where
  | signed
  | float
deriving DecidableEq, Repr

/-- `encoding as u8`. -/
def PcmEncoding.toByte : PcmEncoding → UInt8
  | .signed => 0
  | .float => 1

/-- The encoding of an audio format. -/
def encodingOf : EncodingFlag → PcmEncoding
  | .pcmFloat => .float
  | .other _ => .signed

/-- `u32::to_be_bytes`. -/
def toBeBytes (n : UInt32) : Bytes :=
  [.ofNat (n.toNat / 2 ^ 24), .ofNat (n.toNat / 2 ^ 16), .ofNat (n.toNat / 2 ^ 8), .ofNat n.toNat]

/-- `u32::from_be_bytes`. -/
def fromBeBytes (b₀ b₁ b₂ b₃ : UInt8) : UInt32 :=
  .ofNat (b₀.toNat * 2 ^ 24 + b₁.toNat * 2 ^ 16 + b₂.toNat * 2 ^ 8 + b₃.toNat)

/-- `encode_meta`. -/
def encodeMeta (sampleRate : UInt32) (channels bits : UInt8) (encoding : PcmEncoding) : Bytes :=
  toBeBytes sampleRate ++ [channels, bits, encoding.toByte]

/-- `decode_meta`. -/
def decodeMeta : Bytes → Option (UInt32 × UInt8 × UInt8 × PcmEncoding)
  | b₀ :: b₁ :: b₂ :: b₃ :: channels :: bits :: encoding :: _ =>
    some (fromBeBytes b₀ b₁ b₂ b₃, channels, bits, if encoding = 1 then .float else .signed)
  | _ => none

theorem fromBeBytes_toBeBytes (n : UInt32) :
    fromBeBytes (.ofNat (n.toNat / 2 ^ 24)) (.ofNat (n.toNat / 2 ^ 16)) (.ofNat (n.toNat / 2 ^ 8))
      (.ofNat n.toNat) = n := by
  have hn := n.toNat_lt
  apply UInt32.toNat_inj.mp
  simp only [fromBeBytes, UInt8.toNat_ofNat', UInt32.toNat_ofNat']
  omega

/-- **The metadata of an audio chunk survives the wire.** -/
theorem decodeMeta_encodeMeta (sampleRate : UInt32) (channels bits : UInt8)
    (encoding : PcmEncoding) :
    decodeMeta (encodeMeta sampleRate channels bits encoding) =
      some (sampleRate, channels, bits, encoding) := by
  have h := fromBeBytes_toBeBytes sampleRate
  have he : (if encoding.toByte = 1 then PcmEncoding.float else .signed) = encoding := by
    cases encoding <;> rfl
  simp only [encodeMeta, toBeBytes, List.cons_append, List.nil_append, decodeMeta, h, he]

/-- The META frame of an audio chunk. -/
def metaFrame (a : AudioData) : Frame :=
  ⟨.meta, encodeMeta a.samplingRate a.channelCount a.bitsPerSample (encodingOf a.audioFormat)⟩

/-- The PCMS frame of an audio chunk. -/
def pcmsFrame (a : AudioData) : Frame := ⟨.pcms, a.data⟩

def doneFrame : Frame := ⟨.done, []⟩

/-! ### The handler -/

variable {ε : Type}

/-- The program point inside a session. -/
inductive TcpPc where
  /-- `decoder.send(frame.data)` with data. -/
  | send (data : Bytes)
  /-- `let _ = decoder.send(Bytes::new())`. -/
  | sendEof
  /-- `decoder.try_recv()`, before the next frame is read. -/
  | drain
  /-- `write_frame(&mut writer, tags::META, &meta).await?`. -/
  | writeMeta (a : AudioData) (flush : Bool)
  /-- `write_frame(&mut writer, tags::PCMS, audio_data.data()).await?`. -/
  | writePcms (a : AudioData) (flush : Bool)
  /-- `read_frame(&mut reader).await?`. -/
  | read
  /-- `decoder.recv()`. -/
  | flush
  /-- `write_frame(&mut writer, tags::DONE, &[]).await?`. -/
  | writeDone
  /-- The decoder is dropped, at the end of the session or because an `await` failed. -/
  | drop (d : DropPc) (failed : Bool)
deriving DecidableEq

/-- Which step of dropping the decoder the handler is at. -/
def TcpPc.dropping : TcpPc → Option DropPc
  | .drop d _ => some d
  | _ => none

/-- A session of the connection: the locals of one iteration of the outer loop. -/
structure Open (ε : Type) where
  pc : TcpPc
  firstMetaSent : Bool
  decoder : Session ε
deriving DecidableEq

/-- Where the handler is. -/
inductive Phase (ε : Type) where
  /-- `read_frame(&mut reader).await?` for the first frame of a session. -/
  | first
  /-- `self.decoder_pool.acquire(self.options.clone())`, with the data of the first frame. -/
  | acquire (data : Bytes)
  | session (o : Open ε)
  /-- `handle_decode_stream` has returned `Ok` or `Err`. -/
  | closed (ok : Bool)
deriving DecidableEq

structure Conn (ε : Type) where
  frames : List Frame
  written : List Frame
  phase : Phase ε
deriving DecidableEq

/-- A connection whose client sends these frames. -/
def Conn.new (frames : List Frame) : Conn ε := ⟨frames, [], .first⟩

/-- The session's decoder, from `acquire` until its handle is dropped. -/
def Conn.decoder (c : Conn ε) : Option (Session ε) :=
  match c.phase with
  | .session o => some o.decoder
  | _ => none

/-- Where a session's first frame leads: its data is sent, or EOF if it is empty. -/
def firstPc (data : Bytes) : TcpPc := if data = [] then .sendEof else .send data

/-- What the handler does with the next frame of a session. -/
def nextPc (frame : Frame) : TcpPc :=
  if frame.tag = .dcod then if frame.data = [] then .sendEof else .send frame.data
  else if frame.tag = .done then .sendEof
  else .drain

/-- What the handler does with a result: META comes before the first audio of a session. -/
def Open.write (o : Open ε) (item : Item) (flush : Bool) : TcpPc :=
  match item with
  | .ok a => if o.firstMetaSent then .writePcms a flush else .writeMeta a flush
  | .error _ => if flush then .flush else .drain

/-- **The handler's next step**; `none` while it blocks, and once it has returned. -/
def Conn.handler (options : DecodeOptions) (c : Conn ε) : Option (Conn ε) :=
  match c.phase with
  | .first =>
    match c.frames with
    | [] => some { c with phase := .closed true }
    | f :: rest =>
      some { c with frames := rest, phase := if f.tag = .dcod then .acquire f.data else .first }
  | .acquire data => some { c with phase := .session ⟨firstPc data, false, acquire options⟩ }
  | .session o =>
    match o.pc with
    | .send data =>
      (o.decoder.send data).map fun r =>
        { c with phase := .session { o with decoder := r.2, pc := if r.1 then .drain else .flush } }
    | .sendEof =>
      (o.decoder.send []).map fun r =>
        { c with phase := .session { o with decoder := r.2, pc := .flush } }
    | .drain =>
      match o.decoder.tryRecv with
      | (.item i, s) =>
          some { c with phase := .session { o with decoder := s, pc := o.write i false } }
      | (_, s) => some { c with phase := .session { o with decoder := s, pc := .read } }
    | .writeMeta a flush =>
      some { c with
        written := c.written ++ [metaFrame a]
        phase := .session { o with firstMetaSent := true, pc := .writePcms a flush } }
    | .writePcms a flush =>
      some { c with
        written := c.written ++ [pcmsFrame a]
        phase := .session { o with pc := if flush then .flush else .drain } }
    | .read =>
      match c.frames with
      | [] => some { c with phase := .session { o with pc := .sendEof } }
      | f :: rest => some { c with frames := rest, phase := .session { o with pc := nextPc f } }
    | .flush =>
      match o.decoder.recv with
      | none => none
      | some (some i, s) =>
        some { c with phase := .session { o with decoder := s, pc := o.write i true } }
      | some (none, s) =>
          some { c with phase := .session { o with decoder := s, pc := .writeDone } }
    | .writeDone =>
      some { c with
        written := c.written ++ [doneFrame], phase := .session { o with pc := .drop .send false } }
    | .drop .dropped failed => some { c with phase := if failed then .closed false else .first }
    | .drop d failed =>
      (o.decoder.dropStep d).map fun r =>
        { c with phase := .session { o with pc := .drop r.1 failed, decoder := r.2 } }
  | .closed _ => none

/-- The `await` the handler is in fails, or the task is cancelled there. -/
def Conn.fail (c : Conn ε) : Option (Conn ε) :=
  match c.phase with
  | .first => some { c with phase := .closed false }
  | .session o =>
    match o.pc with
    | .writeMeta .. | .writePcms .. | .read | .writeDone =>
      some { c with phase := .session { o with pc := .drop .send true } }
    | _ => none
  | _ => none

inductive ConnLabel (ε : Type) where
  | handler
  | fail
  | acquireErr
  | inner (i : Inner ε)
deriving DecidableEq

variable [ToString ε]

/-- **A step of a connection** and of what is behind its decoder. -/
def Conn.step (B : DecodeOptions → Behaviour ε) (options : DecodeOptions) (c : Conn ε) :
    ConnLabel ε → Option (Conn ε)
  | .handler => c.handler options
  | .fail => c.fail
  | .acquireErr =>
    match c.phase with
    | .acquire _ => some { c with phase := .closed false }
    | _ => none
  | .inner i =>
    match c.phase with
    | .session o => (o.decoder.inner B i).map fun s =>
        { c with phase := .session { o with decoder := s } }
    | _ => none

/-! ### The steps by name -/

/-- The steps of the handler inside a session: the frames it reads and writes, and the session. -/
inductive OpenStep (o : Open ε) : List Frame → List Frame → List Frame → Open ε → Prop where
  | send (data : Bytes) (s : Session ε) (frames : List Frame) (hpc : o.pc = .send data)
      (h : o.decoder.send data = some (true, s)) :
      OpenStep o frames frames [] { o with decoder := s, pc := .drain }
  | sendErr (data : Bytes) (s : Session ε) (frames : List Frame) (hpc : o.pc = .send data)
      (h : o.decoder.send data = some (false, s)) :
      OpenStep o frames frames [] { o with decoder := s, pc := .flush }
  | sendEof (ok : Bool) (s : Session ε) (frames : List Frame) (hpc : o.pc = .sendEof)
      (h : o.decoder.send [] = some (ok, s)) :
      OpenStep o frames frames [] { o with decoder := s, pc := .flush }
  | item (flush : Bool) (i : Item) (s : Session ε) (frames : List Frame)
      (hpc : o.pc = if flush then .flush else .drain) (h : o.decoder.tryRecv = (.item i, s)) :
      OpenStep o frames frames [] { o with decoder := s, pc := o.write i flush }
  | drained (r : Polled) (s : Session ε) (frames : List Frame) (hpc : o.pc = .drain)
      (hr : ∀ i, r ≠ .item i) (h : o.decoder.tryRecv = (r, s)) :
      OpenStep o frames frames [] { o with decoder := s, pc := .read }
  | writeMeta (a : AudioData) (flush : Bool) (frames : List Frame)
      (hpc : o.pc = .writeMeta a flush) :
      OpenStep o frames frames [metaFrame a]
        { o with firstMetaSent := true, pc := .writePcms a flush }
  | writePcms (a : AudioData) (flush : Bool) (frames : List Frame)
      (hpc : o.pc = .writePcms a flush) :
      OpenStep o frames frames [pcmsFrame a] { o with pc := if flush then .flush else .drain }
  | endOfStream (hpc : o.pc = .read) : OpenStep o [] [] [] { o with pc := .sendEof }
  | read (f : Frame) (rest : List Frame) (hpc : o.pc = .read) :
      OpenStep o (f :: rest) rest [] { o with pc := nextPc f }
  | flushed (s : Session ε) (frames : List Frame) (hpc : o.pc = .flush)
      (h : o.decoder.tryRecv = (.closed, s)) :
      OpenStep o frames frames [] { o with decoder := s, pc := .writeDone }
  | writeDone (frames : List Frame) (hpc : o.pc = .writeDone) :
      OpenStep o frames frames [doneFrame] { o with pc := .drop .send false }
  | drop (d d' : DropPc) (failed : Bool) (s : Session ε) (frames : List Frame)
      (hpc : o.pc = .drop d failed) (h : o.decoder.dropStep d = some (d', s)) :
      OpenStep o frames frames [] { o with pc := .drop d' failed, decoder := s }

/-- The steps of a connection. -/
inductive ConnStep (B : DecodeOptions → Behaviour ε) (options : DecodeOptions) (c : Conn ε) :
    ConnLabel ε → Conn ε → Prop where
  | eof (hp : c.phase = .first) (hf : c.frames = []) :
      ConnStep B options c .handler { c with phase := .closed true }
  | first (f : Frame) (rest : List Frame) (hp : c.phase = .first) (hf : c.frames = f :: rest) :
      ConnStep B options c .handler
        { c with frames := rest, phase := if f.tag = .dcod then .acquire f.data else .first }
  | acquire (data : Bytes) (hp : c.phase = .acquire data) :
      ConnStep B options c .handler
        { c with phase := .session ⟨firstPc data, false, acquire options⟩ }
  | session {o o' : Open ε} {frames out : List Frame} (hp : c.phase = .session o)
      (h : OpenStep o c.frames frames out o') :
      ConnStep B options c .handler ⟨frames, c.written ++ out, .session o'⟩
  | dropped (o : Open ε) (failed : Bool) (hp : c.phase = .session o)
      (hpc : o.pc = .drop .dropped failed) :
      ConnStep B options c .handler { c with phase := if failed then .closed false else .first }
  | failFirst (hp : c.phase = .first) : ConnStep B options c .fail { c with phase := .closed false }
  | fail (o : Open ε) (hp : c.phase = .session o)
      (hpc : (∃ a flush, o.pc = .writeMeta a flush ∨ o.pc = .writePcms a flush) ∨ o.pc = .read ∨
        o.pc = .writeDone) :
      ConnStep B options c .fail { c with phase := .session { o with pc := .drop .send true } }
  | acquireErr (data : Bytes) (hp : c.phase = .acquire data) :
      ConnStep B options c .acquireErr { c with phase := .closed false }
  | inner (i : Inner ε) (o : Open ε) (s : Session ε) (hp : c.phase = .session o)
      (h : o.decoder.inner B i = some s) :
      ConnStep B options c (.inner i) { c with phase := .session { o with decoder := s } }

variable {B : DecodeOptions → Behaviour ε} {options : DecodeOptions} {c c' : Conn ε}
  {l : ConnLabel ε}

theorem handler_session {o : Open ε} (hp : c.phase = .session o)
    (h : c.handler options = some c') : ConnStep B options c .handler c' := by
  simp only [Conn.handler, hp] at h
  have hw : c.written = c.written ++ [] := by simp
  split at h
  · next data hpc =>
    obtain ⟨⟨ok, s⟩, hs, rfl⟩ := Option.map_eq_some_iff.mp h
    rw [hw]
    cases ok with
    | true => exact .session hp (.send data s _ hpc hs)
    | false => exact .session hp (.sendErr data s _ hpc hs)
  · next hpc =>
    obtain ⟨⟨ok, s⟩, hs, rfl⟩ := Option.map_eq_some_iff.mp h
    rw [hw]; exact .session hp (.sendEof ok s _ hpc hs)
  · next hpc =>
    split at h
    · next i s hs =>
      cases h
      rw [hw]; exact .session hp (.item false i s _ hpc hs)
    · next r s hr hs =>
      cases h
      rw [hw]; exact .session hp (.drained r s _ hpc hr hs)
  · next a flush hpc => cases h; exact .session hp (.writeMeta a flush _ hpc)
  · next a flush hpc => cases h; exact .session hp (.writePcms a flush _ hpc)
  · next hpc =>
    split at h
    · next hf => cases h; rw [hw, hf]; exact .session hp (by rw [hf]; exact .endOfStream hpc)
    · next f rest hf => cases h; rw [hw]; exact .session hp (by rw [hf]; exact .read f rest hpc)
  · next hpc =>
    split at h
    · cases h
    · next i s hs =>
      cases h
      obtain ⟨j, hj, hs⟩ | ⟨hj, -⟩ := recv_cases hs
      · cases hj; rw [hw]; exact .session hp (.item true i s _ hpc hs)
      · cases hj
    · next s hs =>
      cases h
      obtain ⟨j, hj, -⟩ | ⟨-, hs⟩ := recv_cases hs
      · cases hj
      · rw [hw]; exact .session hp (.flushed s _ hpc hs)
  · next hpc => cases h; exact .session hp (.writeDone _ hpc)
  · next failed hpc => cases h; exact .dropped o failed hp hpc
  · next d failed hd hpc =>
    obtain ⟨⟨d', s⟩, hs, rfl⟩ := Option.map_eq_some_iff.mp h
    rw [hw]; exact .session hp (.drop d d' failed s _ hpc hs)

theorem conn_step_cases (h : c.step B options l = some c') : ConnStep B options c l c' := by
  cases l with
  | handler =>
    simp only [Conn.step] at h
    cases hp : c.phase with
    | first =>
      simp only [Conn.handler, hp] at h
      split at h
      · next hf => cases h; exact .eof hp hf
      · next f rest hf => cases h; exact .first f rest hp hf
    | acquire data =>
      simp only [Conn.handler, hp] at h
      cases h; exact .acquire data hp
    | session o => exact handler_session hp h
    | closed ok => simp only [Conn.handler, hp] at h; cases h
  | fail =>
    simp only [Conn.step, Conn.fail] at h
    split at h
    · next hp => cases h; exact .failFirst hp
    · next o hp =>
      split at h
      · next a flush hpc => cases h; exact .fail o hp (Or.inl ⟨a, flush, Or.inl hpc⟩)
      · next a flush hpc => cases h; exact .fail o hp (Or.inl ⟨a, flush, Or.inr hpc⟩)
      · next hpc => cases h; exact .fail o hp (Or.inr (Or.inl hpc))
      · next hpc => cases h; exact .fail o hp (Or.inr (Or.inr hpc))
      · cases h
    · cases h
  | acquireErr =>
    simp only [Conn.step] at h
    split at h
    · next data hp => cases h; exact .acquireErr data hp
    · cases h
  | inner i =>
    simp only [Conn.step] at h
    split at h
    · next o hp =>
      obtain ⟨s, hs, rfl⟩ := Option.map_eq_some_iff.mp h
      exact .inner i o s hp hs
    · cases h

end MediaApi.Model.Tcp
