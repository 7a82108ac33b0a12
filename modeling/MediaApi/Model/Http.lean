import MediaApi.Model.Steps

/-! # The HTTP front end

`MediaRouter::handle_decode_stream` serves one request: it acquires a decoder with the merged
options, answers with the response head, feeds the body's chunks to the decoder, and streams what
comes back. `Exchange` is the request between two of its atomic actions. An empty chunk of the body
is skipped, an error of the body ends the input; the flush polls and yields. A failed `await`, or
the request being cancelled there, gives up the decoder. -/

namespace MediaApi.Model.Http

open MediaApi.Lib.Channel MediaApi.Model.Audio MediaApi.Model.Pipeline MediaApi.Model.ProcessJob
open MediaApi.Model.Steps

variable {ε : Type}

/-- What is written to the response stream. -/
inductive Out where
  | response
  | data (bytes : Bytes)
  | finish
deriving DecidableEq, Repr

/-- The program point between `acquire` and the end. -/
inductive HttpPc where
  /-- `stream_writer.send_response(response).await?`. -/
  | respond
  /-- `body.next().await`. -/
  | next
  /-- `decoder.send(chunk)`. -/
  | send (chunk : Bytes)
  /-- `decoder.try_recv()`, after a chunk was sent. -/
  | drain
  /-- `stream_writer.send_data(..).await?`. -/
  | sendData (a : AudioData) (flush : Bool)
  /-- `let _ = decoder.send(Bytes::new())`. -/
  | sendEof
  /-- `decoder.try_recv()`, after EOF was sent. -/
  | flush
  /-- `tokio::task::yield_now().await`. -/
  | yieldNow
  /-- `stream_writer.finish().await`. -/
  | finish
  /-- The decoder is dropped. -/
  | drop (d : DropPc) (failed : Bool)
deriving DecidableEq

/-- Which step of dropping the decoder the handler is at. -/
def HttpPc.dropping : HttpPc → Option DropPc
  | .drop d _ => some d
  | _ => none

/-- A request with its decoder. -/
structure Open (ε : Type) where
  pc : HttpPc
  decoder : Session ε
deriving DecidableEq

inductive Phase (ε : Type) where
  /-- `self.decoder_pool.acquire(options)`. -/
  | acquire
  | session (o : Open ε)
  /-- `handle_decode_stream` has returned `Ok` or `Err`. -/
  | closed (ok : Bool)
deriving DecidableEq

/-- A request: what is left of its body (`none` is an error of the body stream), and what has been
written. -/
structure Exchange (ε : Type) where
  body : List (Option Bytes)
  written : List Out
  phase : Phase ε
deriving DecidableEq

def Exchange.new (body : List (Option Bytes)) : Exchange ε := ⟨body, [], .acquire⟩

/-- The request's decoder, from `acquire` until its handle is dropped. -/
def Exchange.decoder (x : Exchange ε) : Option (Session ε) :=
  match x.phase with
  | .session o => some o.decoder
  | _ => none

/-- What the handler does with the next item of the body. -/
def nextPc : Option Bytes → HttpPc
  | some chunk => if chunk = [] then .next else .send chunk
  | none => .sendEof

/-- The loop a result came from. -/
def loopPc (flush : Bool) : HttpPc := if flush then .flush else .drain

/-- What the handler does with a result. -/
def itemPc (item : Item) (flush : Bool) : HttpPc :=
  match item with
  | .ok a => .sendData a flush
  | .error _ => loopPc flush

/-- **The handler's next step**; `none` while it blocks, and once it has returned. -/
def Exchange.handler (options : DecodeOptions) (x : Exchange ε) : Option (Exchange ε) :=
  match x.phase with
  | .acquire => some { x with phase := .session ⟨.respond, acquire options⟩ }
  | .session o =>
    match o.pc with
    | .respond =>
      some { x with written := x.written ++ [.response], phase := .session { o with pc := .next } }
    | .next =>
      match x.body with
      | [] => some { x with phase := .session { o with pc := .sendEof } }
      | b :: rest => some { x with body := rest, phase := .session { o with pc := nextPc b } }
    | .send chunk =>
      (o.decoder.send chunk).map fun r =>
        { x with phase := .session { decoder := r.2, pc := if r.1 then .drain else .sendEof } }
    | .drain =>
      match o.decoder.tryRecv with
      | (.item i, s) => some { x with phase := .session { decoder := s, pc := itemPc i false } }
      | (_, s) => some { x with phase := .session { decoder := s, pc := .next } }
    | .sendData a flush =>
      some { x with
        written := x.written ++ [.data a.data], phase := .session { o with pc := loopPc flush } }
    | .sendEof =>
      (o.decoder.send []).map fun r => { x with phase := .session { decoder := r.2, pc := .flush } }
    | .flush =>
      match o.decoder.tryRecv with
      | (.item i, s) => some { x with phase := .session { decoder := s, pc := itemPc i true } }
      | (.empty, s) => some { x with phase := .session { decoder := s, pc := .yieldNow } }
      | (.closed, s) => some { x with phase := .session { decoder := s, pc := .finish } }
    | .yieldNow => some { x with phase := .session { o with pc := .flush } }
    | .finish =>
      some { x with
        written := x.written ++ [.finish], phase := .session { o with pc := .drop .send false } }
    | .drop .dropped failed => some { x with phase := .closed !failed }
    | .drop d failed =>
      (o.decoder.dropStep d).map fun r =>
        { x with phase := .session { pc := .drop r.1 failed, decoder := r.2 } }
  | .closed _ => none

/-- The `await` the handler is in fails, or the request is cancelled there. -/
def Exchange.fail (x : Exchange ε) : Option (Exchange ε) :=
  match x.phase with
  | .session o =>
    match o.pc with
    | .respond | .next | .sendData .. | .yieldNow | .finish =>
      some { x with phase := .session { o with pc := .drop .send true } }
    | _ => none
  | _ => none

inductive ExchangeLabel (ε : Type) where
  | handler
  | fail
  | acquireErr
  | inner (i : Inner ε)
deriving DecidableEq

variable [ToString ε]

/-- **A step of a request** and of what is behind its decoder. -/
def Exchange.step (B : DecodeOptions → Behaviour ε) (options : DecodeOptions) (x : Exchange ε) :
    ExchangeLabel ε → Option (Exchange ε)
  | .handler => x.handler options
  | .fail => x.fail
  | .acquireErr =>
    match x.phase with
    | .acquire => some { x with phase := .closed false }
    | _ => none
  | .inner i =>
    match x.phase with
    | .session o =>
      (o.decoder.inner B i).map fun s => { x with phase := .session { o with decoder := s } }
    | _ => none

/-! ### The steps by name -/

/-- The steps of the handler with a decoder: the body it reads, what it writes, and the session. -/
inductive OpenStep (o : Open ε) : List (Option Bytes) → List (Option Bytes) → List Out → Open ε →
    Prop where
  | respond (body : List (Option Bytes)) (hpc : o.pc = .respond) :
      OpenStep o body body [.response] { o with pc := .next }
  | endOfBody (hpc : o.pc = .next) : OpenStep o [] [] [] { o with pc := .sendEof }
  | next (b : Option Bytes) (rest : List (Option Bytes)) (hpc : o.pc = .next) :
      OpenStep o (b :: rest) rest [] { o with pc := nextPc b }
  | send (chunk : Bytes) (s : Session ε) (body : List (Option Bytes)) (hpc : o.pc = .send chunk)
      (h : o.decoder.send chunk = some (true, s)) :
      OpenStep o body body [] { decoder := s, pc := .drain }
  | sendErr (chunk : Bytes) (s : Session ε) (body : List (Option Bytes)) (hpc : o.pc = .send chunk)
      (h : o.decoder.send chunk = some (false, s)) :
      OpenStep o body body [] { decoder := s, pc := .sendEof }
  | item (flush : Bool) (i : Item) (s : Session ε) (body : List (Option Bytes))
      (hpc : o.pc = loopPc flush) (h : o.decoder.tryRecv = (.item i, s)) :
      OpenStep o body body [] { decoder := s, pc := itemPc i flush }
  | drained (r : Polled) (body : List (Option Bytes)) (hpc : o.pc = .drain)
      (hr : ∀ i, r ≠ .item i) (h : o.decoder.tryRecv = (r, o.decoder)) :
      OpenStep o body body [] { o with pc := .next }
  | sendData (a : AudioData) (flush : Bool) (body : List (Option Bytes))
      (hpc : o.pc = .sendData a flush) :
      OpenStep o body body [.data a.data] { o with pc := loopPc flush }
  | sendEof (ok : Bool) (s : Session ε) (body : List (Option Bytes)) (hpc : o.pc = .sendEof)
      (h : o.decoder.send [] = some (ok, s)) :
      OpenStep o body body [] { decoder := s, pc := .flush }
  | empty (body : List (Option Bytes)) (hpc : o.pc = .flush)
      (h : o.decoder.tryRecv = (.empty, o.decoder)) :
      OpenStep o body body [] { o with pc := .yieldNow }
  | flushed (body : List (Option Bytes)) (hpc : o.pc = .flush)
      (h : o.decoder.tryRecv = (.closed, o.decoder)) :
      OpenStep o body body [] { o with pc := .finish }
  | yieldNow (body : List (Option Bytes)) (hpc : o.pc = .yieldNow) :
      OpenStep o body body [] { o with pc := .flush }
  | finish (body : List (Option Bytes)) (hpc : o.pc = .finish) :
      OpenStep o body body [.finish] { o with pc := .drop .send false }
  | drop (d d' : DropPc) (failed : Bool) (s : Session ε) (body : List (Option Bytes))
      (hpc : o.pc = .drop d failed) (h : o.decoder.dropStep d = some (d', s)) :
      OpenStep o body body [] { pc := .drop d' failed, decoder := s }

/-- The steps of a request. -/
inductive ExchangeStep (B : DecodeOptions → Behaviour ε) (options : DecodeOptions)
    (x : Exchange ε) : ExchangeLabel ε → Exchange ε → Prop where
  | acquire (hp : x.phase = .acquire) :
      ExchangeStep B options x .handler { x with phase := .session ⟨.respond, acquire options⟩ }
  | session {o o' : Open ε} {body : List (Option Bytes)} {out : List Out}
      (hp : x.phase = .session o) (h : OpenStep o x.body body out o') :
      ExchangeStep B options x .handler ⟨body, x.written ++ out, .session o'⟩
  | dropped (o : Open ε) (failed : Bool) (hp : x.phase = .session o)
      (hpc : o.pc = .drop .dropped failed) :
      ExchangeStep B options x .handler { x with phase := .closed !failed }
  | fail (o : Open ε) (hp : x.phase = .session o) (hpc : o.pc.dropping = none) :
      ExchangeStep B options x .fail
        { x with phase := .session { o with pc := .drop .send true } }
  | acquireErr (hp : x.phase = .acquire) :
      ExchangeStep B options x .acquireErr { x with phase := .closed false }
  | inner (i : Inner ε) (o : Open ε) (s : Session ε) (hp : x.phase = .session o)
      (h : o.decoder.inner B i = some s) :
      ExchangeStep B options x (.inner i) { x with phase := .session { o with decoder := s } }

variable {B : DecodeOptions → Behaviour ε} {options : DecodeOptions} {x x' : Exchange ε}
  {l : ExchangeLabel ε}

theorem handler_session {o : Open ε} (hp : x.phase = .session o)
    (h : x.handler options = some x') : ExchangeStep B options x .handler x' := by
  simp only [Exchange.handler, hp] at h
  have hw : x.written = x.written ++ [] := by simp
  split at h
  · next hpc => cases h; exact .session hp (.respond _ hpc)
  · next hpc =>
    split at h
    · next hb => cases h; rw [hw, hb]; exact .session hp (by rw [hb]; exact .endOfBody hpc)
    · next b rest hb => cases h; rw [hw]; exact .session hp (by rw [hb]; exact .next b rest hpc)
  · next chunk hpc =>
    obtain ⟨⟨ok, s⟩, hs, rfl⟩ := Option.map_eq_some_iff.mp h
    rw [hw]
    cases ok with
    | true => exact .session hp (.send chunk s _ hpc hs)
    | false => exact .session hp (.sendErr chunk s _ hpc hs)
  · next hpc =>
    split at h
    · next i s hs => cases h; rw [hw]; exact .session hp (.item false i s _ hpc hs)
    · next r s hr hs =>
      cases h
      obtain rfl := tryRecv_same hr hs
      rw [hw]; exact .session hp (.drained r _ hpc hr hs)
  · next a flush hpc => cases h; exact .session hp (.sendData a flush _ hpc)
  · next hpc =>
    obtain ⟨⟨ok, s⟩, hs, rfl⟩ := Option.map_eq_some_iff.mp h
    rw [hw]; exact .session hp (.sendEof ok s _ hpc hs)
  · next hpc =>
    split at h
    · next i s hs => cases h; rw [hw]; exact .session hp (.item true i s _ hpc hs)
    · next s hs =>
      cases h
      obtain rfl := tryRecv_same (by simp) hs
      rw [hw]; exact .session hp (.empty _ hpc hs)
    · next s hs =>
      cases h
      obtain rfl := tryRecv_same (by simp) hs
      rw [hw]; exact .session hp (.flushed _ hpc hs)
  · next hpc => cases h; rw [hw]; exact .session hp (.yieldNow _ hpc)
  · next hpc => cases h; exact .session hp (.finish _ hpc)
  · next failed hpc => cases h; exact .dropped o failed hp hpc
  · next d failed hd hpc =>
    obtain ⟨⟨d', s⟩, hs, rfl⟩ := Option.map_eq_some_iff.mp h
    rw [hw]; exact .session hp (.drop d d' failed s _ hpc hs)

theorem exchange_step_cases (h : x.step B options l = some x') : ExchangeStep B options x l x' := by
  cases l with
  | handler =>
    simp only [Exchange.step] at h
    cases hp : x.phase with
    | acquire =>
      simp only [Exchange.handler, hp] at h
      cases h; exact .acquire hp
    | session o => exact handler_session hp h
    | closed ok => simp only [Exchange.handler, hp] at h; cases h
  | fail =>
    simp only [Exchange.step, Exchange.fail] at h
    split at h
    · next o hp =>
      split at h <;> cases h <;> next hpc => exact .fail o hp (by rw [hpc]; rfl)
    · cases h
  | acquireErr =>
    simp only [Exchange.step] at h
    split at h
    · next hp => cases h; exact .acquireErr hp
    · cases h
  | inner i =>
    simp only [Exchange.step] at h
    split at h
    · next o hp =>
      obtain ⟨s, hs, rfl⟩ := Option.map_eq_some_iff.mp h
      exact .inner i o s hp hs
    · cases h

end MediaApi.Model.Http
