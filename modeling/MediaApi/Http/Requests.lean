import MediaApi.Model.Http
import MediaApi.Pool.Script

/-! # What an HTTP request does with its decoder

The invariant `Follows` of a request, for every pipeline: its decoder is a scripted session whose
script are the data chunks of the body, and what has been written is the response head and the audio
received. -/

namespace MediaApi.Http.Requests

open MediaApi.Lib.Transition MediaApi.Model.Audio MediaApi.Model.Pipeline MediaApi.Model.ProcessJob
open MediaApi.Model.Steps MediaApi.Model.Http MediaApi.Pool.Handle MediaApi.Pool.Script

variable {ε : Type}

/-- The data chunks of a body: its non-empty ones, up to an error. -/
def bodyChunks : List (Option Bytes) → List Bytes
  | [] => []
  | none :: _ => []
  | some b :: rest => if b = [] then bodyChunks rest else b :: bodyChunks rest

/-- The stream of a response with this audio, up to its end. -/
def stream (as : List AudioData) : List Out := .response :: as.map fun a => .data a.data

theorem nil_notMem_bodyChunks : ∀ body : List (Option Bytes), [] ∉ bodyChunks body := by
  intro body
  induction body with
  | nil => exact List.not_mem_nil
  | cons b body ih =>
    cases b with
    | none => exact List.not_mem_nil
    | some b =>
      simp only [bodyChunks]
      split_ifs with hb
      · exact ih
      · exact fun hm => (List.mem_cons.mp hm).elim (fun h => hb h.symm) ih

theorem stream_concat (as : List AudioData) (a : AudioData) :
    stream (as ++ [a]) = stream as ++ [.data a.data] := by simp [stream]

/-- What has been sent, is about to be sent, and is still in the body, are the chunks `ps`. -/
def Cut (o : Open ε) (body : List (Option Bytes)) (ps : List Bytes) : Prop :=
  match o.pc with
  | .send chunk => o.decoder.sent ++ chunk :: bodyChunks body = ps
  | .respond | .next | .drain | .sendData _ false => o.decoder.sent ++ bodyChunks body = ps
  | .sendEof => o.decoder.sent = ps
  | .flush | .yieldNow | .sendData _ true | .finish => o.decoder.sent = ps ++ [[]]
  | .drop _ _ => True

variable [ToString ε]

/-- What has been written. -/
def Wrote (B : DecodeOptions → Behaviour ε) (options : DecodeOptions) (o : Open ε) (ps : List Bytes)
    (written : List Out) : Prop :=
  match o.pc with
  | .respond => written = [] ∧ o.decoder.received = []
  | .sendData a _ => ∃ as, oks o.decoder.received = as ++ [a] ∧ written = stream as
  | .finish => Served B options ps o.decoder.received ∧ written = stream (oks o.decoder.received)
  | .drop _ false => ∃ rs, Served B options ps rs ∧ written = stream (oks rs) ++ [.finish]
  | .drop _ true => ∃ rs, Begun B options ps rs ∧ written <+: stream (oks rs)
  | _ => written = stream (oks o.decoder.received)

/-- A request with its decoder. -/
structure Serves (B : DecodeOptions → Behaviour ε) (options : DecodeOptions) (ps : List Bytes)
    (o : Open ε) (body : List (Option Bytes)) (written : List Out) : Prop where
  cut : Cut o body ps
  owns : Owns B options ps o.pc.dropping o.decoder
  wrote : Wrote B options o ps written

/-- **The invariant of a request** with the data chunks `ps`. -/
def Follows (B : DecodeOptions → Behaviour ε) (options : DecodeOptions) (ps : List Bytes)
    (x : Exchange ε) : Prop :=
  match x.phase with
  | .acquire => bodyChunks x.body = ps ∧ x.written = []
  | .session o => Serves B options ps o x.body x.written
  | .closed true => ∃ rs, Served B options ps rs ∧ x.written = stream (oks rs) ++ [.finish]
  | .closed false => ∃ rs, Begun B options ps rs ∧ x.written <+: stream (oks rs)

variable {B : DecodeOptions → Behaviour ε} {options : DecodeOptions} {ps : List Bytes}
  {o o' : Open ε}
  {body body' : List (Option Bytes)} {written out : List Out} {x x' : Exchange ε}

theorem Serves.script (h : Serves B options ps o body written) (hd : o.pc.dropping = none) :
    Scripted B options ps o.decoder := by
  have := h.owns
  rw [hd] at this; exact this

/-- What a request that does not drop its decoder has written is audio it has received. -/
theorem Serves.written_begins (h : Serves B options ps o body written) (hd : o.pc.dropping = none) :
    written <+: stream (oks o.decoder.received) := by
  have hout := h.wrote
  unfold Wrote at hout
  split at hout
  · rw [hout.1]; exact List.nil_prefix
  · obtain ⟨as, has, rfl⟩ := hout
    rw [has, stream_concat]; exact List.prefix_append _ _
  · rw [hout.2]
  · next d hpc => rw [hpc] at hd; cases hd
  · next d hpc => rw [hpc] at hd; cases hd
  · rw [hout]

/-! ### The steps -/

/-- A received item is written, if it is audio, and else passed over. -/
theorem serves_item {i : Item} {s : Session ε} {flush : Bool} (hpc : o.pc = loopPc flush)
    (hi : o.decoder.tryRecv = (.item i, s)) (h : Serves B options ps o body written) :
    Serves B options ps { decoder := s, pc := itemPc i flush } body written := by
  have hs := (h.script (by rw [hpc]; cases flush <;> rfl)).tryRecv hi
  have hsent : s.sent = o.decoder.sent := tryRecv_sent hi
  have hrec := tryRecv_received hi
  have hcut := h.cut
  have hout : written = stream (oks o.decoder.received) := by
    have := h.wrote
    cases flush <;> simpa [Wrote, hpc, loopPc] using this
  refine ⟨?_, ?_, ?_⟩
  · cases i <;> cases flush <;> simpa [Cut, hpc, itemPc, loopPc, hsent] using hcut
  · cases i <;> cases flush <;> exact hs
  · cases i with
    | error e =>
      have : oks s.received = oks o.decoder.received := by rw [hrec]; simp
      cases flush <;> simpa [Wrote, itemPc, loopPc, this] using hout
    | ok a => exact ⟨_, by rw [hrec]; simp, hout⟩

/-- A chunk of the body, its end or its error is read. -/
theorem serves_next {b : Option Bytes} (hpc : o.pc = .next)
    (h : Serves B options ps o (b :: body) written) :
    Serves B options ps { o with pc := nextPc b } body written := by
  have hcut := h.cut
  have hout := h.wrote
  have hscript := h.script (by rw [hpc]; rfl)
  simp only [Cut, hpc] at hcut
  simp only [Wrote, hpc] at hout
  cases b with
  | none => exact ⟨by simpa [Cut, nextPc, bodyChunks] using hcut, hscript, hout⟩
  | some b =>
    by_cases hb : b = []
    · refine ⟨by simpa [Cut, nextPc, bodyChunks, hb] using hcut, ?_,
        by simpa [Wrote, nextPc, hb] using hout⟩
      simp only [nextPc, hb]
      exact hscript
    · refine ⟨by simpa [Cut, nextPc, bodyChunks, hb] using hcut, ?_,
        by simpa [Wrote, nextPc, hb] using hout⟩
      simp only [nextPc, hb, if_false]
      exact hscript

/-- The decoder of a request takes its chunks. -/
theorem send_accepted {chunk : Bytes} {s : Session ε} {ok : Bool} (hps : [] ∉ ps)
    (hpc : o.pc = .send chunk) (hsend : o.decoder.send chunk = some (ok, s))
    (h : Serves B options ps o body written) : ok = true := by
  have hcut := h.cut
  simp only [Cut, hpc] at hcut
  refine (h.script (by rw [hpc]; rfl)).send_ok (fun hm => hps ?_) hsend
  rw [← hcut]
  exact List.mem_append_left _ hm

/-- A chunk is sent. -/
theorem serves_send {chunk : Bytes} {s : Session ε} (hpc : o.pc = .send chunk)
    (hsend : o.decoder.send chunk = some (true, s)) (h : Serves B options ps o body written) :
    Serves B options ps { decoder := s, pc := .drain } body written := by
  have hcut := h.cut
  have hout := h.wrote
  simp only [Cut, hpc] at hcut
  have hpre : o.decoder.sent ++ [chunk] <+: ps := ⟨bodyChunks body, by rw [← hcut]; simp⟩
  refine ⟨?_, (h.script (by rw [hpc]; rfl)).send (hpre.trans (List.prefix_append _ _)) hsend, ?_⟩
  · simp only [Cut, send_sent hsend, List.append_assoc, List.singleton_append]
    exact hcut
  · simpa [Wrote, hpc, send_received hsend] using hout

/-- EOF is sent. -/
theorem serves_sendEof {s : Session ε} {ok : Bool} (hps : [] ∉ ps) (hpc : o.pc = .sendEof)
    (hsend : o.decoder.send [] = some (ok, s)) (h : Serves B options ps o body written) :
    Serves B options ps { decoder := s, pc := .flush } body written := by
  have hcut := h.cut
  have hout := h.wrote
  simp only [Cut, hpc] at hcut
  have hscript := h.script (by rw [hpc]; rfl)
  have hok : ok = true := hscript.send_ok (by rw [hcut]; exact hps) hsend
  subst hok
  refine ⟨by simp only [Cut, send_sent hsend, hcut], hscript.send (by rw [hcut]) hsend, ?_⟩
  simpa [Wrote, hpc, send_received hsend] using hout

/-- A chunk of the response is written. -/
theorem serves_sendData {a : AudioData} {flush : Bool} (hpc : o.pc = .sendData a flush)
    (h : Serves B options ps o body written) :
    Serves B options ps { o with pc := loopPc flush } body (written ++ [.data a.data]) := by
  have hcut := h.cut
  have hout := h.wrote
  have hscript := h.script (by rw [hpc]; rfl)
  simp only [Wrote, hpc] at hout
  obtain ⟨as, hoks, hout⟩ := hout
  have hnew : written ++ [.data a.data] = stream (oks o.decoder.received) := by
    rw [hoks, stream_concat, hout]
  refine ⟨?_, ?_, ?_⟩
  · cases flush <;> simpa [Cut, hpc, loopPc] using hcut
  · cases flush <;> exact hscript
  · cases flush <;> exact hnew

/-- **A step of the handler with its decoder.** -/
theorem serves_open (hps : [] ∉ ps) (h : Serves B options ps o body written)
    (hs : OpenStep o body body' out o') : Serves B options ps o' body' (written ++ out) := by
  have hcut := h.cut
  have hscript := h.script
  have hout := h.wrote
  cases hs with
  | respond _ hpc =>
    simp only [Wrote, hpc] at hout
    refine ⟨by simpa [Cut, hpc] using hcut, hscript (by rw [hpc]; rfl), ?_⟩
    simp [Wrote, hout, stream]
  | endOfBody hpc =>
    rw [List.append_nil]
    exact ⟨by simpa [Cut, hpc, bodyChunks] using hcut, hscript (by rw [hpc]; rfl),
      by simpa [Wrote, hpc] using hout⟩
  | next b rest hpc =>
    rw [List.append_nil]
    exact serves_next hpc h
  | send chunk s _ hpc hsend =>
    rw [List.append_nil]
    exact serves_send hpc hsend h
  | sendErr chunk s _ hpc hsend => cases send_accepted hps hpc hsend h
  | item flush i s _ hpc hi => rw [List.append_nil]; exact serves_item hpc hi h
  | drained r _ hpc hr hrecv =>
    rw [List.append_nil]
    exact ⟨by simpa [Cut, hpc] using hcut, hscript (by rw [hpc]; rfl),
      by simpa [Wrote, hpc] using hout⟩
  | sendData a flush _ hpc => exact serves_sendData hpc h
  | sendEof ok s _ hpc hsend =>
    rw [List.append_nil]
    exact serves_sendEof hps hpc hsend h
  | empty _ hpc hr | yieldNow _ hpc =>
    rw [List.append_nil]
    exact ⟨by simpa [Cut, hpc] using hcut, hscript (by rw [hpc]; rfl),
      by simpa [Wrote, hpc] using hout⟩
  | flushed _ hpc hc =>
    rw [List.append_nil]
    have hscript := hscript (by rw [hpc]; rfl)
    simp only [Wrote, hpc] at hout
    exact ⟨by simpa [Cut, hpc] using hcut, hscript, ⟨_, _, hscript, hc, rfl⟩, hout⟩
  | finish _ hpc =>
    simp only [Wrote, hpc] at hout
    exact ⟨trivial, hscript (by rw [hpc]; rfl), _, hout.1, by rw [hout.2]⟩
  | drop d d' failed s _ hpc hdrop =>
    rw [List.append_nil]
    have howns := h.owns
    rw [hpc] at howns
    refine ⟨trivial, howns.drop hdrop, ?_⟩
    simp only [Wrote, hpc] at hout
    cases failed <;> exact hout

/-- **A step of a request.** -/
theorem follows_step {l : ExchangeLabel ε} (hps : [] ∉ ps) (h : Follows B options ps x)
    (hs : x.step B options l = some x') : Follows B options ps x' := by
  cases exchange_step_cases hs with
  | acquire hp =>
    simp only [Follows, hp] at h
    exact ⟨by simpa [Cut, acquire] using h.1, scripted_acquire, h.2, rfl⟩
  | session hp ho =>
    simp only [Follows, hp] at h
    exact serves_open hps h ho
  | dropped o failed hp hpc =>
    simp only [Follows, hp] at h
    have hout := h.wrote
    simp only [Wrote, hpc] at hout
    cases failed <;> exact hout
  | fail o hp hpc =>
    simp only [Follows, hp] at h
    exact ⟨trivial, h.script hpc, _, ⟨_, h.script hpc, rfl⟩, h.written_begins hpc⟩
  | acquireErr hp =>
    simp only [Follows, hp] at h
    exact ⟨[], begun_nil, by rw [h.2]; exact List.nil_prefix⟩
  | inner i o s hp hi =>
    simp only [Follows, hp] at h
    obtain ⟨hsent, hrec, -⟩ := inner_keeps hi
    refine ⟨?_, h.owns.inner hi, ?_⟩
    · have := h.cut
      simp only [Cut, hsent] at this ⊢; exact this
    · have := h.wrote
      simp only [Wrote, hrec] at this ⊢; exact this

theorem reach_follows {all : List (Option Bytes)}
    (h : Reach (Exchange.step B options) (Exchange.new all) x) :
    Follows B options (bodyChunks all) x :=
  h.invariant ⟨rfl, rfl⟩ fun _ _ _ hI hs => follows_step (nil_notMem_bodyChunks all) hI hs

end MediaApi.Http.Requests
