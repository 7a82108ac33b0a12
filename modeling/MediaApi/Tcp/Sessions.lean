import MediaApi.Tcp.Reference
import MediaApi.Pool.Script

/-! # The sessions of a TCP connection

The invariant `Follows` of a connection, for every pipeline: the sessions served so far are the
first segments of the client's frames, each with what was received for it until its output channel
closed; the session at hand is a scripted one, its script is the next segment, and what it has
written is the audio it has received. -/

namespace MediaApi.Tcp.Sessions

open MediaApi.Lib.Transition MediaApi.Model.Audio MediaApi.Model.Pipeline MediaApi.Model.ProcessJob
open MediaApi.Model.Steps MediaApi.Model.Tcp MediaApi.Pool.Handle MediaApi.Pool.Script
open MediaApi.Tcp.Reference

variable {ε : Type}

/-! ### The invariant -/

/-- How the session at hand is cut out of the frames to come: `ps` are its payloads, and `rest` the
sessions after it. -/
def Cut (o : Open ε) (frames : List Frame) (ps : List Bytes) (rest : List (List Bytes)) : Prop :=
  match o.pc with
  | .send data => segmentFrom (some (o.decoder.sent ++ [data])) frames = ps :: rest
  | .sendEof => o.decoder.sent = ps ∧ segmentFrom none frames = rest
  | .drain | .read | .writeMeta _ false | .writePcms _ false =>
    segmentFrom (some o.decoder.sent) frames = ps :: rest
  | .flush | .writeMeta _ true | .writePcms _ true | .writeDone =>
    o.decoder.sent = ps ++ [[]] ∧ segmentFrom none frames = rest
  | .drop _ false => segmentFrom none frames = rest
  | .drop _ true => True

variable [ToString ε]

/-- What the session at hand has written so far. -/
def Wrote (B : DecodeOptions → Behaviour ε) (options : DecodeOptions) (o : Open ε) (ps : List Bytes)
    (out : List Frame) : Prop :=
  match o.pc with
  | .writeMeta a _ => o.firstMetaSent = false ∧ oks o.decoder.received = [a] ∧ out = []
  | .writePcms a _ => o.firstMetaSent = true ∧ ∃ as, oks o.decoder.received = as ++ [a] ∧
      out = metaOf (as ++ [a]) ++ as.map pcmsFrame
  | .writeDone => Served B options ps o.decoder.received ∧ out = audio (oks o.decoder.received)
  | .drop _ false => ∃ rs, Served B options ps rs ∧ out = render rs
  | .drop _ true => ∃ rs, Begun B options ps rs ∧ out <+: audio (oks rs)
  | _ => (o.firstMetaSent = true ↔ oks o.decoder.received ≠ []) ∧
      out = audio (oks o.decoder.received)

/-- A session of a connection with the payloads `ps`. -/
structure Serves (B : DecodeOptions → Behaviour ε) (options : DecodeOptions) (o : Open ε)
    (frames : List Frame) (ps : List Bytes) (rest : List (List Bytes)) (out : List Frame) :
    Prop where
  data : [] ∉ ps
  cut : Cut o frames ps rest
  owns : Owns B options ps o.pc.dropping o.decoder
  wrote : Wrote B options o ps out

/-- The sessions served, with what was received for each. -/
abbrev Log := List (List Bytes × List Item)

/-- What was written for them. -/
def rendered (log : Log) : List Frame := (log.map fun e => render e.2).flatten

/-- **The invariant of a connection.** -/
def Follows (B : DecodeOptions → Behaviour ε) (options : DecodeOptions) (all : List Frame)
    (c : Conn ε) : Prop :=
  ∃ log : Log, (∀ e ∈ log, Served B options e.1 e.2) ∧
    match c.phase with
    | .first => segment all = log.map Prod.fst ++ segmentFrom none c.frames ∧
        c.written = rendered log
    | .acquire data =>
        segment all = log.map Prod.fst ++ segmentFrom none (⟨.dcod, data⟩ :: c.frames) ∧
        c.written = rendered log
    | .session o => ∃ ps rest out, segment all = log.map Prod.fst ++ ps :: rest ∧
        Serves B options o c.frames ps rest out ∧ c.written = rendered log ++ out
    | .closed true => segment all = log.map Prod.fst ∧ c.written = rendered log
    | .closed false => ∃ rest out, segment all = log.map Prod.fst ++ rest ∧
        c.written = rendered log ++ out ∧
        (out = [] ∨ ∃ ps rest' rs, rest = ps :: rest' ∧ Begun B options ps rs ∧
          out <+: audio (oks rs))

variable {B : DecodeOptions → Behaviour ε} {options : DecodeOptions}
  {all frames frames' out out' : List Frame} {o o' : Open ε} {ps : List Bytes}
  {rest : List (List Bytes)} {c c' : Conn ε}

theorem Serves.script (h : Serves B options o frames ps rest out) (hd : o.pc.dropping = none) :
    Scripted B options ps o.decoder := by
  have := h.owns
  rw [hd] at this; exact this

/-- What a session that does not drop its decoder has written is audio it has received. -/
theorem Serves.out_begins (h : Serves B options o frames ps rest out) (hd : o.pc.dropping = none) :
    out <+: audio (oks o.decoder.received) := by
  have hout := h.wrote
  unfold Wrote at hout
  split at hout
  · rw [hout.2.2]; exact List.nil_prefix
  · obtain ⟨-, as, has, rfl⟩ := hout
    rw [has, ← audio_concat]; exact List.prefix_append _ _
  · rw [hout.2]
  · next d hpc => rw [hpc] at hd; cases hd
  · next d hpc => rw [hpc] at hd; cases hd
  · rw [hout.2]

/-! ### The steps of a session -/

/-- A received item is written, if it is audio, and else passed over. -/
theorem serves_item {i : Item} {s : Session ε} {flush : Bool}
    (hpc : o.pc = if flush then .flush else .drain) (hi : o.decoder.tryRecv = (.item i, s))
    (h : Serves B options o frames ps rest out) :
    Serves B options { o with decoder := s, pc := o.write i flush } frames ps rest out := by
  have hs := (h.script (by rw [hpc]; cases flush <;> rfl)).tryRecv hi
  have hsent : s.sent = o.decoder.sent := tryRecv_sent hi
  have hrec := tryRecv_received hi
  have hout : (o.firstMetaSent = true ↔ oks o.decoder.received ≠ []) ∧
      out = audio (oks o.decoder.received) := by
    have := h.wrote
    cases flush <;> simpa [Wrote, hpc] using this
  have hcut := h.cut
  refine ⟨h.data, ?_, ?_, ?_⟩
  · cases i with
    | ok a =>
      cases hm : o.firstMetaSent <;> cases flush <;>
        simpa [Cut, hpc, Open.write, hm, hsent] using hcut
    | error e => cases flush <;> simpa [Cut, hpc, Open.write, hsent] using hcut
  · have hnone : (o.write i flush).dropping = none := by
      cases i with
      | ok a => cases hm : o.firstMetaSent <;> simp [Open.write, hm, TcpPc.dropping]
      | error e => cases flush <;> rfl
    rw [hnone]; exact hs
  · cases i with
    | error e =>
      have : oks s.received = oks o.decoder.received := by rw [hrec]; simp
      cases flush <;> simpa [Wrote, Open.write, this] using hout
    | ok a =>
      have hoks : oks s.received = oks o.decoder.received ++ [a] := by rw [hrec]; simp
      cases hm : o.firstMetaSent with
      | false =>
        have hnil : oks o.decoder.received = [] := by simpa [hm] using hout.1
        simp only [Open.write, hm, Wrote, hoks, hnil, hout.2]
        exact ⟨trivial, rfl, rfl⟩
      | true =>
        have hne : oks o.decoder.received ≠ [] := hout.1.mp hm
        simp only [Open.write, hm, Wrote, if_true]
        exact ⟨trivial, _, hoks, by rw [hout.2, metaOf_concat hne]; rfl⟩

/-- The decoder of a session takes its chunks. -/
theorem send_accepted {data : Bytes} {s : Session ε} {ok : Bool} (hpc : o.pc = .send data)
    (hsend : o.decoder.send data = some (ok, s)) (h : Serves B options o frames ps rest out) :
    ok = true := by
  have hcut := h.cut
  simp only [Cut, hpc] at hcut
  have hpre := prefix_of_segmentFrom hcut
  refine (h.script (by rw [hpc]; rfl)).send_ok (fun hm => ?_) hsend
  exact h.data (hpre.subset (List.mem_append_left _ hm))

/-- A chunk is sent. -/
theorem serves_send {data : Bytes} {s : Session ε} (hpc : o.pc = .send data)
    (hsend : o.decoder.send data = some (true, s)) (h : Serves B options o frames ps rest out) :
    Serves B options { o with decoder := s, pc := .drain } frames ps rest out := by
  have hcut := h.cut
  have hout := h.wrote
  simp only [Cut, hpc] at hcut
  have hpre := prefix_of_segmentFrom hcut
  refine ⟨h.data, ?_,
    (h.script (by rw [hpc]; rfl)).send (hpre.trans (List.prefix_append _ _)) hsend, ?_⟩
  · simp only [Cut, send_sent hsend]
    exact hcut
  · simpa [Wrote, hpc, send_received hsend] using hout

/-- EOF is sent. -/
theorem serves_sendEof {s : Session ε} {ok : Bool} (hpc : o.pc = .sendEof)
    (hsend : o.decoder.send [] = some (ok, s)) (h : Serves B options o frames ps rest out) :
    Serves B options { o with decoder := s, pc := .flush } frames ps rest out := by
  have hcut := h.cut
  have hout := h.wrote
  simp only [Cut, hpc] at hcut
  obtain ⟨hsent, hrest⟩ := hcut
  have hscript := h.script (by rw [hpc]; rfl)
  have hok : ok = true := hscript.send_ok (by rw [hsent]; exact h.data) hsend
  subst hok
  refine ⟨h.data, ?_, hscript.send (by rw [hsent]) hsend, ?_⟩
  · simp only [Cut, send_sent hsend, hsent]
    exact ⟨trivial, hrest⟩
  · simpa [Wrote, hpc, send_received hsend] using hout

/-- A PCMS frame is written. -/
theorem serves_writePcms {a : AudioData} {flush : Bool} (hpc : o.pc = .writePcms a flush)
    (h : Serves B options o frames ps rest out) :
    Serves B options { o with pc := if flush then .flush else .drain } frames ps rest
      (out ++ [pcmsFrame a]) := by
  have hcut := h.cut
  have hout := h.wrote
  have hscript := h.script (by rw [hpc]; rfl)
  simp only [Wrote, hpc] at hout
  obtain ⟨hm, as, hoks, hout⟩ := hout
  have hnew : (o.firstMetaSent = true ↔ oks o.decoder.received ≠ []) ∧
      out ++ [pcmsFrame a] = audio (oks o.decoder.received) := by
    rw [hoks, hout, audio_concat]
    simpa using hm
  refine ⟨h.data, ?_, ?_, ?_⟩
  · cases flush <;> simpa [Cut, hpc] using hcut
  · cases flush <;> exact hscript
  · cases flush <;> exact hnew

/-- A frame is read. -/
theorem serves_read {f : Frame} (hpc : o.pc = .read)
    (h : Serves B options o (f :: frames) ps rest out) :
    Serves B options { o with pc := nextPc f } frames ps rest out := by
  have hcut := h.cut
  have hout := h.wrote
  have hscript := h.script (by rw [hpc]; rfl)
  simp only [Cut, hpc, segmentFrom] at hcut
  have hpc' : nextPc f = .sendEof ∨ nextPc f = .send f.data ∨ nextPc f = .drain := by
    unfold nextPc
    split_ifs <;> simp
  refine ⟨h.data, ?_, ?_, ?_⟩
  · unfold nextPc
    split_ifs at hcut ⊢ <;> simpa [Cut] using hcut
  · rcases hpc' with hpc' | hpc' | hpc' <;> rw [hpc'] <;> exact hscript
  · rcases hpc' with hpc' | hpc' | hpc' <;> simpa [Wrote, hpc, hpc'] using hout

/-- **A step of the handler inside a session.** -/
theorem serves_open (h : Serves B options o frames ps rest out)
    (hs : OpenStep o frames frames' out' o') :
    Serves B options o' frames' ps rest (out ++ out') := by
  have hdata := h.data
  have hcut := h.cut
  have hout := h.wrote
  have hscript := h.script
  cases hs with
  | item flush i s _ hpc hi => rw [List.append_nil]; exact serves_item hpc hi h
  | send data s _ hpc hsend =>
    rw [List.append_nil]
    exact serves_send hpc hsend h
  | sendErr data s _ hpc hsend => cases send_accepted hpc hsend h
  | sendEof ok s _ hpc hsend =>
    rw [List.append_nil]
    exact serves_sendEof hpc hsend h
  | drained r s _ hpc hr hrecv =>
    rw [List.append_nil]
    obtain rfl := tryRecv_same hr hrecv
    exact ⟨hdata, by simpa [Cut, hpc] using hcut, hscript (by rw [hpc]; rfl),
      by simpa [Wrote, hpc] using hout⟩
  | writeMeta a flush _ hpc =>
    simp only [Wrote, hpc] at hout
    obtain ⟨-, hoks, hnil⟩ := hout
    refine ⟨hdata, ?_, hscript (by rw [hpc]; rfl), rfl, [], hoks, by rw [hnil]; rfl⟩
    cases flush <;> simpa [Cut, hpc] using hcut
  | writePcms a flush _ hpc => exact serves_writePcms hpc h
  | endOfStream hpc =>
    rw [List.append_nil]
    have hcut : o.decoder.sent = ps ∧ [] = rest := by simpa [Cut, hpc, segmentFrom] using hcut
    exact ⟨hdata, ⟨hcut.1, hcut.2⟩, hscript (by rw [hpc]; rfl), by simpa [Wrote, hpc] using hout⟩
  | read f rest' hpc =>
    rw [List.append_nil]
    exact serves_read hpc h
  | flushed s _ hpc hc =>
    rw [List.append_nil]
    have hscript := hscript (by rw [hpc]; rfl)
    obtain ⟨hs, -⟩ := tryRecv_closed hc
    subst hs
    refine ⟨hdata, by simpa [Cut, hpc] using hcut, hscript, ?_⟩
    simp only [Wrote, hpc] at hout
    exact ⟨⟨_, _, hscript, hc, rfl⟩, hout.2⟩
  | writeDone _ hpc =>
    simp only [Wrote, hpc] at hout
    simp only [Cut, hpc] at hcut
    exact ⟨hdata, hcut.2, hscript (by rw [hpc]; rfl), _, hout.1, by rw [hout.2]; rfl⟩
  | drop d d' failed s _ hpc hdrop =>
    rw [List.append_nil]
    have howns := h.owns
    rw [hpc] at howns
    refine ⟨hdata, ?_, howns.drop hdrop, ?_⟩
    · simp only [Cut, hpc] at hcut
      cases failed with
      | false => exact hcut
      | true => trivial
    · simp only [Wrote, hpc] at hout
      cases failed <;> exact hout

/-- A step behind the decoder. -/
theorem Serves.inner {i : Inner ε} {s : Session ε} (h : Serves B options o frames ps rest out)
    (hi : o.decoder.inner B i = some s) :
    Serves B options { o with decoder := s } frames ps rest out := by
  obtain ⟨hsent, hrec, -⟩ := inner_keeps hi
  refine ⟨h.data, ?_, h.owns.inner hi, ?_⟩
  · have := h.cut
    simp only [Cut, hsent] at this ⊢; exact this
  · have := h.wrote
    simp only [Wrote, hrec] at this ⊢; exact this

/-- The decoder of a session is acquired. -/
theorem serves_acquire (B : DecodeOptions → Behaviour ε) (options : DecodeOptions)
    (frames : List Frame) (data : Bytes) :
    ∃ ps rest, segmentFrom none (⟨.dcod, data⟩ :: frames) = ps :: rest ∧
      Serves B options (⟨firstPc data, false, acquire options⟩ : Open ε) frames ps rest [] := by
  have hseg : ∃ ps rest, segmentFrom none (⟨.dcod, data⟩ :: frames) = ps :: rest ∧
      Cut (⟨firstPc data, false, acquire options⟩ : Open ε) frames ps rest := by
    by_cases hdata : data = []
    · exact ⟨[], segmentFrom none frames, by simp [segmentFrom, hdata],
        by simp [Cut, firstPc, hdata, acquire]⟩
    · obtain ⟨ps, rest, hseg, -⟩ := segmentFrom_some frames [data]
      exact ⟨ps, rest, by simpa [segmentFrom, hdata] using hseg,
        by simpa [Cut, firstPc, hdata, acquire] using hseg⟩
  obtain ⟨ps, rest, hseg, hcut⟩ := hseg
  refine ⟨ps, rest, hseg, ?_, hcut, ?_, ?_⟩
  · exact nil_notMem_segmentFrom _ none (fun _ h => by cases h) ps (by rw [hseg]; simp)
  · unfold firstPc; split_ifs <;> exact scripted_acquire
  · unfold firstPc
    split_ifs <;> simp [Wrote, acquire, audio, metaOf]

/-! ### The steps of a connection -/

omit [ToString ε] in
theorem rendered_concat (log : Log) (ps : List Bytes) (rs : List Item) :
    rendered (log ++ [(ps, rs)]) = rendered log ++ render rs := by simp [rendered]

/-- **A step of a connection.** -/
theorem follows_step {l : ConnLabel ε} (h : Follows B options all c)
    (hs : c.step B options l = some c') : Follows B options all c' := by
  obtain ⟨log, hlog, h⟩ := h
  cases conn_step_cases hs with
  | eof hp hf =>
    simp only [hp, hf, segmentFrom, List.append_nil] at h
    exact ⟨log, hlog, h⟩
  | first f rest hp hf =>
    simp only [hp, hf] at h
    refine ⟨log, hlog, ?_⟩
    by_cases htag : f.tag = .dcod
    · have hf' : (⟨.dcod, f.data⟩ : Frame) = f := by rw [← htag]
      simp only [if_pos htag, hf']
      exact h
    · simp only [if_neg htag]
      exact ⟨by simpa [segmentFrom, htag] using h.1, h.2⟩
  | acquire data hp =>
    simp only [hp] at h
    obtain ⟨hall, hw⟩ := h
    obtain ⟨ps, rest, hseg, hserves⟩ := serves_acquire B options c.frames data
    exact ⟨log, hlog, ps, rest, [], by rw [hall, hseg], hserves, by rw [hw, List.append_nil]⟩
  | session hp ho =>
    simp only [hp] at h
    obtain ⟨ps, rest, out, hall, h, hw⟩ := h
    exact ⟨log, hlog, ps, rest, _, hall, serves_open h ho, by rw [hw, List.append_assoc]⟩
  | dropped o failed hp hpc =>
    simp only [hp] at h
    obtain ⟨ps, rest, out, hall, h, hw⟩ := h
    have hcut := h.cut
    have hout := h.wrote
    simp only [Cut, hpc] at hcut
    simp only [Wrote, hpc] at hout
    cases failed with
    | false =>
      obtain ⟨rs, hrs, hout⟩ := hout
      refine ⟨log ++ [(ps, rs)], fun e he => ?_, ?_, by rw [rendered_concat, ← hout]; exact hw⟩
      · rcases List.mem_append.mp he with he | he
        · exact hlog e he
        · rw [List.mem_singleton.mp he]; exact hrs
      · rw [hall, ← hcut]; simp
    | true =>
      obtain ⟨rs, hrs, hout⟩ := hout
      exact ⟨log, hlog, _, out, hall, hw, Or.inr ⟨ps, rest, rs, rfl, hrs, hout⟩⟩
  | failFirst hp =>
    simp only [hp] at h
    exact ⟨log, hlog, _, [], h.1, by rw [h.2, List.append_nil], Or.inl rfl⟩
  | fail o hp hpc =>
    simp only [hp] at h
    obtain ⟨ps, rest, out, hall, h, hw⟩ := h
    have hd : o.pc.dropping = none := by
      rcases hpc with ⟨a, f, hpc | hpc⟩ | hpc | hpc <;> rw [hpc] <;> rfl
    exact ⟨log, hlog, ps, rest, out, hall,
      ⟨h.data, trivial, h.script hd, _, ⟨_, h.script hd, rfl⟩, h.out_begins hd⟩, hw⟩
  | acquireErr data hp =>
    simp only [hp] at h
    exact ⟨log, hlog, _, [], h.1, by rw [h.2, List.append_nil], Or.inl rfl⟩
  | inner i o s hp hi =>
    simp only [hp] at h
    obtain ⟨ps, rest, out, hall, h, hw⟩ := h
    exact ⟨log, hlog, ps, rest, out, hall, h.inner hi, hw⟩

theorem reach_follows (h : Reach (Conn.step B options) (Conn.new all) c) :
    Follows B options all c :=
  h.invariant ⟨[], List.forall_mem_nil _, rfl, rfl⟩ fun _ _ _ hI hs => follows_step hI hs

end MediaApi.Tcp.Sessions
