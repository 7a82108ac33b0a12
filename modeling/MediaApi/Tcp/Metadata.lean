import MediaApi.Model.Tcp
import MediaApi.Pool.Forwarding

/-! # The metadata of a TCP session

The frames of a connection, each with the audio chunk it was made from: `events` is what a step
writes, and the log of a run is what the connection has written, cut into its sessions. A session
sends META once, for its first chunk (`chunk_events`), and all its PCMS frames stand under it. -/

namespace MediaApi.Tcp.Metadata

open MediaApi.Lib.Transition MediaApi.Model.Audio MediaApi.Model.Pipeline MediaApi.Model.ProcessJob
open MediaApi.Model.Steps MediaApi.Model.Tcp MediaApi.Pool.Forwarding

variable {ε : Type}

/-! ### What is written -/

/-- A frame with the chunk it was made from, or the begin of a session. -/
inductive Event where
  | session
  | describes (a : AudioData)
  | carries (a : AudioData)
  | done
deriving DecidableEq

/-- The frames of an event. -/
def Event.frames : Event → List Frame
  | .session => []
  | .describes a => [metaFrame a]
  | .carries a => [pcmsFrame a]
  | .done => [doneFrame]

/-- What a step puts out. -/
def events (c : Conn ε) : ConnLabel ε → List Event
  | .handler =>
    match c.phase with
    | .acquire _ => [.session]
    | .session o =>
      match o.pc with
      | .writeMeta a _ => [.describes a]
      | .writePcms a _ => [.carries a]
      | .writeDone => [.done]
      | _ => []
    | _ => []
  | _ => []

/-- The format of a chunk, as META can tell it. -/
def format (a : AudioData) : UInt32 × UInt8 × UInt8 × PcmEncoding :=
  (a.samplingRate, a.channelCount, a.bitsPerSample, encodingOf a.audioFormat)

/-- The events up to a chunk of a session: META for its first chunk, then its chunks. -/
def sessionOf (first : AudioData) (as : List AudioData) : List Event :=
  .session :: .describes first :: (first :: as).map .carries

/-- Every chunk stands in its session, under the META of the first. -/
def Settled (t : List Event) : Prop :=
  ∀ t₁ a t₂, t = t₁ ++ .carries a :: t₂ →
    ∃ t₀ first as, t₁ ++ [.carries a] = t₀ ++ sessionOf first as

/-- How the session at hand has begun. -/
def Begun (firstMetaSent : Bool) (t : List Event) : Prop :=
  if firstMetaSent then ∃ t₀ first as, t = t₀ ++ sessionOf first as else ∃ t₀, t = t₀ ++ [.session]

/-- What has been put out when the handler is at some point. -/
def Shape (c : Conn ε) (t : List Event) : Prop :=
  match c.phase with
  | .session o =>
    match o.pc with
    | .writeMeta .. => o.firstMetaSent = false ∧ Begun false t
    | .writePcms a _ => o.firstMetaSent = true ∧ Begun true (t ++ [.carries a])
    | .writeDone | .drop .. => True
    | _ => Begun o.firstMetaSent t
  | _ => True

/-- **The invariant** of a connection and its log. -/
structure Told (c : Conn ε) (t : List Event) : Prop where
  written : c.written = t.flatMap Event.frames
  settled : Settled t
  shape : Shape c t

/-! ### Each step keeps it -/

theorem settled_append {t t' : List Event} (h : Settled t) (ht' : ∀ a, .carries a ∉ t') :
    Settled (t ++ t') := by
  intro t₁ a t₂ heq
  rw [List.append_eq_append_iff] at heq
  rcases heq with ⟨u, rfl, heq⟩ | ⟨u, rfl, heq⟩
  · exact absurd (by rw [heq]; simp) (ht' a)
  · cases u with
    | nil => exact absurd (by rw [List.nil_append] at heq; rw [← heq]; simp) (ht' a)
    | cons e u =>
      cases heq
      exact h t₁ a u rfl

theorem settled_carries {t : List Event} {a : AudioData} (h : Settled t)
    (hb : Begun true (t ++ [.carries a])) : Settled (t ++ [.carries a]) := by
  intro t₁ a' t₂ heq
  rcases List.eq_nil_or_concat t₂ with rfl | ⟨u, e, rfl⟩
  · obtain ⟨rfl, he⟩ := List.append_inj' heq rfl
    cases he
    exact hb
  · have happ : t₁ ++ .carries a' :: (u ++ [e]) = (t₁ ++ .carries a' :: u) ++ [e] := by simp
    rw [List.concat_eq_append] at heq
    rw [happ] at heq
    obtain ⟨rfl, -⟩ := List.append_inj' heq rfl
    exact h t₁ a' u rfl

/-- A further chunk of a session. -/
theorem Begun.concat {t : List Event} (h : Begun true t) (a : AudioData) :
    Begun true (t ++ [.carries a]) := by
  obtain ⟨t₀, first, as, rfl⟩ := h
  exact ⟨t₀, first, as ++ [a], by simp [sessionOf]⟩

/-- The first chunk of a session. -/
theorem Begun.first {t : List Event} (h : Begun false t) (a : AudioData) :
    Begun true (t ++ [.describes a] ++ [.carries a]) := by
  obtain ⟨t₀, rfl⟩ := h
  exact ⟨t₀, a, [], by simp [sessionOf]⟩

variable [ToString ε] {B : DecodeOptions → Behaviour ε} {options : DecodeOptions} {c c' : Conn ε}
  {t : List Event}

omit [ToString ε] in
/-- A step that writes no PCMS frame. -/
theorem told_writes {t' : List Event} (h : Told c t) (ht' : ∀ a, .carries a ∉ t')
    (hw : c'.written = c.written ++ t'.flatMap Event.frames) (hshape : Shape c' (t ++ t')) :
    Told c' (t ++ t') := by
  refine ⟨?_, settled_append h.settled ht', hshape⟩
  rw [hw, h.written, List.flatMap_append]

omit [ToString ε] in
/-- A step that writes nothing. -/
theorem told_silent (h : Told c t) (hw : c'.written = c.written) (hshape : Shape c' t) :
    Told c' (t ++ []) :=
  told_writes h (fun _ => List.not_mem_nil) (hw.trans (List.append_nil _).symm)
    (by rwa [List.append_nil])

omit [ToString ε] in
/-- A received item leads to META before the first chunk, and to a PCMS frame after it. -/
theorem shape_item {o : Open ε} {s : Session ε} {frames out : List Frame} (i : Item) (flush : Bool)
    (h : Begun o.firstMetaSent t) :
    Shape ⟨frames, out, .session { o with decoder := s, pc := o.write i flush }⟩ t := by
  cases i with
  | error e => cases flush <;> exact h
  | ok a =>
    simp only [Shape, Open.write]
    cases hm : o.firstMetaSent with
    | false => exact ⟨rfl, hm ▸ h⟩
    | true => exact ⟨rfl, (hm ▸ h).concat a⟩

omit [ToString ε] in
/-- **A step inside a session.** -/
theorem told_open {o o' : Open ε} {frames frames' out : List Frame} (h : Told c t)
    (hp : c.phase = .session o) (hs : OpenStep o frames frames' out o') :
    Told ⟨frames', c.written ++ out, .session o'⟩ (t ++ events c .handler) := by
  have hshape := h.shape
  simp only [Shape, hp] at hshape
  cases hs with
  | item flush i s _ hpc hr =>
    have he : events c .handler = [] := by cases flush <;> simp [events, hp, hpc]
    have hb : Begun o.firstMetaSent t := by cases flush <;> simpa [hpc] using hshape
    rw [he]
    exact told_silent h (List.append_nil _) (shape_item i flush hb)
  | writeMeta a flush _ hpc =>
    have he : events c .handler = [.describes a] := by simp [events, hp, hpc]
    simp only [hpc] at hshape
    rw [he]
    exact told_writes h (by simp) rfl ⟨rfl, hshape.2.first a⟩
  | writePcms a flush _ hpc =>
    have he : events c .handler = [.carries a] := by simp [events, hp, hpc]
    simp only [hpc] at hshape
    rw [he]
    refine ⟨?_, settled_carries h.settled hshape.2, ?_⟩
    · rw [List.flatMap_append, ← h.written]
      rfl
    · have hb : Begun o.firstMetaSent (t ++ [.carries a]) := by
        rw [hshape.1]
        exact hshape.2
      cases flush <;> exact hb
  | writeDone _ hpc =>
    have he : events c .handler = [.done] := by simp [events, hp, hpc]
    rw [he]
    exact told_writes h (by simp) rfl trivial
  | read f rest hpc =>
    have he : events c .handler = [] := by simp [events, hp, hpc]
    simp only [hpc] at hshape
    rw [he]
    refine told_silent h (List.append_nil _) ?_
    unfold nextPc
    split_ifs <;> exact hshape
  | flushed s _ hpc =>
    have he : events c .handler = [] := by simp [events, hp, hpc]
    rw [he]
    exact told_silent h (List.append_nil _) trivial
  | drop d d' failed s _ hpc =>
    have he : events c .handler = [] := by simp [events, hp, hpc]
    rw [he]
    exact told_silent h (List.append_nil _) trivial
  | send data s _ hpc | sendErr data s _ hpc | sendEof ok s _ hpc | drained r s _ hpc
  | endOfStream hpc =>
    have he : events c .handler = [] := by simp [events, hp, hpc]
    simp only [hpc] at hshape
    rw [he]
    exact told_silent h (List.append_nil _) hshape

/-- **A step of a connection.** -/
theorem told_step {l : ConnLabel ε} (h : Told c t) (hs : c.step B options l = some c') :
    Told c' (t ++ events c l) := by
  cases conn_step_cases hs with
  | eof hp hf =>
    have he : events c .handler = [] := by simp [events, hp]
    rw [he]
    exact told_silent h rfl trivial
  | first f rest hp hf =>
    have he : events c .handler = [] := by simp [events, hp]
    rw [he]
    refine told_silent h rfl ?_
    simp only [Shape]
    split_ifs <;> trivial
  | acquire data hp =>
    have he : events c .handler = [.session] := by simp [events, hp]
    rw [he]
    refine told_writes h (by simp) (List.append_nil _).symm ?_
    have hb : Begun false (t ++ [.session]) := ⟨t, rfl⟩
    unfold Shape firstPc
    split_ifs <;> exact hb
  | session hp ho => exact told_open h hp ho
  | dropped o failed hp hpc =>
    have he : events c .handler = [] := by simp [events, hp, hpc]
    rw [he]
    refine told_silent h rfl ?_
    cases failed <;> trivial
  | failFirst hp => exact told_silent h rfl trivial
  | fail o hp hpc => exact told_silent h rfl trivial
  | acquireErr data hp => exact told_silent h rfl trivial
  | inner i o s hp hi =>
    refine told_silent h rfl ?_
    have hshape := h.shape
    simp only [Shape, hp] at hshape ⊢
    exact hshape

/-! ### What META says -/

/-- The chunks that META frames were made from. -/
def metas (t : List Event) : List AudioData :=
  t.filterMap fun | .describes a => some a | _ => none

theorem metas_append (t t' : List Event) : metas (t ++ t') = metas t ++ metas t' :=
  List.filterMap_append

theorem metas_cons_session (t : List Event) : metas (.session :: t) = metas t := rfl

theorem metas_cons_describes (a : AudioData) (t : List Event) :
    metas (.describes a :: t) = a :: metas t := rfl

theorem metas_map_carries (as : List AudioData) : metas (as.map .carries) = [] := by
  rw [metas, List.filterMap_eq_nil_iff]
  intro e he
  obtain ⟨a, -, rfl⟩ := List.mem_map.mp he
  rfl

/-- After `t`, the latest META of the session at hand gives the format of `a`. -/
def Described (t : List Event) (a : AudioData) : Prop :=
  ∃ t₀ b t₁, t = t₀ ++ .describes b :: t₁ ∧ metas t₁ = [] ∧ .session ∉ t₁ ∧
    decodeMeta (metaFrame b).data = some (format a)

/-- A META frame gives the format of its chunk. -/
theorem decodeMeta_metaFrame (b : AudioData) : decodeMeta (metaFrame b).data = some (format b) :=
  decodeMeta_encodeMeta _ _ _ _

/-- The latest META of a session is that of its first chunk. -/
theorem described_iff {t t₀ : List Event} {first a : AudioData} {as : List AudioData}
    (h : t ++ [.carries a] = t₀ ++ sessionOf first as) :
    Described t a ↔ format a = format first := by
  obtain ⟨as', a', has⟩ : ∃ as' a', first :: as = as' ++ [a'] :=
    ⟨_, _, (List.dropLast_append_getLast (List.cons_ne_nil first as)).symm⟩
  have ht : t = t₀ ++ .session :: .describes first :: as'.map .carries := by
    have hsession : t₀ ++ sessionOf first as =
        (t₀ ++ .session :: .describes first :: as'.map .carries) ++ [.carries a'] := by
      simp [sessionOf, has]
    rw [hsession] at h
    exact (List.append_inj' h rfl).1
  constructor
  · rintro ⟨t₁, b, t₂, ht', hmetas, -, hb⟩
    have hlast : metas t₀ ++ [first] = metas t₁ ++ [b] := by
      have h1 : metas t = metas t₀ ++ [first] := by
        rw [ht, metas_append, metas_cons_session, metas_cons_describes, metas_map_carries]
      have h2 : metas t = metas t₁ ++ [b] := by
        rw [ht', metas_append, metas_cons_describes, hmetas]
      exact h1.symm.trans h2
    obtain ⟨-, hfirst⟩ := List.append_inj' hlast rfl
    cases hfirst
    rw [decodeMeta_metaFrame, Option.some_inj] at hb
    exact hb.symm
  · intro hformat
    refine ⟨t₀ ++ [.session], first, as'.map .carries, ?_, metas_map_carries as', by simp, ?_⟩
    · rw [ht, List.append_assoc, List.singleton_append]
    · rw [decodeMeta_metaFrame, hformat]

/-- **META describes a session by its first chunk.** What a connection has written is cut into
sessions; every PCMS frame stands in its session after the one META frame of the session, made from
the first chunk. So META gives the format of a chunk exactly if it is that of the first chunk. -/
theorem metadata (B : DecodeOptions → Behaviour ε) (options : DecodeOptions) (all : List Frame)
    (ls : List (ConnLabel ε)) (c : Conn ε)
    (h : run (Conn.step B options) (Conn.new all) ls = some c) :
    c.written = (log (Conn.step B options) events (Conn.new all) ls).flatMap Event.frames ∧
      ∀ t a t', log (Conn.step B options) events (Conn.new all) ls = t ++ .carries a :: t' →
        ∃ t₀ first as, t ++ [.carries a] = t₀ ++ sessionOf first as ∧
          (Described t a ↔ format a = format first) := by
  have hnew : Told (Conn.new all : Conn ε) [] :=
    ⟨rfl, fun t₁ a t₂ ht => by simp at ht, trivial⟩
  have htold := log_invariant (fun c t l c' => told_step) h hnew
  rw [List.nil_append] at htold
  refine ⟨htold.written, fun t a t' ht => ?_⟩
  obtain ⟨t₀, first, as, hsession⟩ := htold.settled t a t' ht
  exact ⟨t₀, first, as, hsession, described_iff hsession⟩

/-! ### Two formats in one session -/

/-- A chunk of a file at 44100, and one of a file at 48000. -/
def chunkA : AudioData := ⟨[7], 44100, 2, 16, .other 0⟩
def chunkB : AudioData := ⟨[8], 48000, 2, 16, .other 0⟩

/-- A pipeline that gives one chunk of each of two files, each in its own format. -/
def mixed : DecodeOptions → Behaviour String := fun _ => streaming 1 fun taken =>
  if [] ∈ taken then [.ok chunkA, .ok chunkB] else []

/-- A session with two files. -/
def mixedConn : List (ConnLabel String) :=
  (List.replicate 6 .handler : List (ConnLabel String)) ++
    [.inner .worker, .inner .worker, .inner (.answer true), .inner .worker, .inner (.pipe .take),
      .inner .worker, .inner (.answer true), .inner .worker, .inner (.pipe .take),
      .inner (.pipe (.emit (.ok chunkA))), .inner (.pipe (.emit (.ok chunkB))), .inner .worker,
      .inner .worker, .inner .worker, .inner .worker] ++
    List.replicate 5 .handler

theorem log_mixedConn : log (Conn.step mixed {}) events (Conn.new [⟨.dcod, [7]⟩, ⟨.dcod, []⟩])
    mixedConn = [.session, .describes chunkA, .carries chunkA, .carries chunkB] := by decide

theorem run_mixedConn : ∃ c, run (Conn.step mixed {}) (Conn.new [⟨.dcod, [7]⟩, ⟨.dcod, []⟩])
    mixedConn = some c := by
  have hrun : (run (Conn.step mixed {}) (Conn.new [⟨.dcod, [7]⟩, ⟨.dcod, []⟩])
      mixedConn).isSome = true := by decide
  exact Option.isSome_iff_exists.mp hrun

theorem metadata_mixed : ∃ c, run (Conn.step mixed {}) (Conn.new [⟨.dcod, [7]⟩, ⟨.dcod, []⟩])
      mixedConn = some c ∧ c.written = [metaFrame chunkA, pcmsFrame chunkA, pcmsFrame chunkB] ∧
    ∃ t₀ first as, [.session, .describes chunkA, .carries chunkA] ++ [.carries chunkB] =
      t₀ ++ sessionOf first as ∧
        (Described [.session, .describes chunkA, .carries chunkA] chunkB ↔
          format chunkB = format first) := by
  obtain ⟨c, hc⟩ := run_mixedConn
  obtain ⟨hwritten, hchunks⟩ := metadata mixed {} _ mixedConn c hc
  rw [log_mixedConn] at hwritten
  exact ⟨c, hc, hwritten, hchunks _ chunkB [] log_mixedConn⟩

/-- **The second file's audio is sent under the first file's META.** -/
theorem not_described : ∃ c, run (Conn.step mixed {}) (Conn.new [⟨.dcod, [7]⟩, ⟨.dcod, []⟩])
      mixedConn = some c ∧
    ∃ t a t', log (Conn.step mixed {}) events (Conn.new [⟨.dcod, [7]⟩, ⟨.dcod, []⟩]) mixedConn =
      t ++ .carries a :: t' ∧ ¬ Described t a := by
  obtain ⟨c, hc⟩ := run_mixedConn
  refine ⟨c, hc, [.session, .describes chunkA, .carries chunkA], chunkB, [], log_mixedConn, ?_⟩
  have hsession : [.session, .describes chunkA, .carries chunkA] ++ [.carries chunkB] =
      [] ++ sessionOf chunkA [chunkB] := rfl
  rw [described_iff hsession]
  decide

end MediaApi.Tcp.Metadata
