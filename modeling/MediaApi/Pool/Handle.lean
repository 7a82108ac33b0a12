import MediaApi.Pool.Forwarding

/-! # What the holder of a handle can rely on

A front end sees a session only through its `PooledDecoder`. While it holds both ends:

* its calls are steps of the session (`send_reach`, `tryRecv_reach`);
* a send cannot fail before EOF was sent (`send_ok`), and the output channel closes only after that
  (`closed_complete`);
* for a pipeline whose results depend only on the chunks, through `D`, what it has received is a
  beginning of what `D` gives for the chunks it may still send (`received_begins`), and all of it
  once the output channel is closed. -/

namespace MediaApi.Pool.Handle

open MediaApi.Lib.Channel MediaApi.Lib.Transition MediaApi.Model.Audio MediaApi.Model.Pipeline
open MediaApi.Model.ProcessJob MediaApi.Model.Steps MediaApi.Pool.Forwarding

variable {ε : Type}

/-- Both ends of the handle are held. -/
def Held (s : Session ε) : Prop := s.input.tx = true ∧ s.output.rx = true

/-- The data chunks sent before EOF. -/
def dataSent (s : Session ε) : List Bytes := s.sent.takeWhile (· ≠ [])

theorem dataSent_of_data {s : Session ε} (h : [] ∉ s.sent) : dataSent s = s.sent := by
  have : (s.sent ++ []).takeWhile (· ≠ []) = s.sent := by rw [takeWhile_data h]; simp
  simpa [dataSent] using this

theorem dataSent_concat_eof {s : Session ε} {ps : List Bytes} (hs : s.sent = ps ++ [[]])
    (h : [] ∉ ps) : dataSent s = ps := by
  rw [dataSent, hs, takeWhile_data h]; simp

section Steps

variable [ToString ε] {B : DecodeOptions → Behaviour ε} {s s' : Session ε}

theorem send_reach {data : Bytes} {ok : Bool} (htx : s.input.tx = true)
    (h : s.send data = some (ok, s')) : Reach (Session.step B) s s' := by
  cases ok with
  | true =>
    refine Reach.single (l := .client (.send data)) ?_
    simp only [Session.step, Session.client, htx, if_true, h]
  | false =>
    rcases send_cases h with ⟨h, -⟩ | ⟨-, -, rfl⟩
    · cases h
    · exact Reach.refl _

theorem tryRecv_reach {r : Polled} (hrx : s.output.rx = true) (h : s.tryRecv = (r, s')) :
    Reach (Session.step B) s s' := by
  cases r with
  | item i =>
    refine Reach.single (l := .client .recv) ?_
    simp only [Session.step, Session.client, hrx, if_true, h]
  | empty => rw [(tryRecv_empty h).1]
  | closed => rw [(tryRecv_closed h).1]

theorem dropTx_reach : Reach (Session.step B) s s.dropTx :=
  Reach.single (l := .client .dropTx) rfl

theorem dropRx_reach : Reach (Session.step B) s s.dropRx :=
  Reach.single (l := .client .dropRx) rfl

theorem inner_reach {i : Inner ε} (h : s.inner B i = some s') : Reach (Session.step B) s s' :=
  Reach.single (l := .inner i) h

end Steps

/-! ### What the calls keep -/

variable {s s' : Session ε}

theorem send_held {data : Bytes} {ok : Bool} (hh : Held s) (h : s.send data = some (ok, s')) :
    Held s' := by
  rcases send_cases h with ⟨-, -, -, c, hc, rfl⟩ | ⟨-, -, rfl⟩
  · obtain ⟨-, -, -, htx, -⟩ := Chan.send_sent hc
    exact ⟨by rw [← hh.1]; exact htx, hh.2⟩
  · exact hh

theorem send_received {data : Bytes} {ok : Bool} (h : s.send data = some (ok, s')) :
    s'.received = s.received := by
  rcases send_cases h with ⟨-, -, -, c, hc, rfl⟩ | ⟨-, -, rfl⟩ <;> rfl

theorem send_sent {data : Bytes} (h : s.send data = some (true, s')) :
    s'.sent = s.sent ++ [data] := by
  rcases send_cases h with ⟨-, -, -, c, hc, rfl⟩ | ⟨h, -⟩
  · rfl
  · cases h

theorem tryRecv_held {r : Polled} (hh : Held s) (h : s.tryRecv = (r, s')) : Held s' := by
  cases r with
  | item i =>
    obtain ⟨c, hc, rfl⟩ := tryRecv_item h
    obtain ⟨-, -, hrx⟩ := Chan.tryRecv_got hc
    exact ⟨hh.1, by rw [← hh.2]; exact hrx⟩
  | empty => rw [(tryRecv_empty h).1]; exact hh
  | closed => rw [(tryRecv_closed h).1]; exact hh

theorem tryRecv_sent {r : Polled} (h : s.tryRecv = (r, s')) : s'.sent = s.sent := by
  cases r with
  | item i => obtain ⟨c, hc, rfl⟩ := tryRecv_item h; rfl
  | empty => rw [(tryRecv_empty h).1]
  | closed => rw [(tryRecv_closed h).1]

theorem tryRecv_received {i : Item} (h : s.tryRecv = (.item i, s')) :
    s'.received = s.received ++ [i] := by
  obtain ⟨c, hc, rfl⟩ := tryRecv_item h; rfl

/-! ### Dropping the handle -/

/-- The ends that are still held while the handle is dropped. -/
def Holds : DropPc → Session ε → Prop
  | .send, s | .tx, s => Held s
  | .rx, s => s.input.tx = false ∧ s.output.rx = true
  | .dropped, s => s.input.tx = false ∧ s.output.rx = false

theorem dropStep_holds {d d' : DropPc} (hh : Holds d s) (h : s.dropStep d = some (d', s')) :
    Holds d' s' := by
  cases d with
  | send =>
    obtain ⟨⟨ok, m⟩, hm, he⟩ := Option.map_eq_some_iff.mp h
    cases he; exact send_held hh hm
  | tx => cases h; exact ⟨rfl, hh.2⟩
  | rx => cases h; exact ⟨hh.1, rfl⟩
  | dropped => cases h

theorem dropStep_reach [ToString ε] {B : DecodeOptions → Behaviour ε} {d d' : DropPc}
    (hh : Holds d s) (h : s.dropStep d = some (d', s')) : Reach (Session.step B) s s' := by
  cases d with
  | send =>
    obtain ⟨⟨ok, m⟩, hm, he⟩ := Option.map_eq_some_iff.mp h
    cases he; exact send_reach hh.1 hm
  | tx => cases h; exact dropTx_reach
  | rx => cases h; exact dropRx_reach
  | dropped => cases h

/-! ### What steps behind the handle keep -/

variable [ToString ε] {B : DecodeOptions → Behaviour ε}

theorem inner_keeps {i : Inner ε} (h : s.inner B i = some s') :
    s'.sent = s.sent ∧ s'.received = s.received ∧ s'.input.tx = s.input.tx ∧
      s'.output.rx = s.output.rx ∧ s'.options = s.options := by
  cases step_cases (l := .inner i) h with
  | worker h =>
    cases h with
    | eof c hpc hd hr => exact ⟨rfl, rfl, (Chan.tryRecv_got hr).2.1, rfl, rfl⟩
    | chunk b c hpc hd hr hb => exact ⟨rfl, rfl, (Chan.tryRecv_got hr).2.1, rfl, rfl⟩
    | put i final c hpc hc => exact ⟨rfl, rfl, rfl, (Chan.send_sent hc).2.2.2.2, rfl⟩
    | _ => exact ⟨rfl, rfl, rfl, rfl, rfl⟩
  | answer ok h => cases h <;> exact ⟨rfl, rfl, rfl, rfl, rfl⟩
  | pipe => exact ⟨rfl, rfl, rfl, rfl, rfl⟩

theorem inner_held {i : Inner ε} (hh : Held s) (h : s.inner B i = some s') : Held s' := by
  obtain ⟨-, -, h1, h2, -⟩ := inner_keeps h
  exact ⟨h1.trans hh.1, h2.trans hh.2⟩

theorem inner_holds {d : DropPc} {i : Inner ε} (hh : Holds d s) (h : s.inner B i = some s') :
    Holds d s' := by
  obtain ⟨-, -, h1, h2, -⟩ := inner_keeps h
  cases d <;> simp only [Holds, Held, h1, h2] <;> exact hh

theorem inners_reach (h : Reach (Session.inner B) s s') : Reach (Session.step B) s s' :=
  h.map (f := id) fun _ _ _ h => inner_reach h

theorem inners_keep (h : Reach (Session.inner B) s s') :
    s'.sent = s.sent ∧ s'.received = s.received := by
  refine h.invariant (I := fun m => m.sent = s.sent ∧ m.received = s.received) ⟨rfl, rfl⟩ ?_
  rintro m i m' ⟨h1, h2⟩ hs
  obtain ⟨h3, h4, -⟩ := inner_keeps hs
  exact ⟨h3.trans h1, h4.trans h2⟩

/-- Over a sender that is dropped nothing is sent. -/
theorem sent_of_closed (htx : s.input.tx = false) (h : Reach (Session.step B) s s') :
    s'.sent = s.sent := by
  refine (h.invariant (I := fun m => m.input.tx = false ∧ m.sent = s.sent) ⟨htx, rfl⟩ ?_).2
  rintro m l m' ⟨hm, he⟩ hs
  cases l with
  | inner i =>
    obtain ⟨h1, -, h2, -⟩ := inner_keeps (i := i) hs
    exact ⟨h2.trans hm, h1.trans he⟩
  | client a =>
    cases client_cases hs with
    | send data c htx' =>
      rw [hm] at htx'
      cases htx'
    | recv => exact ⟨hm, he⟩
    | dropTx => exact ⟨rfl, he⟩
    | dropRx => exact ⟨hm, he⟩

/-! ### What the holder knows -/

variable {options : DecodeOptions}

theorem reach_options (h : Reach (Session.step B) (acquire options) s) : s.options = options := by
  refine h.invariant (I := fun s => s.options = options) rfl ?_
  intro s l s' hI hs
  cases step_cases hs with
  | worker h => cases h <;> exact hI
  | answer ok h => cases h <;> exact hI
  | pipe => exact hI
  | client a h => cases h <;> exact hI

/-- Behind a held handle, a job that is over has taken EOF. -/
theorem eof_of_over (h : Reach (Session.step B) (acquire options) s) (hh : Held s)
    {o : Outcome} (ho : s.pc.outcome = some o) :
    AtEof s ∧ [] ∈ s.sent ∧ s.pipe.finished = true ∧ s.pipe.outbuf = [] ∧ s.pc.hand = [] := by
  have he := reach_ending h
  have hi := reach_input h
  obtain ⟨hd, hout, hhand⟩ := he.not_aborted ho hh.2
  have hfin : s.pipe.finished = true := by
    cases o with
    | returned => exact (he.done (Or.inr (Or.inl ho))).2.1
    | aborted i => have := he.aborted i ho; rw [hh.2] at this; cases this
    | panicked => exact (he.done (Or.inr (Or.inr ho))).2.1
  refine ⟨Or.inl hd, ?_, hfin, hout, hhand⟩
  rcases (hi.after (Or.inl hd)).2.1 with ht | ⟨-, -, htx⟩
  · rw [(reach_flow h).sent, ht]; simp
  · rw [hh.1] at htx; cases htx

/-- **Before EOF is sent a send does not fail.** -/
theorem send_ok (h : Reach (Session.step B) (acquire options) s) (hh : Held s) (hs : [] ∉ s.sent)
    {data : Bytes} {ok : Bool} (hsend : s.send data = some (ok, s')) : ok = true := by
  rcases send_cases hsend with ⟨hok, -⟩ | ⟨-, hrx, -⟩
  · exact hok
  · obtain ⟨o, hpc⟩ := (reach_ending h).inputRx hrx
    have ho : s.pc.outcome = some o := by rcases hpc with hpc | hpc <;> rw [hpc] <;> rfl
    exact absurd (eof_of_over h hh ho).2.1 hs

variable {D : List Bytes → List (Decoded ε)}

/-- What the pipeline has emitted is a beginning of what `D` gives, however the input goes on. -/
def EmittedBegins (D : List Bytes → List (Decoded ε)) (s : Session ε) : Prop :=
  ∀ cs, chunks s.pipe.accepted <+: cs → ([] ∈ s.pipe.accepted → cs = chunks s.pipe.accepted) →
    s.pipe.emitted <+: D cs

theorem emittedBegins_step {l : Label ε} (hD : Decodes (B options) D)
    (hr : Reach (Session.step B) (acquire options) s) (h : EmittedBegins D s)
    (hs : s.step B l = some s') : EmittedBegins D s' := by
  intro cs hcs heof
  have ho := reach_options hr
  cases step_cases hs with
  | worker hw =>
    cases hw with
    | forward r p hpc hp | forwardFinal r p hpc hp =>
      obtain ⟨-, -, hem, hacc, -⟩ := pipeRecv_some hp
      rw [hacc] at hcs heof
      rw [hem]
      exact h cs hcs heof
    | _ => exact h cs hcs heof
  | answer ok ha =>
    cases ha with
    | eofAccepted hpc =>
      rw [push_accepted] at hcs heof
      have hcs' : cs = chunks s.pipe.accepted := by simpa using heof (by simp)
      exact h cs (by rw [hcs']) fun _ => hcs'
    | accepted chunk hpc =>
      rw [push_accepted, chunks_append] at hcs
      refine h cs ((List.prefix_append _ _).trans hcs) fun hm => ?_
      -- a data chunk is never pushed after EOF
      exact absurd hm ((reach_input hr).eof_notMem (Or.inr ⟨chunk, hpc⟩))
    | eofRefused => exact h cs hcs heof
    | refused => exact h cs hcs heof
  | pipe a p hq hp =>
    obtain ⟨-, hacc, ⟨-, -, hem, -⟩ | ⟨r, -, hb, hpe⟩ | ⟨-, -, hpe⟩⟩ := pipe_step_cases hp
    · rw [hacc] at hcs heof
      rw [hem]
      exact h cs hcs heof
    · rw [hacc] at hcs heof
      have hem : p.emitted = s.pipe.emitted ++ [r] := by rw [hpe]; simp [Pipe.emitted]
      rw [hem]
      exact hD.emits _ r (by rw [← ho]; exact hb) cs hcs heof
    · rw [hacc] at hcs heof
      have hem : p.emitted = s.pipe.emitted := by rw [hpe]; rfl
      rw [hem]
      exact h cs hcs heof
  | client a ha => cases ha <;> exact h cs hcs heof

theorem emitted_begins (hD : Decodes (B options) D)
    (h : Reach (Session.step B) (acquire options) s) : EmittedBegins D s :=
  h.rec_tail (P := EmittedBegins D) (fun _ _ _ => List.nil_prefix)
    fun _ _ _ hr hI hs => emittedBegins_step hD hr hI hs

/-- A pipeline that has ended has accepted EOF and emitted all of `D`. -/
def EmittedAll (D : List Bytes → List (Decoded ε)) (s : Session ε) : Prop :=
  s.pipe.finished = true → [] ∈ s.pipe.accepted ∧ s.pipe.emitted = D (chunks s.pipe.accepted)

theorem emittedAll_step {l : Label ε} (hD : Decodes (B options) D)
    (hr : Reach (Session.step B) (acquire options) s) (h : EmittedAll D s)
    (hs : s.step B l = some s') : EmittedAll D s' := by
  intro hf
  have ho := reach_options hr
  cases step_cases hs with
  | worker hw =>
    cases hw with
    | forward r p hpc hp | forwardFinal r p hpc hp =>
      obtain ⟨-, -, hem, hacc, -, -, hfin⟩ := pipeRecv_some hp
      rw [hem, hacc]
      exact h (by rw [← hfin]; exact hf)
    | _ => exact h hf
  | answer ok ha =>
    cases ha with
    | eofAccepted hpc =>
      -- EOF is sent once
      exact absurd (h hf).1 ((reach_input hr).eof_notMem (Or.inl hpc))
    | accepted chunk hpc =>
      exact absurd (h hf).1 ((reach_input hr).eof_notMem (Or.inr ⟨chunk, hpc⟩))
    | eofRefused => exact h hf
    | refused => exact h hf
  | pipe a p hq hp =>
    obtain ⟨hnf, hacc, ⟨-, -, -, -, hfin, -⟩ | ⟨r, -, hb, rfl⟩ | ⟨-, hb, hpe⟩⟩ := pipe_step_cases hp
    · rw [hfin] at hf
      cases hf
    · rw [hnf] at hf
      cases hf
    · have hem : p.emitted = s.pipe.emitted := by rw [hpe]; rfl
      show [] ∈ p.accepted ∧ p.emitted = _
      rw [hacc, hem]
      exact hD.finishes _ (by rw [← ho]; exact hb)
  | client a ha => cases ha <;> exact h hf

theorem emitted_of_finished (hD : Decodes (B options) D)
    (h : Reach (Session.step B) (acquire options) s) : EmittedAll D s :=
  h.rec_tail (P := EmittedAll D) (fun h => by cases h)
    fun _ _ _ hr hI hs => emittedAll_step hD hr hI hs

/-- A marker that was accepted was sent, or the sender is gone. -/
theorem eof_of_accepted (h : Reach (Session.step B) (acquire options) s)
    (hm : [] ∈ s.pipe.accepted) : AtEof s ∧ ([] ∈ s.sent ∨ s.input.tx = false) := by
  have hi := reach_input h
  have hat : AtEof s := by
    by_contra hat
    rw [← hi.data hat] at hm
    exact nil_notMem_chunks _ hm
  refine ⟨hat, ?_⟩
  rcases (hi.after hat).2.1 with ht | ⟨-, -, htx⟩
  · left; rw [(reach_flow h).sent, ht]; simp
  · exact Or.inr htx

/-- What was emitted is a beginning of `D`, for every way the holder may go on sending. -/
theorem emitted_begins_sent (hD : Decodes (B options) D)
    (h : Reach (Session.step B) (acquire options) s) {cs : List Bytes}
    (hcs : dataSent s <+: cs) (heof : [] ∈ s.sent ∨ s.input.tx = false → cs = dataSent s) :
    s.pipe.emitted <+: D cs := by
  have hf := reach_flow h
  have hi := reach_input h
  have hacc : chunks s.pipe.accepted <+: dataSent s :=
    (List.prefix_append _ _).trans (accepted_begins hf hi)
  refine emitted_begins hD h _ (hacc.trans hcs) fun hm => ?_
  obtain ⟨hat, hs⟩ := eof_of_accepted h hm
  rw [accepted_of_eof hf hi hat]
  exact heof hs

/-- **What was received is a beginning of `D`**, for every way the holder may go on sending. -/
theorem received_begins (hD : Decodes (B options) D)
    (h : Reach (Session.step B) (acquire options) s) {cs : List Bytes}
    (hcs : dataSent s <+: cs) (heof : [] ∈ s.sent ∨ s.input.tx = false → cs = dataSent s) :
    s.received <+: (D cs).map mapErr := by
  refine List.IsPrefix.trans ?_ ((emitted_begins_sent hD h hcs heof).map mapErr)
  rw [← results_eq (reach_flow h)]
  simp only [List.append_assoc]
  exact List.prefix_append _ _

/-- **What was received is all of `D`** once the output channel is closed. -/
theorem closed_complete (hD : Decodes (B options) D)
    (h : Reach (Session.step B) (acquire options) s) (hh : Held s)
    (hc : s.tryRecv = (.closed, s')) :
    [] ∈ s.sent ∧ s.received = (D (dataSent s)).map mapErr := by
  obtain ⟨-, hq, htx⟩ := tryRecv_closed hc
  obtain ⟨o, hpc⟩ := (reach_ending h).outputTx.mp htx
  have ho : s.pc.outcome = some o := by rw [hpc]; rfl
  obtain ⟨hat, hs, hfin, hout, hhand⟩ := eof_of_over h hh ho
  have hf := reach_flow h
  refine ⟨hs, ?_⟩
  have hem := (emitted_of_finished hD h hfin).2
  rw [accepted_of_eof hf (reach_input h) hat] at hem
  have hres := results_eq hf
  rw [hq, hhand, hout, hem] at hres
  simpa [dataSent] using hres

end MediaApi.Pool.Handle
