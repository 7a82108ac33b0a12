import MediaApi.Grpc.Reference

/-! # Steady gRPC calls

A call runs undisturbed while no token is cancelled, no response channel closed and no `acquire`
fails: all steps are its own (`Own`). Then what it has received is told (`Tells`), it ends at the
end of its stream (`Ends`), and each decoder is sent EOF before it goes. Its drains lose nothing as
long as none gives up while audio is still to come (`Steady`); a step keeps all decoders full
exactly if it is steady (`lossless_step`). -/

namespace MediaApi.Grpc.Undisturbed

open MediaApi.Lib.Transition MediaApi.Model.Audio MediaApi.Model.Pipeline
open MediaApi.Model.ProcessJob MediaApi.Model.Steps MediaApi.Model.Grpc MediaApi.Pool.Handle
open MediaApi.Pool.Script MediaApi.Pool.Forwarding MediaApi.Grpc.Drain MediaApi.Grpc.Segments
open MediaApi.Grpc.Isolation MediaApi.Grpc.Responses MediaApi.Grpc.Reference

variable {ε : Type}

/-! ### Steady calls -/

/-- The task or the parties behind its decoder make the step. -/
def Own (l : CallLabel ε) : Prop := l = .task ∨ ∃ i, l = .inner i

/-- If the drain of a decoder gives up in this step, all its audio has been received. -/
def Steady (D : DecodeOptions → List Bytes → List (Decoded ε)) (t : Call ε) (l : CallLabel ε) :
    Prop :=
  l = .task → ∀ d msg s, t.phase = .session (.drain d msg) s →
    Patient (D s.options (dataSent s)) (d, s) .drain

/-- The decoder has been drained. -/
def Drained : OpenPc → Prop
  | .drain (.returned _) _ | .reply _ .finish | .drop _ (.segment _ _) | .drop _ .ended => True
  | _ => False

/-- The decoders that are done with, and the current one when it is drained, have the property. -/
structure Each (P : Session ε → Prop) (t : Call ε) : Prop where
  past : ∀ s ∈ t.past, P s
  current : ∀ pc s, t.phase = .session pc s → Drained pc → P s

/-- What has been received has been answered, or is about to be. -/
def Tells (t : Call ε) : Prop :=
  match t.phase with
  | .idle (.reply chunks _) => pcmOf t.responses ++ chunks = heard t.past
  | .idle _ => pcmOf t.responses = heard t.past
  | .session pc s => pcmOf t.responses ++ pending pc = heard t.past ++ payloads s.received

/-- What an undisturbed call has read at its end. -/
def Ends (all : List (Option DecodeRequest)) (t : Call ε) : Prop :=
  match t.phase with
  | .idle .ended => requests all = t.read ∧ (segments t.read).length = t.past.length
  | .idle .status => False
  | .idle _ => True
  | .session pc _ => ¬ Reading pc → requests all = t.read

/-! ### The steps of an undisturbed call -/

variable {ms ms' : List (Option DecodeRequest)} {t t' : Call ε} {pc pc' : OpenPc} {s s' : Session ε}
  {read : List DecodeRequest} {out : List Response}

section Steps

variable [ToString ε] {B : DecodeOptions → Behaviour ε} {defaults : DecodeOptions}
  {all : List (Option DecodeRequest)} {l : CallLabel ε}

/-- A call ends of its own accord, without a decoder, at the end of the stream or after a status. -/
theorem own_ended (hown : Own l) {pc : IdlePc} (hp : t.phase = .idle pc)
    (h : t.step B defaults l = some t') (ht : t'.phase = .idle .ended) :
    pc = .status ∨ pc = .select ∧ requests t.messages = [] := by
  unfold Call.step at h
  rcases hown with rfl | ⟨i, rfl⟩
  · simp only [hp] at h
    rcases pc with _ | ⟨_ | ⟨pcm, pcmChunks⟩, msg⟩ | msg | _ | _
    · right
      refine ⟨rfl, ?_⟩
      rcases hm : t.messages with _ | ⟨_ | msg, rest⟩
      · rfl
      · rfl
      · simp only [Call.idle, hm, Option.some.injEq] at h
        rw [← h] at ht
        cases ht
    · cases h
      cases ht
    · cases h
      cases ht
    · cases h
      cases ht
    · exact Or.inl rfl
    · cases h
  · simp only [hp] at h
    cases h

/-- A call does not give up its decoder of its own accord. -/
theorem own_leave (hown : Own l) (hp : t.phase = .session pc s)
    (hpc : pc = .select ∨ ∃ pcm pcmChunks after, pc = .reply (pcm :: pcmChunks) after)
    (h : t.step B defaults l = some { t with phase := .session (.drop .send .ended) s }) :
    False := by
  unfold Call.step at h
  rcases hown with rfl | ⟨i, rfl⟩
  · simp only [hp] at h
    rcases hpc with rfl | ⟨pcm, pcmChunks, after, rfl⟩
    · unfold Call.session messagePc at h
      rcases hm : t.messages with _ | ⟨_ | msg, rest⟩ <;> simp [hm] at h
    · simp [Call.session] at h
  · simp only [hp] at h
    obtain ⟨s', -, h⟩ := Option.map_eq_some_iff.mp h
    have hph := congrArg Call.phase h
    simp only [Phase.session.injEq] at hph
    rcases hpc with rfl | ⟨pcm, pcmChunks, after, rfl⟩
    · cases hph.1
    · cases hph.1

/-! ### What is received is told -/

omit [ToString ε] in
theorem drain_received {d d' : DrainPc} (msg : Option DecodeRequest)
    (hs : drainStep s d = some (d', s')) : ∃ more, s'.received = s.received ++ more ∧
      pending (.drain d' msg) = pending (.drain d msg) ++ payloads more := by
  cases drain_cases hs with
  | send ok _ hsend => exact ⟨[], by rw [send_received hsend, List.append_nil], rfl⟩
  | item tries tries' chunks i _ hrecv => exact ⟨[i], tryRecv_received hrecv, rfl⟩
  | empty tries chunks | giveUp tries chunks | closed tries chunks =>
    exact ⟨[], by rw [List.append_nil], by simp [pending]⟩

omit [ToString ε] in
/-- A step adds to the answers, with those at hand, what it receives. -/
theorem open_received (hs : OpenStep pc s ms ms' read out pc' s') : ∃ more,
    s'.received = s.received ++ more ∧ pcmOf out ++ pending pc' = pending pc ++ payloads more := by
  cases hs with
  | message msg rest hpc =>
    refine ⟨[], by rw [List.append_nil], ?_⟩
    rw [hpc]
    unfold messagePc
    split_ifs <;> rfl
  | drain d d' msg _ _ hpc hd =>
    obtain ⟨more, hrec, hpending⟩ := drain_received msg hd
    rw [hpc]
    exact ⟨more, hrec, hpending⟩
  | drained chunks msg _ hpc =>
    rw [hpc]
    refine ⟨[], by rw [List.append_nil], ?_⟩
    rcases msg with _ | msg <;> simp [pending, drainedPc, pcmOf]
  | collect chunks i _ _ hpc hrecv =>
    rw [hpc]
    exact ⟨[i], tryRecv_received hrecv, rfl⟩
  | send data _ _ hpc hsend | sendErr data _ _ hpc hsend =>
    rw [hpc]
    exact ⟨[], by rw [send_received hsend, List.append_nil], rfl⟩
  | endOfStream _ hpc =>
    rw [hpc]
    exact ⟨[], by rw [List.append_nil], rfl⟩
  | collected chunks decoderClosed _ hpc | reply pcm chunks after _ hpc =>
    rw [hpc]
    exact ⟨[], by rw [List.append_nil], by simp [pending, pcmOf]⟩
  | replied after _ hpc =>
    rw [hpc]
    refine ⟨[], by rw [List.append_nil], ?_⟩
    rcases after with (_ | _) | _ <;> rfl
  | drop d d' after _ _ hpc hd =>
    rw [hpc, dropStep_received hd]
    refine ⟨[], by rw [List.append_nil], ?_⟩
    rcases after with _ | _ | _ <;> simp [pending, pcmOf]

theorem tells_step (hown : Own l) (ht : Tells t) (h : t.step B defaults l = some t') :
    Tells t' := by
  have hidle : ∀ {pc}, t.phase = .idle pc → (∀ c chunks msg, pc ≠ .reply (c :: chunks) msg) →
      pcmOf t.responses = heard t.past := by
    intro pc hp hpc
    unfold Tells at ht
    rw [hp] at ht
    rcases pc with _ | ⟨_ | ⟨c, chunks⟩, msg⟩ | _ | _ | _
    · exact ht
    · simpa using ht
    · exact absurd rfl (hpc c chunks msg)
    · exact ht
    · exact ht
    · exact ht
  cases call_step_cases h with
  | message msg rest hp | endOfStream hp | acquireErr msg hp => exact hidle hp (by simp)
  | replied msg hp => exact hidle hp (by simp)
  | reply pcm chunks msg hp =>
    unfold Tells at ht
    rw [hp] at ht
    show pcmOf (t.responses ++ [.pcm pcm]) ++ chunks = heard t.past
    rw [← ht]
    simp [pcmOf]
  | acquire msg hp =>
    have hpending : pending (messagePc msg) = [] := by
      unfold messagePc
      split_ifs <;> rfl
    show pcmOf t.responses ++ pending (messagePc msg) = heard t.past ++ payloads []
    rw [hpending, hidle hp (by simp)]
    simp
  | status hp =>
    show pcmOf (t.responses ++ [.resourceExhausted]) = heard t.past
    rw [← hidle hp (by simp)]
    simp [pcmOf]
  | session hp ho =>
    obtain ⟨more, hrec, hpending⟩ := open_received ho
    unfold Tells at ht
    rw [hp] at ht
    show pcmOf (t.responses ++ _) ++ pending _ = heard t.past ++ payloads _
    rw [hrec, payloads_append, ← List.append_assoc (heard t.past), ← ht]
    simp only [pcmOf, List.filterMap_append] at hpending ⊢
    rw [List.append_assoc, hpending, List.append_assoc]
  | dropped after s hp =>
    unfold Tells at ht
    rw [hp] at ht
    rcases after with ⟨chunks, msg⟩ | _ | _
    · show pcmOf t.responses ++ chunks = heard (t.past ++ [s])
      rw [heard_concat, ← ht]
      rfl
    · show pcmOf t.responses = heard (t.past ++ [s])
      rw [heard_concat, ← ht]
      simp [pending]
    · show pcmOf t.responses = heard (t.past ++ [s])
      rw [heard_concat, ← ht]
      simp [pending]
  | leaveIdle l pc hp hpc =>
    refine hidle hp fun c chunks msg hpc' => ?_
    rcases own_ended hown hp h rfl with hstatus | ⟨hselect, -⟩
    · rw [hstatus] at hpc'
      cases hpc'
    · rw [hselect] at hpc'
      cases hpc'
  | leave l pc s hp hpc => exact absurd (own_leave hown hp hpc h) id
  | inner i pc s s' hp hi =>
    unfold Tells at ht
    rw [hp] at ht
    show pcmOf t.responses ++ pending pc = heard t.past ++ payloads s'.received
    rw [(inner_keeps hi).2.1]
    exact ht

/-! ### What is read at the end -/

omit [ToString ε] in
/-- A step after which the task reads no more is at the end of the stream, or comes after it. -/
theorem open_reading (hs : OpenStep pc s ms ms' read out pc' s') (hr : ¬ Reading pc') :
    (pc = .select ∧ read = [] ∧ requests ms = []) ∨ (¬ Reading pc ∧ read = []) := by
  cases hs with
  | message msg rest hpc =>
    unfold messagePc at hr
    split_ifs at hr <;> exact absurd trivial hr
  | endOfStream _ hpc hms =>
    refine Or.inl ⟨hpc, rfl, ?_⟩
    rcases ms with _ | ⟨_ | msg, rest⟩
    · rfl
    · rfl
    · exact absurd rfl (hms msg rest)
  | drain d d' msg _ _ hpc hd =>
    rw [hpc]
    rcases msg with _ | msg
    · exact Or.inr ⟨id, rfl⟩
    · exact absurd trivial hr
  | drained chunks msg _ hpc =>
    rw [hpc]
    rcases msg with _ | msg
    · exact Or.inr ⟨id, rfl⟩
    · exact absurd trivial hr
  | reply pcm chunks after _ hpc =>
    rw [hpc]
    rcases after with _ | _
    · exact absurd trivial hr
    · exact Or.inr ⟨id, rfl⟩
  | replied after _ hpc =>
    rw [hpc]
    rcases after with (_ | _) | _
    · exact absurd trivial hr
    · exact absurd trivial hr
    · exact Or.inr ⟨id, rfl⟩
  | drop d d' after _ _ hpc hd =>
    rw [hpc]
    rcases after with _ | _ | _
    · exact absurd trivial hr
    · exact absurd trivial hr
    · exact Or.inr ⟨id, rfl⟩
  | _ => exact absurd trivial hr

theorem ends_step (hown : Own l) (hi : Isolates B defaults all t) (he : Ends all t)
    (h : t.step B defaults l = some t') : Ends all t' := by
  have hselect : t.phase = .idle .select → requests t.messages = [] → requests all = t.read ∧
      (segments t.read).length = t.past.length := by
    intro hp hms
    unfold Isolates at hi
    rw [hp] at hi
    obtain ⟨hread, hpast, -, hall⟩ := hi
    rw [hread, hpast, ← hall]
    exact ⟨hms, rfl⟩
  have hended : ∀ {pc}, t.phase = .idle pc → t'.phase = .idle .ended →
      requests all = t.read ∧ (segments t.read).length = t.past.length := by
    intro pc hp hp'
    rcases own_ended hown hp h hp' with rfl | ⟨rfl, hms⟩
    · unfold Ends at he
      rw [hp] at he
      exact absurd he id
    · exact hselect hp hms
  cases call_step_cases h with
  | endOfStream hp => exact hended hp rfl
  | leaveIdle l pc hp hpc => exact hended hp rfl
  | status hp =>
    unfold Ends at he
    rw [hp] at he
    exact absurd he id
  | message msg rest hp | replied msg hp | reply pcm chunks msg hp => trivial
  | acquire msg hp =>
    refine fun hr => absurd ?_ hr
    unfold messagePc
    split_ifs <;> trivial
  | session hp ho =>
    intro hr
    unfold Ends at he
    rw [hp] at he
    unfold Isolates at hi
    rw [hp] at hi
    obtain ⟨init, last, seg, ho'⟩ := hi
    rcases open_reading ho hr with ⟨hpc, hread, hms⟩ | ⟨hpc, hread⟩
    · have hall := ho'.stream (by rw [hpc]; trivial)
      rw [hms, List.append_nil] at hall
      rw [hall, hread, List.append_nil]
    · rw [he hpc, hread, List.append_nil]
  | dropped after s hp =>
    rcases after with ⟨chunks, msg⟩ | _ | _
    · trivial
    · trivial
    · unfold Ends at he
      rw [hp] at he
      unfold Isolates at hi
      rw [hp] at hi
      obtain ⟨init, last, seg, ho⟩ := hi
      refine ⟨he id, ?_⟩
      rw [ho.read, List.length_append, List.length_append, ho.past.get.1]
      rfl
  | leave l pc s hp hpc => exact absurd (own_leave hown hp hpc h) id
  | acquireErr msg hp =>
    rcases hown with hl | ⟨i, hl⟩
    · cases hl
    · cases hl
  | inner i pc s s' hp hi' =>
    unfold Ends at he
    rw [hp] at he
    exact he

/-! ### When a decoder is drained -/

omit [ToString ε] in
theorem drain_drained {d d' : DrainPc} (msg : Option DecodeRequest)
    (hd : drainStep s d = some (d', s')) :
    (¬ Drained (.drain d msg) ∧ ¬ Drained (.drain d' msg) ∧
        ∀ rs : List (Decoded ε), Patient rs (d, s) .drain) ∨
      (¬ Drained (.drain d msg) ∧ Drained (.drain d' msg) ∧ s' = s ∧ ∃ tries chunks,
        d = .poll tries chunks ∧
        (s.tryRecv = (.closed, s) ∨ maxTries < tries + 1 ∧ s.tryRecv = (.empty, s))) := by
  cases drain_cases hd with
  | send ok _ hsend => exact Or.inl ⟨id, id, fun rs => patient_send⟩
  | item tries tries' chunks i _ hrecv =>
    refine Or.inl ⟨id, id, fun rs => patient_poll.mpr fun _ hempty => ?_⟩
    obtain ⟨c, hc, -⟩ := tryRecv_item hrecv
    rw [hc] at hempty
    cases hempty
  | empty tries chunks hle hrecv =>
    exact Or.inl ⟨id, id, fun rs => patient_poll.mpr fun hlt => absurd hle (by omega)⟩
  | giveUp tries chunks hlt hrecv =>
    exact Or.inr ⟨id, trivial, rfl, tries, chunks, rfl, Or.inr ⟨hlt, hrecv⟩⟩
  | closed tries chunks hrecv =>
    exact Or.inr ⟨id, trivial, rfl, tries, chunks, rfl, Or.inl hrecv⟩

omit [ToString ε] in
/-- **The drain of a decoder**: a step leaves it undrained, and does not give up; or it stays
drained; or the drain ends, on a closed channel or at the last poll. -/
theorem open_drained (hs : OpenStep pc s ms ms' read out pc' s')
    (hpc' : ∀ d, pc' ≠ .drop d .select) :
    (¬ Drained pc ∧ ¬ Drained pc' ∧
        ∀ d msg, pc = .drain d msg → ∀ rs : List (Decoded ε), Patient rs (d, s) .drain) ∨
      (Drained pc ∧ Drained pc' ∧ (s' = s ∨ ∃ d d', s.dropStep d = some (d', s')) ∧
        ∀ d msg, pc = .drain d msg → ∀ rs : List (Decoded ε), Patient rs (d, s) .drain) ∨
      (¬ Drained pc ∧ Drained pc' ∧ s' = s ∧ ∃ tries chunks msg,
        pc = .drain (.poll tries chunks) msg ∧
        (s.tryRecv = (.closed, s) ∨ maxTries < tries + 1 ∧ s.tryRecv = (.empty, s))) := by
  cases hs with
  | drain d d' msg _ _ hpc hd =>
    subst hpc
    rcases drain_drained msg hd with ⟨h1, h2, hpatient⟩ | ⟨h1, h2, hs, tries, chunks, rfl, h⟩
    · refine Or.inl ⟨h1, h2, fun d msg he rs => ?_⟩
      cases he
      exact hpatient rs
    · exact Or.inr (Or.inr ⟨h1, h2, hs, tries, chunks, msg, rfl, h⟩)
  | drained chunks msg _ hpc =>
    subst hpc
    refine Or.inr (Or.inl ⟨trivial, by rcases msg with _ | msg <;> trivial, Or.inl rfl, ?_⟩)
    intro d msg he rs
    cases he
    exact fun _ _ _ h => by cases h
  | message msg rest hpc =>
    subst hpc
    refine Or.inl ⟨id, ?_, fun _ _ he => by cases he⟩
    unfold messagePc
    split_ifs <;> exact id
  | endOfStream _ hpc | send data _ _ hpc hsend | collect chunks i _ _ hpc hrecv =>
    subst hpc
    exact Or.inl ⟨id, id, fun _ _ he => by cases he⟩
  | sendErr data _ _ hpc hsend => exact absurd rfl (hpc' .send)
  | collected chunks decoderClosed _ hpc hrecv =>
    subst hpc
    exact Or.inl ⟨id, id, fun _ _ he => by cases he⟩
  | reply pcm chunks after _ hpc =>
    subst hpc
    rcases after with _ | _
    · exact Or.inl ⟨id, id, fun _ _ he => by cases he⟩
    · exact Or.inr (Or.inl ⟨trivial, trivial, Or.inl rfl, fun _ _ he => by cases he⟩)
  | replied after _ hpc =>
    subst hpc
    rcases after with (_ | _) | _
    · exact Or.inl ⟨id, id, fun _ _ he => by cases he⟩
    · exact absurd rfl (hpc' .send)
    · exact Or.inr (Or.inl ⟨trivial, trivial, Or.inl rfl, fun _ _ he => by cases he⟩)
  | drop d d' after _ _ hpc hd =>
    subst hpc
    rcases after with _ | _ | _
    · exact Or.inr (Or.inl ⟨trivial, trivial, Or.inr ⟨d, d', hd⟩, fun _ _ he => by cases he⟩)
    · exact absurd rfl (hpc' d')
    · exact Or.inr (Or.inl ⟨trivial, trivial, Or.inr ⟨d, d', hd⟩, fun _ _ he => by cases he⟩)

omit [ToString ε] in
theorem each_idle {P : Session ε → Prop} {pc : IdlePc} (hp : t.phase = .idle pc) :
    Each P t ↔ ∀ s ∈ t.past, P s := by
  refine ⟨Each.past, fun h => ⟨h, fun pc' s hp' => ?_⟩⟩
  rw [hp] at hp'
  cases hp'

omit [ToString ε] in
theorem each_session {P : Session ε → Prop} (hp : t.phase = .session pc s) :
    Each P t ↔ (∀ s ∈ t.past, P s) ∧ (Drained pc → P s) := by
  refine ⟨fun h => ⟨h.past, h.current pc s hp⟩, fun h => ⟨h.1, fun pc' s' hp' => ?_⟩⟩
  rw [hp] at hp'
  cases hp'
  exact h.2

/-- The current decoder is not dropped without being drained. -/
theorem not_dropped (hi : Isolates B defaults all t) (hp : t.phase = .session pc s) :
    ∀ d, pc ≠ .drop d .select := by
  rintro d rfl
  unfold Isolates at hi
  rw [hp] at hi
  obtain ⟨init, last, seg, ho⟩ := hi
  exact ho.cut

theorem drained_dropped {d : DropPc} {after : AfterDrop} (hi : Isolates B defaults all t)
    (hp : t.phase = .session (.drop d after) s) : Drained (.drop d after) := by
  rcases after with _ | _ | _
  · trivial
  · exact absurd rfl (not_dropped hi hp d)
  · trivial

omit [ToString ε] in
theorem takeWhile_concat_eof (l : List Bytes) :
    (l ++ [[]]).takeWhile (· ≠ []) = l.takeWhile (· ≠ []) := by
  rw [List.takeWhile_append]
  split_ifs with h
  · have hall : l.takeWhile (· ≠ []) = l := (List.takeWhile_prefix _).eq_of_length h
    rw [hall]
    simp
  · rfl

/-! ### EOF is sent -/

omit [ToString ε] in
theorem eof_drop {d d' : DropPc} (h : [] ∈ s.sent) (hd : s.dropStep d = some (d', s')) :
    [] ∈ s'.sent := by
  rcases d with _ | _ | _ | _
  · obtain ⟨⟨ok, m⟩, hsend, he⟩ := Option.map_eq_some_iff.mp hd
    cases he
    rcases send_cases hsend with ⟨-, -, -, c, -, rfl⟩ | ⟨-, -, rfl⟩
    · exact List.mem_append_left _ h
    · exact h
  · cases hd
    exact h
  · cases hd
    exact h
  · cases hd

theorem eof_step (hown : Own l) (hi : Isolates B defaults all t)
    (he : Each (fun s => [] ∈ s.sent) t) (h : t.step B defaults l = some t') :
    Each (fun s => [] ∈ s.sent) t' := by
  have hi' : Isolates B defaults all t' := isolates_step hi h
  cases call_step_cases h with
  | message msg rest hp | endOfStream hp | replied msg hp | reply pcm chunks msg hp | status hp
  | leaveIdle _ _ hp | acquireErr msg hp => exact (each_idle (by rfl)).mpr he.past
  | acquire msg hp =>
    refine (each_session (by rfl)).mpr ⟨he.past, fun hd => absurd hd ?_⟩
    unfold messagePc
    split_ifs <;> exact id
  | session hp ho =>
    obtain ⟨hpast, hcurrent⟩ := (each_session hp).mp he
    refine (each_session (by rfl)).mpr ⟨hpast, fun hd => ?_⟩
    rcases open_drained ho (not_dropped hi' (by rfl)) with ⟨-, hd', -⟩ | ⟨hd', -, hs, -⟩ |
      ⟨-, -, rfl, tries, chunks, msg, rfl, -⟩
    · exact absurd hd hd'
    · rcases hs with rfl | ⟨d, d', hstep⟩
      · exact hcurrent hd'
      · exact eof_drop (hcurrent hd') hstep
    · unfold Isolates at hi
      rw [hp] at hi
      obtain ⟨init, last, seg, hopens⟩ := hi
      have hcut := hopens.cut
      unfold Cut at hcut
      rw [hcut]
      simp
  | dropped after s hp =>
    obtain ⟨hpast, hcurrent⟩ := (each_session hp).mp he
    refine (each_idle (by rfl)).mpr fun x hx => ?_
    rcases List.mem_append.mp hx with hx | hx
    · exact hpast x hx
    · rw [List.mem_singleton.mp hx]
      exact hcurrent (drained_dropped hi hp)
  | leave l pc s hp hpc => exact absurd (own_leave hown hp hpc h) id
  | inner i pc s s' hp hs =>
    obtain ⟨hpast, hcurrent⟩ := (each_session hp).mp he
    refine (each_session (by rfl)).mpr ⟨hpast, fun hd => ?_⟩
    rw [(inner_keeps hs).1]
    exact hcurrent hd

/-! ### What is lost -/

variable {D : DecodeOptions → List Bytes → List (Decoded ε)}

/-- Nothing behind the handle changes what the holder has sent and received. -/
theorem full_inner {i : Inner ε} (hi : s.inner B i = some s') : Full D s' ↔ Full D s := by
  obtain ⟨hsent, hrec, -, -, hopt⟩ := inner_keeps hi
  unfold Full dataSent
  rw [hsent, hrec, hopt]

omit [ToString ε] in
theorem full_drop {d d' : DropPc} (hd : s.dropStep d = some (d', s')) :
    Full D s' ↔ Full D s := by
  have hrec := dropStep_received hd
  have hkeep : dataSent s' = dataSent s ∧ s'.options = s.options := by
    rcases d with _ | _ | _ | _
    · obtain ⟨⟨ok, m⟩, hsend, he⟩ := Option.map_eq_some_iff.mp hd
      cases he
      rcases send_cases hsend with ⟨-, -, -, c, -, rfl⟩ | ⟨-, -, rfl⟩
      · exact ⟨takeWhile_concat_eof s.sent, rfl⟩
      · exact ⟨rfl, rfl⟩
    · cases hd
      exact ⟨rfl, rfl⟩
    · cases hd
      exact ⟨rfl, rfl⟩
    · cases hd
  unfold Full
  rw [hrec, hkeep.1, hkeep.2]

/-- A drain that ends on a closed channel has received all. -/
theorem full_closed (hD : ∀ o, Decodes (B o) (D o)) {options : DecodeOptions}
    (h : Reach (Session.step B) (acquire options) s) (hh : Held s)
    (hc : s.tryRecv = (.closed, s)) : Full D s := by
  unfold Full
  rw [reach_options h, (closed_complete (hD options) h hh hc).2, payloads_map_mapErr]

omit [ToString ε] in
theorem steady_drain {d : DrainPc} {msg : Option DecodeRequest}
    (hp : t.phase = .session (.drain d msg) s) :
    Steady D t .task ↔ Patient (D s.options (dataSent s)) (d, s) .drain := by
  refine ⟨fun h => h rfl d msg s hp, fun h _ d' msg' s' hp' => ?_⟩
  rw [hp] at hp'
  cases hp'
  exact h

omit [ToString ε] in
theorem steady_other (h : ∀ d msg s, t.phase ≠ .session (.drain d msg) s) : Steady D t l :=
  fun _ d msg s hp => absurd hp (h d msg s)

omit [ToString ε] in
/-- A step of a drain that does not give up is steady. -/
theorem steady_patient (hp : t.phase = .session pc s)
    (h : ∀ d msg, pc = .drain d msg → ∀ rs : List (Decoded ε), Patient rs (d, s) .drain) :
    Steady D t .task := by
  intro _ d msg s' hp'
  rw [hp] at hp'
  cases hp'
  exact h d msg rfl _

/-- **The last poll of a drain** is steady exactly if all has been received. -/
theorem steady_last (hD : ∀ o, Decodes (B o) (D o)) (hi : Isolates B defaults all t) {tries : ℕ}
    {chunks : List Bytes} {msg : Option DecodeRequest}
    (hp : t.phase = .session (.drain (.poll tries chunks) msg) s)
    (h : s.tryRecv = (.closed, s) ∨ maxTries < tries + 1 ∧ s.tryRecv = (.empty, s)) :
    Steady D t .task ↔ Full D s := by
  rw [steady_drain hp, patient_poll]
  rcases h with hclosed | ⟨hlt, hempty⟩
  · unfold Isolates at hi
    rw [hp] at hi
    obtain ⟨init, last, seg, ho⟩ := hi
    have hscript : Scripted B t.currentOptions (segmentData seg) s := ho.owns
    refine iff_of_true (fun _ hempty => ?_)
      (full_closed hD hscript.reach hscript.held hclosed)
    have htx := (Lib.Channel.Chan.tryRecv_empty.mp hempty).2
    rw [(tryRecv_closed hclosed).2.2] at htx
    cases htx
  · have hout := Lib.Channel.Chan.tryRecv_empty.mpr (tryRecv_empty hempty).2
    unfold Isolates at hi
    rw [hp] at hi
    obtain ⟨init, last, seg, ho⟩ := hi
    have hscript : Scripted B t.currentOptions (segmentData seg) s := ho.owns
    have hspent : Spent (D s.options (dataSent s)) s ↔ Full D s := by
      rw [reach_options hscript.reach]
      exact (spent_iff (hD _) hscript.reach).trans (by
        rw [Full, reach_options hscript.reach])
    exact ⟨fun h => hspent.mp (h hlt hout), fun h _ _ => hspent.mpr h⟩

/-- **Nothing is lost in a step exactly if it is steady.** -/
theorem lossless_step (hD : ∀ o, Decodes (B o) (D o)) (hown : Own l)
    (hi : Isolates B defaults all t) (h : t.step B defaults l = some t') :
    Each (Full D) t' ↔ Each (Full D) t ∧ Steady D t l := by
  have hi' : Isolates B defaults all t' := isolates_step hi h
  have hidle : ∀ {pc pc'}, t.phase = .idle pc → t'.phase = .idle pc' → t'.past = t.past →
      (Each (Full D) t' ↔ Each (Full D) t ∧ Steady D t l) := by
    intro pc pc' hp hp' hpast
    rw [each_idle hp, each_idle hp', hpast]
    exact (and_iff_left (steady_other (by simp [hp]))).symm
  cases call_step_cases h with
  | message msg rest hp | endOfStream hp | replied msg hp | reply pcm chunks msg hp | status hp
  | leaveIdle _ _ hp | acquireErr msg hp => exact hidle hp rfl rfl
  | acquire msg hp =>
    rw [each_idle hp, each_session (by rfl), and_iff_left (steady_other (by simp [hp]))]
    have hnot : ¬ Drained (messagePc msg) := by
      unfold messagePc
      split_ifs <;> exact id
    exact and_iff_left fun hd => absurd hd hnot
  | session hp ho =>
    rw [each_session hp, each_session (by rfl)]
    rcases open_drained ho (not_dropped hi' (by rfl)) with ⟨hd, hd', hpatient⟩ |
      ⟨hd, hd', hs, hpatient⟩ | ⟨hd, hd', rfl, tries, chunks, msg, rfl, hlast⟩
    · rw [and_iff_left (steady_patient hp hpatient)]
      exact and_congr_right fun _ => ⟨fun _ h => absurd h hd, fun _ h => absurd h hd'⟩
    · rw [and_iff_left (steady_patient hp hpatient)]
      refine and_congr_right fun _ => ?_
      rcases hs with rfl | ⟨d, d', hstep⟩
      · exact ⟨fun h _ => h hd', fun h _ => h hd⟩
      · exact ⟨fun h _ => (full_drop hstep).mp (h hd'), fun h _ => (full_drop hstep).mpr (h hd)⟩
    · rw [and_assoc, steady_last hD hi hp hlast]
      exact and_congr_right fun _ => ⟨fun h => ⟨fun h' => absurd h' hd, h hd'⟩, fun h _ => h.2⟩
  | dropped after s hp =>
    have hd := drained_dropped hi hp
    rw [each_idle (by rfl), each_session hp, and_iff_left (steady_other (by simp [hp]))]
    simp only [List.forall_mem_append, List.forall_mem_singleton]
    exact and_congr_right fun _ => ⟨fun h _ => h, fun h => h hd⟩
  | leave l pc s hp hpc => exact absurd (own_leave hown hp hpc h) id
  | inner i pc s s' hp hs =>
    rw [each_session hp, each_session (by rfl), full_inner hs]
    exact (and_iff_left fun hl => by cases hl).symm

end Steps

end MediaApi.Grpc.Undisturbed
