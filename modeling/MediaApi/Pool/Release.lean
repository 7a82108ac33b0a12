import MediaApi.Pool.Progress

/-! # Dropping a handle

`letGo` is a session whose holder only drops its handle: the blocking send of EOF, the two ends, and
what goes on behind them. If in the send the holder and the worker never wait for each other, and
the pipeline can make room for what the worker sends, the drop returns and the job comes to its end
(`released`). -/

namespace MediaApi.Pool.Release

open MediaApi.Lib.Transition MediaApi.Model.Audio MediaApi.Model.Pipeline MediaApi.Model.ProcessJob
open MediaApi.Model.Steps MediaApi.Pool.Forwarding MediaApi.Pool.Handle MediaApi.Pool.Script
open MediaApi.Pool.Progress

variable {ε : Type} [ToString ε]

inductive DropLabel (ε : Type) where
  | drop
  | inner (i : Inner ε)

/-- A handle being dropped. -/
def letGo (B : DecodeOptions → Behaviour ε) (c : DropPc × Session ε) :
    DropLabel ε → Option (DropPc × Session ε)
  | .drop => c.2.dropStep c.1
  | .inner i => (c.2.inner B i).map fun s => (c.1, s)

variable {B : DecodeOptions → Behaviour ε} {options : DecodeOptions} {ps : List Bytes}
  {s s' : Session ε} {d d' : DropPc}

theorem letGo_cases {l : DropLabel ε} {c c' : DropPc × Session ε} (h : letGo B c l = some c') :
    (c.1 ≠ .dropped ∧ c.2.dropStep c.1 = some c') ∨
      ∃ i, c.2.inner B i = some c'.2 ∧ c'.1 = c.1 := by
  cases l with
  | drop =>
    refine Or.inl ⟨fun hd => ?_, h⟩
    simp only [letGo, hd, Session.dropStep] at h
    cases h
  | inner i =>
    obtain ⟨m, hm, rfl⟩ := Option.map_eq_some_iff.mp h
    exact Or.inr ⟨i, hm, rfl⟩

theorem inners_letGo (h : Reach (Session.inner B) s s') : Reach (letGo B) (d, s) (d, s') :=
  h.map (f := fun s => (d, s)) fun _ i _ h => .single (l := .inner i) (by simp only [letGo, h]; rfl)

theorem drop_letGo (h : s.dropStep d = some (d', s')) : Reach (letGo B) (d, s) (d', s') :=
  .single (l := .drop) h

/-- A handle being dropped is a session; only the send of EOF adds to what was sent. -/
theorem letGo_reach (hh : Holds d s) (h : Reach (letGo B) (d, s) (d', s')) :
    Reach (Session.step B) s s' ∧ s'.sent.length ≤ s.sent.length + 1 := by
  have key := h.invariant (I := fun c => Reach (Session.step B) s c.2 ∧ Holds c.1 c.2 ∧
    c.2.sent.length ≤ s.sent.length + if c.1 = .send then 0 else 1)
    ⟨Reach.refl s, hh, Nat.le_add_right _ _⟩ ?_
  · obtain ⟨hr, -, hsent⟩ := key
    refine ⟨hr, hsent.trans ?_⟩
    split_ifs <;> omega
  rintro ⟨e, m⟩ l ⟨e', m'⟩ ⟨hr, hm, hsent⟩ hs
  rcases letGo_cases hs with ⟨-, hd⟩ | ⟨i, hi, rfl⟩
  · refine ⟨hr.trans (dropStep_reach hm hd), dropStep_holds hm hd, ?_⟩
    cases e with
    | send =>
      obtain ⟨⟨ok, z⟩, hz, he⟩ := Option.map_eq_some_iff.mp hd
      cases he
      rcases send_cases hz with ⟨-, -, -, c, -, rfl⟩ | ⟨-, -, rfl⟩
      · simpa using hsent
      · exact hsent.trans (by simp)
    | tx => cases hd; exact hsent
    | rx => cases hd; exact hsent
    | dropped => cases hd
  · obtain ⟨hsame, -⟩ := inner_keeps hi
    exact ⟨hr.trans (inner_reach hi), inner_holds hm hi, by rw [hsame]; exact hsent⟩

/-- The room the worker finds while its handle is dropped. -/
def Roomy (B : DecodeOptions → Behaviour ε) (d : DropPc) (s : Session ε) : Prop :=
  ∀ d' s', Reach (letGo B) (d, s) (d', s') → Room B s'

theorem Roomy.inners (h : Roomy B d s) (hr : Reach (Session.inner B) s s') : Roomy B d s' :=
  fun _ _ hr' => h _ _ ((inners_letGo hr).trans hr')

theorem Roomy.drop (h : Roomy B d s) (hd : s.dropStep d = some (d', s')) : Roomy B d' s' :=
  fun _ _ hr' => h _ _ ((drop_letGo hd).trans hr')

theorem Roomy.room (h : Roomy B d s) (hr : Reach (Session.inner B) s s') : Room B s' :=
  h _ _ (inners_letGo hr)

/-- A worker that waits for the end of its pipeline has taken the whole script. -/
theorem awaiting_queue (ha : Awaiting s) (h : Scripted B options ps s) (hps : [] ∉ ps) :
    s.input.queue = [] := by
  have hat : AtEof s := Or.inl ((reach_ending h.reach).final (Or.inl ha.pc))
  have htaken := ((reach_input h.reach).after hat).2.1.resolve_right fun hn => by
    rw [h.held.1] at hn; cases hn.2.2
  have hflow := (reach_flow h.reach).sent
  rw [htaken] at hflow
  rcases h.sent_cases hps with ⟨hno, -⟩ | ⟨hs, -⟩
  · exact absurd (by rw [hflow]; simp) hno
  · rw [hs, List.append_assoc] at hflow
    have hdata := congrArg (List.takeWhile (· ≠ [])) hflow
    rw [takeWhile_data hps, takeWhile_data (nil_notMem_chunks _)] at hdata
    have hps : ps = chunks s.pipe.accepted := by simpa using hdata
    rw [← hps] at hflow
    simpa using hflow

/-- **The send of a drop returns**, if the holder and the worker never wait for each other. -/
theorem send_returns (hps : [] ∉ ps) (h : Scripted B options ps s) (hroom : Roomy B .send s)
    (hkept : EofKept s) (hfree : ∀ m, Reach (Session.inner B) s m → ¬ Deadlocked m) :
    ∃ m ok s', Reach (Session.inner B) s m ∧ EofKept m ∧ m.send [] = some (ok, s') := by
  obtain ⟨m, hr, ⟨-, -, hk⟩, hsend⟩ := Reach.of_wellFounded
    (I := fun m => Reach (Session.inner B) s m ∧ Scripted B options ps m ∧ EofKept m)
    (G := fun m => m.send [] ≠ none) (falls_wf todo (backlog buffered)) (by
      rintro m ⟨hr, hm, hk⟩ hgoal
      obtain ⟨hrx, hfull⟩ := send_none.mp (not_not.mp hgoal)
      have hq : m.input.queue ≠ [] := fun hq => by simp [Lib.Channel.Chan.Full, hq] at hfull
      obtain ⟨m', hr', hk', hless⟩ := advance (drains_buffered m.pipe) hm.reach (hroom.room hr) hk
        (fun _ => Or.inr (Or.inl hq)) (fun hb => hfree m hr ⟨⟨hrx, hfull⟩, hb⟩)
        (fun ha => hq (awaiting_queue ha hm hps))
        (fun o ho => by rw [reach_gone hm.reach ⟨o, Or.inr ho⟩] at hrx; cases hrx)
      exact ⟨m', hr', ⟨hr.trans hr', hr'.invariant hm fun _ _ _ h hi => h.inner hi, hk'⟩, hless⟩)
    ⟨Reach.refl s, h, hkept⟩
  obtain ⟨⟨ok, s'⟩, hs⟩ := Option.ne_none_iff_exists'.mp hsend
  exact ⟨m, ok, s', hr, hk, hs⟩

omit [ToString ε] in
/-- A step of the drop changes nothing in the pipeline. -/
theorem dropStep_kept (hkept : EofKept s) (h : s.dropStep d = some (d', s')) : EofKept s' := by
  cases d with
  | send =>
    obtain ⟨⟨ok, m⟩, hm, he⟩ := Option.map_eq_some_iff.mp h
    cases he
    rcases send_cases hm with ⟨-, -, -, c, -, rfl⟩ | ⟨-, -, rfl⟩ <;> exact hkept
  | tx => cases h; exact hkept
  | rx => cases h; exact hkept
  | dropped => cases h

/-- Some run finishes the drop and the job. -/
def Ends (B : DecodeOptions → Behaviour ε) (options : DecodeOptions) (d : DropPc) (s : Session ε) :
    Prop :=
  ∃ s' o, Reach (letGo B) (d, s) (.dropped, s') ∧ s'.pc = .ended o ∧
    Reach (Session.step B) (acquire options) s'

theorem Ends.head (hr : Reach (letGo B) (d, s) (d', s')) (h : Ends B options d' s') :
    Ends B options d s := by
  obtain ⟨m, o, h, hm⟩ := h
  exact ⟨m, o, hr.trans h, hm⟩

/-- Once the send has returned nothing holds the drop back, nor then the worker. -/
theorem ends_of_sent (hB : EndsAfterEof (B options)) (hd : d ≠ .send)
    (h : Owns B options ps (some d) s) (hroom : Roomy B d s) (hkept : EofKept s) :
    Ends B options d s := by
  have hdropped : ∀ {s}, Owns B options ps (some .dropped) s → Roomy B .dropped s → EofKept s →
      Ends B options .dropped s := by
    intro s h hroom hk
    obtain ⟨s', o, hr, ho⟩ := dropped_ends hB h.1 (fun _ hr => hroom.room hr) hk h.2
    exact ⟨s', o, inners_letGo hr, ho, h.1.trans (inners_reach hr)⟩
  have hrx : ∀ {s}, Owns B options ps (some .rx) s → Roomy B .rx s → EofKept s →
      Ends B options .rx s := by
    intro s h hroom hk
    have hd : s.dropStep .rx = some (.dropped, s.dropRx) := rfl
    exact .head (drop_letGo hd) (hdropped (h.drop hd) (hroom.drop hd) (dropStep_kept hk hd))
  cases d with
  | send => exact absurd rfl hd
  | tx =>
    have hd : s.dropStep .tx = some (.rx, s.dropTx) := rfl
    exact .head (drop_letGo hd) (hrx (h.drop hd) (hroom.drop hd) (dropStep_kept hkept hd))
  | rx => exact hrx h hroom hkept
  | dropped => exact hdropped h hroom hkept

/-- **A drop lets the worker go**, if in its send the holder and the worker never wait for each
other. -/
theorem released (hB : EndsAfterEof (B options)) (hps : [] ∉ ps)
    (h : Owns B options ps (some d) s) (hroom : Roomy B d s) (hkept : EofKept s)
    (hfree : d = .send → ∀ m, Reach (Session.inner B) s m → ¬ Deadlocked m) :
    Ends B options d s := by
  by_cases hd : d = .send
  · subst hd
    obtain ⟨m, ok, s', hr, hk, hs⟩ := send_returns hps h hroom hkept (hfree rfl)
    have hm : Owns B options ps (some .send) m := hr.invariant h fun _ _ _ h hi => Owns.inner h hi
    have hdrop : m.dropStep .send = some (.tx, s') := by simp [Session.dropStep, hs]
    exact .head ((inners_letGo hr).trans (drop_letGo hdrop))
      (ends_of_sent hB (by simp) (hm.drop hdrop) ((hroom.inners hr).drop hdrop)
        (dropStep_kept hk hdrop))
  · exact ends_of_sent hB hd h hroom hkept

/-- Nothing else holds the worker back while its handle is dropped, from the step `d` on: the
pipeline has not refused EOF before and can make room for what is sent to it from now on, and the
metrics do not panic. -/
structure Clear (B : DecodeOptions → Behaviour ε) (d : DropPc) (s : Session ε) : Prop where
  kept : EofKept s
  room : Roomy B d s
  measures : ∀ d' s', Reach (letGo B) (d, s) (d', s') → Measures s'

/-- Dropping the decoder `s`, from the step `d` on, lets its worker go: the send of EOF does not
wait for a worker that waits for it, and if nothing else holds the worker back, the drop can return
(`Dropped s'`, with the session then at `s'`) and `process_job` too. -/
def LetsGo (B : DecodeOptions → Behaviour ε) (d : DropPc) (s : Session ε)
    (Dropped : Session ε → Prop) : Prop :=
  (d = .send → ¬ Deadlocked s) ∧ (EndsAfterEof (B s.options) → Clear B d s →
    ∃ s' o, Dropped s' ∧ s'.pc = .ended o ∧ o ≠ .panicked)

theorem letsGo {Dropped : Session ε → Prop} (hps : [] ∉ ps) (h : Owns B options ps (some d) s)
    (hfree : d = .send → ∀ m, Reach (Session.inner B) s m → ¬ Deadlocked m)
    (hdrop : ∀ s', Reach (letGo B) (d, s) (.dropped, s') → Dropped s') : LetsGo B d s Dropped := by
  refine ⟨fun hd => hfree hd s (Reach.refl s), fun hB hclear => ?_⟩
  rw [reach_options h.reach] at hB
  obtain ⟨s', o, hr, ho, hs⟩ := released hB hps h hclear.room hclear.kept hfree
  refine ⟨s', o, hdrop s' hr, ho, fun hp => (hclear.measures _ _ hr).not_panicked hs ?_⟩
  rw [ho, hp]; rfl

end MediaApi.Pool.Release
