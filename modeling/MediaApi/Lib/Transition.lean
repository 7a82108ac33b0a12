import Mathlib.Data.List.Basic
import Mathlib.Tactic

/-! # Labelled step functions and their runs

A system is a function `step : S → L → Option S`: in the state `s` the label `l` names who moves and
how, and `step s l = none` says that this move is not possible (the party is blocked, or has ended).
A *run* performs a list of labels, so a statement about every list of labels is a statement about
every interleaving.

* `Reach` and its rules: the invariant rule `Reach.invariant`, the projection rule `Reach.map`.
* `log step out s ls`: what the steps of a run put out; `log_invariant` is the invariant rule for a
  state and its log.
* `Meets ok s ls`: every step of the run meets the condition `ok` on the state before it;
  `run_invariant` is the invariant rule for such runs.
* `Reach.of_wellFounded`: if from every state that has not arrived some run leads to a smaller one,
  a state that has arrived can be reached; `Reach.of_wellFounded_or` if some run leads to a smaller
  one or to one that has arrived. -/

namespace MediaApi.Lib.Transition

variable {S S' L L' : Type*}

/-- Performs the labels in order; `none` if one of them is not possible. -/
def run (step : S → L → Option S) : S → List L → Option S
  | s, [] => some s
  | s, l :: ls => (step s l).bind fun s' => run step s' ls

/-- `s'` is reached from `s` by some run. -/
def Reach (step : S → L → Option S) (s s' : S) : Prop := ∃ ls, run step s ls = some s'

/-- Every step of the run meets `ok`, a condition on the state before the step and its label. -/
def Meets (step : S → L → Option S) (ok : S → L → Prop) : S → List L → Prop
  | _, [] => True
  | s, l :: ls => ok s l ∧ ∀ s', step s l = some s' → Meets step ok s' ls

variable {step : S → L → Option S} {step' : S' → L' → Option S'}

@[simp] theorem run_nil (s : S) : run step s [] = some s := rfl

theorem run_cons (s : S) (l : L) (ls : List L) :
    run step s (l :: ls) = (step s l).bind fun s' => run step s' ls := rfl

theorem run_cons_some {s s' : S} {l : L} {ls : List L} :
    run step s (l :: ls) = some s' ↔ ∃ m, step s l = some m ∧ run step m ls = some s' := by
  rw [run_cons, Option.bind_eq_some_iff]

theorem run_append (s : S) : ∀ ls ls' : List L,
    run step s (ls ++ ls') = (run step s ls).bind fun m => run step m ls' := by
  intro ls
  induction ls generalizing s with
  | nil => intro ls'; rfl
  | cons l ls ih =>
    intro ls'
    rw [List.cons_append, run_cons, run_cons]
    cases step s l with
    | none => rfl
    | some m => exact ih m ls'

/-- A run and one more step. -/
theorem run_concat {s m s' : S} {l : L} {ls : List L} (h : run step s ls = some m)
    (hs : step m l = some s') : run step s (ls ++ [l]) = some s' := by
  rw [run_append, h, Option.bind_some, run_cons, hs]
  rfl

/-! ### Reachability -/

@[refl] theorem Reach.refl (s : S) : Reach step s s := ⟨[], rfl⟩

theorem Reach.single {s s' : S} {l : L} (h : step s l = some s') : Reach step s s' :=
  ⟨[l], by rw [run_cons, h]; rfl⟩

theorem Reach.trans {s m s' : S} (h₁ : Reach step s m) (h₂ : Reach step m s') :
    Reach step s s' := by
  obtain ⟨ls, h₁⟩ := h₁
  obtain ⟨ls', h₂⟩ := h₂
  exact ⟨ls ++ ls', by rw [run_append, h₁]; exact h₂⟩

theorem Reach.head {s m s' : S} {l : L} (h₁ : step s l = some m) (h₂ : Reach step m s') :
    Reach step s s' := (Reach.single h₁).trans h₂

theorem Reach.tail {s m s' : S} {l : L} (h₁ : Reach step s m) (h₂ : step m l = some s') :
    Reach step s s' := h₁.trans (Reach.single h₂)

theorem reach_of_run {s s' : S} {ls : List L} (h : run step s ls = some s') : Reach step s s' :=
  ⟨ls, h⟩

/-- **The invariant rule**, for runs whose steps meet a condition. -/
theorem run_invariant {I : S → Prop} {ok : S → L → Prop}
    (hstep : ∀ s l s', I s → ok s l → step s l = some s' → I s') :
    ∀ {ls : List L} {s s' : S}, run step s ls = some s' → Meets step ok s ls → I s → I s' := by
  intro ls
  induction ls with
  | nil => intro s s' h _ h0; cases h; exact h0
  | cons l ls ih =>
    intro s s' h hm h0
    obtain ⟨m, h1, h2⟩ := run_cons_some.mp h
    exact ih h2 (hm.2 m h1) (hstep s l m h0 hm.1 h1)

theorem meets_true : ∀ (ls : List L) (s : S), Meets step (fun _ _ => True) s ls := by
  intro ls
  induction ls with
  | nil => intro s; trivial
  | cons l ls ih => intro s; exact ⟨trivial, fun s' _ => ih s'⟩

/-- **The invariant rule.** -/
theorem Reach.invariant {I : S → Prop} {s s' : S} (h : Reach step s s') (h0 : I s)
    (hstep : ∀ s l s', I s → step s l = some s' → I s') : I s' := by
  obtain ⟨ls, h⟩ := h
  exact run_invariant (fun s l s' hI _ h => hstep s l s' hI h) h (meets_true ls s) h0

/-- Induction on the last step of a run. -/
theorem Reach.rec_tail {P : S → Prop} {s s' : S} (h : Reach step s s') (h0 : P s)
    (hstep : ∀ m l m', Reach step s m → P m → step m l = some m' → P m') : P s' := by
  have hP : Reach step s s' ∧ P s' := by
    refine h.invariant (I := fun m => Reach step s m ∧ P m) ⟨Reach.refl s, h0⟩ ?_
    rintro m l m' ⟨hr, hp⟩ hs
    exact ⟨hr.tail hs, hstep m l m' hr hp hs⟩
  exact hP.2

/-- **The projection rule**: if every step of a system is a run of another one under `f`, so is
every run. -/
theorem Reach.map {f : S → S'}
    (hstep : ∀ s l s', step s l = some s' → Reach step' (f s) (f s')) {s s' : S}
    (h : Reach step s s') : Reach step' (f s) (f s') :=
  h.invariant (I := fun m => Reach step' (f s) (f m)) (Reach.refl _)
    fun m l m' hm hs => hm.trans (hstep m l m' hs)

/-! ### Conditions on the steps of a run -/

instance decidableMeets {ok : S → L → Prop} [∀ s l, Decidable (ok s l)] :
    ∀ (s : S) (ls : List L), Decidable (Meets step ok s ls)
  | _, [] => inferInstanceAs (Decidable True)
  | s, l :: ls =>
    have rest : Decidable (∀ s', step s l = some s' → Meets step ok s' ls) :=
      match step s l with
      | none => .isTrue fun _ hs => by cases hs
      | some m =>
        have : Decidable (Meets step ok m ls) := decidableMeets m ls
        decidable_of_iff (Meets step ok m ls)
          ⟨fun hm _ hs => Option.some.inj hs ▸ hm, fun hs => hs m rfl⟩
    inferInstanceAs (Decidable (ok s l ∧ ∀ s', step s l = some s' → Meets step ok s' ls))

/-- A run meets a condition if its first step does and the rest of it. -/
theorem meets_cons {ok : S → L → Prop} {s m : S} {l : L} {ls : List L} (h : step s l = some m) :
    Meets step ok s (l :: ls) ↔ ok s l ∧ Meets step ok m ls := by
  constructor
  · exact fun hmeets => ⟨hmeets.1, hmeets.2 m h⟩
  · rintro ⟨hok, hmeets⟩
    refine ⟨hok, fun m' hm' => ?_⟩
    rw [h] at hm'
    cases hm'
    exact hmeets

theorem Meets.of_append {ok : S → L → Prop} :
    ∀ {ls ls' : List L} {s : S}, Meets step ok s (ls ++ ls') → Meets step ok s ls := by
  intro ls
  induction ls with
  | nil => intro ls' s _; trivial
  | cons l ls ih => intro ls' s h; exact ⟨h.1, fun s' hs => ih (h.2 s' hs)⟩

/-- A step of a run that meets a condition meets it. -/
theorem Meets.at {ok : S → L → Prop} {l : L} {ls' : List L} {m : S} :
    ∀ {ls : List L} {s : S}, Meets step ok s (ls ++ l :: ls') → run step s ls = some m →
      ok m l := by
  intro ls
  induction ls with
  | nil => intro s h hm; cases hm; exact h.1
  | cons l' ls ih =>
    intro s h hm
    obtain ⟨m', h1, h2⟩ := run_cons_some.mp hm
    exact ih (h.2 m' h1) h2

/-- A run meets a condition if each of its steps does. -/
theorem meets_of_steps {ok : S → L → Prop} : ∀ {ls : List L} {s s' : S},
    run step s ls = some s' →
    (∀ ls₁ l ls₂ m m', ls = ls₁ ++ l :: ls₂ → run step s ls₁ = some m → step m l = some m' →
      ok m l) →
    Meets step ok s ls := by
  intro ls
  induction ls with
  | nil => intro s s' _ _; trivial
  | cons l ls ih =>
    intro s s' h hok
    obtain ⟨m, h1, h2⟩ := run_cons_some.mp h
    refine ⟨hok [] l ls s m rfl rfl h1, fun m' hm => ?_⟩
    rw [h1] at hm
    cases hm
    refine ih h2 fun ls₁ l' ls₂ n n' hls hn hn' => hok (l :: ls₁) l' ls₂ n n' ?_ ?_ hn'
    · rw [hls, List.cons_append]
    · exact run_cons_some.mpr ⟨m, h1, hn⟩

/-- **The rule of a condition that the state remembers**: if a step keeps `F` exactly when it meets
the condition, a run keeps `F` exactly when all its steps meet it. The labels are those with `own`,
and `J` is an invariant of their steps. -/
theorem meets_iff {ok : S → L → Prop} {own : L → Prop} {J F : S → Prop}
    (hJ : ∀ s l s', own l → J s → step s l = some s' → J s')
    (hF : ∀ s l s', own l → J s → step s l = some s' → (F s' ↔ F s ∧ ok s l)) :
    ∀ {ls : List L} {s s' : S}, (∀ l ∈ ls, own l) → run step s ls = some s' → J s →
      J s' ∧ (F s' ↔ F s ∧ Meets step ok s ls) := by
  intro ls
  induction ls with
  | nil =>
    intro s s' _ h hs
    cases h
    exact ⟨hs, (and_iff_left trivial).symm⟩
  | cons l ls ih =>
    intro s s' hown h hs
    obtain ⟨m, h1, h2⟩ := run_cons_some.mp h
    have hl := hown l List.mem_cons_self
    obtain ⟨hs', hiff⟩ := ih (fun l hl => hown l (List.mem_cons_of_mem _ hl)) h2 (hJ s l m hl hs h1)
    refine ⟨hs', ?_⟩
    rw [hiff, hF s l m hl hs h1, meets_cons h1, and_assoc]

/-! ### The log of a run -/

/-- What the steps of a run put out, in order. -/
def log {E : Type*} (step : S → L → Option S) (out : S → L → List E) : S → List L → List E
  | _, [] => []
  | s, l :: ls => (step s l).elim [] fun s' => out s l ++ log step out s' ls

/-- **The invariant rule** for a state and the log of the run that led to it. -/
theorem log_invariant {E : Type*} {out : S → L → List E} {I : S → List E → Prop}
    (hstep : ∀ s t l s', I s t → step s l = some s' → I s' (t ++ out s l)) :
    ∀ {ls : List L} {s s' : S} {t : List E}, run step s ls = some s' → I s t →
      I s' (t ++ log step out s ls) := by
  intro ls
  induction ls with
  | nil =>
    intro s s' t h hI
    cases h
    rw [log, List.append_nil]
    exact hI
  | cons l ls ih =>
    intro s s' t h hI
    obtain ⟨m, h1, h2⟩ := run_cons_some.mp h
    have hlog : log step out s (l :: ls) = out s l ++ log step out m ls := by
      rw [log, h1, Option.elim_some]
    rw [hlog, ← List.append_assoc]
    exact ih h2 (hstep s t l m hI h1)

/-! ### Progress -/

/-- **The progress rule**: from every state of the invariant that has not arrived, some run arrives
or leads to a smaller one. -/
theorem Reach.of_wellFounded_or {I G : S → Prop} {r : S → S → Prop} (hr : WellFounded r)
    (h : ∀ s, I s → ¬ G s → ∃ s', Reach step s s' ∧ (G s' ∨ I s' ∧ r s' s)) {s : S} (hI : I s) :
    ∃ s', Reach step s s' ∧ G s' := by
  induction s using hr.induction with
  | _ s ih =>
    by_cases hg : G s
    · exact ⟨s, Reach.refl s, hg⟩
    · obtain ⟨m, hsm, hgm | ⟨hm, hlt⟩⟩ := h s hI hg
      · exact ⟨m, hsm, hgm⟩
      · obtain ⟨s', hms, hg'⟩ := ih m hlt hm
        exact ⟨s', hsm.trans hms, hg'⟩

/-- The rule for runs that lead to a smaller state of the invariant. -/
theorem Reach.of_wellFounded {I G : S → Prop} {r : S → S → Prop} (hr : WellFounded r)
    (h : ∀ s, I s → ¬ G s → ∃ s', Reach step s s' ∧ I s' ∧ r s' s) {s : S} (hI : I s) :
    ∃ s', Reach step s s' ∧ I s' ∧ G s' := by
  refine Reach.of_wellFounded_or (G := fun s => I s ∧ G s) hr (fun s hI hg => ?_) hI
  obtain ⟨s', hs, hs'⟩ := h s hI fun h => hg ⟨hI, h⟩
  exact ⟨s', hs, Or.inr hs'⟩

/-- `f` gets smaller, or does not grow while `g` gets smaller. -/
def Falls (f g : S → ℕ) (s' s : S) : Prop := f s' < f s ∨ f s' ≤ f s ∧ g s' < g s

theorem falls_wf (f g : S → ℕ) : WellFounded (Falls f g) := by
  refine Subrelation.wf (r := InvImage (Prod.Lex (· < ·) (· < ·)) fun s => (f s, g s)) ?_
    (InvImage.wf _ (WellFounded.prod_lex wellFounded_lt wellFounded_lt))
  rintro s' s (h | ⟨h1, h2⟩)
  · exact .left _ _ h
  · rcases Nat.lt_or_eq_of_le h1 with h | h
    · exact .left _ _ h
    · exact Prod.lex_def.mpr (Or.inr ⟨h, h2⟩)

end MediaApi.Lib.Transition
