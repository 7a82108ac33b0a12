import Mathlib.Data.List.Basic
import Mathlib.Tactic

/-! # Folds in which the last value wins

A pass over a list that keeps one field of its state up to date: an item may give the field a value
(`v x = some b`), which replaces the one before, or leave it alone (`v x = none`). After the pass
the field has the last value given, else the one it had. -/

namespace MediaApi.Lib.LastWins

variable {α β σ : Type*}

/-- The last value that `v` gives in the list. -/
def last (v : α → Option β) (l : List α) : Option β := l.reverse.findSome? v

variable {v : α → Option β} {l l' : List α} {x : α} {b : β}

@[simp] theorem last_nil : last v [] = none := rfl

@[simp] theorem last_append : last v (l ++ l') = (last v l').or (last v l) := by
  simp [last, List.findSome?_append]

@[simp] theorem last_singleton : last v [x] = v x := by simp [last]

theorem last_eq_none_iff : last v l = none ↔ ∀ x ∈ l, v x = none := by
  simp [last, List.findSome?_eq_none_iff]

/-- The last value is given by an item after which none gives one. -/
theorem last_eq_some_iff : last v l = some b ↔
    ∃ l₁ x l₂, l = l₁ ++ x :: l₂ ∧ v x = some b ∧ ∀ y ∈ l₂, v y = none := by
  constructor
  · intro h
    induction l using List.reverseRecOn with
    | nil => cases h
    | append_singleton l a ih =>
      rw [last_append, last_singleton] at h
      cases ha : v a with
      | some c =>
        rw [ha, Option.some_or] at h
        exact ⟨l, a, [], rfl, by rw [ha, h], fun b hb => absurd hb List.not_mem_nil⟩
      | none =>
        rw [ha, Option.none_or] at h
        obtain ⟨l₁, x, l₂, rfl, hx, hl⟩ := ih h
        refine ⟨l₁, x, l₂ ++ [a], by simp, hx, fun y hy => ?_⟩
        rcases List.mem_append.mp hy with hy | hy
        · exact hl y hy
        · rw [List.mem_singleton.mp hy, ha]
  · rintro ⟨l₁, x, l₂, rfl, hx, hl⟩
    have h2 : last v l₂ = none := last_eq_none_iff.mpr hl
    have hcons : x :: l₂ = [x] ++ l₂ := rfl
    rw [hcons, last_append, last_append, h2, last_singleton, hx]
    rfl

/-- If all items that give a value give the same one, the order does not matter. -/
theorem last_eq_some_of_forall (hx : x ∈ l) (hv : v x = some b)
    (hall : ∀ y ∈ l, ∀ c, v y = some c → c = b) : last v l = some b := by
  cases h : last v l with
  | none =>
    have := last_eq_none_iff.mp h x hx
    rw [hv] at this
    cases this
  | some c =>
    obtain ⟨l₁, y, l₂, rfl, hy, -⟩ := last_eq_some_iff.mp h
    rw [hall y (by simp) c hy]

/-- **The fold rule.** -/
theorem get_foldl {step : σ → α → σ} {get : σ → Option β}
    (hstep : ∀ s x, get (step s x) = (v x).or (get s)) (l : List α) :
    ∀ s : σ, get (l.foldl step s) = (last v l).or (get s) := by
  induction l using List.reverseRecOn with
  | nil => intro s; rfl
  | append_singleton l a ih =>
    intro s
    rw [List.foldl_append, List.foldl_cons, List.foldl_nil, hstep, ih s, last_append,
      last_singleton, Option.or_assoc]

end MediaApi.Lib.LastWins
