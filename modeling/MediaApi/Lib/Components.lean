import Mathlib.Data.List.Basic
import Mathlib.Tactic

/-! # Systems of many components

The state of such a system is a list, and a step replaces the component with some number
(`List.set`). A sum over the components changes by what that component changes, and counts of
disjoint kinds of components add up. -/

namespace MediaApi.Lib.Components

variable {α : Type*} {l : List α} {k : ℕ} {x y : α}

theorem sum_map_set (f : α → ℕ) (hk : l[k]? = some x) :
    ((l.set k y).map f).sum + f x = (l.map f).sum + f y := by
  induction l generalizing k with
  | nil => cases hk
  | cons a l ih =>
    cases k with
    | zero =>
      cases hk
      simp only [List.set_cons_zero, List.map_cons, List.sum_cons]
      omega
    | succ k =>
      have := ih (k := k) hk
      simp only [List.set_cons_succ, List.map_cons, List.sum_cons]
      omega

theorem le_sum_map (f : α → ℕ) (hk : l[k]? = some x) : f x ≤ (l.map f).sum :=
  List.single_le_sum (by simp) _ (List.mem_map_of_mem (List.mem_of_getElem? hk))

/-- Two components have at most the sum over all of them. -/
theorem add_le_sum_map (f : α → ℕ) {j : ℕ} (hk : l[k]? = some x) (hj : l[j]? = some y)
    (hne : j ≠ k) : f x + f y ≤ (l.map f).sum := by
  induction l generalizing k j with
  | nil => cases hk
  | cons a l ih =>
    rw [List.map_cons, List.sum_cons]
    cases k with
    | zero =>
      obtain ⟨j, rfl⟩ := Nat.exists_eq_succ_of_ne_zero hne
      cases hk
      exact Nat.add_le_add_left (le_sum_map f (by simpa using hj)) _
    | succ k =>
      cases j with
      | zero =>
        cases hj
        rw [Nat.add_comm]
        exact Nat.add_le_add_left (le_sum_map f (by simpa using hk)) _
      | succ j =>
        have := ih (k := k) (j := j) (by simpa using hk) (by simpa using hj) (by omega)
        omega

theorem sum_map_le_length {f : α → ℕ} (hle : ∀ x, f x ≤ 1) (l : List α) :
    (l.map f).sum ≤ l.length := by
  induction l with
  | nil => exact Nat.zero_le _
  | cons a l ih =>
    have := hle a
    rw [List.map_cons, List.sum_cons, List.length_cons]
    omega

/-- If a component gives nothing and none more than one, the sum is less than their number. -/
theorem sum_map_lt_length {f : α → ℕ} (hle : ∀ x, f x ≤ 1) (hk : l[k]? = some x) (hx : f x = 0) :
    (l.map f).sum < l.length := by
  induction l generalizing k with
  | nil => cases hk
  | cons a l ih =>
    rw [List.map_cons, List.sum_cons, List.length_cons]
    cases k with
    | zero =>
      cases hk
      have := sum_map_le_length hle l
      omega
    | succ k =>
      have := ih (k := k) (by simpa using hk)
      have := hle a
      omega

theorem map_set_of_eq {β : Type*} {f : α → β} (hk : l[k]? = some x) (h : f y = f x) :
    (l.set k y).map f = l.map f := by
  induction l generalizing k with
  | nil => rfl
  | cons a l ih =>
    cases k with
    | zero =>
      cases hk
      simp only [List.set_cons_zero, List.map_cons, h]
    | succ k => simp only [List.set_cons_succ, List.map_cons, ih (k := k) hk]

theorem countP_set (p : α → Bool) (hk : l[k]? = some x) :
    (l.set k y).countP p + (if p x then 1 else 0) = l.countP p + if p y then 1 else 0 := by
  induction l generalizing k with
  | nil => cases hk
  | cons a l ih =>
    cases k with
    | zero =>
      cases hk
      simp only [List.set_cons_zero, List.countP_cons]
      omega
    | succ k =>
      have := ih (k := k) hk
      simp only [List.set_cons_succ, List.countP_cons]
      omega

/-- A component of the same kind does not change a count. -/
theorem countP_set_of_eq {p : α → Bool} (hk : l[k]? = some x) (h : p y = p x) :
    (l.set k y).countP p = l.countP p := by
  have hmap := congrArg (List.countP id) (map_set_of_eq hk h)
  rwa [List.countP_map, List.countP_map] at hmap

/-- Components of either of two kinds that exclude each other. -/
theorem countP_or {p q : α → Bool} (h : ∀ x, (p x && q x) = false) :
    l.countP (fun x => p x || q x) = l.countP p + l.countP q := by
  induction l with
  | nil => rfl
  | cons a l ih =>
    have ha := h a
    simp only [List.countP_cons, ih]
    cases hp : p a <;> cases hq : q a <;> simp_all <;> omega

/-- Components of two kinds that exclude each other and are both of a third. -/
theorem countP_add_countP_le {p q r : α → Bool} (hp : ∀ x ∈ l, p x = true → r x = true)
    (hq : ∀ x ∈ l, q x = true → r x = true) (hd : ∀ x ∈ l, p x = true → q x = false) :
    l.countP p + l.countP q ≤ l.countP r := by
  induction l with
  | nil => simp
  | cons a l ih =>
    have := ih (fun x hx => hp x (List.mem_cons_of_mem _ hx))
      (fun x hx => hq x (List.mem_cons_of_mem _ hx)) fun x hx => hd x (List.mem_cons_of_mem _ hx)
    have h1 := hp a List.mem_cons_self
    have h2 := hq a List.mem_cons_self
    have h3 := hd a List.mem_cons_self
    simp only [List.countP_cons]
    cases hpa : p a <;> cases hqa : q a <;> cases hra : r a <;> simp_all <;> omega

/-! ### One component -/

/-- The components after a replacement. -/
theorem getElem_set {j : ℕ} {z : α} (hk : l[k]? = some x)
    (h : (l.set k y)[j]? = some z) : (j = k ∧ z = y) ∨ (j ≠ k ∧ l[j]? = some z) := by
  obtain ⟨hlt, -⟩ := List.getElem?_eq_some_iff.mp hk
  rw [List.getElem?_set] at h
  split_ifs at h with hj
  · cases h
    exact Or.inl ⟨hj.symm, rfl⟩
  · exact Or.inr ⟨fun e => hj e.symm, h⟩

/-- The components after a new one. -/
theorem getElem_append_one {z : α}
    (h : (l ++ [x])[k]? = some z) : (k = l.length ∧ z = x) ∨ (k ≠ l.length ∧ l[k]? = some z) := by
  rw [List.getElem?_append] at h
  split_ifs at h with hk
  · exact Or.inr ⟨hk.ne, h⟩
  · obtain ⟨hlt, -⟩ := List.getElem?_eq_some_iff.mp h
    have hk0 : k - l.length = 0 := by simpa using hlt
    rw [hk0] at h
    cases h
    exact Or.inl ⟨by omega, rfl⟩

/-- Lists of which each is a beginning of its counterpart have the same elements in a row only if
they are the same. -/
theorem flatten_inj_of_prefix {α β : Type*} {f g : β → List α} : ∀ {bs : List β},
    (∀ b ∈ bs, f b <+: g b) → ((bs.map f).flatten = (bs.map g).flatten ↔ ∀ b ∈ bs, f b = g b) := by
  intro bs
  induction bs with
  | nil => simp
  | cons b bs ih =>
    intro h
    have hb := h b List.mem_cons_self
    have hbs : ∀ b ∈ bs, f b <+: g b := fun b hm => h b (List.mem_cons_of_mem _ hm)
    constructor
    · intro heq
      rw [List.map_cons, List.map_cons, List.flatten_cons, List.flatten_cons] at heq
      have hlen : ((bs.map f).flatten).length ≤ ((bs.map g).flatten).length := by
        rw [List.length_flatten, List.length_flatten, List.map_map, List.map_map]
        exact List.sum_le_sum fun b hm => (hbs b hm).length_le
      have htotal := congrArg List.length heq
      rw [List.length_append, List.length_append] at htotal
      have hle := hb.length_le
      have hfirst : f b = g b := hb.eq_of_length (by omega)
      rw [hfirst] at heq
      intro b' hm
      rcases List.mem_cons.mp hm with rfl | hm
      · exact hfirst
      · exact (ih hbs).mp (List.append_cancel_left heq) b' hm
    · intro heq
      congr 1
      exact List.map_congr_left heq

end MediaApi.Lib.Components
