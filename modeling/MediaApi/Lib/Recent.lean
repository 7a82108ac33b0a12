import Mathlib.Data.List.Basic
import Mathlib.Tactic

/-! # The most recent items of a log

`recent m l` is the last `m` items of a list. A log in the order of time that is cut to its most
recent items still has all items since some instant exactly if there are at most `m` of them
(`filter_recent_iff`). The mean of some numbers lies between two of them. -/

namespace MediaApi.Lib.Recent

variable {α : Type*} {m : ℕ} {l : List α}

/-- The last `m` items. -/
def recent (m : ℕ) (l : List α) : List α := l.drop (l.length - m)

@[simp] theorem recent_nil : recent m ([] : List α) = [] := by simp [recent]

theorem length_recent_le : (recent m l).length ≤ m := by
  rw [recent, List.length_drop]
  omega

theorem recent_of_le (h : l.length ≤ m) : recent m l = l := by
  rw [recent, Nat.sub_eq_zero_of_le h, List.drop_zero]

theorem mem_of_mem_recent {x : α} (h : x ∈ recent m l) : x ∈ l := List.mem_of_mem_drop h

/-- Cutting before and after an item is added is cutting after. -/
theorem recent_recent_concat (x : α) : recent m (recent m l ++ [x]) = recent m (l ++ [x]) := by
  have hle : l.length - m ≤ l.length := Nat.sub_le _ _
  have happ : recent m l ++ [x] = (l ++ [x]).drop (l.length - m) := by
    rw [recent, List.drop_append_of_le_length hle]
  have hlen : (recent m l ++ [x]).length = l.length - (l.length - m) + 1 := by
    rw [recent, List.length_append, List.length_drop, List.length_singleton]
  have hlen' : (l ++ [x]).length = l.length + 1 := by simp
  rw [recent, hlen, happ, List.drop_drop, recent, hlen']
  congr 1
  omega

/-- **What a cut log keeps.** The items are in order, and with an item `p` has all later ones. -/
theorem filter_recent_iff {r : α → α → Prop} {p : α → Bool} (hl : l.Pairwise r)
    (hp : ∀ x y, r x y → p x = true → p y = true) :
    (recent m l).filter p = l.filter p ↔ (l.filter p).length ≤ m := by
  constructor
  · intro h
    rw [← h]
    exact (List.length_filter_le _ _).trans length_recent_le
  · intro h
    have hsplit : l.take (l.length - m) ++ recent m l = l := List.take_append_drop _ l
    by_cases hx : ∃ x ∈ l.take (l.length - m), p x = true
    · -- all the last `m` items are later than `x`, so there are more than `m`
      obtain ⟨x, hmem, hpx⟩ := hx
      have hall : ∀ y ∈ recent m l, p y = true := by
        intro y hy
        rw [← hsplit, List.pairwise_append] at hl
        exact hp x y (hl.2.2 x hmem y hy) hpx
      have hpos : 0 < ((l.take (l.length - m)).filter p).length :=
        List.length_pos_of_mem (List.mem_filter.mpr ⟨hmem, hpx⟩)
      have hlt : 0 < (l.take (l.length - m)).length := List.length_pos_of_mem hmem
      have hlen : (l.filter p).length =
          ((l.take (l.length - m)).filter p).length + (recent m l).length := by
        conv_lhs => rw [← hsplit]
        rw [List.filter_append, List.length_append, List.filter_eq_self.mpr hall]
      rw [List.length_take] at hlt
      rw [hlen, recent, List.length_drop] at h
      omega
    · have hnil : (l.take (l.length - m)).filter p = [] := by
        rw [List.filter_eq_nil_iff]
        exact fun x hmem hpx => hx ⟨x, hmem, hpx⟩
      conv_rhs => rw [← hsplit, List.filter_append, hnil, List.nil_append]

/-! ### The mean -/

/-- The mean of some numbers. -/
def mean (ns : List ℕ) : ℚ := (ns.sum : ℚ) / (ns.length : ℚ)

/-- As many copies of the mean have the same sum. -/
theorem sum_mean {ns : List ℕ} (h : ns ≠ []) :
    (ns.map fun _ => mean ns).sum = (ns.map (Nat.cast : ℕ → ℚ)).sum := by
  have hne : (ns.length : ℚ) ≠ 0 := by
    exact_mod_cast (List.length_pos_iff.mpr h).ne'
  rw [List.map_const', List.sum_replicate, nsmul_eq_mul, mean, mul_div_cancel₀ _ hne,
    Nat.cast_list_sum]

theorem exists_le_mean {ns : List ℕ} (h : ns ≠ []) : ∃ n ∈ ns, (n : ℚ) ≤ mean ns :=
  List.exists_le_of_sum_le h _ _ (sum_mean h).ge

theorem exists_mean_le {ns : List ℕ} (h : ns ≠ []) : ∃ n ∈ ns, mean ns ≤ (n : ℚ) :=
  List.exists_le_of_sum_le h _ _ (sum_mean h).le

end MediaApi.Lib.Recent
