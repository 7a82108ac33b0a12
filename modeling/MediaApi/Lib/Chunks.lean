import Mathlib.Data.List.Basic
import Mathlib.Tactic

/-! # A list in chunks

`List.toChunks` cuts a list into chunks of one length, the last of which may be shorter
(`toChunks_chunked`). Filled up with a value, the chunks are the list and a rest of that value
(`Chunked.flatMap_pad`). -/

namespace MediaApi.Lib.Chunks

variable {α : Type*} {n : ℕ} {xs : List α} {L : List (List α)}

/-- The chunks of `n` elements of a list, the last of which may be shorter. -/
inductive Chunked (n : ℕ) : List α → List (List α) → Prop
  | nil : Chunked n [] []
  | last {c : List α} (hpos : 0 < c.length) (hle : c.length ≤ n) : Chunked n c [c]
  | cons {c xs : List α} {L : List (List α)} (hc : c.length = n) (h : Chunked n xs L) :
      Chunked n (c ++ xs) (c :: L)

theorem go_chunked (n : ℕ) (xs : List α) : ∀ (acc : Array α) (done : Array (List α)),
    0 < acc.size → acc.size ≤ n →
    ∃ L, List.toChunks.go n xs acc done = done.toList ++ L ∧ Chunked n (acc.toList ++ xs) L := by
  induction xs with
  | nil =>
    intro acc done hpos hle
    refine ⟨[acc.toList], by simp [List.toChunks.go], ?_⟩
    rw [List.append_nil]
    exact .last (by simpa using hpos) (by simpa using hle)
  | cons x xs ih =>
    intro acc done hpos hle
    unfold List.toChunks.go
    by_cases hfull : acc.size = n
    · obtain ⟨L, hgo, hL⟩ := ih ((Array.mkEmpty n).push x) (done.push acc.toList) (by simp)
        (by simp; omega)
      refine ⟨acc.toList :: L, ?_, .cons (by simpa using hfull) (by simpa using hL)⟩
      simpa [hfull] using hgo
    · obtain ⟨L, hgo, hL⟩ := ih (acc.push x) done (by simp) (by simp; omega)
      refine ⟨L, ?_, by simpa using hL⟩
      simpa [hfull] using hgo

/-- **The chunks of a list.** -/
theorem toChunks_chunked (hn : 0 < n) (xs : List α) : Chunked n xs (xs.toChunks n) := by
  obtain ⟨m, rfl⟩ := Nat.exists_eq_succ_of_ne_zero (Nat.ne_of_gt hn)
  rcases xs with _ | ⟨x, xs⟩
  · exact .nil
  · obtain ⟨L, hgo, hL⟩ := go_chunked (m + 1) xs #[x] #[] (by simp) (by simp)
    have hchunks : (x :: xs).toChunks (m + 1) = L := by simpa [List.toChunks] using hgo
    rw [hchunks]
    simpa using hL

theorem Chunked.length_le (h : Chunked n xs L) : ∀ c ∈ L, c.length ≤ n := by
  induction h with
  | nil => simp
  | last hpos hle => simpa using hle
  | cons hc h ih =>
    intro c hmem
    rcases List.mem_cons.mp hmem with rfl | hmem
    · exact hc.le
    · exact ih c hmem

/-- A chunk that is filled up. -/
def pad (n : ℕ) (a : α) (c : List α) : List α := c ++ List.replicate (n - c.length) a

theorem length_pad (a : α) {c : List α} (h : c.length ≤ n) : (pad n a c).length = n := by
  rw [pad, List.length_append, List.length_replicate]
  omega

/-- **The chunks filled up.** -/
theorem Chunked.flatMap_pad (hn : 0 < n) (a : α) (h : Chunked n xs L) :
    ∃ k < n, L.flatMap (pad n a) = xs ++ List.replicate k a ∧ xs.length + k = n * L.length := by
  induction h with
  | nil => exact ⟨0, hn, by simp, by simp⟩
  | @last c hpos hle =>
    refine ⟨n - c.length, by omega, by simp [pad], ?_⟩
    rw [List.length_singleton]
    omega
  | @cons c xs L hc h ih =>
    obtain ⟨k, hk, heq, hlen⟩ := ih
    have hpad : pad n a c = c := by simp [pad, hc]
    refine ⟨k, hk, by rw [List.flatMap_cons, heq, hpad, List.append_assoc], ?_⟩
    rw [List.length_append, List.length_cons, Nat.mul_succ]
    omega

end MediaApi.Lib.Chunks
