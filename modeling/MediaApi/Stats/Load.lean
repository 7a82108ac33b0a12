import MediaApi.Stats.Window

/-! # The load average and the alarm

A count is **in force** in a window if it is the number of open connections at some instant of the
window or right after a call in it. Every sample in the window is such a count, and so is the
current count, which stands in for an average of no samples; so each average lies between two of
them, however the deque is trimmed. -/

namespace MediaApi.Stats.Load

open MediaApi.Lib.Recent MediaApi.Model.Connections MediaApi.Stats.Window

/-! ### Counts in force -/

/-- A call of `connection_start`. -/
def isStart : Call → Bool
  | .connectionStart _ => true
  | .connectionEnd _ => false

/-- The number of connections that are open after some calls. -/
def openAfter (calls : List Call) : ℕ := calls.countP isStart - calls.countP (!isStart ·)

/-- There are never more ends than starts. -/
def Balanced (calls : List Call) : Prop :=
  ∀ calls₁, calls₁ <+: calls → calls₁.countP (!isStart ·) ≤ calls₁.countP isStart

/-- The number of connections that are open at an instant. -/
def openAt (calls : List Call) (t : ℤ) : ℕ := openAfter (calls.filter (·.now ≤ t))

/-- The count is in force at some instant of the window that ends `now`, or right after a call in
it. -/
def InForce (calls : List Call) (now : ℤ) (window : ℕ) (n : ℕ) : Prop :=
  (∃ t, now - window ≤ t ∧ t ≤ now ∧ n = openAt calls t) ∨
    ∃ calls₁ c calls₂, calls = calls₁ ++ c :: calls₂ ∧ now - window ≤ c.now ∧ c.now ≤ now ∧
      n = openAfter (calls₁ ++ [c])

theorem InForce.mono {calls : List Call} {now : ℤ} {window window' n : ℕ} (h : window ≤ window')
    (hn : InForce calls now window n) : InForce calls now window' n := by
  rcases hn with ⟨t, hlo, hhi, hn⟩ | ⟨calls₁, c, calls₂, hcalls, hlo, hhi, hn⟩
  · exact Or.inl ⟨t, by omega, hhi, hn⟩
  · exact Or.inr ⟨calls₁, c, calls₂, hcalls, by omega, hhi, hn⟩

/-! ### The samples are counts in force -/

theorem Balanced.of_isPrefix {calls calls₁ : List Call} (h : Balanced calls)
    (hp : calls₁ <+: calls) :
    Balanced calls₁ := fun calls₂ h₂ => h calls₂ (h₂.trans hp)

/-- The count is the number of open connections. -/
theorem count_eq {calls : List Call} (h : Balanced calls) : count calls = openAfter calls := by
  induction calls using List.reverseRecOn with
  | nil => rfl
  | append_singleton calls c ih =>
    have hle := h _ (List.prefix_append calls [c])
    have hle' := h _ (List.prefix_refl (calls ++ [c]))
    rw [count_concat, ih (h.of_isPrefix (List.prefix_append _ _))]
    unfold openAfter
    rw [List.countP_append, List.countP_append] at hle' ⊢
    cases c with
    | connectionStart t =>
      have hstart : [Call.connectionStart t].countP isStart = 1 := rfl
      have hend : [Call.connectionStart t].countP (!isStart ·) = 0 := rfl
      rw [hstart, hend] at hle' ⊢
      simp only [next]
      omega
    | connectionEnd t =>
      have hstart : [Call.connectionEnd t].countP isStart = 0 := rfl
      have hend : [Call.connectionEnd t].countP (!isStart ·) = 1 := rfl
      rw [hstart, hend] at hle' ⊢
      rw [next, minusOne, if_neg (by omega)]
      omega

/-- A sample is the count right after a call. -/
theorem mem_recorded {calls : List Call} {s : Sample} (h : s ∈ recorded calls) :
    ∃ calls₁ c calls₂, calls = calls₁ ++ c :: calls₂ ∧ s = ⟨c.now, count (calls₁ ++ [c])⟩ := by
  induction calls using List.reverseRecOn with
  | nil => cases h
  | append_singleton calls c ih =>
    rw [recorded_concat] at h
    rcases List.mem_append.mp h with h | h
    · obtain ⟨calls₁, c', calls₂, rfl, hs⟩ := ih h
      exact ⟨calls₁, c', calls₂ ++ [c], by simp, hs⟩
    · exact ⟨calls, c, [], rfl, by rw [List.mem_singleton.mp h, count_concat]⟩

variable {calls : List Call} {now : ℤ} {numCpus window : ℕ}

/-- Every sample that the average is over is a count in force. -/
theorem inForce_of_mem (hcalls : Balanced calls) (hnow : ∀ c ∈ calls, c.now ≤ now) {s : Sample}
    (hs : s ∈ (after numCpus calls).samples.filter (inWindow now window)) :
    InForce calls now window s.value := by
  obtain ⟨hmem, hwindow⟩ := List.mem_filter.mp hs
  rw [after_samples] at hmem
  obtain ⟨calls₁, c, calls₂, rfl, rfl⟩ := mem_recorded (mem_of_mem_recent hmem)
  have hpre : calls₁ ++ [c] <+: calls₁ ++ c :: calls₂ := ⟨calls₂, by simp⟩
  exact Or.inr ⟨calls₁, c, calls₂, rfl, of_decide_eq_true hwindow, hnow c (by simp),
    count_eq (hcalls.of_isPrefix hpre)⟩

/-- The current count is in force. -/
theorem inForce_current (hcalls : Balanced calls) (hnow : ∀ c ∈ calls, c.now ≤ now) :
    InForce calls now window (after numCpus calls).current := by
  have hall : calls.filter (·.now ≤ now) = calls :=
    List.filter_eq_self.mpr fun c hc => decide_eq_true (hnow c hc)
  exact Or.inl ⟨now, by omega, le_rfl, by rw [after_current, count_eq hcalls, openAt, hall]⟩

/-- **The average lies between two counts in force.** -/
theorem average_between (numCpus window : ℕ) (hcalls : Balanced calls)
    (hnow : ∀ c ∈ calls, c.now ≤ now) :
    ∃ lo hi, InForce calls now window lo ∧ InForce calls now window hi ∧
      (lo : ℚ) ≤ (after numCpus calls).average now window ∧
      (after numCpus calls).average now window ≤ hi := by
  rw [average_eq]
  split_ifs with hnil
  · exact ⟨_, _, inForce_current hcalls hnow, inForce_current hcalls hnow, le_rfl, le_rfl⟩
  · have hne :
        ((after numCpus calls).samples.filter (inWindow now window)).map Sample.value ≠ [] := by
      rwa [ne_eq, List.map_eq_nil_iff]
    obtain ⟨lo, hlo, hle⟩ := exists_le_mean hne
    obtain ⟨hi, hhi, hge⟩ := exists_mean_le hne
    obtain ⟨s, hs, rfl⟩ := List.mem_map.mp hlo
    obtain ⟨s', hs', rfl⟩ := List.mem_map.mp hhi
    exact ⟨_, _, inForce_of_mem hcalls hnow hs, inForce_of_mem hcalls hnow hs', hle, hge⟩

/-! ### The alarm -/

/-- A utilization is at least one if the average is at least the number of processors. -/
theorem one_le_util (hcpus : 1 ≤ numCpus) (q : ℚ) : q / (numCpus : ℚ) ≥ 1 ↔ (numCpus : ℚ) ≤ q := by
  have hpos : (0 : ℚ) < numCpus := by exact_mod_cast hcpus
  rw [ge_iff_le, le_div_iff₀ hpos, one_mul]

theorem alarm_iff (hcpus : 1 ≤ numCpus) : ((after numCpus calls).toJson now).alarm = true ↔
    ∃ n ∈ [10, 60, 120, 300], (numCpus : ℚ) ≤ (after numCpus calls).average now (seconds n) := by
  simp only [Stats.toJson, after_numCpus, decide_eq_true_eq, one_le_util hcpus, List.mem_cons,
    List.not_mem_nil, or_false, exists_eq_or_imp, exists_eq_left]

/-- **The load average and the alarm are sound.** Each average lies between two counts in force in
its window. So the alarm is on if the count was at least the number of processors in the last ten
seconds, and off if it was below it in the last five minutes. -/
theorem load_sound (numCpus : ℕ) (calls : List Call) (hcalls : Balanced calls) (now : ℤ)
    (hnow : ∀ c ∈ calls, c.now ≤ now) :
    (∀ window, ∃ lo hi, InForce calls now window lo ∧ InForce calls now window hi ∧
      (lo : ℚ) ≤ (after numCpus calls).average now window ∧
      (after numCpus calls).average now window ≤ hi) ∧
    (1 ≤ numCpus →
      ((∀ n, InForce calls now (seconds 10) n → numCpus ≤ n) →
        ((after numCpus calls).toJson now).alarm = true) ∧
      ((∀ n, InForce calls now (seconds 300) n → n < numCpus) →
        ((after numCpus calls).toJson now).alarm = false)) := by
  refine ⟨fun window => average_between numCpus window hcalls hnow,
    fun hcpus => ⟨fun h => ?_, fun h => ?_⟩⟩
  · obtain ⟨lo, -, hlo, -, hle, -⟩ := average_between numCpus (seconds 10) hcalls hnow
    refine (alarm_iff hcpus).mpr ⟨10, by simp, le_trans ?_ hle⟩
    exact_mod_cast h lo hlo
  · rw [← Bool.not_eq_true, alarm_iff hcpus]
    rintro ⟨n, hn, hle⟩
    obtain ⟨-, hi, -, hhi, -, hge⟩ := average_between numCpus (seconds n) hcalls hnow
    have hwindow : seconds n ≤ seconds 300 := by
      simp only [List.mem_cons, List.not_mem_nil, or_false, seconds] at hn ⊢
      omega
    have hlt := h hi (hhi.mono hwindow)
    have hge' : numCpus ≤ hi := by exact_mod_cast hle.trans hge
    omega

/-! ### Two connections -/

/-- Among some of the calls no more connections are open than start in all of them. -/
theorem openAfter_le {calls calls' : List Call} (h : calls'.Sublist calls) :
    openAfter calls' ≤ calls.countP isStart :=
  (Nat.sub_le _ _).trans (h.countP_le)

/-- From 295 s on one of the two connections is open. -/
theorem openAt_twoConnections {t : ℤ} (h : seconds 295 ≤ t) : openAt twoConnections t = 1 := by
  have hall : twoConnections.filter (·.now ≤ t) = twoConnections := by
    refine List.filter_eq_self.mpr fun c hc => decide_eq_true ?_
    have hmax : ∀ c ∈ twoConnections, c.now ≤ seconds 295 := by decide
    exact (hmax c hc).trans h
  rw [openAt, hall]
  rfl

/-- At 310 s one connection has been open for the last ten seconds, and never more than two: it is
too much for one processor, and not for three. -/
theorem load_sound_twoConnections :
    ((after 1 twoConnections).toJson (seconds 310)).alarm = true ∧
      ((after 3 twoConnections).toJson (seconds 310)).alarm = false := by
  have hcalls : Balanced twoConnections := by
    have hinits : ∀ calls₁ ∈ twoConnections.inits,
        calls₁.countP (!isStart ·) ≤ calls₁.countP isStart := by decide
    exact fun calls₁ h => hinits calls₁ ((List.mem_inits _ _).mpr h)
  have hnow : ∀ c ∈ twoConnections, c.now ≤ (seconds 310 : ℤ) := by decide
  have hone : ∀ n, InForce twoConnections (seconds 310) (seconds 10) n → 1 ≤ n := by
    rintro n (⟨t, hlo, -, rfl⟩ | ⟨calls₁, c, calls₂, heq, hlo, -, -⟩)
    · rw [openAt_twoConnections]
      simp only [seconds] at hlo ⊢
      omega
    · have hbefore : ∀ c ∈ twoConnections, c.now < (seconds 310 : ℤ) - seconds 10 := by decide
      exact absurd hlo (not_le.mpr (hbefore c (by rw [heq]; simp)))
  have htwo : ∀ n, InForce twoConnections (seconds 310) (seconds 300) n → n < 3 := by
    rintro n (⟨t, -, -, rfl⟩ | ⟨calls₁, c, calls₂, heq, -, -, rfl⟩)
    · exact Nat.lt_succ_of_le (openAfter_le List.filter_sublist)
    · have hpre : calls₁ ++ [c] <+: twoConnections := ⟨calls₂, by rw [heq]; simp⟩
      exact Nat.lt_succ_of_le (openAfter_le hpre.sublist)
  exact ⟨((load_sound 1 _ hcalls _ hnow).2 le_rfl).1 hone,
    ((load_sound 3 _ hcalls _ hnow).2 (by decide)).2 htwo⟩

end MediaApi.Stats.Load
