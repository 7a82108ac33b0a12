import MediaApi.Lib.Recent
import MediaApi.Model.Connections

/-! # What the deque of samples keeps

`recorded` is the log of all samples that some calls record. The deque holds the last `max_samples`
of them (`after_samples`), so the average over a window is over all of its samples exactly if there
are no more than that (`covers_iff`). -/

namespace MediaApi.Stats.Window

open MediaApi.Lib.Recent MediaApi.Model.Connections

/-! ### The log of the samples -/

/-- The count after a call that finds the count `n`. -/
def next (n : ℕ) : Call → ℕ
  | .connectionStart _ => n + 1
  | .connectionEnd _ => minusOne n

/-- The count after some calls. -/
def count (calls : List Call) : ℕ := calls.foldl next 0

/-- The samples that calls record from the count `n` on. -/
def samplesFrom : ℕ → List Call → List Sample
  | _, [] => []
  | n, c :: calls => ⟨c.now, next n c⟩ :: samplesFrom (next n c) calls

/-- All samples recorded so far. -/
def recorded (calls : List Call) : List Sample := samplesFrom 0 calls

@[simp] theorem count_nil : count [] = 0 := rfl

theorem count_concat (calls : List Call) (c : Call) :
    count (calls ++ [c]) = next (count calls) c := by
  rw [count, List.foldl_concat, count]

theorem samplesFrom_append (n : ℕ) (calls calls' : List Call) :
    samplesFrom n (calls ++ calls') =
      samplesFrom n calls ++ samplesFrom (calls.foldl next n) calls' := by
  induction calls generalizing n with
  | nil => rfl
  | cons c calls ih => simp only [List.cons_append, samplesFrom, List.foldl_cons, ih]

theorem recorded_concat (calls : List Call) (c : Call) :
    recorded (calls ++ [c]) = recorded calls ++ [⟨c.now, next (count calls) c⟩] := by
  rw [recorded, samplesFrom_append, recorded]
  rfl

/-- One sample for each call, at its instant. -/
theorem map_timestamp_recorded (calls : List Call) :
    (recorded calls).map Sample.timestamp = calls.map Call.now := by
  have h : ∀ n, (samplesFrom n calls).map Sample.timestamp = calls.map Call.now := by
    induction calls with
    | nil => intro n; rfl
    | cons c calls ih => intro n; simp only [samplesFrom, List.map_cons, ih]
  exact h 0

/-! ### The deque -/

theorem trim_eq (maxSamples : ℕ) (l : List Sample) : trim maxSamples l = recent maxSamples l := by
  induction l with
  | nil => rw [recent_nil]; rfl
  | cons s rest ih =>
    rw [trim]
    split_ifs with h
    · have hlen : (s :: rest).length - maxSamples = rest.length - maxSamples + 1 := by
        rw [List.length_cons]
        omega
      rw [ih, recent, recent, hlen, List.drop_succ_cons]
    · rw [recent_of_le]
      rw [List.length_cons]
      omega

/-- **The statistics after some calls**: the count, and the last samples. -/
theorem after_eq (numCpus : ℕ) (calls : List Call) :
    after numCpus calls = ⟨count calls, recent 6000 (recorded calls), numCpus, 6000⟩ := by
  induction calls using List.reverseRecOn with
  | nil => rfl
  | append_singleton calls c ih =>
    have hcall : after numCpus (calls ++ [c]) = (after numCpus calls).call c := by
      rw [after, List.foldl_concat, after]
    rw [hcall, ih, recorded_concat, count_concat, ← recent_recent_concat]
    cases c with
    | connectionStart now =>
      simp only [Stats.call, Stats.connectionStart, Stats.fetchAdd, Stats.recordSample, next,
        Call.now, trim_eq]
    | connectionEnd now =>
      simp only [Stats.call, Stats.connectionEnd, Stats.fetchSub, Stats.recordSample, next,
        Call.now, trim_eq]

theorem after_samples (numCpus : ℕ) (calls : List Call) :
    (after numCpus calls).samples = recent 6000 (recorded calls) := by rw [after_eq]

theorem after_current (numCpus : ℕ) (calls : List Call) :
    (after numCpus calls).current = count calls := by rw [after_eq, Stats.current]

theorem after_numCpus (numCpus : ℕ) (calls : List Call) :
    (after numCpus calls).numCpus = numCpus := by
  rw [after_eq]

/-! ### The average over a window -/

/-- The sample is not older than the window. -/
def inWindow (now : ℤ) (window : ℕ) (s : Sample) : Bool := s.timestamp ≥ now - window

/-- The mean of all values recorded since `now - window`, or the current count if there is none. -/
def windowMean (calls : List Call) (now : ℤ) (window : ℕ) : ℚ :=
  if (recorded calls).filter (inWindow now window) = [] then (count calls : ℚ)
  else mean (((recorded calls).filter (inWindow now window)).map Sample.value)

/-- For every window of `to_json`, the deque has all samples of the window, and the average is their
mean. -/
def Covers (numCpus : ℕ) (calls : List Call) (now : ℤ) : Prop :=
  ∀ window ∈ windows,
    (after numCpus calls).average now window = windowMean calls now window ∧
    (after numCpus calls).samples.filter (inWindow now window) =
      (recorded calls).filter (inWindow now window)

/-- The average is that of the samples the deque has of the window. -/
theorem average_eq (st : Stats) (now : ℤ) (window : ℕ) : st.average now window =
    if st.samples.filter (inWindow now window) = [] then (st.current : ℚ)
    else mean ((st.samples.filter (inWindow now window)).map Sample.value) := by
  rw [mean, List.length_map]
  rfl

theorem inWindow_mono {now : ℤ} {window window' : ℕ} {s : Sample} (h : window ≤ window')
    (hs : inWindow now window s = true) : inWindow now window' s = true := by
  simp only [inWindow, decide_eq_true_eq] at hs ⊢
  omega

/-- A deque that keeps the samples of a window keeps those of each shorter one. -/
theorem filter_mono {l l' : List Sample} {now : ℤ} {window window' : ℕ} (h : window ≤ window')
    (hl : l.filter (inWindow now window') = l'.filter (inWindow now window')) :
    l.filter (inWindow now window) = l'.filter (inWindow now window) := by
  have hf : ∀ l : List Sample, l.filter (inWindow now window) =
      (l.filter (inWindow now window')).filter (inWindow now window) := by
    intro l
    rw [List.filter_filter]
    refine List.filter_congr fun s _ => ?_
    cases hs : inWindow now window s with
    | true => rw [inWindow_mono h hs]; rfl
    | false => rfl
  rw [hf l, hf l', hl]

/-- The number of calls since `now - window`. -/
def callsIn (calls : List Call) (now : ℤ) (window : ℕ) : ℕ :=
  calls.countP fun c => c.now ≥ now - window

theorem length_filter_recorded (calls : List Call) (now : ℤ) (window : ℕ) :
    ((recorded calls).filter (inWindow now window)).length = callsIn calls now window := by
  have h := congrArg (List.countP fun t : ℤ => t ≥ now - window) (map_timestamp_recorded calls)
  rw [List.countP_map, List.countP_map] at h
  rw [← List.countP_eq_length_filter]
  exact h

/-- Which windows the deque covers. -/
theorem keeps_iff {calls : List Call} (hcalls : calls.Pairwise (·.now ≤ ·.now)) (numCpus : ℕ)
    (now : ℤ) (window : ℕ) :
    (after numCpus calls).samples.filter (inWindow now window) =
        (recorded calls).filter (inWindow now window) ↔ callsIn calls now window ≤ 6000 := by
  have hsorted : (recorded calls).Pairwise fun s s' => s.timestamp ≤ s'.timestamp := by
    rw [← List.pairwise_map, map_timestamp_recorded, List.pairwise_map]
    exact hcalls
  have hlater : ∀ s s' : Sample, s.timestamp ≤ s'.timestamp → inWindow now window s = true →
      inWindow now window s' = true := by
    intro s s' hle hs
    simp only [inWindow, decide_eq_true_eq] at hs ⊢
    omega
  rw [after_samples, ← length_filter_recorded]
  exact filter_recent_iff hsorted hlater

/-- **The averages cover their windows exactly if there were at most 6000 calls in the last five
minutes.** -/
theorem covers_iff (numCpus : ℕ) (calls : List Call) (hcalls : calls.Pairwise (·.now ≤ ·.now))
    (now : ℤ) : Covers numCpus calls now ↔ callsIn calls now (seconds 300) ≤ 6000 := by
  constructor
  · intro h
    exact (keeps_iff hcalls numCpus now (seconds 300)).mp (h (seconds 300) (by simp [windows])).2
  · intro h window hwindow
    have hle : window ≤ seconds 300 := by
      simp only [windows, seconds, List.map_cons, List.map_nil, List.mem_cons, List.not_mem_nil,
        or_false] at hwindow ⊢
      omega
    have hkeep := filter_mono hle ((keeps_iff hcalls numCpus now (seconds 300)).mpr h)
    refine ⟨?_, hkeep⟩
    rw [average_eq, hkeep, after_current, windowMean]

/-- A connection that stays open, and one that is open from 100 s to 295 s. -/
def twoConnections : List Call :=
  [.connectionStart 0, .connectionStart (seconds 100), .connectionEnd (seconds 295)]

/-- The windows of one minute and of five minutes differ, and one second has no sample. -/
theorem covers_iff_twoConnections : Covers 4 twoConnections (seconds 310) ∧
    windowMean twoConnections (seconds 310) (seconds 1) = count twoConnections ∧
    windowMean twoConnections (seconds 310) (seconds 60) = 1 ∧
    windowMean twoConnections (seconds 310) (seconds 300) = 3 / 2 :=
  ⟨(covers_iff 4 twoConnections (by decide) (seconds 310)).mpr (by decide), by decide +kernel,
    by decide +kernel, by decide +kernel⟩

/-! ### A burst -/

/-- `n` connections that start at one instant. -/
def burst (n : ℕ) : List Call := List.replicate n (.connectionStart 0)

theorem recorded_burst (n : ℕ) : recorded (burst n) = (List.range' 1 n).map (Sample.mk 0) := by
  have h : ∀ k, samplesFrom k (burst n) = (List.range' (k + 1) n).map (Sample.mk 0) := by
    induction n with
    | zero => intro k; rfl
    | succ n ih =>
      intro k
      rw [burst, List.replicate_succ, List.range'_succ, List.map_cons, ← ih (k + 1)]
      rfl
  exact h 0

theorem two_mul_sum_range' (n : ℕ) : ∀ a, 2 * (List.range' a n).sum + n = n * (2 * a + n) := by
  induction n with
  | zero => intro a; simp
  | succ n ih =>
    intro a
    rw [List.range'_succ, List.sum_cons]
    linarith [ih (a + 1)]

/-- The mean of consecutive numbers. -/
theorem mean_range' (a n : ℕ) (h : n ≠ 0) : mean (List.range' a n) = a + (n - 1) / 2 := by
  have hsum : 2 * ((List.range' a n).sum : ℚ) + n = n * (2 * a + n) := by
    exact_mod_cast two_mul_sum_range' n a
  have hn : (n : ℚ) ≠ 0 := by exact_mod_cast h
  rw [mean, List.length_range', div_eq_iff hn]
  linarith

/-- All samples of a burst are in the window, if the deque has them. -/
theorem filter_burst (l : List ℕ) (window : ℕ) :
    (l.map (Sample.mk 0)).filter (inWindow 0 window) = l.map (Sample.mk 0) := by
  rw [List.filter_eq_self]
  intro s hs
  obtain ⟨v, -, rfl⟩ := List.mem_map.mp hs
  simp [inWindow]

theorem map_value_burst (l : List ℕ) : (l.map (Sample.mk 0)).map Sample.value = l := by
  simp [Function.comp_def]

/-- The mean of the values of a burst. -/
theorem windowMean_burst (n window : ℕ) : windowMean (burst (n + 1)) 0 window = 1 + n / 2 := by
  rw [windowMean, recorded_burst, filter_burst, map_value_burst, if_neg (by simp),
    mean_range' 1 (n + 1) (Nat.succ_ne_zero n)]
  push_cast
  ring

/-- The average over a burst of one call too many: the first sample is gone. -/
theorem average_burst (numCpus window : ℕ) :
    (after numCpus (burst 6001)).average 0 window = 2 + 5999 / 2 := by
  have hrecent : ∀ m, recent m ((List.range' 1 (m + 1)).map (Sample.mk 0)) =
      (List.range' 2 m).map (Sample.mk 0) := by
    intro m
    have hlen : ((List.range' 1 (m + 1)).map (Sample.mk 0)).length - m = 1 := by simp
    rw [recent, hlen, List.range'_succ, List.map_cons, List.drop_one, List.tail_cons]
  have hsamples :
      (after numCpus (burst 6001)).samples = (List.range' 2 6000).map (Sample.mk 0) := by
    rw [after_samples, ← hrecent, ← recorded_burst]
  have hne : (List.range' 2 6000).map (Sample.mk 0) ≠ [] := by simp
  rw [average_eq, hsamples, filter_burst, if_neg hne, map_value_burst,
    mean_range' 2 6000 (by decide)]
  norm_num

/-- **6001 connections at once**: the average over every window leaves out the first of them. -/
theorem not_covers : ¬ Covers 1 (burst 6001) 0 := by
  intro h
  have havg := (h (seconds 1) (by simp [windows])).1
  rw [average_burst, windowMean_burst 6000] at havg
  norm_num at havg

end MediaApi.Stats.Window
