import Mathlib.Order.Bounds.Basic
import MediaApi.Model.OpusBenchmark

/-! # The peak error

The difference of two samples takes 17 bits and the loop computes it in 16. Where all differences
fit, the loop is a running maximum of them and both builds report the greatest
(`peakLoop_isGreatest`). A difference that does not fit is greater than any `i16`, so no report is
right: a debug build panics at it, and a release build reports less (`not_fits`). -/

namespace MediaApi.Benchmark.PeakError

open MediaApi.Model.OpusBenchmark

/-- The error of two samples. -/
def err (p : Int16 × Int16) : ℤ := |p.1.toInt - p.2.toInt|

/-- The errors at the common indices. -/
def errors (reference decoded : List Int16) : Set ℤ :=
  {e | ∃ (i : ℕ) (hr : i < reference.length) (hd : i < decoded.length),
    e = |reference[i].toInt - decoded[i].toInt|}

/-- The differences at the common indices fit in `i16`. -/
def Fits (reference decoded : List Int16) : Prop :=
  ∀ (i : ℕ) (hr : i < reference.length) (hd : i < decoded.length),
    |reference[i].toInt - decoded[i].toInt| ≤ 32767

/-- No step of the loop overflows, and the peak that is reported is the greatest error. -/
structure PeakExact (build : Build) (reference decoded : List Int16) : Prop where
  noOverflow : ∀ p ∈ reference.zip decoded, (p.1 - p.2).toInt = p.1.toInt - p.2.toInt ∧
    (p.1 - p.2).abs.toInt = |(p.1 - p.2).toInt|
  isGreatest : ∃ q, comparePcm build reference decoded = some (some q) ∧
    IsGreatest (errors reference decoded) q.maxAbs.toInt

/-! ### One step -/

variable {x y : Int16} {p : Int16 × Int16} {l : List (Int16 × Int16)} {build : Build}

theorem toInt_sub (h : |x.toInt - y.toInt| ≤ 32767) : (x - y).toInt = x.toInt - y.toInt := by
  have h := abs_le.mp h
  rw [Int16.toInt_sub]
  exact Int.bmod_eq_of_le (by omega) (by omega)

theorem toInt_abs (h : |x.toInt| ≤ 32767) : x.abs.toInt = |x.toInt| := by
  have hne : x.toBitVec ≠ BitVec.intMin 16 := by
    intro heq
    have hx : x.toInt = -32768 := by
      rw [Int16.toInt, heq]
      decide
    rw [hx] at h
    norm_num at h
  have habs : x.abs.toInt = x.toBitVec.abs.toInt := rfl
  rw [habs, BitVec.toInt_abs_eq_natAbs_of_ne_intMin hne, Int.abs_eq_natAbs]
  rfl

/-- The step of an error that fits. -/
theorem step_of_le (build : Build) (h : err (x, y) ≤ 32767) :
    ∃ e, (subI16 build x y).bind (absI16 build) = some e ∧ e.toInt = err (x, y) := by
  have hsub := toInt_sub h
  have habs : (x - y).abs.toInt = |(x - y).toInt| := toInt_abs (by rw [hsub]; exact h)
  refine ⟨(x - y).abs, ?_, by rw [habs, hsub]; rfl⟩
  cases build with
  | debug => rw [subI16, if_pos hsub, Option.bind_some, absI16, if_pos habs]
  | release => rfl

/-- A checked step of an error that does not fit. -/
theorem step_debug (h : 32767 < err (x, y)) :
    (subI16 .debug x y).bind (absI16 .debug) = none := by
  by_cases hsub : (x - y).toInt = x.toInt - y.toInt
  · have habs : (x - y).abs.toInt ≠ |(x - y).toInt| := by
      have hlt := (x - y).abs.toInt_lt
      rw [hsub]
      unfold err at h
      simp only at h
      omega
    rw [subI16, if_pos hsub, Option.bind_some, absI16, if_neg habs]
  · rw [subI16, if_neg hsub, Option.bind_none]

/-! ### The loop -/

theorem toInt_peak (e peak : Int16) :
    (if e > peak then e else peak).toInt = max peak.toInt e.toInt := by
  split_ifs with h
  · exact (max_eq_right (Int16.lt_iff_toInt_lt.mp h).le).symm
  · rw [gt_iff_lt, Int16.lt_iff_toInt_lt, not_lt] at h
    exact (max_eq_left h).symm

/-- **A running maximum.** -/
theorem peakLoop_isGreatest (build : Build) (h : ∀ p ∈ l, err p ≤ 32767) :
    ∀ peak : Int16, ∃ r, peakLoop build l peak = some r ∧
      IsGreatest (insert peak.toInt {e | ∃ p ∈ l, e = err p}) r.toInt := by
  induction l with
  | nil =>
    intro peak
    refine ⟨peak, rfl, Set.mem_insert _ _, ?_⟩
    rintro e (rfl | ⟨p, hp, -⟩)
    · exact le_rfl
    · exact absurd hp List.not_mem_nil
  | cons p l ih =>
    intro peak
    obtain ⟨x, y⟩ := p
    obtain ⟨hp, hl⟩ := List.forall_mem_cons.mp h
    obtain ⟨e, hstep, he⟩ := step_of_le build hp
    obtain ⟨r, hloop, hmem, hub⟩ := ih hl (if e > peak then e else peak)
    rw [toInt_peak, he] at hmem hub
    have hmax : max peak.toInt (err (x, y)) ≤ r.toInt := hub (Set.mem_insert _ _)
    refine ⟨r, by rw [peakLoop, hstep, Option.bind_some, hloop], ?_, ?_⟩
    · rcases hmem with hr | ⟨p, hp, hr⟩
      · rcases max_choice peak.toInt (err (x, y)) with hm | hm
        · exact Or.inl (hr.trans hm)
        · exact Or.inr ⟨(x, y), List.mem_cons_self, hr.trans hm⟩
      · exact Or.inr ⟨p, List.mem_cons_of_mem _ hp, hr⟩
    · rintro e' (rfl | ⟨p, hp, rfl⟩)
      · exact (le_max_left _ _).trans hmax
      · rcases List.mem_cons.mp hp with rfl | hp
        · exact (le_max_right _ _).trans hmax
        · exact hub (Or.inr ⟨p, hp, rfl⟩)

/-- A checked loop panics at an error that does not fit. -/
theorem peakLoop_debug (hp : p ∈ l) (h : 32767 < err p) :
    ∀ peak : Int16, peakLoop .debug l peak = none := by
  induction l with
  | nil => exact absurd hp List.not_mem_nil
  | cons p' l ih =>
    intro peak
    obtain ⟨x, y⟩ := p'
    rw [peakLoop]
    rcases List.mem_cons.mp hp with rfl | hp
    · rw [step_debug h, Option.bind_none]
    · rw [Option.bind_eq_none_iff]
      intro e _
      exact ih hp _

/-- An unchecked loop does not panic. -/
theorem peakLoop_release : ∀ peak : Int16, ∃ r, peakLoop .release l peak = some r := by
  induction l with
  | nil => exact fun peak => ⟨peak, rfl⟩
  | cons p l ih => exact fun peak => ih _

/-! ### The peak -/

variable {reference decoded : List Int16}

theorem mem_errors {e : ℤ} : e ∈ errors reference decoded ↔
    ∃ p ∈ reference.zip decoded, e = err p := by
  constructor
  · rintro ⟨i, hr, hd, rfl⟩
    have hi : i < (reference.zip decoded).length := by
      rw [List.length_zip]
      omega
    refine ⟨(reference.zip decoded)[i], List.getElem_mem hi, ?_⟩
    rw [List.getElem_zip]
    rfl
  · rintro ⟨p, hp, rfl⟩
    obtain ⟨i, hi, rfl⟩ := List.getElem_of_mem hp
    rw [List.length_zip] at hi
    refine ⟨i, by omega, by omega, ?_⟩
    rw [List.getElem_zip]
    rfl

theorem fits_iff : Fits reference decoded ↔ ∀ e ∈ errors reference decoded, e ≤ 32767 := by
  constructor
  · rintro h e ⟨i, hr, hd, rfl⟩
    exact h i hr hd
  · intro h i hr hd
    exact h _ ⟨i, hr, hd, rfl⟩

theorem fits_singleton : Fits [x] [y] ↔ |x.toInt - y.toInt| ≤ 32767 := by
  constructor
  · exact fun h => h 0 Nat.one_pos Nat.one_pos
  · intro h i hr hd
    obtain rfl := Nat.lt_one_iff.mp hr
    exact h

/-- What is reported of tracks with a common index. -/
theorem comparePcm_eq (hr : reference ≠ []) (hd : decoded ≠ []) :
    comparePcm build reference decoded =
      (peakLoop build (reference.zip decoded) 0).map fun peakErr =>
      some ⟨min reference.length decoded.length, min reference.length decoded.length,
        max reference.length decoded.length, peakErr⟩ := by
  have hrpos := List.length_pos_iff.mpr hr
  have hdpos := List.length_pos_iff.mpr hd
  have hlen : min reference.length decoded.length ≠ 0 := by omega
  rw [comparePcm, if_neg hlen]

/-- A peak is no error that does not fit. -/
theorem Fits.of_upperBound {r : Int16} (h : r.toInt ∈ upperBounds (errors reference decoded)) :
    Fits reference decoded := by
  rw [fits_iff]
  intro e he
  have hle := h he
  have hlt := r.toInt_lt
  omega

/-- Errors that fit do not overflow, and the greatest is reported. -/
theorem Fits.peakExact (hr : reference ≠ []) (hd : decoded ≠ []) (h : Fits reference decoded) :
    PeakExact build reference decoded := by
  have herr : ∀ p ∈ reference.zip decoded, err p ≤ 32767 := fun p hp =>
    fits_iff.mp h _ (mem_errors.mpr ⟨p, hp, rfl⟩)
  refine ⟨fun p hp => ?_, ?_⟩
  · have hsub := toInt_sub (herr p hp)
    exact ⟨hsub, toInt_abs (by rw [hsub]; exact herr p hp)⟩
  · obtain ⟨r, hloop, hmem, hub⟩ := peakLoop_isGreatest build herr 0
    refine ⟨_, by rw [comparePcm_eq hr hd, hloop]; rfl, ?_, fun e he => ?_⟩
    · rcases hmem with hzero | hmem
      · -- the loop starts at zero, and no error is less
        obtain ⟨x, xs, rfl⟩ := List.exists_cons_of_ne_nil hr
        obtain ⟨y, ys, rfl⟩ := List.exists_cons_of_ne_nil hd
        have hle : err (x, y) ≤ r.toInt := hub (Or.inr ⟨(x, y), List.mem_cons_self, rfl⟩)
        have hpos : 0 ≤ err (x, y) := abs_nonneg _
        have hzero : r.toInt = 0 := hzero
        have heq : r.toInt = err (x, y) := by omega
        exact mem_errors.mpr ⟨(x, y), List.mem_cons_self, heq⟩
      · exact mem_errors.mpr hmem
    · exact hub (Or.inr (mem_errors.mp he))

/-- **When the peak error is exact**, in a debug build and in a release build: when the difference
at every common index fits in `i16`. -/
theorem peakExact_iff (build : Build) (reference decoded : List Int16) (hr : reference ≠ [])
    (hd : decoded ≠ []) : PeakExact build reference decoded ↔ Fits reference decoded := by
  constructor
  · rintro ⟨-, q, -, -, hub⟩
    exact Fits.of_upperBound hub
  · exact Fits.peakExact hr hd

theorem peakExact_iff_click : PeakExact .debug [32767] [0] :=
  (peakExact_iff .debug [32767] [0] (by decide) (by decide)).mpr (fits_singleton.mpr (by decide))

/-- **What is reported otherwise**: a debug build panics, and a release build understates the worst
error. -/
theorem not_fits (h : ¬ Fits reference decoded) :
    comparePcm .debug reference decoded = none ∧
      ∃ q, comparePcm .release reference decoded = some (some q) ∧
        ∃ e ∈ errors reference decoded, q.maxAbs.toInt < e := by
  rw [fits_iff] at h
  push Not at h
  obtain ⟨e, he, hlt⟩ := h
  obtain ⟨p, hp, rfl⟩ := mem_errors.mp he
  have hr : reference ≠ [] := by
    rintro rfl
    exact absurd hp List.not_mem_nil
  have hd : decoded ≠ [] := by
    rintro rfl
    rw [List.zip_nil_right] at hp
    exact absurd hp List.not_mem_nil
  refine ⟨by rw [comparePcm_eq hr hd, peakLoop_debug hp hlt]; rfl, ?_⟩
  obtain ⟨r, hloop⟩ := peakLoop_release (l := reference.zip decoded) 0
  refine ⟨_, by rw [comparePcm_eq hr hd, hloop]; rfl, err p, he, ?_⟩
  have hr := r.toInt_lt
  simp only
  omega

/-- **The loudest sample against a quiet one of the other sign.** -/
theorem not_peakExact : ¬ PeakExact .debug [32767] [-1] ∧ ¬ PeakExact .release [32767] [-1] := by
  have h : ¬ Fits [32767] [-1] := by
    rw [fits_singleton]
    decide
  obtain ⟨hdebug, q, hrelease, e, he, hlt⟩ := not_fits h
  constructor
  · rintro ⟨-, q', hq', -⟩
    rw [hdebug] at hq'
    cases hq'
  · rintro ⟨-, q', hq', -, hub⟩
    rw [hrelease] at hq'
    cases hq'
    exact absurd (hub he) (not_le.mpr hlt)

end MediaApi.Benchmark.PeakError
