import MediaApi.Lib.Components
import MediaApi.Pool.Forwarding
import MediaApi.Model.Pool

/-! # The backpressure of the pool

`acquire` is to block while all workers are busy, so that no more jobs are outstanding than the pool
has workers. But the job channel has `size` slots of its own: `acquire` blocks only while those are
full, and up to `2 * size` jobs are outstanding (`reach_outstanding_le`). A run keeps the documented
bound exactly if every `acquire` finds more idle workers than jobs in the channel. -/

namespace MediaApi.Pool.Backpressure

open MediaApi.Lib.Components MediaApi.Lib.Transition MediaApi.Model.Audio MediaApi.Model.Pipeline
open MediaApi.Model.ProcessJob MediaApi.Model.Steps MediaApi.Model.Options MediaApi.Model.Pool
open MediaApi.Pool.Forwarding

variable {ε : Type}

/-! ### Outstanding jobs -/

/-- `process_job` has returned. -/
def hasReturned (s : Session ε) : Bool :=
  match s.pc with
  | .ended o => o ≠ .panicked
  | _ => false

/-- The number of handles that `acquire` has returned and whose `process_job` has not returned. -/
def outstanding (p : DecoderPool ε) : ℕ := p.jobs.countP (!hasReturned ·)

/-- A worker is busy with the job, or has died of it. -/
def isOccupied (s : Session ε) : Bool := isRunning s || hasPanicked s

/-- An outstanding job is in the job channel or occupies a worker, and not both. -/
theorem not_hasReturned (s : Session ε) :
    (!hasReturned s) = (isQueued s || isOccupied s) ∧ (isQueued s && isOccupied s) = false ∧
      (isRunning s && hasPanicked s) = false := by
  unfold hasReturned isOccupied isQueued isRunning hasPanicked
  cases hpc : s.pc with
  | dropInput o => by_cases ho : o = .panicked <;> simp [Pc.outcome, ho]
  | dropOutput o => by_cases ho : o = .panicked <;> simp [Pc.outcome, ho]
  | ended o => by_cases ho : o = .panicked <;> simp [Pc.outcome, ho]
  | _ => simp [Pc.outcome]

theorem occupied_eq (p : DecoderPool ε) :
    p.jobs.countP isOccupied = p.busy + p.jobs.countP hasPanicked :=
  countP_or fun s => (not_hasReturned s).2.2

theorem outstanding_eq (p : DecoderPool ε) :
    outstanding p = p.waiting + p.jobs.countP isOccupied := by
  rw [outstanding, List.countP_congr fun s _ => by rw [(not_hasReturned s).1]]
  exact countP_or fun s => (not_hasReturned s).2.1

/-! ### What a step does to them -/

variable [ToString ε] {B : DecodeOptions → Behaviour ε} {size : ℕ} {defaults : DecodeOptions}
  {p p' : DecoderPool ε} {s s' : Session ε}

/-- A job is taken once, stays taken, and stays returned. -/
theorem job_step {l : Label ε} (h : s.step B l = some s') :
    (s.pc = .queued ∧ l = .inner .worker ∧ s'.pc = .poll) ∨ s'.pc = s.pc ∨
      (isQueued s = false ∧ isQueued s' = false ∧ hasReturned s = false) := by
  cases step_cases h with
  | worker h =>
    cases h with
    | start hpc => exact Or.inl ⟨hpc, rfl, rfl⟩
    | drained hpc _ =>
      refine Or.inr (Or.inr ⟨by simp [isQueued, hpc], ?_, by simp [hasReturned, hpc]⟩)
      simp only [isQueued]
      split_ifs <;> rfl
    | put i final c hpc _ =>
      refine Or.inr (Or.inr ⟨by simp [isQueued, hpc], ?_, by simp [hasReturned, hpc]⟩)
      simp only [isQueued]
      split_ifs <;> rfl
    | skip hpc | eof _ hpc | chunk _ _ hpc | idle hpc | disconnected hpc | forward _ _ hpc
    | abort _ _ hpc | forwardFinal _ _ hpc | finish hpc | measure _ hpc | panic hpc
    | dropInput _ hpc | dropOutput _ hpc =>
      exact Or.inr (Or.inr ⟨by simp [isQueued, hpc], rfl, by simp [hasReturned, hpc]⟩)
  | answer ok h =>
    cases h with
    | refused => exact Or.inr (Or.inl rfl)
    | eofAccepted hpc | eofRefused hpc | accepted _ hpc =>
      exact Or.inr (Or.inr ⟨by simp [isQueued, hpc], rfl, by simp [hasReturned, hpc]⟩)
  | pipe a q hq hp => exact Or.inr (Or.inl rfl)
  | client a h =>
    cases h <;> exact Or.inr (Or.inl rfl)

/-- The number of workers that are busy or dead. -/
def occupied (p : DecoderPool ε) : ℕ := p.jobs.countP isOccupied

/-- A job is handed in. -/
theorem acquire_step {r : Request} (h : p.step B size defaults (.acquire r) = some p') :
    p.waiting < size ∧ p'.waiting = p.waiting + 1 ∧ occupied p' = occupied p := by
  simp only [DecoderPool.step] at h
  split_ifs at h with hc
  cases h
  have hq : isQueued (acquire (ε := ε) (jobOptions defaults r)) = true := rfl
  have ho : isOccupied (acquire (ε := ε) (jobOptions defaults r)) = false := rfl
  refine ⟨hc.2, ?_, ?_⟩
  · simp [DecoderPool.waiting, hq]
  · simp [occupied, ho]

/-- A job is taken only by an idle worker. -/
theorem idle_of_taken {k : ℕ} (hk : p.jobs[k]? = some s) (hpc : s.pc = .queued)
    (h : p.step B size defaults (.job k (.inner .worker)) = some p') : p.busy < p.live size := by
  simp only [DecoderPool.step, hk, hpc] at h
  split_ifs at h with hc
  exact hc.2

/-- A job steps: an idle worker takes it, or it stays where it is or returns. -/
theorem job_counts {k : ℕ} {i : Label ε} (h : p.step B size defaults (.job k i) = some p') :
    (p.busy < p.live size ∧ p'.waiting + 1 = p.waiting ∧ occupied p' = occupied p + 1) ∨
      (p'.waiting = p.waiting ∧ occupied p' ≤ occupied p) := by
  rcases pool_step_cases h with ⟨r, hl, -⟩ | ⟨k', i', s, s', hl, hk, hs, hjobs⟩
  · cases hl
  · cases hl
    have hw := countP_set (y := s') isQueued hk
    have ho := countP_set (y := s') isOccupied hk
    have h1 := not_hasReturned s
    have h2 := not_hasReturned s'
    unfold DecoderPool.waiting occupied
    rw [hjobs]
    rcases job_step hs with ⟨hpc, rfl, hpc'⟩ | hpc | ⟨hq, hq', hr⟩
    · left
      have hq : isQueued s = true := by simp [isQueued, hpc]
      have hq' : isQueued s' = false := by simp [isQueued, hpc']
      have hr' : hasReturned s' = false := by simp [hasReturned, hpc']
      simp only [hq, hq', hr', Bool.true_and, Bool.false_or, Bool.not_false] at h1 h2
      simp only [hq, hq', h1.2.1, ← h2.1, if_true, Bool.false_eq_true, if_false] at hw ho
      exact ⟨idle_of_taken hk hpc h, hw, by omega⟩
    · right
      have hq : isQueued s' = isQueued s := by simp only [isQueued, hpc]
      have ho' : isOccupied s' = isOccupied s := by
        simp only [isOccupied, isRunning, hasPanicked, hpc]
      rw [hq] at hw
      rw [ho'] at ho
      exact ⟨by omega, by omega⟩
    · right
      simp only [hq, hr, Bool.false_or, Bool.not_false] at h1
      simp only [hq, hq', Bool.false_eq_true, if_false] at hw
      simp only [← h1.1, if_true] at ho
      refine ⟨by omega, ?_⟩
      split_ifs at ho <;> omega

/-- **A step of the pool**: a job is handed in, or an idle worker takes one, or no job changes
places except that one may return. -/
theorem pool_step {l : PoolLabel ε} (h : p.step B size defaults l = some p') :
    (∃ r, l = .acquire r ∧ p.waiting < size ∧ p'.waiting = p.waiting + 1 ∧
        occupied p' = occupied p) ∨
      (∃ k i, l = .job k i) ∧
        ((p.busy < p.live size ∧ p'.waiting + 1 = p.waiting ∧ occupied p' = occupied p + 1) ∨
          (p'.waiting = p.waiting ∧ occupied p' ≤ occupied p)) := by
  cases l with
  | acquire r => exact Or.inl ⟨r, rfl, acquire_step h⟩
  | job k i => exact Or.inr ⟨⟨k, i, rfl⟩, job_counts h⟩

/-- The channel and the workers hold at most `size` jobs each. -/
theorem reach_bounds (h : Reach (DecoderPool.step B size defaults) DecoderPool.new p) :
    p.waiting ≤ size ∧ occupied p ≤ size := by
  refine h.invariant (I := fun p => p.waiting ≤ size ∧ occupied p ≤ size)
    ⟨Nat.zero_le _, Nat.zero_le _⟩ ?_
  rintro p l p' ⟨hw, ho⟩ hs
  rcases pool_step hs with ⟨r, -, hlt, hw', ho'⟩ | ⟨-, ⟨hlt, hw', ho'⟩ | ⟨hw', ho'⟩⟩
  · omega
  · have hocc := occupied_eq p
    simp only [DecoderPool.live, occupied] at hlt hocc ho' ho ⊢
    omega
  · omega

/-- **What the pool does bound.** -/
theorem reach_outstanding_le (h : Reach (DecoderPool.step B size defaults) DecoderPool.new p) :
    outstanding p ≤ 2 * size := by
  have hb := reach_bounds h
  have ho := outstanding_eq p
  simp only [occupied] at hb
  omega

/-! ### The documented bound -/

/-- A job is handed in only while the idle workers outnumber the jobs in the channel. -/
def Spare (size : ℕ) (p : DecoderPool ε) : PoolLabel ε → Prop
  | .acquire _ => p.waiting < p.live size - p.busy
  | .job _ _ => True

/-- In every state of the run at most `size` jobs are outstanding, and no `acquire` returns while
all workers are busy. -/
def KeepsBound (B : DecodeOptions → Behaviour ε) (size : ℕ) (defaults : DecodeOptions)
    (ls : List (PoolLabel ε)) : Prop :=
  ∀ ls₁ ls₂ m, ls = ls₁ ++ ls₂ →
    run (DecoderPool.step B size defaults) DecoderPool.new ls₁ = some m →
      outstanding m ≤ size ∧ ∀ r rest, ls₂ = .acquire r :: rest → m.busy < m.live size

omit [ToString ε] in
theorem spare_iff {r : Request} : Spare size p (.acquire r) ↔ outstanding p < size := by
  have hocc := occupied_eq p
  have hout := outstanding_eq p
  simp only [Spare, DecoderPool.live]
  omega

/-- **A run keeps the documented bound exactly if every `acquire` finds a spare worker.** -/
theorem backpressure_iff (B : DecodeOptions → Behaviour ε) (size : ℕ) (defaults : DecodeOptions)
    (ls : List (PoolLabel ε)) (p : DecoderPool ε)
    (h : run (DecoderPool.step B size defaults) DecoderPool.new ls = some p) :
    KeepsBound B size defaults ls ↔
      Meets (DecoderPool.step B size defaults) (Spare size) DecoderPool.new ls := by
  constructor
  · intro hb
    refine meets_of_steps h fun ls₁ l ls₂ m m' hls hm hm' => ?_
    rcases pool_step hm' with ⟨r, rfl, -, hw, ho⟩ | ⟨⟨k, i, rfl⟩, -⟩
    · have hle := (hb (ls₁ ++ [.acquire r]) ls₂ m' (by rw [hls]; simp) (run_concat hm hm')).1
      rw [spare_iff, outstanding_eq]
      rw [outstanding_eq] at hle
      simp only [occupied] at ho
      omega
    · trivial
  · rintro hmeets ls₁ ls₂ m rfl hm
    refine ⟨?_, fun r rest hls₂ => ?_⟩
    · refine run_invariant (I := fun m => outstanding m ≤ size) (fun m l m' hI hok hs => ?_) hm
        hmeets.of_append (Nat.zero_le _)
      have h1 := outstanding_eq m
      have h2 := outstanding_eq m'
      rcases pool_step hs with ⟨r, rfl, -, hw, ho⟩ | ⟨-, ⟨-, hw, ho⟩ | ⟨hw, ho⟩⟩
      · have hlt := spare_iff.mp hok
        simp only [occupied] at ho
        omega
      · simp only [occupied] at ho
        omega
      · simp only [occupied] at ho
        omega
    · subst hls₂
      have hok := hmeets.at hm
      simp only [Spare] at hok
      omega

instance decidableSpare (size : ℕ) (p : DecoderPool ε) :
    (l : PoolLabel ε) → Decidable (Spare size p l)
  | .acquire _ => inferInstanceAs (Decidable (p.waiting < p.live size - p.busy))
  | .job _ _ => inferInstanceAs (Decidable True)

/-- One job at a time: the second `acquire` finds the worker idle again. -/
theorem backpressure_one_job : ∃ p, run (DecoderPool.step echo 1 {}) DecoderPool.new
      (.acquire .tcp :: echoRun.map (.job 0) ++ [.acquire .tcp]) = some p ∧
    KeepsBound echo 1 {} (.acquire .tcp :: echoRun.map (.job 0) ++ [.acquire .tcp]) := by
  have hrun : (run (DecoderPool.step echo 1 {}) DecoderPool.new
      (.acquire .tcp :: echoRun.map (.job 0) ++ [.acquire .tcp])).isSome = true := by decide
  obtain ⟨p, hp⟩ := Option.isSome_iff_exists.mp hrun
  exact ⟨p, hp, (backpressure_iff echo 1 {} _ p hp).mpr (by decide)⟩

/-- **The pool of one worker hands out a second decoder** while its worker is busy with the first.
-/
theorem not_keepsBound :
    ¬ KeepsBound echo 1 {} [.acquire .tcp, .job 0 (.inner .worker), .acquire .tcp] := by
  intro h
  obtain ⟨m, hm⟩ := Option.isSome_iff_exists.mp (show (run (DecoderPool.step echo 1 {})
    DecoderPool.new [.acquire .tcp, .job 0 (.inner .worker)]).isSome = true by decide)
  have hlt := (h _ [.acquire .tcp] m rfl hm).2 .tcp [] rfl
  have hbusy : (run (DecoderPool.step echo 1 {}) DecoderPool.new
      [.acquire .tcp, .job 0 (.inner .worker)]).map (fun m => (m.busy, m.live 1)) =
      some (1, 1) := by decide
  rw [hm, Option.map_some, Option.some_inj, Prod.mk.injEq] at hbusy
  omega

end MediaApi.Pool.Backpressure
