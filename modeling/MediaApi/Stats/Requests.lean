import MediaApi.Model.Router
import MediaApi.Pool.Forwarding
import MediaApi.Stats.Window

/-! # The count of the router's requests

A request is **counted** from its `fetch_add` to its `fetch_sub`. Each is atomic, so the count is
the number of counted requests however the requests interleave and are left; the samples that are
recorded afterwards hold counts that were true once. -/

namespace MediaApi.Stats.Requests

open MediaApi.Lib.Components MediaApi.Lib.Recent MediaApi.Lib.Transition MediaApi.Model.Audio
open MediaApi.Model.Connections MediaApi.Model.Http MediaApi.Model.Pipeline MediaApi.Model.Router
open MediaApi.Pool.Forwarding MediaApi.Stats.Window

variable {ε : Type}

/-- The request has incremented the count. -/
def started (q : DecodeRequest ε) : Bool :=
  match q.pc with
  | .start => false
  | _ => true

/-- The request has incremented the count and not yet decremented it. -/
def counted (q : DecodeRequest ε) : Bool :=
  match q.pc with
  | .recordStart _ | .makeGuard | .guarded _ => true
  | _ => false

/-- The request has ended. -/
def ended (q : DecodeRequest ε) : Bool :=
  match q.pc with
  | .ended => true
  | _ => false

/-- The value that the request is about to record. -/
def pending (q : DecodeRequest ε) : Option ℕ :=
  match q.pc with
  | .recordStart n | .recordEnd n => some n
  | _ => none

/-- What holds of the count and of the values recorded or about to be. -/
structure Exact (r : MediaRouter ε) : Prop where
  count : r.stats.activeConnections = r.requests.countP counted
  samples : ∀ s ∈ r.stats.samples, s.value ≤ r.requests.countP started
  pending : ∀ q ∈ r.requests, ∀ n, pending q = some n → n ≤ r.requests.countP started

theorem counted_started (q : DecodeRequest ε) (h : counted q = true) : started q = true := by
  unfold counted at h
  unfold started
  split at h <;> simp_all

theorem countP_counted_le (l : List (DecodeRequest ε)) : l.countP counted ≤ l.countP started :=
  List.countP_mono_left fun q _ => counted_started q

/-- A sample that is recorded is one of the deque afterwards, or the deque has it already. -/
theorem mem_recordSample {st : Stats} {now : ℤ} {n : ℕ} {s : Sample}
    (h : s ∈ (st.recordSample now n).samples) : s ∈ st.samples ∨ s.value = n := by
  simp only [Stats.recordSample, trim_eq] at h
  rcases List.mem_append.mp (mem_of_mem_recent h) with h | h
  · exact Or.inl h
  · exact Or.inr (by rw [List.mem_singleton.mp h])

variable [ToString ε] {B : DecodeOptions → Behaviour ε} {defaults : DecodeOptions}
  {r r' : MediaRouter ε}

omit [ToString ε] in
/-- One request of a router has made a step: the count follows it, and a value that it is about to
record is the new count. -/
theorem exact_set {k : ℕ} {q q' : DecodeRequest ε} {st : Stats} (he : Exact r)
    (hk : r.requests[k]? = some q)
    (hactive : st.activeConnections + (if counted q then 1 else 0) =
      r.stats.activeConnections + if counted q' then 1 else 0)
    (hq : started q' = true)
    (hst : ∀ s ∈ st.samples, s ∈ r.stats.samples ∨ pending q = some s.value)
    (hn : ∀ n, pending q' = some n → n = st.activeConnections) :
    Exact ⟨st, r.requests.set k q'⟩ := by
  have hcount : st.activeConnections = (r.requests.set k q').countP counted := by
    have := countP_set (y := q') counted hk
    rw [he.count] at hactive
    omega
  have hle : r.requests.countP started ≤ (r.requests.set k q').countP started := by
    have := countP_set (y := q') started hk
    rw [if_pos hq] at this
    split_ifs at this <;> omega
  refine ⟨hcount, fun s hs => ?_, fun p hp n hpn => ?_⟩
  · rcases hst s hs with hs | hs
    · exact (he.samples s hs).trans hle
    · exact (he.pending q (List.mem_of_getElem? hk) s.value hs).trans hle
  · rcases List.mem_or_eq_of_mem_set hp with hp | rfl
    · exact (he.pending p hp n hpn).trans hle
    · rw [hn n hpn, hcount]
      exact countP_counted_le _

omit [ToString ε] in
/-- A counted request is in the count. -/
theorem count_pos {q : DecodeRequest ε} (he : Exact r) (hq : q ∈ r.requests)
    (hc : counted q = true) : 1 ≤ r.stats.activeConnections := by
  rw [he.count]
  exact List.countP_pos_iff.mpr ⟨q, hq, hc⟩

omit [ToString ε] in
/-- **A step of a request** keeps the count exact. -/
theorem exact_request {k : ℕ} {i : RequestLabel ε} {q q' : DecodeRequest ε} {st : Stats}
    (he : Exact r) (hk : r.requests[k]? = some q) (hs : RequestStep q r.stats i q' st) :
    Exact ⟨st, r.requests.set k q'⟩ := by
  cases hs with
  | fetchAdd hpc =>
    refine exact_set he hk (by simp [counted, hpc]) rfl (fun s hs => Or.inl hs) fun n hn => ?_
    exact (Option.some.inj hn).symm
  | recordStart now n hpc =>
    refine exact_set he hk (by simp [counted, hpc, Stats.recordSample]) rfl (fun s hs => ?_)
      fun n hn => by cases hn
    exact (mem_recordSample hs).imp id fun hv => by simp [pending, hpc, hv]
  | makeGuard hpc =>
    exact exact_set he hk (by simp [counted, hpc]) rfl
      (fun s hs => Or.inl hs) fun n hn => by cases hn
  | handler l x x' hpc =>
    exact exact_set he hk (by simp [counted, hpc]) rfl
      (fun s hs => Or.inl hs) fun n hn => by cases hn
  | fetchSub x ok hpc hx =>
    have hc : counted q = true := by simp [counted, hpc]
    have hpos := count_pos he (List.mem_of_getElem? hk) hc
    have hminus : minusOne r.stats.activeConnections + 1 = r.stats.activeConnections := by
      rw [minusOne, if_neg (by omega)]
      omega
    refine exact_set he hk (by simp [counted, hpc, hminus]) rfl
      (fun s hs => Or.inl hs) fun n hn => ?_
    exact (Option.some.inj hn).symm
  | recordEnd now n hpc =>
    refine exact_set he hk (by simp [counted, hpc, Stats.recordSample]) rfl (fun s hs => ?_)
      fun n hn => by cases hn
    exact (mem_recordSample hs).imp id fun hv => by simp [pending, hpc, hv]

/-- **A step of the router** keeps the count exact. -/
theorem exact_step {l : RouterLabel ε} (he : Exact r) (h : r.step B defaults l = some r') :
    Exact r' := by
  rcases router_step_cases h with ⟨q, -, -, -, hpc, rfl⟩ | ⟨k, i, q, q', st, -, hk, hs, rfl⟩
  · have hc : counted q = false := by simp [counted, hpc]
    have hs : started q = false := by simp [started, hpc]
    have hcount : (r.requests ++ [q]).countP counted = r.requests.countP counted := by
      simp [List.countP_append, hc]
    have hstarted : (r.requests ++ [q]).countP started = r.requests.countP started := by
      simp [List.countP_append, hs]
    refine ⟨by rw [hcount]; exact he.count, by rw [hstarted]; exact he.samples, ?_⟩
    rw [hstarted]
    intro p hp n hpn
    rcases List.mem_append.mp hp with hp | hp
    · exact he.pending p hp n hpn
    · rw [List.mem_singleton.mp hp] at hpn
      simp [pending, hpc] at hpn
  · exact exact_request he hk hs

theorem reach_exact {numCpus : ℕ}
    (h : Reach (MediaRouter.step B defaults) (MediaRouter.new numCpus) r) : Exact r := by
  have hnew : Exact (MediaRouter.new (ε := ε) numCpus) :=
    ⟨rfl, fun s hs => absurd hs List.not_mem_nil, fun q hq => absurd hq List.not_mem_nil⟩
  exact h.invariant hnew fun m l m' he hs => exact_step he hs

/-- A decrement is that of a counted request. -/
theorem fetchSub_counted {k : ℕ} (h : r.step B defaults (.request k .fetchSub) = some r') :
    ∃ q ∈ r.requests, counted q = true := by
  rcases router_step_cases h with ⟨q, query, body, hl, -⟩ | ⟨k', i, q, q', st, hl, hk, hs, -⟩
  · cases hl
  · cases hl
    cases hs with
    | fetchSub x ok hpc hx => exact ⟨q, List.mem_of_getElem? hk, by simp [counted, hpc]⟩

/-- **The count of active connections is exact.** For any number of requests that interleave in any
way and end in any way: the count is that of the requests that have incremented it and not yet
decremented it, a decrement never finds zero, a recorded value is never more than the number of
requests started so far, and once all requests have ended the count is zero. -/
theorem count_exact (B : DecodeOptions → Behaviour ε) (defaults : DecodeOptions) (numCpus : ℕ)
    (r : MediaRouter ε) (h : Reach (MediaRouter.step B defaults) (MediaRouter.new numCpus) r) :
    r.stats.activeConnections = r.requests.countP counted ∧
      (∀ k r', r.step B defaults (.request k .fetchSub) = some r' →
        1 ≤ r.stats.activeConnections) ∧
      (∀ s ∈ r.stats.samples, s.value ≤ r.requests.countP started) ∧
      ((∀ q ∈ r.requests, ended q = true) → r.stats.activeConnections = 0) := by
  have he := reach_exact h
  refine ⟨he.count, fun k r' hs => ?_, he.samples, fun hall => ?_⟩
  · obtain ⟨q, hq, hc⟩ := fetchSub_counted hs
    exact count_pos he hq hc
  · rw [he.count, List.countP_eq_zero]
    intro q hq hc
    exact absurd (hall q hq) (by unfold counted at hc; unfold ended; split at hc <;> simp_all)

/-- Two requests that interleave: the first gets no decoder, the second is cancelled while it waits
for its body. -/
def twoRequests : List (RouterLabel String) :=
  ([.arrive none [], .arrive none [], .request 0 .fetchAdd, .request 1 .fetchAdd,
    .request 1 (.record 3), .request 0 (.record 5), .request 0 .makeGuard, .request 1 .makeGuard,
    .request 1 (.handler .handler), .request 0 (.handler .acquireErr), .request 0 .fetchSub,
    .request 1 (.handler .handler), .request 1 (.handler .fail)] : List (RouterLabel String)) ++
    List.replicate 4 (.request 1 (.handler .handler)) ++
    [.request 1 .fetchSub, .request 0 (.record 9), .request 1 (.record 8)]

theorem count_exact_two_requests : ∃ r, run (MediaRouter.step echo {}) (MediaRouter.new 1)
    twoRequests = some r ∧ r.requests.length = 2 ∧ r.stats.activeConnections = 0 := by
  have hrun : (run (MediaRouter.step echo {}) (MediaRouter.new 1) twoRequests).map
      (fun r => (r.requests.length, r.requests.all fun q => ended q)) = some (2, true) := by decide
  obtain ⟨r, hr, he⟩ := Option.map_eq_some_iff.mp hrun
  rw [Prod.mk.injEq, List.all_eq_true] at he
  exact ⟨r, hr, he.1, (count_exact echo {} 1 r (reach_of_run hr)).2.2.2 he.2⟩

end MediaApi.Stats.Requests
