import MediaApi.Lib.Components
import MediaApi.Model.Connections
import MediaApi.Model.Http
import MediaApi.Model.Options

/-! # The requests of the router

`MediaRouter::handle_decode_stream` counts itself in with `connection_start` and makes a guard that
counts it out again; whichever way the handler is left, its decoder is dropped and then its guard,
which calls `connection_end`. Both calls change the count atomically and record the sample
afterwards, so the requests of the router interleave between the two. No `await` stands between
`connection_start` and the guard. -/

namespace MediaApi.Model.Router

open MediaApi.Lib.Transition MediaApi.Model.Audio MediaApi.Model.Connections MediaApi.Model.Http
open MediaApi.Model.Options MediaApi.Model.Pipeline

variable {ε : Type}

/-- The program point of a request. -/
inductive RequestPc (ε : Type) where
  /-- `fetch_add`, in `connection_start`. -/
  | start
  /-- `record_sample(count)`, in `connection_start`. -/
  | recordStart (count : ℕ)
  /-- `let _guard = ConnectionGuard(stats)`. -/
  | makeGuard
  /-- The rest of the handler, until its decoder is dropped; then `fetch_sub`, in the drop of the
  guard. -/
  | guarded (x : Exchange ε)
  /-- `record_sample(count)`, in `connection_end`. -/
  | recordEnd (count : ℕ)
  | ended

structure DecodeRequest (ε : Type) where
  options : DecodeOptions
  body : List (Option Bytes)
  pc : RequestPc ε

/-- The router with the requests that have come in so far. -/
structure MediaRouter (ε : Type) where
  stats : Stats
  requests : List (DecodeRequest ε)

def MediaRouter.new (numCpus : ℕ) : MediaRouter ε := ⟨Stats.new numCpus, []⟩

/-- What a request does next. -/
inductive RequestLabel (ε : Type) where
  | fetchAdd
  | record (now : ℤ)
  | makeGuard
  | handler (l : ExchangeLabel ε)
  | fetchSub

/-- What happens: a request comes in, or the request `k` makes a step. -/
inductive RouterLabel (ε : Type) where
  | arrive (query : Option String) (body : List (Option Bytes))
  | request (k : ℕ) (l : RequestLabel ε)

variable [ToString ε]

/-- A step of a request on the shared statistics. -/
def DecodeRequest.step (B : DecodeOptions → Behaviour ε) (q : DecodeRequest ε) (st : Stats) :
    RequestLabel ε → Option (DecodeRequest ε × Stats)
  | .fetchAdd =>
    match q.pc with
    | .start =>
      let (fetched, st) := st.fetchAdd
      some ({ q with pc := .recordStart (fetched + 1) }, st)
    | _ => none
  | .record now =>
    match q.pc with
    | .recordStart count => some ({ q with pc := .makeGuard }, st.recordSample now count)
    | .recordEnd count => some ({ q with pc := .ended }, st.recordSample now count)
    | _ => none
  | .makeGuard =>
    match q.pc with
    | .makeGuard => some ({ q with pc := .guarded (Exchange.new q.body) }, st)
    | _ => none
  | .handler l =>
    match q.pc with
    | .guarded x => (x.step B q.options l).map fun x' => ({ q with pc := .guarded x' }, st)
    | _ => none
  | .fetchSub =>
    match q.pc with
    | .guarded x =>
      match x.phase with
      | .closed _ =>
        let (fetched, st) := st.fetchSub
        some ({ q with pc := .recordEnd (minusOne fetched) }, st)
      | _ => none
    | _ => none

/-- **A step of the router.** -/
def MediaRouter.step (B : DecodeOptions → Behaviour ε) (defaults : DecodeOptions)
    (r : MediaRouter ε) : RouterLabel ε → Option (MediaRouter ε)
  | .arrive query body =>
    some { r with requests := r.requests ++ [⟨jobOptions defaults (.http query), body, .start⟩] }
  | .request k l =>
    match r.requests[k]? with
    | none => none
    | some q => (q.step B r.stats l).map fun (q', st) => ⟨st, r.requests.set k q'⟩

/-! ### The steps by name -/

/-- The steps of a request. -/
inductive RequestStep (q : DecodeRequest ε) (st : Stats) :
    RequestLabel ε → DecodeRequest ε → Stats → Prop where
  | fetchAdd (hpc : q.pc = .start) :
      RequestStep q st .fetchAdd { q with pc := .recordStart (st.activeConnections + 1) }
        { st with activeConnections := st.activeConnections + 1 }
  | recordStart (now : ℤ) (count : ℕ) (hpc : q.pc = .recordStart count) :
      RequestStep q st (.record now) { q with pc := .makeGuard } (st.recordSample now count)
  | makeGuard (hpc : q.pc = .makeGuard) :
      RequestStep q st .makeGuard { q with pc := .guarded (Exchange.new q.body) } st
  | handler (l : ExchangeLabel ε) (x x' : Exchange ε) (hpc : q.pc = .guarded x) :
      RequestStep q st (.handler l) { q with pc := .guarded x' } st
  | fetchSub (x : Exchange ε) (ok : Bool) (hpc : q.pc = .guarded x) (hx : x.phase = .closed ok) :
      RequestStep q st .fetchSub { q with pc := .recordEnd (minusOne st.activeConnections) }
        { st with activeConnections := minusOne st.activeConnections }
  | recordEnd (now : ℤ) (count : ℕ) (hpc : q.pc = .recordEnd count) :
      RequestStep q st (.record now) { q with pc := .ended } (st.recordSample now count)

variable {B : DecodeOptions → Behaviour ε} {defaults : DecodeOptions} {q q' : DecodeRequest ε}
  {st st' : Stats} {r r' : MediaRouter ε}

theorem request_step_cases {l : RequestLabel ε} (h : q.step B st l = some (q', st')) :
    RequestStep q st l q' st' := by
  cases l with
  | fetchAdd =>
    simp only [DecodeRequest.step, Stats.fetchAdd] at h
    split at h
    · next hpc => cases h; exact .fetchAdd hpc
    · cases h
  | record now =>
    simp only [DecodeRequest.step] at h
    split at h
    · next count hpc => cases h; exact .recordStart now count hpc
    · next count hpc => cases h; exact .recordEnd now count hpc
    · cases h
  | makeGuard =>
    simp only [DecodeRequest.step] at h
    split at h
    · next hpc => cases h; exact .makeGuard hpc
    · cases h
  | handler l =>
    simp only [DecodeRequest.step] at h
    split at h
    · next x hpc =>
      obtain ⟨x', -, hx⟩ := Option.map_eq_some_iff.mp h
      cases hx
      exact .handler l x x' hpc
    · cases h
  | fetchSub =>
    simp only [DecodeRequest.step, Stats.fetchSub] at h
    split at h
    · next x hpc =>
      split at h
      · next ok hx => cases h; exact .fetchSub x ok hpc hx
      · cases h
    · cases h

theorem router_step_cases {l : RouterLabel ε} (h : r.step B defaults l = some r') :
    (∃ q query body, l = .arrive query body ∧ q.pc = .start ∧
        r' = { r with requests := r.requests ++ [q] }) ∨
      ∃ k i q q' st, l = .request k i ∧ r.requests[k]? = some q ∧ RequestStep q r.stats i q' st ∧
        r' = ⟨st, r.requests.set k q'⟩ := by
  cases l with
  | arrive query body =>
    cases h
    exact Or.inl ⟨_, query, body, rfl, rfl, rfl⟩
  | request k i =>
    simp only [MediaRouter.step] at h
    split at h
    · cases h
    · next q hk =>
      obtain ⟨⟨q', st⟩, hs, rfl⟩ := Option.map_eq_some_iff.mp h
      exact Or.inr ⟨k, i, q, q', st, rfl, hk, request_step_cases hs, rfl⟩

end MediaApi.Model.Router
