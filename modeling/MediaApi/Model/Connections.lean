import Mathlib.Data.List.Basic
import Mathlib.Tactic

/-! # Connection statistics

`Stats` counts the active connections and keeps a deque of samples, one for each change of the
count; a rolling average is the mean of the samples since some instant. Instants and durations are
in nanoseconds, averages are exact. A count is a natural number: it does not overflow, and taking
one from zero wraps around to `usize::MAX`. -/

namespace MediaApi.Model.Connections

/-- `usize::MAX`. -/
def usizeMax : ℕ := 2 ^ 64 - 1

/-- `n - 1`, as `fetch_sub` and a release build compute it. -/
def minusOne (n : ℕ) : ℕ := if n = 0 then usizeMax else n - 1

structure Sample where
  timestamp : ℤ
  value : ℕ
deriving DecidableEq, Repr

structure Stats where
  activeConnections : ℕ
  samples : List Sample
  numCpus : ℕ
  maxSamples : ℕ
deriving DecidableEq, Repr

/-- `Stats::new`, on a machine with `numCpus` processors. -/
def Stats.new (numCpus : ℕ) : Stats where
  activeConnections := 0
  samples := []
  numCpus := numCpus
  maxSamples := 6000

/-- `while samples.len() > self.max_samples { samples.pop_front(); }`. -/
def trim (maxSamples : ℕ) : List Sample → List Sample
  | [] => []
  | s :: rest => if rest.length + 1 > maxSamples then trim maxSamples rest else s :: rest

/-- `record_sample`, at the instant `now`. -/
def Stats.recordSample (st : Stats) (now : ℤ) (value : ℕ) : Stats :=
  { st with samples := trim st.maxSamples (st.samples ++ [⟨now, value⟩]) }

/-- `self.active_connections.fetch_add(1)`: the count before, and the new state. -/
def Stats.fetchAdd (st : Stats) : ℕ × Stats :=
  (st.activeConnections, { st with activeConnections := st.activeConnections + 1 })

/-- `self.active_connections.fetch_sub(1)`. -/
def Stats.fetchSub (st : Stats) : ℕ × Stats :=
  (st.activeConnections, { st with activeConnections := minusOne st.activeConnections })

/-- `connection_start`. -/
def Stats.connectionStart (st : Stats) (now : ℤ) : Stats :=
  let (fetched, st) := st.fetchAdd
  st.recordSample now (fetched + 1)

/-- `connection_end`. -/
def Stats.connectionEnd (st : Stats) (now : ℤ) : Stats :=
  let (fetched, st) := st.fetchSub
  st.recordSample now (minusOne fetched)

/-- `current`. -/
def Stats.current (st : Stats) : ℕ := st.activeConnections

/-- `average`, at the instant `now`. -/
def Stats.average (st : Stats) (now : ℤ) (window : ℕ) : ℚ :=
  let cutoff := now - window
  let relevant := st.samples.filter fun s => s.timestamp ≥ cutoff
  if relevant = [] then (st.current : ℚ)
  else ((relevant.map Sample.value).sum : ℚ) / (relevant.length : ℚ)

/-- `Duration::from_secs`. -/
def seconds (n : ℕ) : ℕ := n * 10 ^ 9

/-- The document of `to_json`. -/
structure StatsJson where
  currentConnections : ℕ
  numCpus : ℕ
  poolSize : ℕ
  maxConcurrent : ℕ
  utilization : ℚ
  util1s : ℚ
  util10s : ℚ
  util60s : ℚ
  util120s : ℚ
  util300s : ℚ
  alarm : Bool

/-- `to_json`, at the instant `now`. -/
def Stats.toJson (st : Stats) (now : ℤ) : StatsJson :=
  let util := fun n => st.average now (seconds n) / (st.numCpus : ℚ)
  { currentConnections := st.current
    numCpus := st.numCpus
    poolSize := st.numCpus * 2
    maxConcurrent := st.numCpus
    utilization := (st.current : ℚ) / (st.numCpus : ℚ)
    util1s := util 1
    util10s := util 10
    util60s := util 60
    util120s := util 120
    util300s := util 300
    alarm := util 10 ≥ 1 ∨ util 60 ≥ 1 ∨ util 120 ≥ 1 ∨ util 300 ≥ 1 }

/-- The windows of `to_json`. -/
def windows : List ℕ := [1, 10, 60, 120, 300].map seconds

/-! ### Histories of calls -/

/-- A call that changes the count, at an instant. -/
inductive Call where
  | connectionStart (now : ℤ)
  | connectionEnd (now : ℤ)
deriving DecidableEq, Repr

def Call.now : Call → ℤ
  | .connectionStart now | .connectionEnd now => now

def Stats.call (st : Stats) : Call → Stats
  | .connectionStart now => st.connectionStart now
  | .connectionEnd now => st.connectionEnd now

/-- The statistics after some calls on a fresh `Stats`. -/
def after (numCpus : ℕ) (calls : List Call) : Stats := calls.foldl Stats.call (Stats.new numCpus)

example : ((after 1 [.connectionStart 0, .connectionStart 5, .connectionEnd 7]).average 8 3) =
    3 / 2 := by decide +kernel

end MediaApi.Model.Connections
