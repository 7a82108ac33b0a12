import Mathlib.Data.List.Basic
import Mathlib.Tactic

/-! # Bounded channels

A channel of capacity `cap` between one sender and one receiver, as the standard library's bounded
synchronous channel behaves: a first-in first-out queue of at most `cap` items that also knows
whether its two ends are still alive.

* `send`: hangs up if the receiver is gone, blocks if the queue is full, else puts the item last;
* `tryRecv`: the first item; of an empty queue `empty` while the sender lives, else `closed`. The
  blocking receive is the same with `empty` meaning that the caller waits.

Items still queued when the receiver goes are lost with the channel; they stay in `queue`, where
nobody can take them any more. -/

namespace MediaApi.Lib.Channel

/-- A bounded channel: its queue and which of its ends are alive. -/
structure Chan (α : Type*) (cap : ℕ) where
  queue : List α
  tx : Bool
  rx : Bool
  bounded : queue.length ≤ cap
deriving DecidableEq

/-- What `send` does. -/
inductive Sent (α : Type*) (cap : ℕ) where
  | sent (c : Chan α cap)
  | blocked
  | hungUp

/-- What a receive does. -/
inductive Received (α : Type*) (cap : ℕ) where
  | got (x : α) (c : Chan α cap)
  | empty
  | closed

namespace Chan

variable {α : Type*} {cap : ℕ}

/-- A fresh channel. -/
def new : Chan α cap := ⟨[], true, true, Nat.zero_le _⟩

/-- The queue has no room. -/
def Full (c : Chan α cap) : Prop := c.queue.length = cap

instance (c : Chan α cap) : Decidable c.Full := inferInstanceAs (Decidable (_ = _))

/-- Sends `x`. -/
def send (c : Chan α cap) (x : α) : Sent α cap :=
  if c.rx then
    if h : c.queue.length < cap then
      .sent { c with queue := c.queue ++ [x], bounded := by simpa using h }
    else .blocked
  else .hungUp

/-- Receives an item if there is one. -/
def tryRecv (c : Chan α cap) : Received α cap :=
  match h : c.queue with
  | x :: q => .got x { c with
      queue := q
      bounded := (Nat.le_succ _).trans (by simpa [h] using c.bounded) }
  | [] => if c.tx then .empty else .closed

/-- The sender goes. -/
def dropTx (c : Chan α cap) : Chan α cap := { c with tx := false }

/-- The receiver goes. -/
def dropRx (c : Chan α cap) : Chan α cap := { c with rx := false }

@[simp] theorem new_queue : (new : Chan α cap).queue = [] := rfl
@[simp] theorem new_tx : (new : Chan α cap).tx = true := rfl
@[simp] theorem new_rx : (new : Chan α cap).rx = true := rfl
@[simp] theorem dropTx_queue (c : Chan α cap) : c.dropTx.queue = c.queue := rfl
@[simp] theorem dropTx_tx (c : Chan α cap) : c.dropTx.tx = false := rfl
@[simp] theorem dropTx_rx (c : Chan α cap) : c.dropTx.rx = c.rx := rfl
@[simp] theorem dropRx_queue (c : Chan α cap) : c.dropRx.queue = c.queue := rfl
@[simp] theorem dropRx_tx (c : Chan α cap) : c.dropRx.tx = c.tx := rfl
@[simp] theorem dropRx_rx (c : Chan α cap) : c.dropRx.rx = false := rfl

/-! ### What a send and a receive can do -/

theorem send_sent {c c' : Chan α cap} {x : α} (h : c.send x = .sent c') :
    c.rx = true ∧ c.queue.length < cap ∧ c'.queue = c.queue ++ [x] ∧ c'.tx = c.tx ∧
      c'.rx = c.rx := by
  unfold send at h
  split_ifs at h with hrx hlt
  · cases h; exact ⟨hrx, hlt, rfl, rfl, rfl⟩

theorem send_blocked {c : Chan α cap} {x : α} :
    c.send x = .blocked ↔ c.rx = true ∧ c.Full := by
  have hb := c.bounded
  unfold send Full
  split_ifs with hrx hlt
  · simp only [false_iff]; omega
  · simp only [true_iff]; exact ⟨hrx, by omega⟩
  · simp [hrx]

theorem send_hungUp {c : Chan α cap} {x : α} : c.send x = .hungUp ↔ c.rx = false := by
  unfold send
  split_ifs with hrx hlt <;> simp [hrx]

theorem tryRecv_got {c c' : Chan α cap} {x : α} (h : c.tryRecv = .got x c') :
    c.queue = x :: c'.queue ∧ c'.tx = c.tx ∧ c'.rx = c.rx := by
  unfold tryRecv at h
  split at h
  · next y q hq => cases h; exact ⟨hq, rfl, rfl⟩
  · split_ifs at h

theorem tryRecv_empty {c : Chan α cap} : c.tryRecv = .empty ↔ c.queue = [] ∧ c.tx = true := by
  unfold tryRecv
  split
  · next y q hq => simp [hq]
  · next hq => split_ifs with htx <;> simp [hq, htx]

theorem tryRecv_closed {c : Chan α cap} : c.tryRecv = .closed ↔ c.queue = [] ∧ c.tx = false := by
  unfold tryRecv
  split
  · next y q hq => simp [hq]
  · next hq => split_ifs with htx <;> simp [hq, htx]

/-- A non-empty queue gives its first item. -/
theorem tryRecv_of_cons {c : Chan α cap} {x : α} {q : List α} (h : c.queue = x :: q) :
    ∃ c', c.tryRecv = .got x c' ∧ c'.queue = q := by
  cases hr : c.tryRecv with
  | got y c' =>
    have hq := (tryRecv_got hr).1
    rw [h] at hq
    cases hq; exact ⟨c', rfl, rfl⟩
  | empty => rw [tryRecv_empty, h] at hr; simp at hr
  | closed => rw [tryRecv_closed, h] at hr; simp at hr

end Chan

end MediaApi.Lib.Channel
