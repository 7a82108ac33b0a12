import MediaApi.Lib.Channel
import MediaApi.Lib.Components
import MediaApi.Lib.Transition

/-! # A crew of threads at one receiver

The threads of a crew share the receiving end of a bounded channel behind a mutex: a thread locks
the mutex, receives an item while it holds it, unlocks it, works on the item, and comes back for the
next. A thread that finds the channel closed exits; one that dies while it holds the mutex poisons
it, and whoever locks a poisoned mutex dies too. The receiver goes with the last thread.

`Crew.step` is one atomic action of a thread or of the sender. The fields `sent`, `taken` and `done`
only record what went into the channel, who took it out, and what has been worked on to the end.

* `Mutual`: one thread at a time receives, the mutex is never poisoned, a thread exits only when the
  channel is closed and empty, and the receiver lives as long as a thread.
* `Conserved`: the items are taken in the order in which they were sent, and each one taken is with
  one thread or done.
* `take_oldest`: while a thread is idle the oldest item can be taken. -/

namespace MediaApi.Lib.Threads

open MediaApi.Lib.Channel MediaApi.Lib.Components MediaApi.Lib.Transition

variable {α : Type*} {cap : ℕ}

/-- Where a thread is. -/
inductive Thread (α : Type*) where
  /-- It locks the mutex. -/
  | lock
  /-- It receives, and holds the mutex. -/
  | recv
  | work (x : α)
  | exited
  /-- It died, of the item it worked on or of a poisoned mutex. -/
  | died (x : Option α)
deriving DecidableEq

/-- The thread has ended. -/
def Thread.gone : Thread α → Bool
  | .exited | .died _ => true
  | _ => false

/-- How many items of a kind the thread has in its hands, or has died of. -/
def Thread.load (p : α → Bool) : Thread α → ℕ
  | .work x | .died (some x) => if p x then 1 else 0
  | _ => 0

/-- A crew and its channel. -/
structure Crew (α : Type*) (cap : ℕ) where
  threads : List (Thread α)
  /-- The thread that holds the mutex. -/
  mutex : Option ℕ
  poisoned : Bool
  chan : Chan α cap
  sent : List α
  taken : List (ℕ × α)
  done : List α

/-- A fresh crew. -/
def Crew.new (size : ℕ) : Crew α cap where
  threads := List.replicate size .lock
  mutex := none
  poisoned := false
  chan := if size = 0 then Chan.new.dropRx else Chan.new
  sent := []
  taken := []
  done := []

/-- Thread `w` is at `t` from now on. -/
def Crew.put (c : Crew α cap) (w : ℕ) (t : Thread α) : Crew α cap :=
  { c with
    threads := c.threads.set w t
    chan := if (c.threads.set w t).all Thread.gone then c.chan.dropRx else c.chan }

/-- Sends an item: `none` while the send blocks, else whether it succeeded. -/
def Crew.send (c : Crew α cap) (x : α) : Option (Bool × Crew α cap) :=
  match c.chan.send x with
  | .sent chan => some (true, { c with chan := chan, sent := c.sent ++ [x] })
  | .blocked => none
  | .hungUp => some (false, c)

inductive CrewLabel (α : Type*) where
  | send (x : α)
  | close
  | lock (w : ℕ)
  | recv (w : ℕ)
  | finish (w : ℕ)
  | die (w : ℕ)

/-- **A step of a crew.** A thread that dies lets go of the mutex if it holds it. -/
def Crew.step (c : Crew α cap) : CrewLabel α → Option (Crew α cap)
  | .send x => if c.chan.tx then (c.send x).map Prod.snd else none
  | .close => some { c with chan := c.chan.dropTx }
  | .lock w =>
    match c.threads[w]?, c.mutex with
    | some .lock, none =>
      if c.poisoned then some (c.put w (.died none))
      else some { c.put w .recv with mutex := some w }
    | _, _ => none
  | .recv w =>
    match c.threads[w]? with
    | some .recv =>
      match c.chan.tryRecv with
      | .got x chan =>
        some { ({ c with chan := chan } : Crew α cap).put w (.work x) with
          mutex := none, taken := c.taken ++ [(w, x)] }
      | .empty => none
      | .closed => some { c.put w .exited with mutex := none }
    | _ => none
  | .finish w =>
    match c.threads[w]? with
    | some (.work x) => some { c.put w .lock with done := c.done ++ [x] }
    | _ => none
  | .die w =>
    match c.threads[w]? with
    | some (.work x) =>
      some { c.put w (.died (some x)) with
        mutex := c.mutex.filter (· ≠ w), poisoned := c.poisoned || c.mutex = some w }
    | _ => none

/-! ### The steps by name -/

/-- The steps of a crew, one case for each branch. -/
inductive CrewStep (c : Crew α cap) : CrewLabel α → Crew α cap → Prop where
  | send (x : α) (chan : Chan α cap) (htx : c.chan.tx = true) (h : c.chan.send x = .sent chan) :
      CrewStep c (.send x) { c with chan := chan, sent := c.sent ++ [x] }
  | hungUp (x : α) (htx : c.chan.tx = true) (hrx : c.chan.rx = false) : CrewStep c (.send x) c
  | close : CrewStep c .close { c with chan := c.chan.dropTx }
  | poisoned (w : ℕ) (hw : c.threads[w]? = some .lock) (hm : c.mutex = none)
      (hp : c.poisoned = true) : CrewStep c (.lock w) (c.put w (.died none))
  | lock (w : ℕ) (hw : c.threads[w]? = some .lock) (hm : c.mutex = none)
      (hp : c.poisoned = false) : CrewStep c (.lock w) { c.put w .recv with mutex := some w }
  | take (w : ℕ) (x : α) (chan : Chan α cap) (hw : c.threads[w]? = some .recv)
      (h : c.chan.tryRecv = .got x chan) :
      CrewStep c (.recv w) { ({ c with chan := chan } : Crew α cap).put w (.work x) with
        mutex := none, taken := c.taken ++ [(w, x)] }
  | exit (w : ℕ) (hw : c.threads[w]? = some .recv) (h : c.chan.tryRecv = .closed) :
      CrewStep c (.recv w) { c.put w .exited with mutex := none }
  | finish (w : ℕ) (x : α) (hw : c.threads[w]? = some (.work x)) :
      CrewStep c (.finish w) { c.put w .lock with done := c.done ++ [x] }
  | die (w : ℕ) (x : α) (hw : c.threads[w]? = some (.work x)) :
      CrewStep c (.die w) { c.put w (.died (some x)) with
        mutex := c.mutex.filter (· ≠ w), poisoned := c.poisoned || c.mutex = some w }

variable {c c' : Crew α cap} {l : CrewLabel α} {w : ℕ} {x : α}

theorem crew_step_cases (h : c.step l = some c') : CrewStep c l c' := by
  cases l with
  | send x =>
    simp only [Crew.step, Crew.send] at h
    split_ifs at h with htx
    split at h
    · next chan hc => cases h; exact .send x chan htx hc
    · cases h
    · next hc => cases h; exact .hungUp x htx (Chan.send_hungUp.mp hc)
  | close => cases h; exact .close
  | lock w =>
    simp only [Crew.step] at h
    split at h
    · next hw hm =>
      split_ifs at h with hp
      · cases h; exact .poisoned w hw hm hp
      · cases h; exact .lock w hw hm (by simpa using hp)
    · cases h
  | recv w =>
    simp only [Crew.step] at h
    split at h
    · next hw =>
      split at h
      · next x chan hc => cases h; exact .take w x chan hw hc
      · cases h
      · next hc => cases h; exact .exit w hw hc
    · cases h
  | finish w =>
    simp only [Crew.step] at h
    split at h
    · next x hw => cases h; exact .finish w x hw
    · cases h
  | die w =>
    simp only [Crew.step] at h
    split at h
    · next x hw => cases h; exact .die w x hw
    · cases h

@[simp] theorem put_threads (t : Thread α) : (c.put w t).threads = c.threads.set w t := rfl
@[simp] theorem put_mutex (t : Thread α) : (c.put w t).mutex = c.mutex := rfl
@[simp] theorem put_poisoned (t : Thread α) : (c.put w t).poisoned = c.poisoned := rfl
@[simp] theorem put_sent (t : Thread α) : (c.put w t).sent = c.sent := rfl
@[simp] theorem put_taken (t : Thread α) : (c.put w t).taken = c.taken := rfl
@[simp] theorem put_done (t : Thread α) : (c.put w t).done = c.done := rfl

@[simp] theorem put_queue (t : Thread α) : (c.put w t).chan.queue = c.chan.queue := by
  unfold Crew.put
  dsimp only
  split_ifs <;> rfl

@[simp] theorem put_tx (t : Thread α) : (c.put w t).chan.tx = c.chan.tx := by
  unfold Crew.put
  dsimp only
  split_ifs <;> rfl

@[simp] theorem put_rx (t : Thread α) :
    (c.put w t).chan.rx = (c.chan.rx && !(c.threads.set w t).all Thread.gone) := by
  unfold Crew.put
  dsimp only
  split_ifs with h <;> simp [h]

theorem send_true (h : c.send x = some (true, c')) :
    (c.chan.rx = true ∧ c.chan.queue.length < cap) ∧ c'.threads = c.threads ∧
      c'.sent = c.sent ++ [x] ∧ c'.chan.queue = c.chan.queue ++ [x] ∧ c'.done = c.done ∧
      c'.chan.rx = c.chan.rx := by
  unfold Crew.send at h
  split at h
  · next chan hc =>
    cases h
    obtain ⟨hrx, hlt, hq, -, hrx'⟩ := Chan.send_sent hc
    exact ⟨⟨hrx, hlt⟩, rfl, rfl, hq, rfl, hrx'⟩
  · cases h
  · cases h

/-- A send fails only for want of a receiver. -/
theorem send_false (h : c.send x = some (false, c')) : c.chan.rx = false := by
  unfold Crew.send at h
  split at h
  · cases h
  · cases h
  · next hup => exact Chan.send_hungUp.mp hup

/-! ### Mutual exclusion -/

/-- Who holds the mutex and when threads and receiver go. -/
structure Mutual (c : Crew α cap) : Prop where
  holder : ∀ w, c.mutex = some w ↔ c.threads[w]? = some .recv
  clean : c.poisoned = false
  unpoisoned : .died none ∉ c.threads
  exits : .exited ∈ c.threads → c.chan.tx = false ∧ c.chan.queue = []
  receiver : c.chan.rx = !c.threads.all Thread.gone

theorem mutual_new (size : ℕ) : Mutual (Crew.new size : Crew α cap) := by
  refine ⟨fun w => ?_, rfl, ?_, ?_, ?_⟩
  · simp [Crew.new, List.getElem?_replicate]
  · simp [Crew.new, List.mem_replicate]
  · simp [Crew.new, List.mem_replicate]
  · cases size <;> simp [Crew.new, Thread.gone]

/-- While a thread is alive so is the receiver. -/
theorem all_gone_false {threads : List (Thread α)} {t : Thread α} (hw : t ∈ threads)
    (ht : t.gone = false) : threads.all Thread.gone = false := by
  rw [List.all_eq_false]
  exact ⟨t, hw, by simp [ht]⟩

theorem getElem_put {t u : Thread α} {v : ℕ} (hw : c.threads[w]? = some u) :
    (c.threads.set w t)[v]? = if v = w then some t else c.threads[v]? := by
  obtain ⟨hlt, -⟩ := List.getElem?_eq_some_iff.mp hw
  rw [List.getElem?_set]
  by_cases hv : w = v
  · rw [if_pos hv, if_pos hv.symm, if_pos (hv ▸ hlt)]
  · rw [if_neg hv, if_neg fun h => hv h.symm]

theorem mem_of_mem_set {threads : List (Thread α)} {t u : Thread α} (ht : t ≠ u)
    (h : u ∈ threads.set w t) : u ∈ threads :=
  (List.mem_or_eq_of_mem_set h).resolve_right fun he => ht he.symm

/-- A thread that moves was alive, so the receiver was. -/
theorem Mutual.rx (hm : Mutual c) {u : Thread α} (hw : c.threads[w]? = some u)
    (hu : u.gone = false) : c.chan.rx = true := by
  rw [hm.receiver, all_gone_false (List.mem_of_getElem? hw) hu]
  rfl

/-- A thread moves on, to `t`. -/
theorem Mutual.put (hm : Mutual c) {t u : Thread α} {d : Crew α cap} {o : Option ℕ} {b : Bool}
    {tk : List (ℕ × α)} {dn : List α} (hw : c.threads[w]? = some u) (hu : u.gone = false)
    (hd : d.threads = c.threads ∧ d.chan.rx = c.chan.rx ∧ d.chan.tx = c.chan.tx)
    (hclean : b = false) (hdied : t ≠ .died none)
    (hexit : .exited ∈ c.threads.set w t → c.chan.tx = false ∧ d.chan.queue = [])
    (ho : ∀ v, o = some v ↔ if v = w then t = .recv else c.threads[v]? = some .recv) :
    Mutual { d.put w t with mutex := o, poisoned := b, taken := tk, done := dn } := by
  obtain ⟨hthreads, hrx, htx⟩ := hd
  refine ⟨fun v => ?_, hclean, ?_, ?_, ?_⟩
  · show o = some v ↔ (d.threads.set w t)[v]? = some .recv
    rw [ho, hthreads, getElem_put hw]
    by_cases hv : v = w
    · simp [hv]
    · simp [hv]
  · show .died none ∉ d.threads.set w t
    intro h
    rw [hthreads] at h
    rcases List.mem_or_eq_of_mem_set h with h | h
    · exact hm.unpoisoned h
    · exact hdied h.symm
  · show .exited ∈ d.threads.set w t → (d.put w t).chan.tx = false ∧ (d.put w t).chan.queue = []
    rw [hthreads, put_tx, put_queue, htx]
    exact hexit
  · show (d.put w t).chan.rx = !(d.threads.set w t).all Thread.gone
    rw [put_rx, hrx, hm.rx hw hu, Bool.true_and]

/-- The mutex while thread `w` is elsewhere. -/
theorem Mutual.elsewhere (hm : Mutual c) {t u : Thread α} (hw : c.threads[w]? = some u)
    (hu : u ≠ .recv) (ht : t ≠ .recv) (v : ℕ) :
    c.mutex = some v ↔ if v = w then t = .recv else c.threads[v]? = some .recv := by
  rw [hm.holder]
  by_cases hv : v = w
  · simp [hv, hw, hu, ht]
  · simp [hv]

/-- The mutex when thread `w` lets go of it. -/
theorem Mutual.released (hm : Mutual c) {t : Thread α} (hw : c.threads[w]? = some .recv)
    (ht : t ≠ .recv) (v : ℕ) :
    none = some v ↔ if v = w then t = .recv else c.threads[v]? = some .recv := by
  by_cases hv : v = w
  · simp [hv, ht]
  · have hmu := (hm.holder w).mpr hw
    rw [if_neg hv, ← hm.holder, hmu]
    simpa using fun h => hv h.symm

theorem crew_step_length (h : c.step l = some c') : c'.threads.length = c.threads.length := by
  cases crew_step_cases h with
  | send | hungUp | close => rfl
  | poisoned | lock | take | exit | finish | die => exact List.length_set

/-- A receiver that is gone does not come back. -/
theorem crew_step_rx (h : c.step l = some c') (hrx : c.chan.rx = false) : c'.chan.rx = false := by
  have hput : ∀ (d : Crew α cap) (v : ℕ) (t : Thread α), d.chan.rx = false →
      (d.put v t).chan.rx = false := fun d v t hd => by rw [put_rx, hd, Bool.false_and]
  cases crew_step_cases h with
  | send x chan htx hc =>
    rw [(Chan.send_sent hc).1] at hrx
    cases hrx
  | hungUp | close => exact hrx
  | poisoned | lock | exit | finish | die => exact hput _ _ _ hrx
  | take w x chan hw hc => exact hput _ _ _ ((Chan.tryRecv_got hc).2.2.trans hrx)

/-- A channel that is closed stays closed. -/
theorem crew_step_tx (h : c.step l = some c') (htx : c.chan.tx = false) : c'.chan.tx = false := by
  cases crew_step_cases h with
  | send x chan hc =>
    rw [htx] at hc
    cases hc
  | hungUp => exact htx
  | close => rfl
  | poisoned | lock | exit | finish | die => exact (put_tx _).trans htx
  | take w x chan hw hc => exact (put_tx _).trans ((Chan.tryRecv_got hc).2.1.trans htx)

theorem reach_length {size : ℕ} (h : Reach Crew.step (Crew.new size) c) :
    c.threads.length = size :=
  h.invariant (I := fun c => c.threads.length = size) (by simp [Crew.new])
    fun _ _ _ hl h => (crew_step_length h).trans hl

theorem mutual_step (hm : Mutual c) (h : c.step l = some c') : Mutual c' := by
  cases crew_step_cases h with
  | send x chan htx hc =>
    obtain ⟨-, -, -, htx', hrx'⟩ := Chan.send_sent hc
    refine ⟨hm.holder, hm.clean, hm.unpoisoned, fun he => ?_, hrx'.trans hm.receiver⟩
    rw [(hm.exits he).1] at htx
    cases htx
  | hungUp => exact hm
  | close =>
    exact ⟨hm.holder, hm.clean, hm.unpoisoned, fun he => ⟨rfl, (hm.exits he).2⟩, hm.receiver⟩
  | poisoned w hw hmu hp => rw [hm.clean] at hp; cases hp
  | lock w hw hmu hp =>
    refine hm.put hw rfl ⟨rfl, rfl, rfl⟩ hp (by simp)
      (fun he => hm.exits (mem_of_mem_set (by simp) he)) fun v => ?_
    by_cases hv : v = w
    · simp [hv]
    · have hv' := (hm.holder v).not.mp (by rw [hmu]; simp)
      simp only [hv, if_false, hv', iff_false, Option.some.injEq]
      exact fun h => hv h.symm
  | take w x chan hw hc =>
    obtain ⟨hq, htx, hrx⟩ := Chan.tryRecv_got hc
    refine hm.put hw rfl ⟨rfl, hrx, htx⟩ hm.clean (by simp) (fun he => ?_)
      (hm.released hw (by simp))
    have hq' := (hm.exits (mem_of_mem_set (by simp) he)).2
    rw [hq] at hq'
    cases hq'
  | exit w hw hc =>
    obtain ⟨hq, htx⟩ := Chan.tryRecv_closed.mp hc
    exact hm.put hw rfl ⟨rfl, rfl, rfl⟩ hm.clean (by simp) (fun _ => ⟨htx, hq⟩)
      (hm.released hw (by simp))
  | finish w x hw =>
    exact hm.put hw rfl ⟨rfl, rfl, rfl⟩ hm.clean (by simp)
      (fun he => hm.exits (mem_of_mem_set (by simp) he)) (hm.elsewhere hw (by simp) (by simp))
  | die w x hw =>
    have hfree : c.mutex ≠ some w := by
      rw [Ne, hm.holder, hw]
      simp
    have hmu : c.mutex.filter (· ≠ w) = c.mutex := by
      cases hc : c.mutex with
      | none => rfl
      | some v =>
        rw [hc] at hfree
        simpa using hfree
    have hp : (c.poisoned || decide (c.mutex = some w)) = false := by
      rw [hm.clean, Bool.false_or, decide_eq_false_iff_not]
      exact hfree
    rw [hmu]
    exact hm.put hw rfl ⟨rfl, rfl, rfl⟩ hp (by simp)
      (fun he => hm.exits (mem_of_mem_set (by simp) he)) (hm.elsewhere hw (by simp) (by simp))

theorem reach_mutual {size : ℕ} (h : Reach Crew.step (Crew.new size) c) : Mutual c :=
  h.invariant (mutual_new size) fun _ _ _ hm h => mutual_step hm h

/-- **One thread at a time receives.** -/
theorem Mutual.unique (hm : Mutual c) {v : ℕ} (hv : c.threads[v]? = some .recv)
    (hw : c.threads[w]? = some .recv) : v = w := by
  have h := (hm.holder v).mpr hv
  rw [(hm.holder w).mpr hw] at h
  exact (Option.some.inj h).symm

/-! ### Conservation -/

/-- The items of a kind that the threads have in their hands, or have died of. -/
def Crew.loads (c : Crew α cap) (p : α → Bool) : ℕ := (c.threads.map (Thread.load p)).sum

/-- What goes in comes out in the same order, and each item taken is with one thread or done. -/
structure Conserved (c : Crew α cap) : Prop where
  order : c.sent = c.taken.map Prod.snd ++ c.chan.queue
  hands : ∀ p, (c.taken.map Prod.snd).countP p = c.loads p + c.done.countP p

theorem load_le (p : α → Bool) (t : Thread α) : t.load p ≤ 1 := by
  unfold Thread.load
  split
  · split_ifs <;> omega
  · split_ifs <;> omega
  · omega

/-- A thread with nothing in its hands. -/
theorem Crew.loads_lt (c : Crew α cap) (p : α → Bool) {t : Thread α} (hw : c.threads[w]? = some t)
    (ht : t.load p = 0) : c.loads p < c.threads.length :=
  sum_map_lt_length (load_le p) hw ht

/-- All threads have an item of the kind in their hands, or have died of one. -/
theorem Crew.loads_eq (c : Crew α cap) (p : α → Bool) (h : ∀ t ∈ c.threads, t.load p = 1) :
    c.loads p = c.threads.length := by
  rw [Crew.loads, List.map_congr_left h]
  simp

theorem conserved_new (size : ℕ) : Conserved (Crew.new size : Crew α cap) := by
  refine ⟨?_, fun p => ?_⟩
  · unfold Crew.new
    dsimp only
    split_ifs <;> rfl
  · simp [Crew.new, Crew.loads, Thread.load]

/-- A thread moves on, with what it has in its hands and what becomes of it. -/
theorem loads_moved {p : α → Bool} {t u : Thread α} {threads : List (Thread α)} {n m : ℕ}
    (hw : threads[w]? = some u) (h : n = (threads.map (Thread.load p)).sum + m) {n' m' : ℕ}
    (hmoved : n' + u.load p + m = n + t.load p + m') :
    n' = ((threads.set w t).map (Thread.load p)).sum + m' := by
  have hset := sum_map_set (y := t) (Thread.load p) hw
  omega

theorem conserved_step (hm : Mutual c) (hc : Conserved c) (h : c.step l = some c') :
    Conserved c' := by
  obtain ⟨ho, hh⟩ := hc
  cases crew_step_cases h with
  | send x chan htx hs =>
    refine ⟨?_, hh⟩
    show c.sent ++ [x] = c.taken.map Prod.snd ++ chan.queue
    rw [(Chan.send_sent hs).2.2.1, ho, List.append_assoc]
  | hungUp => exact ⟨ho, hh⟩
  | close => exact ⟨ho, hh⟩
  | poisoned w hw hmu hp => rw [hm.clean] at hp; cases hp
  | lock w hw hmu hp =>
    exact ⟨by simpa using ho, fun p => loads_moved hw (hh p) (by simp [Thread.load])⟩
  | take w x chan hw hr =>
    refine ⟨?_, fun p => loads_moved hw (hh p) ?_⟩
    · show c.sent = (c.taken ++ [(w, x)]).map Prod.snd ++ _
      rw [put_queue, ho, (Chan.tryRecv_got hr).1, List.map_append, List.append_assoc]
      rfl
    · show ((c.taken ++ [(w, x)]).map Prod.snd).countP p + 0 + c.done.countP p =
        (c.taken.map Prod.snd).countP p + (if p x then 1 else 0) + c.done.countP p
      rw [List.map_append, List.countP_append]
      simp only [List.map_cons, List.map_nil, List.countP_cons, List.countP_nil]
      omega
  | exit w hw hr =>
    exact ⟨by simpa using ho, fun p => loads_moved hw (hh p) (by simp [Thread.load])⟩
  | finish w x hw =>
    refine ⟨by simpa using ho, fun p => loads_moved hw (hh p) ?_⟩
    show (c.taken.map Prod.snd).countP p + (if p x then 1 else 0) + c.done.countP p =
      (c.taken.map Prod.snd).countP p + 0 + (c.done ++ [x]).countP p
    rw [List.countP_append, List.countP_singleton]
    omega
  | die w x hw =>
    exact ⟨by simpa using ho, fun p => loads_moved hw (hh p) (by simp [Thread.load])⟩

theorem reach_conserved {size : ℕ} (h : Reach Crew.step (Crew.new size) c) : Conserved c := by
  refine h.rec_tail (P := Conserved) (conserved_new size) ?_
  intro m l m' hm hc hs
  exact conserved_step (reach_mutual hm) hc hs

section Items

variable [DecidableEq α]

theorem load_of_mem (hw : c.threads[w]? = some (.work x)) : 0 < c.loads (· == x) := by
  have hle : Thread.load (· == x) (.work x) ≤ c.loads (· == x) := le_sum_map _ hw
  rwa [Thread.load, if_pos (by simp)] at hle

theorem load_of_died (h : .died (some x) ∈ c.threads) : 0 < c.loads (· == x) := by
  obtain ⟨w, hw⟩ := List.mem_iff_getElem?.mp h
  have hle : Thread.load (· == x) (.died (some x)) ≤ c.loads (· == x) := le_sum_map _ hw
  rwa [Thread.load, if_pos (by simp)] at hle

theorem mem_of_loads (h : 0 < c.loads (· == x)) :
    .work x ∈ c.threads ∨ .died (some x) ∈ c.threads := by
  by_contra hnot
  obtain ⟨hwork, hdied⟩ := not_or.mp hnot
  refine h.ne' (List.sum_eq_zero fun n hn => ?_)
  obtain ⟨t, ht, rfl⟩ := List.mem_map.mp hn
  cases t with
  | work y =>
    have hne : y ≠ x := fun e => hwork (e ▸ ht)
    simp [Thread.load, hne]
  | died o =>
    cases o with
    | none => rfl
    | some y =>
      have hne : y ≠ x := fun e => hdied (e ▸ ht)
      simp [Thread.load, hne]
  | lock | recv | exited => rfl

/-- What is done, or with a thread, was sent; and if the items sent are different, it is not in the
channel. -/
theorem Conserved.out (hc : Conserved c) (h : x ∈ c.done ∨ 0 < c.loads (· == x)) :
    x ∈ c.sent ∧ (c.sent.Nodup → x ∉ c.chan.queue) := by
  have hcount : 0 < (c.taken.map Prod.snd).countP (· == x) := by
    rw [hc.hands]
    rcases h with h | h
    · have hpos : 0 < c.done.countP (· == x) := List.countP_pos_iff.mpr ⟨x, h, by simp⟩
      omega
    · omega
  obtain ⟨y, hy, he⟩ := List.countP_pos_iff.mp hcount
  rw [beq_iff_eq] at he
  subst he
  rw [hc.order]
  exact ⟨List.mem_append_left _ hy, fun hn hq => (List.nodup_append.mp hn).2.2 y hy y hq rfl⟩

/-- An item that is with one thread is with no other, and not done. -/
theorem Conserved.with_one (hc : Conserved c) (hn : c.sent.Nodup) {t : Thread α}
    (hw : c.threads[w]? = some t) (ht : t.load (· == x) = 1) :
    (∀ v u, c.threads[v]? = some u → u.load (· == x) = 1 → v = w) ∧ x ∉ c.done := by
  have hcount : (c.taken.map Prod.snd).countP (· == x) ≤ 1 := by
    rw [hc.order] at hn
    exact List.nodup_iff_count_le_one.mp (List.nodup_append.mp hn).1 x
  have hhands := hc.hands (· == x)
  have hle : 1 ≤ c.loads (· == x) := by
    rw [← ht]
    exact le_sum_map (Thread.load _) hw
  refine ⟨fun v u hv hu => ?_, fun hd => ?_⟩
  · by_contra hne
    have htwo : t.load (· == x) + u.load (· == x) ≤ c.loads (· == x) :=
      add_le_sum_map (Thread.load _) hw hv hne
    omega
  · have hpos : 0 < c.done.countP (· == x) := List.countP_pos_iff.mpr ⟨x, hd, by simp⟩
    omega

end Items

/-! ### Progress -/

theorem recv_step {q : List α} (hq : c.chan.queue = x :: q) (hw : c.threads[w]? = some .recv) :
    ∃ d, c.step (.recv w) = some d ∧ d.threads = c.threads.set w (.work x) ∧
      d.taken = c.taken ++ [(w, x)] ∧ d.chan.queue = q ∧ d.chan.tx = c.chan.tx := by
  obtain ⟨chan, hchan, hq'⟩ := Chan.tryRecv_of_cons hq
  have hstep : c.step (.recv w) =
      some { ({ c with chan := chan } : Crew α cap).put w (.work x) with
        mutex := none, taken := c.taken ++ [(w, x)] } := by
    simp only [Crew.step, hw, hchan]
  refine ⟨_, hstep, rfl, rfl, ?_, ?_⟩
  · rw [← hq']
    exact put_queue _
  · exact (put_tx _).trans (Chan.tryRecv_got hchan).2.1

/-- A thread that is neither gone nor at work gives the crew a next step: it locks, or the holder of
the mutex receives what there is. -/
theorem idle_step (hm : Mutual c) {t : Thread α} (hw : c.threads[w]? = some t)
    (ht : t = .lock ∨ t = .recv) :
    (∃ v : ℕ, c.threads[v]? = some .recv) ∨
      (c.threads[w]? = some .lock ∧
        c.step (.lock w) = some { c.put w .recv with mutex := some w }) := by
  cases hmu : c.mutex with
  | some v => exact Or.inl ⟨v, (hm.holder v).mp hmu⟩
  | none =>
    rcases ht with rfl | rfl
    · exact Or.inr ⟨hw, by simp [Crew.step, hw, hmu, hm.clean]⟩
    · exact Or.inl ⟨w, hw⟩

/-- **While a thread is idle the oldest item can be taken**, by the thread that holds the mutex, or
else by that one. -/
theorem take_oldest (hm : Mutual c) {q : List α} (hq : c.chan.queue = x :: q) {t : Thread α}
    (hw : c.threads[w]? = some t) (ht : t = .lock ∨ t = .recv) :
    ∃ v m d, (m = c ∨ c.step (.lock v) = some m) ∧ m.step (.recv v) = some d ∧
      d.taken = c.taken ++ [(v, x)] ∧ d.chan.queue = q := by
  rcases idle_step hm hw ht with ⟨v, hv⟩ | ⟨hlock, hstep⟩
  · obtain ⟨d, hd, -, htaken, hq', -⟩ := recv_step hq hv
    exact ⟨v, c, d, Or.inl rfl, hd, htaken, hq'⟩
  · obtain ⟨d, hd, -, htaken, hq', -⟩ := recv_step
      (c := { c.put w .recv with mutex := some w }) (w := w) (by rw [← hq]; exact put_queue _)
      ((getElem_put hlock).trans (if_pos rfl))
    exact ⟨w, _, d, Or.inr hstep, hd, htaken, hq'⟩

end MediaApi.Lib.Threads
