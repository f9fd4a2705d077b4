import Turbolib.Library.Ledger
import Turbolib.Library.Count
import Mathlib.Data.List.Count

/-!
# Starting and stopping a thread pool

`thread_pool.h` from the side of the thread that calls `start` and `stop`, in any order and as
often as it likes. `stop` leaves a negative number in `_running`, and `start` does not set it
back: the threads that are started behind it count up to `-1` and leave.

`_notifyWork.wait()` may return at any time here, as a condition variable may, so that signals
and notifications of `_notifyWork` have no part in the model.

## Main definitions

* `OwnedPool.start`, `OwnedPool.stop`, `OwnedPool.go` — the steps of `start` and `stop`.
* `OwnedPool.work` — the next step of a worker.
* `OwnedPool.Orderly` — how the pool is meant to be started and stopped.
-/

namespace Turbolib

/-- Where a worker stands in `run`. -/
inductive Hand (Task : Type) where
  /-- before `++_running` -/
  | starting
  /-- before `_notifyRunning.signal_all()` -/
  | signalling
  /-- at `while (_running > 0)` -/
  | testing
  /-- in `_notifyWork.wait()` -/
  | waiting
  /-- at `if (_running <= 0) break` -/
  | checking
  /-- at `while (_queue.try_dequeue(fun))` -/
  | dequeuing
  /-- at `if (_running <= 0) break`, with a task -/
  | holding (task : Task)
  /-- at `fun()` -/
  | calling (task : Task)
  /-- returned from `run` -/
  | exited
  deriving DecidableEq, Repr

namespace Hand

variable {Task : Type}

def isExited : Hand Task → Bool
  | .exited => true
  | _ => false

/-- The worker has counted itself. -/
def isCounted : Hand Task → Bool
  | .starting => false
  | _ => true

/-- The worker is not inside the loop of `run`. -/
def isOutside : Hand Task → Bool
  | .starting | .signalling | .testing | .exited => true
  | .waiting | .checking | .dequeuing | .holding _ | .calling _ => false

end Hand

/-- Where the thread stands that calls `start` and `stop`. -/
inductive PoolOwner where
  /-- in neither -/
  | idle
  /-- in `start`, with `i` threads created -/
  | creating (i : ℕ)
  /-- in `start`, before `_notifyRunning.wait_for(10000)` -/
  | entering
  /-- blocked in it -/
  | blocked
  /-- before `return _running == _numThreads` -/
  | comparing
  /-- in `stop`, behind the store to `_running` -/
  | joining
  deriving DecidableEq, Repr

/-- What the owner of the pool and its users see. -/
inductive PoolEvent (Task : Type) where
  /-- `start` returned -/
  | started (ok : Bool)
  /-- `stop` returned -/
  | stopped
  /-- `fun()` was called -/
  | called (task : Task)
  deriving DecidableEq, Repr

structure OwnedPool (Task : Type) (numThreads : BitVec 32) where
  running : BitVec 32
  /-- `_threads`, in the order in which they were created -/
  threads : List (Hand Task)
  /-- the flag of `_notifyRunning` -/
  flag : Bool
  queue : List Task
  owner : PoolOwner

namespace OwnedPool

variable {Task : Type} {numThreads : BitVec 32}

def fresh : OwnedPool Task numThreads where
  running := 0
  threads := []
  flag := false
  queue := []
  owner := .idle

/-- `_running > 0`, of an `int`. -/
def isRunning (s : OwnedPool Task numThreads) : Bool := 0 < s.running.toInt

def setThread (s : OwnedPool Task numThreads) (w : ℕ) (hand : Hand Task) :
    OwnedPool Task numThreads :=
  { s with threads := s.threads.set w hand }

/-- The test at the beginning of `start`. -/
def start (s : OwnedPool Task numThreads) : Option (OwnedPool Task numThreads) :=
  match s.owner with
  | .idle => some { s with owner := if s.isRunning then .idle else .creating 0 }
  | _ => none

/-- The store at the beginning of `stop`. -/
def stop (s : OwnedPool Task numThreads) : Option (OwnedPool Task numThreads) :=
  match s.owner with
  | .idle => some { s with running := -1 - numThreads, owner := .joining }
  | _ => none

/-- The next step of `start` or of `stop`. -/
def go (s : OwnedPool Task numThreads) : Option (OwnedPool Task numThreads) :=
  match s.owner with
  | .creating i =>
    if i < numThreads.toNat then
      some { s with threads := s.threads ++ [.starting], owner := .creating (i + 1) }
    else some { s with owner := .entering }
  | .entering =>
    if s.flag then some { s with flag := false, owner := .comparing }
    else some { s with owner := .blocked }
  | .comparing => some { s with owner := .idle }
  | .joining =>
    if s.threads.all Hand.isExited then some { s with threads := [], owner := .idle } else none
  | .idle | .blocked => none

/-- The ten seconds are over, or the wait ends without a reason. -/
def giveUp (s : OwnedPool Task numThreads) : Option (OwnedPool Task numThreads) :=
  match s.owner with
  | .blocked => some { s with owner := .comparing }
  | _ => none

/-- `notify_all` ends the wait of the owner. -/
def wake : PoolOwner → PoolOwner
  | .blocked => .comparing
  | owner => owner

/-- `_notifyRunning.signal_all()`. -/
def signal (s : OwnedPool Task numThreads) : OwnedPool Task numThreads :=
  { s with flag := true, owner := wake s.owner }

/-- The next step of the worker at `w`. The queue hands out the element at `i`. -/
def work (s : OwnedPool Task numThreads) (w i : ℕ) : Option (OwnedPool Task numThreads) := do
  match ← s.threads[w]? with
  | .starting =>
    let running := s.running + 1
    return { s.setThread w (if running = numThreads then .signalling else .testing) with
      running := running }
  | .signalling => return (s.setThread w .testing).signal
  | .testing => return s.setThread w (if s.isRunning then .waiting else .exited)
  | .waiting => return s.setThread w .checking
  | .checking => return s.setThread w (if s.isRunning then .dequeuing else .exited)
  | .dequeuing =>
    if s.queue = [] then return s.setThread w .testing
    else
      let task ← s.queue[i]?
      return { s.setThread w (.holding task) with queue := s.queue.eraseIdx i }
  -- the task is dropped where the pool has been stopped
  | .holding task => return s.setThread w (if s.isRunning then .calling task else .testing)
  | .calling _ => return s.setThread w .dequeuing
  | .exited => none

/-- One step of somebody. -/
inductive Action (Task : Type) where
  | start
  | stop
  | go
  | giveUp
  | work (w i : ℕ)
  | execute (task : Task)
  deriving DecidableEq, Repr

def step (s : OwnedPool Task numThreads) : Action Task → Option (OwnedPool Task numThreads)
  | .start => s.start
  | .stop => s.stop
  | .go => s.go
  | .giveUp => s.giveUp
  | .work w i => s.work w i
  | .execute task => some { s with queue := s.queue ++ [task] }

/-- What is seen of a step. -/
def sees (s : OwnedPool Task numThreads) : Action Task → List (PoolEvent Task)
  | .start => if s.isRunning then [.started true] else []
  | .go =>
    match s.owner with
    | .comparing => [.started (s.running = numThreads)]
    | .joining => [.stopped]
    | _ => []
  | .work w _ =>
    match s.threads[w]? with
    | some (.calling task) => [.called task]
    | _ => []
  | _ => []

/-! ## What one step does -/

variable {s s' : OwnedPool Task numThreads}

/-- How many of the threads have counted themselves. -/
def counted (s : OwnedPool Task numThreads) : ℕ := s.threads.countP Hand.isCounted

theorem counted_le (s : OwnedPool Task numThreads) : s.counted ≤ s.threads.length :=
  List.countP_le_length

/-- One case for each thing a worker does to what the owner looks at. -/
inductive Worked (s : OwnedPool Task numThreads) (w : ℕ) : OwnedPool Task numThreads → Prop
  | count (hw : s.threads[w]? = some .starting) :
      Worked s w { s.setThread w (if s.running + 1 = numThreads then .signalling else .testing) with
        running := s.running + 1 }
  | signal (hw : s.threads[w]? = some .signalling) : Worked s w (s.setThread w .testing).signal
  | move (old new : Hand Task) (queue : List Task) (hw : s.threads[w]? = some old)
      (hold : old.isCounted = true) (hnew : new.isCounted = true) (hne : new ≠ .signalling) :
      Worked s w { s.setThread w new with queue := queue }

theorem worked_of_work {w i : ℕ} (h : s.work w i = some s') : Worked s w s' := by
  obtain ⟨hand, hw, h⟩ := Option.bind_eq_some_iff.mp h
  cases hand with
  | starting => exact Option.some.inj h ▸ .count hw
  | signalling => exact Option.some.inj h ▸ .signal hw
  | testing | checking | holding task =>
    obtain rfl := Option.some.inj h
    exact .move _ _ s.queue hw rfl (by split_ifs <;> rfl) (by split_ifs <;> nofun)
  | waiting | calling task =>
    obtain rfl := Option.some.inj h
    exact .move _ _ s.queue hw rfl rfl nofun
  | dequeuing =>
    by_cases hqueue : s.queue = []
    · simp only [hqueue, if_true] at h
      obtain rfl := Option.some.inj h
      exact .move _ _ s.queue hw rfl rfl nofun
    · simp only [hqueue, if_false] at h
      obtain ⟨task, htask, h⟩ := Option.bind_eq_some_iff.mp h
      obtain rfl := Option.some.inj h
      exact .move _ _ _ hw rfl rfl nofun
  | exited => cases h

/-- One case for each step of `start` and of `stop` behind their first. -/
inductive Gone (s : OwnedPool Task numThreads) : OwnedPool Task numThreads → Prop
  | create (i : ℕ) (hpc : s.owner = .creating i) (hi : i < numThreads.toNat) :
      Gone s { s with threads := s.threads ++ [.starting], owner := .creating (i + 1) }
  | created (i : ℕ) (hpc : s.owner = .creating i) (hi : numThreads.toNat ≤ i) :
      Gone s { s with owner := .entering }
  | flagged (hpc : s.owner = .entering) (hflag : s.flag = true) :
      Gone s { s with flag := false, owner := .comparing }
  | block (hpc : s.owner = .entering) (hflag : s.flag = false) : Gone s { s with owner := .blocked }
  | compare (hpc : s.owner = .comparing) : Gone s { s with owner := .idle }
  | join (hpc : s.owner = .joining) : Gone s { s with threads := [], owner := .idle }

theorem gone_of_go (h : s.go = some s') : Gone s s' := by
  rw [go] at h
  split at h
  case h_1 i hpc =>
    split_ifs at h with hi
    · exact Option.some.inj h ▸ .create i hpc hi
    · exact Option.some.inj h ▸ .created i hpc (Nat.not_lt.mp hi)
  case h_2 hpc =>
    split_ifs at h with hflag
    · exact Option.some.inj h ▸ .flagged hpc hflag
    · exact Option.some.inj h ▸ .block hpc (Bool.eq_false_iff.mpr hflag)
  case h_3 hpc => exact Option.some.inj h ▸ .compare hpc
  case h_4 hpc =>
    split_ifs at h
    exact Option.some.inj h ▸ .join hpc
  all_goals cases h

/-- One case for each thing that is seen. -/
inductive Seen (s : OwnedPool Task numThreads) : Action Task → PoolEvent Task → Prop
  | running (hrunning : s.isRunning = true) : Seen s .start (.started true)
  | compared (hpc : s.owner = .comparing) : Seen s .go (.started (s.running = numThreads))
  | joined (hpc : s.owner = .joining) : Seen s .go .stopped
  | called (w i : ℕ) (task : Task) (hw : s.threads[w]? = some (.calling task)) :
      Seen s (.work w i) (.called task)

theorem seen_of_mem {a : Action Task} {event : PoolEvent Task} (hmem : event ∈ s.sees a) :
    Seen s a event := by
  cases a with
  | start =>
    simp only [OwnedPool.sees] at hmem
    split_ifs at hmem with hrunning
    · exact List.mem_singleton.mp hmem ▸ .running hrunning
    · cases hmem
  | go =>
    simp only [OwnedPool.sees] at hmem
    split at hmem
    case h_1 hpc => exact List.mem_singleton.mp hmem ▸ .compared hpc
    case h_2 hpc => exact List.mem_singleton.mp hmem ▸ .joined hpc
    case h_3 => cases hmem
  | work w i =>
    simp only [OwnedPool.sees] at hmem
    split at hmem
    case h_1 task hw => exact List.mem_singleton.mp hmem ▸ .called w i task hw
    case h_2 => cases hmem
  | stop | giveUp | execute task => cases hmem

theorem start_cases (h : s.start = some s') : s.owner = .idle ∧
    s' = { s with owner := if s.isRunning then .idle else .creating 0 } := by
  rw [start] at h
  split at h
  case h_1 hpc => exact ⟨hpc, (Option.some.inj h).symm⟩
  case h_2 => cases h

theorem stop_cases (h : s.stop = some s') : s.owner = .idle ∧
    s' = { s with running := -1 - numThreads, owner := .joining } := by
  rw [stop] at h
  split at h
  case h_1 hpc => exact ⟨hpc, (Option.some.inj h).symm⟩
  case h_2 => cases h

theorem giveUp_cases (h : s.giveUp = some s') : s.owner = .blocked ∧
    s' = { s with owner := .comparing } := by
  rw [giveUp] at h
  split at h
  case h_1 hpc => exact ⟨hpc, (Option.some.inj h).symm⟩
  case h_2 => cases h

theorem eq_of_wake_eq {owner owner' : PoolOwner} (hwake : wake owner = owner')
    (hne : owner' ≠ .comparing) : owner = owner' := by
  cases owner with
  | blocked => exact absurd hwake.symm hne
  | _ => exact hwake

/-- The owner comes to the joins in `stop` only. -/
theorem joining_cases {a : Action Task} (hstep : OwnedPool.step s a = some s')
    (hpc : s'.owner = .joining) : a = .stop ∨ s.owner = .joining := by
  cases a with
  | start =>
    obtain ⟨-, rfl⟩ := start_cases hstep
    by_cases hrunning : s.isRunning = true <;> simp [hrunning] at hpc
  | stop => exact .inl rfl
  | go => cases gone_of_go hstep <;> cases hpc
  | giveUp =>
    obtain ⟨-, rfl⟩ := giveUp_cases hstep
    cases hpc
  | work w i =>
    cases worked_of_work hstep with
    | signal hw => exact .inr (eq_of_wake_eq hpc nofun)
    | count hw | move old new queue hw hold hnew hne => exact .inr hpc
  | execute task =>
    obtain rfl := Option.some.inj hstep
    exact .inr hpc

theorem threads_of_joining (hpc : s.owner = .joining) (hstep : s.go = some s') :
    s'.threads = [] := by
  cases gone_of_go hstep with
  | join => rfl
  | create i hother | created i hother | flagged hother | block hother | compare hother =>
    cases hpc.symm.trans hother

/-! ### The threads that have counted themselves -/

theorem ofNat_succ (n : ℕ) : BitVec.ofNat 32 n + 1 = BitVec.ofNat 32 (n + 1) :=
  (BitVec.ofNat_add n 1).symm

section

variable {w : ℕ} {old new : Hand Task}

theorem counted_move (new : Hand Task) (hw : s.threads[w]? = some old) (hold : old.isCounted = true)
    (hnew : new.isCounted = true) : (s.setThread w new).counted = s.counted := by
  have hset := countP_set hw Hand.isCounted new
  rw [hold, hnew] at hset
  exact Nat.add_right_cancel hset

theorem counted_count (new : Hand Task) (hw : s.threads[w]? = some .starting)
    (hnew : new.isCounted = true) : (s.setThread w new).counted = s.counted + 1 := by
  have hset := countP_set hw Hand.isCounted new
  rw [hnew] at hset
  simpa [Hand.isCounted, counted, setThread] using hset

theorem counted_lt (hw : s.threads[w]? = some .starting) : s.counted < s.threads.length := by
  have hmore := counted_count .testing hw rfl
  have hle := (s.setThread w (.testing : Hand Task)).counted_le
  rw [hmore, setThread, List.length_set] at hle
  exact hle

theorem mem_of_mem_setThread {hand : Hand Task} (hne : new ≠ hand)
    (hmem : hand ∈ (s.setThread w new).threads) : hand ∈ s.threads :=
  (List.mem_or_eq_of_mem_set hmem).resolve_right fun heq => hne heq.symm

end

/-! ## The first start -/

/-- All threads are there and have counted themselves. -/
def Full (s : OwnedPool Task numThreads) : Prop :=
  s.counted = numThreads.toNat ∧ 0 < numThreads.toNat

/-- `stop` is not called, and `wait_for` is not over before it is signalled. -/
def Patient (_ : Recorded (OwnedPool Task numThreads) (PoolEvent Task)) (a : Action Task) : Prop :=
  a ≠ .stop ∧ a ≠ .giveUp

/-- What holds in a patient run. -/
structure Rising (s : OwnedPool Task numThreads) : Prop where
  running : s.running = BitVec.ofNat 32 s.counted
  bound : s.threads.length ≤ numThreads.toNat
  idle : s.owner = .idle → (s.threads = [] ∧ s.flag = false) ∨ s.Full
  creating : ∀ i, s.owner = .creating i → s.threads.length = i
  comparing : s.owner = .comparing → s.Full
  joining : s.owner ≠ .joining
  flagged : s.flag = true → s.Full
  signalling : .signalling ∈ s.threads → s.Full

theorem fresh_rising : (fresh : OwnedPool Task numThreads).Rising := by
  constructor <;> simp [fresh, counted]

/-- Where all threads have counted themselves the pool runs. -/
theorem Rising.running_eq (h : s.Rising) (hfull : s.Full) : s.running = numThreads := by
  rw [h.running, hfull.1, BitVec.ofNat_toNat, BitVec.setWidth_eq]

theorem Rising.isRunning (hnum : numThreads.toNat < 2 ^ 31) (h : s.Rising) (hfull : s.Full) :
    s.isRunning = true := by
  have hpos := hfull.2
  rw [OwnedPool.isRunning, h.running_eq hfull, BitVec.toInt_eq_toNat_of_lt (by omega)]
  simpa using hpos

theorem Rising.count {w : ℕ} (hnum : numThreads.toNat < 2 ^ 31) (h : s.Rising)
    (hw : s.threads[w]? = some .starting) :
    ({ s.setThread w (if s.running + 1 = numThreads then .signalling else .testing) with
      running := s.running + 1 } : OwnedPool Task numThreads).Rising := by
  have hlt := counted_lt hw
  have hbound := h.bound
  have hnot : ¬s.Full := fun hfull => by
    have := hfull.1
    omega
  have hnone : s.threads ≠ [] := by
    rintro hnil
    simp [hnil] at hw
  have hmore := counted_count (if s.running + 1 = numThreads then .signalling else .testing) hw
    (by split_ifs <;> rfl)
  constructor
  case running =>
    exact (congrArg (· + 1) h.running).trans
      ((ofNat_succ _).trans (congrArg (BitVec.ofNat 32) hmore.symm))
  case bound => simpa [setThread] using hbound
  case idle => exact fun hidle => absurd (h.idle hidle) (by simp [hnone, hnot])
  case creating => simpa [setThread] using h.creating
  case comparing => exact fun hcomparing => absurd (h.comparing hcomparing) hnot
  case joining => exact h.joining
  case flagged => exact fun hflag => absurd (h.flagged hflag) hnot
  case signalling =>
    intro hmem
    by_cases hlast : s.running + 1 = numThreads
    · -- the last one to count itself
      have hcount := congrArg BitVec.toNat ((congrArg (· + 1) h.running).symm.trans hlast)
      simp only [ofNat_succ, BitVec.toNat_ofNat] at hcount
      rw [Nat.mod_eq_of_lt (by omega)] at hcount
      exact ⟨hmore.trans hcount, by omega⟩
    · exact absurd (h.signalling (mem_of_mem_setThread (by rw [if_neg hlast]; nofun) hmem)) hnot

theorem Rising.signal {w : ℕ} (h : s.Rising) (hw : s.threads[w]? = some .signalling) :
    (s.setThread w .testing).signal.Rising := by
  have hfull := h.signalling (List.mem_of_getElem? hw)
  have hcount := counted_move .testing hw rfl rfl
  have hfull' : (s.setThread w .testing).signal.Full := ⟨hcount.trans hfull.1, hfull.2⟩
  constructor
  case running => exact h.running.trans (congrArg (BitVec.ofNat 32) hcount.symm)
  case bound => simpa [setThread, OwnedPool.signal] using h.bound
  case idle => exact fun _ => .inr hfull'
  case creating =>
    intro i hpc
    simpa [setThread, OwnedPool.signal] using h.creating i (eq_of_wake_eq hpc nofun)
  case comparing => exact fun _ => hfull'
  case joining => exact fun hpc => h.joining (eq_of_wake_eq hpc nofun)
  case flagged => exact fun _ => hfull'
  case signalling => exact fun _ => hfull'

theorem Rising.move {w : ℕ} {old new : Hand Task} (h : s.Rising) (hw : s.threads[w]? = some old)
    (hold : old.isCounted = true) (hnew : new.isCounted = true) (hne : new ≠ .signalling)
    (queue : List Task) :
    ({ s.setThread w new with queue := queue } : OwnedPool Task numThreads).Rising := by
  have hcount := counted_move new hw hold hnew
  have hfull : s.Full →
      ({ s.setThread w new with queue := queue } : OwnedPool Task numThreads).Full :=
    fun hfull => ⟨hcount.trans hfull.1, hfull.2⟩
  constructor
  case running => exact h.running.trans (congrArg (BitVec.ofNat 32) hcount.symm)
  case bound => simpa [setThread] using h.bound
  case idle =>
    intro hidle
    refine (h.idle hidle).imp (fun hnone => ?_) hfull
    simpa [setThread] using hnone
  case creating => simpa [setThread] using h.creating
  case comparing => exact fun hcomparing => hfull (h.comparing hcomparing)
  case joining => exact h.joining
  case flagged => exact fun hflag => hfull (h.flagged hflag)
  case signalling => exact fun hmem => hfull (h.signalling (mem_of_mem_setThread hne hmem))

theorem Rising.go (h : s.Rising) (hstep : Gone s s') : s'.Rising := by
  obtain ⟨running, bound, idle, creating, comparing, joining, flagged, signalling⟩ := h
  cases hstep with
  | create i hpc hi =>
    have hlen := creating i hpc
    have hcount : (s.threads ++ [Hand.starting]).countP Hand.isCounted = s.counted := by
      simp [counted, Hand.isCounted]
    have hfull : ∀ owner, s.Full → ({ s with
        threads := s.threads ++ [.starting], owner := owner } : OwnedPool Task numThreads).Full :=
      fun _ hfull => ⟨hcount.trans hfull.1, hfull.2⟩
    refine ⟨running.trans (congrArg _ hcount.symm), ?_, nofun, fun j hj => ?_, nofun, nofun,
      fun hflag => hfull _ (flagged hflag), fun hmem => hfull _ (signalling ?_)⟩
    · simp only [List.length_append, List.length_singleton]
      omega
    · obtain rfl : i + 1 = j := by simpa using hj
      simp [hlen]
    · simpa using hmem
  | created i hpc hi =>
    exact ⟨running, bound, nofun, nofun, nofun, nofun, flagged, signalling⟩
  | flagged hpc hflag =>
    exact ⟨running, bound, nofun, nofun, fun _ => flagged hflag, nofun, nofun, signalling⟩
  | block hpc hflag => exact ⟨running, bound, nofun, nofun, nofun, nofun, flagged, signalling⟩
  | compare hpc =>
    exact ⟨running, bound, fun _ => .inr (comparing hpc), nofun, nofun, nofun, flagged, signalling⟩
  | join hpc => exact absurd hpc joining

/-- `start` returns at once where all threads are there, and goes on where there are none. -/
theorem Rising.start (hnum : numThreads.toNat < 2 ^ 31) (h : s.Rising) (hpc : s.owner = .idle) :
    ({ s with owner := if s.isRunning then .idle else .creating 0 } :
      OwnedPool Task numThreads).Rising ∧ (s.isRunning = true → s.Full) := by
  have hisRunning := h.isRunning hnum
  obtain ⟨running, bound, idle, creating, comparing, joining, flagged, signalling⟩ := h
  obtain ⟨hnone, hflag⟩ | hfull := idle hpc
  · have hzero : s.isRunning = false := by
      simp [OwnedPool.isRunning, running, counted, hnone]
    rw [hzero]
    refine ⟨⟨running, bound, nofun, fun i hi => ?_, nofun, nofun, flagged, signalling⟩, nofun⟩
    obtain rfl : 0 = i := by simpa using hi
    simp [hnone]
  · rw [hisRunning hfull]
    exact ⟨⟨running, bound, fun _ => .inr hfull, nofun, nofun, nofun, flagged, signalling⟩,
      fun _ => hfull⟩

theorem Rising.step (hnum : numThreads.toNat < 2 ^ 31) (h : s.Rising) {a : Action Task}
    (hpatient : a ≠ .stop ∧ a ≠ .giveUp) (hstep : OwnedPool.step s a = some s') : s'.Rising := by
  cases a with
  | start =>
    obtain ⟨hpc, rfl⟩ := start_cases hstep
    exact (h.start hnum hpc).1
  | stop => exact absurd rfl hpatient.1
  | go => exact h.go (gone_of_go hstep)
  | giveUp => exact absurd rfl hpatient.2
  | work w i =>
    cases worked_of_work hstep with
    | count hw => exact h.count hnum hw
    | signal hw => exact h.signal hw
    | move old new queue hw hold hnew hne => exact h.move hw hold hnew hne queue
  | execute task =>
    obtain rfl := Option.some.inj hstep
    obtain ⟨running, bound, idle, creating, comparing, joining, flagged, signalling⟩ := h
    exact ⟨running, bound, idle, creating, comparing, joining, flagged, signalling⟩

/-- No thread is to be counted, or created, any more. -/
theorem Rising.full (h : s.Rising) {a : Action Task} (hpatient : a ≠ .stop ∧ a ≠ .giveUp)
    (hstep : OwnedPool.step s a = some s') (hfull : s.Full) : s'.Full := by
  have hcount : ∀ t : OwnedPool Task numThreads, t.counted = s.counted → t.Full :=
    fun t ht => ⟨ht.trans hfull.1, hfull.2⟩
  have hall := hfull.1
  have hbound := h.bound
  have hle := s.counted_le
  cases a with
  | start =>
    obtain ⟨-, rfl⟩ := start_cases hstep
    exact hcount _ rfl
  | stop => exact absurd rfl hpatient.1
  | go =>
    cases gone_of_go hstep with
    | create i hpc hi =>
      have := h.creating i hpc
      omega
    | join hpc => exact absurd hpc h.joining
    | _ => exact hcount _ rfl
  | giveUp => exact absurd rfl hpatient.2
  | work w i =>
    cases worked_of_work hstep with
    | count hw =>
      have := counted_lt hw
      omega
    | signal hw => exact hcount _ (counted_move .testing hw rfl rfl)
    | move old new queue hw hold hnew => exact hcount _ (counted_move new hw hold hnew)
  | execute task =>
    obtain rfl := Option.some.inj hstep
    exact hcount _ rfl

/-- What a step of a patient run is seen to do. -/
theorem Rising.sees (hnum : numThreads.toNat < 2 ^ 31) (h : s.Rising) {a : Action Task}
    (hstep : OwnedPool.step s a = some s') {ok : Bool} (hmem : .started ok ∈ s.sees a) :
    ok = true ∧ s.Full := by
  cases seen_of_mem hmem with
  | running hrunning =>
    obtain ⟨hpc, -⟩ := start_cases hstep
    exact ⟨rfl, (h.start hnum hpc).2 hrunning⟩
  | compared hpc =>
    have hfull := h.comparing hpc
    exact ⟨decide_eq_true (h.running_eq hfull), hfull⟩

/-- What `start` returned in a patient run. -/
structure Started (s : Recorded (OwnedPool Task numThreads) (PoolEvent Task)) : Prop where
  rising : s.state.Rising
  notFalse : PoolEvent.started false ∉ s.log
  full : .started true ∈ s.log → s.state.Full

/-- As long as `stop` is not called and no wait for the threads is over before they have come
up, every `start` returns true, and all threads have come up when the first one does. -/
theorem started_of_patient (hnum : numThreads.toNat < 2 ^ 31)
    (s : Recorded (OwnedPool Task numThreads) (PoolEvent Task))
    (hrun : Reaches (recorded step sees) Patient ⟨fresh, []⟩ s) :
    .started false ∉ s.log ∧
      (.started true ∈ s.log → s.state.threads.countP Hand.isCounted = numThreads.toNat) := by
  have h : Started s := by
    refine hrun.invariant ⟨fresh_rising, by simp, by simp⟩ fun s a s' h hpatient hstep => ?_
    obtain ⟨hfirst, hlog⟩ := recorded_eq_some_iff.mp hstep
    refine ⟨h.rising.step hnum hpatient hfirst, fun hmem => ?_, fun hmem => ?_⟩
    · rw [hlog, List.mem_append] at hmem
      obtain hold | hnew := hmem
      · exact h.notFalse hold
      · cases (h.rising.sees hnum hfirst hnew).1
    · rw [hlog, List.mem_append] at hmem
      have hfull : s.state.Full := hmem.elim h.full fun hnew => (h.rising.sees hnum hfirst hnew).2
      exact h.rising.full hpatient hfirst hfull
  exact ⟨h.notFalse, fun hmem => (h.full hmem).1⟩

instance decidablePatient (s : Recorded (OwnedPool ℕ numThreads) (PoolEvent ℕ))
    (a : Action ℕ) : Decidable (Patient s a) := inferInstanceAs (Decidable (_ ∧ _))

/-- Two threads, the second of which ends the wait. -/
theorem started_of_patient_two :
    ∃ s : Recorded (OwnedPool ℕ 2) (PoolEvent ℕ), s.log = [.started true] ∧
      s.state.threads.countP Hand.isCounted = 2 := by
  obtain ⟨s, hrun, hlog⟩ : ∃ s : Recorded (OwnedPool ℕ 2) (PoolEvent ℕ),
      Reaches (recorded step sees) Patient ⟨fresh, []⟩ s ∧ s.log = [.started true] :=
    exists_reaches [.start, .go, .go, .go, .go, .work 0 0, .work 1 0, .work 1 0, .go] (by decide)
  exact ⟨s, hlog, (started_of_patient (by decide) s hrun).2 (by simp [hlog])⟩

/-! ## Starting again -/

/-- `start` is called for a pool that runs or has no threads, and `stop` when all threads have
counted themselves. -/
def Orderly (s : Recorded (OwnedPool Task numThreads) (PoolEvent Task)) : Action Task → Prop
  | .start => s.state.isRunning = true ∨ s.state.threads = []
  | .stop => ∀ hand ∈ s.state.threads, hand.isCounted = true
  | _ => True

/-- The threads that have counted themselves since the store in `stop`. -/
def countedAgain (s : OwnedPool Task numThreads) : ℕ :=
  if s.owner = .joining then 0 else s.counted

/-- What holds behind the store in `stop`. -/
structure Spent (s : OwnedPool Task numThreads) : Prop where
  running : s.running = -1 - numThreads + BitVec.ofNat 32 s.countedAgain
  joining : s.owner = .joining → ∀ hand ∈ s.threads, hand.isCounted = true
  bound : s.owner ≠ .joining → s.threads.length ≤ numThreads.toNat
  creating : ∀ i, s.owner = .creating i → s.threads.length = i

theorem countedAgain_of_ne (hpc : s.owner ≠ .joining) : s.countedAgain = s.counted := if_neg hpc

theorem Spent.countedAgain_le (h : s.Spent) : s.countedAgain ≤ numThreads.toNat := by
  rw [countedAgain]
  split_ifs with hpc
  · exact Nat.zero_le _
  · exact s.counted_le.trans (h.bound hpc)

/-- However many have counted themselves, `_running` is negative. -/
theorem Spent.toNat_running (hnum : numThreads.toNat < 2 ^ 31) (h : s.Spent) :
    2 ^ 31 ≤ s.running.toNat := by
  have hle := h.countedAgain_le
  have hone : (-1 : BitVec 32).toNat = 2 ^ 32 - 1 := by decide
  rw [h.running, BitVec.toNat_add, BitVec.toNat_sub, hone, BitVec.toNat_ofNat]
  omega

theorem Spent.isRunning (hnum : numThreads.toNat < 2 ^ 31) (h : s.Spent) : s.isRunning = false := by
  have hnat := h.toNat_running hnum
  have hlt := s.running.isLt
  rw [OwnedPool.isRunning, decide_eq_false_iff_not, BitVec.toInt_eq_toNat_cond]
  split_ifs <;> omega

theorem Spent.running_ne (hnum : numThreads.toNat < 2 ^ 31) (h : s.Spent) :
    s.running ≠ numThreads := by
  rintro heq
  have hnat := h.toNat_running hnum
  rw [heq] at hnat
  omega

theorem spent_of_stop (hcounted : ∀ hand ∈ s.threads, hand.isCounted = true) :
    ({ s with running := -1 - numThreads, owner := .joining } :
      OwnedPool Task numThreads).Spent :=
  ⟨by simp [countedAgain], fun _ => hcounted, nofun, nofun⟩

theorem Spent.go (h : s.Spent) (hstep : Gone s s') : s'.Spent := by
  obtain ⟨running, joining, bound, creating⟩ := h
  cases hstep with
  | create i hpc hi =>
    have hlen := creating i hpc
    have hcount : (s.threads ++ [Hand.starting]).countP Hand.isCounted = s.counted := by
      simp [counted, Hand.isCounted]
    refine ⟨?_, nofun, fun _ => ?_, fun j hj => ?_⟩
    · rw [countedAgain_of_ne (by simp [hpc])] at running
      exact running.trans (congrArg (-1 - numThreads + BitVec.ofNat 32 ·) hcount.symm)
    · simp only [List.length_append, List.length_singleton]
      omega
    · obtain rfl : i + 1 = j := by simpa using hj
      simp [hlen]
  | created i hpc hi | flagged hpc hflag | block hpc hflag | compare hpc =>
    have hne : s.owner ≠ .joining := by simp [hpc]
    refine ⟨?_, nofun, fun _ => bound hne, nofun⟩
    simpa [countedAgain, hpc, counted] using running
  | join hpc =>
    refine ⟨?_, nofun, fun _ => Nat.zero_le _, nofun⟩
    simpa [countedAgain, hpc, counted] using running

/-- A worker that has counted itself, by then at the latest. -/
theorem Spent.set {t : OwnedPool Task numThreads} {w : ℕ} (h : s.Spent) (new : Hand Task)
    (hnew : new.isCounted = true) (hthreads : t.threads = s.threads.set w new)
    (howner : t.owner = wake s.owner ∨ t.owner = s.owner)
    (hrunning : t.running = -1 - numThreads + BitVec.ofNat 32 t.countedAgain) : t.Spent := by
  have hback : t.owner ≠ .comparing → t.owner = s.owner := by
    intro hne
    obtain heq | heq := howner
    · exact (eq_of_wake_eq heq.symm hne).symm
    · exact heq
  refine ⟨hrunning, fun hpc hand hmem => ?_, fun hpc => ?_, fun i hpc => ?_⟩
  · rw [hthreads] at hmem
    obtain hold | rfl := List.mem_or_eq_of_mem_set hmem
    · exact h.joining ((hback (by simp [hpc])).symm.trans hpc) hand hold
    · exact hnew
  · rw [hthreads, List.length_set]
    refine h.bound fun hjoining => hpc ?_
    obtain heq | heq := howner
    · rw [heq, hjoining]
      rfl
    · exact heq.trans hjoining
  · rw [hthreads, List.length_set]
    exact h.creating i ((hback (by simp [hpc])).symm.trans hpc)

theorem Spent.work {w : ℕ} (h : s.Spent) (hstep : Worked s w s') : s'.Spent := by
  have hrunning := h.running
  cases hstep with
  | count hw =>
    have hpc : s.owner ≠ .joining := fun hpc => by
      cases h.joining hpc _ (List.mem_of_getElem? hw)
    have hnew : (if s.running + 1 = numThreads then .signalling else .testing :
        Hand Task).isCounted = true := by
      split_ifs <;> rfl
    have hmore := counted_count _ hw hnew
    refine h.set _ hnew rfl (.inr rfl) ?_
    rw [countedAgain_of_ne hpc] at hrunning
    rw [countedAgain_of_ne]
    · refine Eq.trans ?_ (congrArg (-1 - numThreads + BitVec.ofNat 32 ·) hmore.symm)
      calc s.running + 1
          = -1 - numThreads + (BitVec.ofNat 32 s.counted + 1) := by rw [hrunning, BitVec.add_assoc]
        _ = -1 - numThreads + BitVec.ofNat 32 (s.counted + 1) := by rw [ofNat_succ]
    · exact hpc
  | signal hw =>
    have hcount := counted_move .testing hw rfl rfl
    refine h.set .testing rfl rfl (.inl rfl) (hrunning.trans ?_)
    have hjoining : (s.setThread w .testing).signal.owner = .joining ↔ s.owner = .joining := by
      cases hpc : s.owner <;> simp [OwnedPool.signal, setThread, hpc, wake]
    simp only [countedAgain, hjoining]
    exact congrArg
      (fun c => -1 - numThreads + BitVec.ofNat 32 (if s.owner = .joining then 0 else c)) hcount.symm
  | move old new queue hw hold hnew hne =>
    have hcount := counted_move new hw hold hnew
    refine h.set _ hnew rfl (.inr rfl) (hrunning.trans ?_)
    exact congrArg
      (fun c => -1 - numThreads + BitVec.ofNat 32 (if s.owner = .joining then 0 else c)) hcount.symm

theorem Spent.step (hnum : numThreads.toNat < 2 ^ 31) (h : s.Spent) {a : Action Task}
    {log : List (PoolEvent Task)} (horderly : Orderly ⟨s, log⟩ a)
    (hstep : OwnedPool.step s a = some s') : s'.Spent := by
  cases a with
  | start =>
    obtain ⟨hpc, rfl⟩ := start_cases hstep
    have hrunning := h.isRunning hnum
    have hnone : s.threads = [] := horderly.resolve_left (by simp [hrunning])
    rw [hrunning]
    refine ⟨?_, nofun, fun _ => h.bound (by simp [hpc]), fun i hi => ?_⟩
    · simpa [countedAgain, hpc, counted] using h.running
    · obtain rfl : 0 = i := by simpa using hi
      simp [hnone]
  | stop =>
    obtain ⟨-, rfl⟩ := stop_cases hstep
    exact spent_of_stop horderly
  | go => exact h.go (gone_of_go hstep)
  | giveUp =>
    obtain ⟨hpc, rfl⟩ := giveUp_cases hstep
    refine ⟨?_, nofun, fun _ => h.bound (by simp [hpc]), nofun⟩
    simpa [countedAgain, hpc, counted] using h.running
  | work w i => exact h.work (worked_of_work hstep)
  | execute task =>
    obtain rfl := Option.some.inj hstep
    exact ⟨h.running, h.joining, h.bound, h.creating⟩

/-- Where no worker is inside the loop, none comes into it. -/
theorem Spent.outside (hnum : numThreads.toNat < 2 ^ 31) (h : s.Spent)
    (hout : ∀ hand ∈ s.threads, hand.isOutside = true) {a : Action Task}
    (hstep : OwnedPool.step s a = some s') : ∀ hand ∈ s'.threads, hand.isOutside = true := by
  cases a with
  | start =>
    obtain ⟨-, rfl⟩ := start_cases hstep
    exact hout
  | stop =>
    obtain ⟨-, rfl⟩ := stop_cases hstep
    exact hout
  | go =>
    cases gone_of_go hstep with
    | create i hpc hi => simpa [or_imp, forall_and, Hand.isOutside] using hout
    | join hpc => exact List.forall_mem_nil _
    | _ => exact hout
  | giveUp =>
    obtain ⟨-, rfl⟩ := giveUp_cases hstep
    exact hout
  | work w i =>
    obtain ⟨new, hthreads, hnew⟩ : ∃ new : Hand Task,
        s'.threads = s.threads.set w new ∧ new.isOutside = true := by
      obtain ⟨hand, hw, hnext⟩ := Option.bind_eq_some_iff.mp hstep
      have hhand := hout hand (List.mem_of_getElem? hw)
      cases hand with
      | starting =>
        obtain rfl := Option.some.inj hnext
        exact ⟨_, rfl, by split_ifs <;> rfl⟩
      | signalling =>
        obtain rfl := Option.some.inj hnext
        exact ⟨_, rfl, rfl⟩
      | testing =>
        obtain rfl := Option.some.inj hnext
        exact ⟨_, rfl, by rw [h.isRunning hnum]; rfl⟩
      | exited => cases hnext
      | waiting | checking | dequeuing | holding task | calling task => cases hhand
    intro hand hmem
    rw [hthreads] at hmem
    obtain hold | rfl := List.mem_or_eq_of_mem_set hmem
    · exact hout hand hold
    · exact hnew
  | execute task =>
    obtain rfl := Option.some.inj hstep
    exact hout

/-- What is seen behind the return of a `stop`. -/
def Quiet (event event' : PoolEvent Task) : Prop :=
  event = .stopped → event' = .stopped ∨ event' = .started false

theorem Spent.sees (hnum : numThreads.toNat < 2 ^ 31) (h : s.Spent)
    (hout : ∀ hand ∈ s.threads, hand.isOutside = true) {a : Action Task}
    {event : PoolEvent Task} (hmem : event ∈ s.sees a) :
    event = .stopped ∨ event = .started false := by
  cases seen_of_mem hmem with
  | running hrunning =>
    rw [h.isRunning hnum] at hrunning
    cases hrunning
  | compared hpc => exact .inr (congrArg _ (decide_eq_false (h.running_ne hnum)))
  | joined hpc => exact .inl rfl
  | called w i task hw => cases hout _ (List.mem_of_getElem? hw)

theorem joining_of_mem_sees {a : Action Task} (hmem : .stopped ∈ s.sees a) :
    a = .go ∧ s.owner = .joining := by
  cases seen_of_mem hmem with
  | joined hpc => exact ⟨rfl, hpc⟩

/-- No more than one thing is seen of a step. -/
theorem pairwise_sees (s : OwnedPool Task numThreads) (a : Action Task) :
    (s.sees a).Pairwise Quiet := by
  cases a with
  | start =>
    simp only [OwnedPool.sees]
    split_ifs
    · exact List.pairwise_singleton _ _
    · exact .nil
  | go =>
    simp only [OwnedPool.sees]
    split
    · exact List.pairwise_singleton _ _
    · exact List.pairwise_singleton _ _
    · exact .nil
  | work w i =>
    simp only [OwnedPool.sees]
    split
    · exact List.pairwise_singleton _ _
    · exact .nil
  | stop | giveUp | execute task => exact .nil

/-- What holds in an orderly run. -/
structure Halted (s : Recorded (OwnedPool Task numThreads) (PoolEvent Task)) : Prop where
  spent : s.state.owner = .joining ∨ .stopped ∈ s.log → s.state.Spent
  outside : .stopped ∈ s.log → ∀ hand ∈ s.state.threads, hand.isOutside = true
  quiet : s.log.Pairwise Quiet

theorem Halted.step (hnum : numThreads.toNat < 2 ^ 31)
    {s s' : Recorded (OwnedPool Task numThreads) (PoolEvent Task)} (h : Halted s)
    {a : Action Task} (horderly : Orderly s a) (hstep : OwnedPool.step s.state a = some s'.state)
    (hlog : s'.log = s.log ++ s.state.sees a) : Halted s' := by
  have hstopped : .stopped ∈ s'.log → .stopped ∈ s.log ∨ a = .go ∧ s.state.owner = .joining := by
    rw [hlog, List.mem_append]
    exact Or.imp_right joining_of_mem_sees
  refine ⟨fun hafter => ?_, fun hmem => ?_, ?_⟩
  · have hbefore : a = .stop ∨ s.state.owner = .joining ∨ .stopped ∈ s.log := by
      obtain hpc | hmem := hafter
      · exact (joining_cases hstep hpc).imp_right .inl
      · exact (hstopped hmem).elim (fun hold => .inr (.inr hold)) fun hnew => .inr (.inl hnew.2)
    obtain rfl | hbefore := hbefore
    · obtain ⟨-, hs'⟩ := stop_cases hstep
      rw [hs']
      exact spent_of_stop horderly
    · exact (h.spent hbefore).step hnum horderly hstep
  · obtain hold | ⟨rfl, hpc⟩ := hstopped hmem
    · exact (h.spent (.inr hold)).outside hnum (h.outside hold) hstep
    · rw [threads_of_joining hpc hstep]
      exact List.forall_mem_nil _
  · rw [hlog, List.pairwise_append]
    refine ⟨h.quiet, pairwise_sees _ a, fun event hevent event' hevent' hstop => ?_⟩
    rw [hstop] at hevent
    exact (h.spent (.inr hevent)).sees hnum (h.outside hevent) hevent'

/-- Once `stop` has returned no task is called any more, and no `start` returns true, however
often the pool is started and stopped again. -/
theorem quiet_of_orderly (hnum : numThreads.toNat < 2 ^ 31)
    (s : Recorded (OwnedPool Task numThreads) (PoolEvent Task))
    (hrun : Reaches (recorded step sees) Orderly ⟨fresh, []⟩ s) : s.log.Pairwise Quiet := by
  have h : Halted s := by
    refine hrun.invariant ⟨by simp [fresh], by simp, .nil⟩ fun s a s' h horderly hstep => ?_
    obtain ⟨hfirst, hlog⟩ := recorded_eq_some_iff.mp hstep
    exact h.step hnum horderly hfirst hlog
  exact h.quiet

instance decidableOrderly (s : Recorded (OwnedPool ℕ numThreads) (PoolEvent ℕ)) :
    (a : Action ℕ) → Decidable (Orderly s a)
  | .start => inferInstanceAs (Decidable (_ ∨ _))
  | .stop => inferInstanceAs (Decidable (∀ hand ∈ s.state.threads, _))
  | .go | .giveUp | .work _ _ | .execute _ => isTrue trivial

/-- A pool that runs a task, is stopped and started again. -/
theorem quiet_of_orderly_again :
    ∃ s : Recorded (OwnedPool ℕ 1) (PoolEvent ℕ),
      s.log = [.started true, .called 7, .stopped, .started false] ∧ s.log.Pairwise Quiet := by
  obtain ⟨s, hrun, hlog⟩ : ∃ s : Recorded (OwnedPool ℕ 1) (PoolEvent ℕ),
      Reaches (recorded step sees) Orderly ⟨fresh, []⟩ s ∧
        s.log = [.started true, .called 7, .stopped, .started false] :=
    exists_reaches [.start, .go, .go, .go, .work 0 0, .work 0 0, .go, .execute 7, .work 0 0,
      .work 0 0, .work 0 0, .work 0 0, .work 0 0, .stop, .work 0 0, .work 0 0, .work 0 0, .go,
      .start, .go, .go, .go, .work 0 0, .go] (by decide)
  exact ⟨s, hlog, quiet_of_orderly (by decide) s hrun⟩

/-- Where `start` is called a second time behind a `stop`, threads come to work again. -/
example : ∃ s : Recorded (OwnedPool ℕ 2) (PoolEvent ℕ),
    Reachable (recorded step sees) ⟨fresh, []⟩ s ∧ s.log = [.stopped, .started false, .called 7] :=
  exists_reaches [.stop, .go, .start, .go, .go, .go, .go, .work 0 0, .work 1 0, .giveUp, .go,
    .start, .go, .go, .work 2 0, .work 3 0, .execute 7, .work 3 0, .work 3 0, .work 3 0, .work 3 0,
    .work 3 0, .work 3 0] (by decide)

end OwnedPool

end Turbolib
