import Turbolib.Library.Transition
import Mathlib.Data.Fintype.Card
import Mathlib.Logic.Function.Basic

/-!
# The thread pool

The workers, producers and the stopping thread of `thread_pool.h` as a system that takes
one atomic step at a time, in any order. The monitor `_notifyWork` of `monitor.h` is part
of the state: its flag, its mutex and who is blocked in its `wait`.

## Main definitions

* `ThreadPool.work` — the next step of one worker, by where it stands in `run`.
* `ThreadPool.execute`, `ThreadPool.stop` — steps of a producer and of `stop`.
* `ThreadPool.step` — one step of the system.
-/

namespace Turbolib

/-- Where a worker stands in `run`, and in `wait` where `run` has called it. -/
inductive Worker (Task : Type) where
  /-- before `++_running` -/
  | starting
  /-- at `while (_running > 0)` -/
  | testing
  /-- in `wait`, before it has the mutex -/
  | entering
  /-- in `wait`, with the mutex, before it looks at the flag -/
  | inside
  /-- in `wait`, with the mutex, about to block in `_cv.wait` -/
  | blocking
  /-- blocked in `_cv.wait` -/
  | blocked
  /-- woken up, before it has the mutex back -/
  | woken
  /-- about to return from `wait` and to release the mutex -/
  | leaving
  /-- at `if (_running <= 0) break` -/
  | checking
  /-- at `while (_queue.try_dequeue(fun))` -/
  | dequeuing
  /-- at `if (_running <= 0) break`, with a task -/
  | holding (task : Task)
  /-- in `fun()` -/
  | working (task : Task)
  /-- returned from `run` -/
  | exited
  deriving DecidableEq, Repr

def Worker.isBlocked {Task : Type} : Worker Task → Bool
  | .blocked => true
  | _ => false

def Worker.isExited {Task : Type} : Worker Task → Bool
  | .exited => true
  | _ => false

/-- Where the thread that calls `stop` stands. -/
inductive Stopper where
  /-- before the store to `_running` -/
  | idle
  /-- in `signal_all`, before it has the mutex -/
  | locking
  /-- with the mutex, before `_flag = true` -/
  | setting
  /-- with the mutex, before `notify_all` -/
  | notifying
  /-- with the mutex, about to release it -/
  | unlocking
  /-- waiting for the workers to exit -/
  | joining
  | stopped
  deriving DecidableEq, Repr

/-- Who can hold the mutex of `_notifyWork`. -/
inductive Owner (n : ℕ) where
  | worker (w : Fin n)
  | stopper
  deriving DecidableEq, Repr

/-- A pool with `numThreads` workers. -/
structure ThreadPool (Task : Type) (numThreads : BitVec 32) where
  running : BitVec 32
  flag : Bool
  mutex : Option (Owner numThreads.toNat)
  workers : Fin numThreads.toNat → Worker Task
  queue : List Task
  /-- how many producers are between their `enqueue` and their `notify_one` -/
  producing : ℕ
  stopper : Stopper

namespace ThreadPool

variable {Task : Type} {numThreads : BitVec 32}

/-- A pool whose threads have been created and have not run yet. -/
def start : ThreadPool Task numThreads where
  running := 0
  flag := false
  mutex := none
  workers _ := .starting
  queue := []
  producing := 0
  stopper := .idle

/-- `_running > 0`, of an `int`. -/
def isRunning (s : ThreadPool Task numThreads) : Bool := 0 < s.running.toInt

def setWorker (s : ThreadPool Task numThreads) (w : Fin numThreads.toNat) (pc : Worker Task) :
    ThreadPool Task numThreads :=
  { s with workers := Function.update s.workers w pc }

section

variable (s : ThreadPool Task numThreads) (v w : Fin numThreads.toNat) (pc : Worker Task)

@[simp, grind =] theorem workers_setWorker :
    (s.setWorker w pc).workers v = if v = w then pc else s.workers v :=
  Function.update_apply ..

@[simp, grind =] theorem running_setWorker : (s.setWorker w pc).running = s.running := rfl
@[simp, grind =] theorem flag_setWorker : (s.setWorker w pc).flag = s.flag := rfl
@[simp, grind =] theorem mutex_setWorker : (s.setWorker w pc).mutex = s.mutex := rfl
@[simp, grind =] theorem queue_setWorker : (s.setWorker w pc).queue = s.queue := rfl
@[simp, grind =] theorem producing_setWorker : (s.setWorker w pc).producing = s.producing := rfl
@[simp, grind =] theorem stopper_setWorker : (s.setWorker w pc).stopper = s.stopper := rfl

end

/-- The next step of worker `w`. The queue hands out the element at `i`. -/
def work (s : ThreadPool Task numThreads) (w : Fin numThreads.toNat) (i : ℕ) :
    Option (ThreadPool Task numThreads) :=
  match s.workers w with
  | .starting => some { s.setWorker w .testing with running := s.running + 1 }
  | .testing => some (s.setWorker w (if s.isRunning then .entering else .exited))
  | .entering =>
    if s.mutex = none then some { s.setWorker w .inside with mutex := some (.worker w) } else none
  | .inside =>
    if s.flag then some { s.setWorker w .leaving with flag := false }
    else some (s.setWorker w .blocking)
  | .blocking => some { s.setWorker w .blocked with mutex := none }
  | .blocked => none
  | .woken =>
    if s.mutex = none then some { s.setWorker w .leaving with mutex := some (.worker w) } else none
  | .leaving => some { s.setWorker w .checking with mutex := none }
  | .checking => some (s.setWorker w (if s.isRunning then .dequeuing else .exited))
  | .dequeuing =>
    if s.queue = [] then some (s.setWorker w .testing)
    else do
      let task ← s.queue[i]?
      return { s.setWorker w (.holding task) with queue := s.queue.eraseIdx i }
  -- the task is dropped where the pool has been stopped
  | .holding task => some (s.setWorker w (if s.isRunning then .working task else .testing))
  | .working _ => some (s.setWorker w .dequeuing)
  | .exited => none

/-- The first step of `execute`, and of a `try_execute` that succeeds. -/
def enqueue (s : ThreadPool Task numThreads) (task : Task) : ThreadPool Task numThreads :=
  { s with queue := s.queue ++ [task], producing := s.producing + 1 }

/-- The second step: `notify_one` wakes one blocked worker up, or does nothing where there
is none. -/
def notifyOne (s : ThreadPool Task numThreads) (waiter : Option (Fin numThreads.toNat)) :
    Option (ThreadPool Task numThreads) :=
  if s.producing = 0 then none
  else match waiter with
    | some w =>
      if (s.workers w).isBlocked then
        some { s.setWorker w .woken with producing := s.producing - 1 }
      else none
    | none =>
      if ∀ w, (s.workers w).isBlocked = false then some { s with producing := s.producing - 1 }
      else none

/-- `notify_all` wakes every blocked worker up. -/
def notifyAll (s : ThreadPool Task numThreads) : ThreadPool Task numThreads :=
  { s with workers := fun w => if (s.workers w).isBlocked then .woken else s.workers w }

/-- The next step of `stop`. -/
def stop (s : ThreadPool Task numThreads) : Option (ThreadPool Task numThreads) :=
  match s.stopper with
  | .idle => some { s with running := -1 - numThreads, stopper := .locking }
  | .locking =>
    if s.mutex = none then some { s with mutex := some .stopper, stopper := .setting } else none
  | .setting => some { s with flag := true, stopper := .notifying }
  | .notifying => some { s.notifyAll with stopper := .unlocking }
  | .unlocking => some { s with mutex := none, stopper := .joining }
  | .joining => if ∀ w, (s.workers w).isExited then some { s with stopper := .stopped } else none
  | .stopped => none

/-- One step of somebody. -/
inductive Action (Task : Type) (n : ℕ) where
  | work (w : Fin n) (i : ℕ)
  | enqueue (task : Task)
  | notifyOne (waiter : Option (Fin n))
  | stop
  deriving DecidableEq, Repr

def step (s : ThreadPool Task numThreads) :
    Action Task numThreads.toNat → Option (ThreadPool Task numThreads)
  | .work w i => s.work w i
  | .enqueue task => some (s.enqueue task)
  | .notifyOne waiter => s.notifyOne waiter
  | .stop => s.stop

/-! ## What one step of a worker does -/

/-- One case for each step a worker can take. -/
inductive Worked (s : ThreadPool Task numThreads) (w : Fin numThreads.toNat) :
    ThreadPool Task numThreads → Prop
  | count (hpc : s.workers w = .starting) :
      Worked s w { s.setWorker w .testing with running := s.running + 1 }
  | enter (hpc : s.workers w = .testing) (hrun : s.isRunning = true) :
      Worked s w (s.setWorker w .entering)
  | lock (hpc : s.workers w = .entering) (hmutex : s.mutex = none) :
      Worked s w { s.setWorker w .inside with mutex := some (.worker w) }
  | flagged (hpc : s.workers w = .inside) (hflag : s.flag = true) :
      Worked s w { s.setWorker w .leaving with flag := false }
  | unflagged (hpc : s.workers w = .inside) (hflag : s.flag = false) :
      Worked s w (s.setWorker w .blocking)
  | block (hpc : s.workers w = .blocking) :
      Worked s w { s.setWorker w .blocked with mutex := none }
  | relock (hpc : s.workers w = .woken) (hmutex : s.mutex = none) :
      Worked s w { s.setWorker w .leaving with mutex := some (.worker w) }
  | unlock (hpc : s.workers w = .leaving) :
      Worked s w { s.setWorker w .checking with mutex := none }
  | look (hpc : s.workers w = .checking) (hrun : s.isRunning = true) :
      Worked s w (s.setWorker w .dequeuing)
  | exit (hpc : s.workers w = .testing ∨ s.workers w = .checking) (hrun : s.isRunning = false) :
      Worked s w (s.setWorker w .exited)
  | empty (hpc : s.workers w = .dequeuing) (hqueue : s.queue = []) :
      Worked s w (s.setWorker w .testing)
  | dequeue (hpc : s.workers w = .dequeuing) {i : ℕ} {task : Task}
      (htask : s.queue[i]? = some task) :
      Worked s w { s.setWorker w (.holding task) with queue := s.queue.eraseIdx i }
  | call {task : Task} (hpc : s.workers w = .holding task) (hrun : s.isRunning = true) :
      Worked s w (s.setWorker w (.working task))
  | drop {task : Task} (hpc : s.workers w = .holding task) (hrun : s.isRunning = false) :
      Worked s w (s.setWorker w .testing)
  | done {task : Task} (hpc : s.workers w = .working task) :
      Worked s w (s.setWorker w .dequeuing)

theorem work_cases {s s' : ThreadPool Task numThreads} {w : Fin numThreads.toNat} {i : ℕ}
    (h : s.work w i = some s') : Worked s w s' := by
  unfold work at h
  cases hpc : s.workers w with
  | starting =>
    simp only [hpc, Option.some.injEq] at h
    exact h ▸ .count hpc
  | testing =>
    cases hrun : s.isRunning with
    | true =>
      simp only [hpc, hrun, if_true, Option.some.injEq] at h
      exact h ▸ .enter hpc hrun
    | false =>
      simp only [hpc, hrun, Bool.false_eq_true, if_false, Option.some.injEq] at h
      exact h ▸ .exit (Or.inl hpc) hrun
  | entering =>
    simp only [hpc] at h
    split_ifs at h with hmutex
    exact Option.some.inj h ▸ .lock hpc hmutex
  | inside =>
    cases hflag : s.flag with
    | true =>
      simp only [hpc, hflag, if_true, Option.some.injEq] at h
      exact h ▸ .flagged hpc hflag
    | false =>
      simp only [hpc, hflag, Bool.false_eq_true, if_false, Option.some.injEq] at h
      exact h ▸ .unflagged hpc hflag
  | blocking =>
    simp only [hpc, Option.some.injEq] at h
    exact h ▸ .block hpc
  | blocked => simp [hpc] at h
  | woken =>
    simp only [hpc] at h
    split_ifs at h with hmutex
    exact Option.some.inj h ▸ .relock hpc hmutex
  | leaving =>
    simp only [hpc, Option.some.injEq] at h
    exact h ▸ .unlock hpc
  | checking =>
    cases hrun : s.isRunning with
    | true =>
      simp only [hpc, hrun, if_true, Option.some.injEq] at h
      exact h ▸ .look hpc hrun
    | false =>
      simp only [hpc, hrun, Bool.false_eq_true, if_false, Option.some.injEq] at h
      exact h ▸ .exit (Or.inr hpc) hrun
  | dequeuing =>
    simp only [hpc] at h
    split_ifs at h with hqueue
    · exact Option.some.inj h ▸ .empty hpc hqueue
    · obtain ⟨task, htask, hs'⟩ := Option.bind_eq_some_iff.mp h
      exact Option.some.inj hs' ▸ .dequeue hpc htask
  | holding task =>
    cases hrun : s.isRunning with
    | true =>
      simp only [hpc, hrun, if_true, Option.some.injEq] at h
      exact h ▸ .call hpc hrun
    | false =>
      simp only [hpc, hrun, Bool.false_eq_true, if_false, Option.some.injEq] at h
      exact h ▸ .drop hpc hrun
  | working task =>
    simp only [hpc, Option.some.injEq] at h
    exact h ▸ .done hpc
  | exited => simp [hpc] at h

theorem notifyOne_cases {s s' : ThreadPool Task numThreads}
    {waiter : Option (Fin numThreads.toNat)} (h : s.notifyOne waiter = some s') :
    (∃ w, (s.workers w).isBlocked = true ∧
        s' = { s.setWorker w .woken with producing := s.producing - 1 }) ∨
      ((∀ w, (s.workers w).isBlocked = false) ∧ s' = { s with producing := s.producing - 1 }) := by
  cases waiter with
  | some w =>
    simp only [notifyOne] at h
    split_ifs at h with hproducing hblocked
    exact Or.inl ⟨w, hblocked, (Option.some.inj h).symm⟩
  | none =>
    simp only [notifyOne] at h
    split_ifs at h with hproducing hnone
    exact Or.inr ⟨hnone, (Option.some.inj h).symm⟩

/-- One case for each step of `stop`. -/
inductive Stopping (s : ThreadPool Task numThreads) : ThreadPool Task numThreads → Prop
  | store (hpc : s.stopper = .idle) :
      Stopping s { s with running := -1 - numThreads, stopper := .locking }
  | lock (hpc : s.stopper = .locking) (hmutex : s.mutex = none) :
      Stopping s { s with mutex := some .stopper, stopper := .setting }
  | set (hpc : s.stopper = .setting) :
      Stopping s { s with flag := true, stopper := .notifying }
  | notify (hpc : s.stopper = .notifying) :
      Stopping s { s.notifyAll with stopper := .unlocking }
  | unlock (hpc : s.stopper = .unlocking) :
      Stopping s { s with mutex := none, stopper := .joining }
  | join (hpc : s.stopper = .joining) (hexited : ∀ w, (s.workers w).isExited = true) :
      Stopping s { s with stopper := .stopped }

theorem stop_cases {s s' : ThreadPool Task numThreads} (h : s.stop = some s') :
    Stopping s s' := by
  unfold stop at h
  cases hpc : s.stopper with
  | idle =>
    simp only [hpc, Option.some.injEq] at h
    exact h ▸ .store hpc
  | locking =>
    simp only [hpc] at h
    split_ifs at h with hmutex
    exact Option.some.inj h ▸ .lock hpc hmutex
  | setting =>
    simp only [hpc, Option.some.injEq] at h
    exact h ▸ .set hpc
  | notifying =>
    simp only [hpc, Option.some.injEq] at h
    exact h ▸ .notify hpc
  | unlocking =>
    simp only [hpc, Option.some.injEq] at h
    exact h ▸ .unlock hpc
  | joining =>
    simp only [hpc] at h
    split_ifs at h with hexited
    exact Option.some.inj h ▸ .join hpc hexited
  | stopped => simp [hpc] at h

end ThreadPool

end Turbolib
