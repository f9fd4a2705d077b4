import Turbolib.Concurrent.StrandedTask

/-!
# Stopping the pool

`signal_all` wakes every blocked worker up and leaves a flag for one that comes to the
monitor later. The flag serves a single worker: it is enough when at most one worker
stands between its test of `_running` and the monitor.

## Main definitions

* `ThreadPool.LeftBehind` — `signal_all` is over and a worker is blocked.
* `ThreadPool.Alone` — the condition under which that does not happen.
* `ThreadPool.Owned` — who has the mutex.
-/

namespace Turbolib

/-- Past the test of `_running` and not yet past the flag. -/
def Worker.isLate {Task : Type} : Worker Task → Bool
  | .entering | .inside => true
  | _ => false

def Worker.hasMutex {Task : Type} : Worker Task → Bool
  | .inside | .blocking | .leaving => true
  | _ => false

def Stopper.hasMutex : Stopper → Bool
  | .setting | .notifying | .unlocking => true
  | _ => false

/-- `_flag = true` has been done. -/
def Stopper.hasSet : Stopper → Bool
  | .notifying | .unlocking | .joining | .stopped => true
  | _ => false

/-- `notify_all` has been done. -/
def Stopper.hasNotified : Stopper → Bool
  | .unlocking | .joining | .stopped => true
  | _ => false

/-- `signal_all` has returned. -/
def Stopper.hasSignalled : Stopper → Bool
  | .joining | .stopped => true
  | _ => false

namespace ThreadPool

variable {Task : Type} {numThreads : BitVec 32} {s s' : ThreadPool Task numThreads}
  {w : Fin numThreads.toNat}

/-- `stop` has completed `signal_all`, a worker is blocked and nobody is about to notify. -/
def LeftBehind (s : ThreadPool Task numThreads) : Prop :=
  s.stopper.hasSignalled = true ∧ (∃ w, (s.workers w).isBlocked = true) ∧ s.producing = 0

instance decidableLeftBehind (s : ThreadPool Task numThreads) : Decidable s.LeftBehind :=
  inferInstanceAs (Decidable (_ ∧ _ ∧ _))

/-- When `signal_all` sets the flag, at most one worker is between its test of `_running`
and the monitor. -/
def Alone (s : ThreadPool Task numThreads) : Action Task numThreads.toNat → Prop
  | .stop => s.stopper = .setting → ∀ v w, (s.workers v).isLate = true →
      (s.workers w).isLate = true → v = w
  | _ => True

instance decidableAlone (s : ThreadPool Task numThreads) (a : Action Task numThreads.toNat) :
    Decidable (Alone s a) :=
  match a with
  | .stop => inferInstanceAs (Decidable (_ → ∀ v w, _ → _ → v = w))
  | .work _ _ | .enqueue _ | .notifyOne _ => isTrue trivial

/-! ## Who has the mutex -/

/-- The mutex is with whoever stands where it is needed. -/
structure Owned (s : ThreadPool Task numThreads) : Prop where
  worker : ∀ w, (s.workers w).hasMutex = true ↔ s.mutex = some (.worker w)
  stopper : s.stopper.hasMutex = true ↔ s.mutex = some .stopper

theorem start_owned : (start : ThreadPool Task numThreads).Owned where
  worker w := by simp [start, Worker.hasMutex]
  stopper := by simp [start, Stopper.hasMutex]

theorem Worked.stopper (h : Worked s w s') : s'.stopper = s.stopper := by
  cases h <;> rfl

theorem Owned.work {i : ℕ} (hinv : s.Owned) (hwork : s.work w i = some s') : s'.Owned := by
  have h := work_cases hwork
  have hstopper := hinv.stopper
  have hworker := hinv.worker
  constructor
  · intro v
    have hv := hworker v
    have hw := hworker w
    cases h <;> grind [Worker.hasMutex]
  · have hw := hworker w
    cases h <;> grind [Worker.hasMutex]

theorem Owned.stop (hinv : s.Owned) (hstop : s.stop = some s') : s'.Owned := by
  have hstopper := hinv.stopper
  have hworker := hinv.worker
  have hcases := stop_cases hstop
  constructor
  · intro v
    have hv := hworker v
    cases hcases <;> grind [Stopper.hasMutex, notifyAll, Worker.isBlocked, Worker.hasMutex]
  · cases hcases <;> grind [Stopper.hasMutex, notifyAll]

theorem Owned.notifyOne {waiter : Option (Fin numThreads.toNat)} (hinv : s.Owned)
    (hnotify : s.notifyOne waiter = some s') : s'.Owned := by
  obtain ⟨w, hblocked, rfl⟩ | ⟨-, rfl⟩ := notifyOne_cases hnotify
  · refine ⟨fun v => ?_, hinv.stopper⟩
    have hv := hinv.worker v
    grind [Worker.isBlocked, Worker.hasMutex]
  · exact ⟨hinv.worker, hinv.stopper⟩

theorem Owned.step {a : Action Task numThreads.toNat} (hinv : s.Owned)
    (hstep : ThreadPool.step s a = some s') : s'.Owned := by
  cases a with
  | work w i => exact hinv.work hstep
  | enqueue task =>
    obtain rfl := Option.some.inj hstep
    exact ⟨hinv.worker, hinv.stopper⟩
  | notifyOne waiter => exact hinv.notifyOne hstep
  | stop => exact hinv.stop hstep

/-! ## What holds once the pool is being stopped -/

structure Stopped (s : ThreadPool Task numThreads) : Prop extends Owned s where
  /-- `_running` is negative and stays so when the workers left count themselves -/
  negative : s.stopper ≠ .idle →
    2 ^ 31 ≤ s.running.toNat ∧ s.running.toNat + s.unstarted < 2 ^ 32
  /-- the flag is there for the only worker that is late -/
  alone : s.stopper.hasSet = true →
    (∀ v w, (s.workers v).isLate = true → (s.workers w).isLate = true → v = w) ∧
    (∀ w, (s.workers w).isLate = true → s.flag = true) ∧ ∀ w, s.workers w ≠ .blocking
  notified : s.stopper.hasNotified = true → ∀ w, (s.workers w).isBlocked = false

theorem Stopped.not_running (hinv : s.Stopped) (hstopper : s.stopper ≠ .idle) :
    s.isRunning = false := by
  have hneg := hinv.negative hstopper
  rw [Bool.eq_false_iff, Ne, isRunning_iff]
  omega

theorem start_stopped : (start : ThreadPool Task numThreads).Stopped where
  toOwned := start_owned
  negative h := absurd rfl h
  alone h := by simp [start, Stopper.hasSet] at h
  notified h := by simp [start, Stopper.hasNotified] at h

theorem Worked.negative (h : Worked s w s')
    (hneg : 2 ^ 31 ≤ s.running.toNat ∧ s.running.toNat + s.unstarted < 2 ^ 32) :
    2 ^ 31 ≤ s'.running.toNat ∧ s'.running.toNat + s'.unstarted < 2 ^ 32 := by
  obtain ⟨-, hrunning, hunstarted⟩ | ⟨-, hrunning, hunstarted⟩ := h.running_cases
  · have hone : (1 : BitVec 32).toNat = 1 := rfl
    rw [hrunning, BitVec.toNat_add, hone]
    omega
  · rwa [hrunning, hunstarted]

theorem Stopped.work {i : ℕ} (hinv : s.Stopped) (hwork : s.work w i = some s') : s'.Stopped := by
  have h := work_cases hwork
  have hidle : s.stopper.hasSet = true → s.stopper ≠ .idle := by
    rintro hset heq
    simp [heq, Stopper.hasSet] at hset
  have hset' : s.stopper.hasNotified = true → s.stopper.hasSet = true := by
    cases s.stopper <;> simp [Stopper.hasNotified, Stopper.hasSet]
  refine ⟨hinv.toOwned.work hwork, ?_, ?_, ?_⟩
  · rw [h.stopper]
    exact fun hstopper => h.negative (hinv.negative hstopper)
  · rw [h.stopper]
    intro hset
    have hrun := hinv.not_running (hidle hset)
    obtain ⟨hunique, hflag, hblocking⟩ := hinv.alone hset
    cases h <;> grind [Worker.isLate]
  · rw [h.stopper]
    intro hnotified v
    have hblocked := hinv.notified hnotified v
    have hblocking := (hinv.alone (hset' hnotified)).2.2 w
    cases h <;> grind [Worker.isBlocked]

/-- `_running = -1 - _numThreads` is negative even after every worker has counted itself. -/
theorem store_negative (hnum : numThreads.toNat < 2 ^ 31) :
    2 ^ 31 ≤ (-1 - numThreads).toNat ∧ (-1 - numThreads).toNat + s.unstarted < 2 ^ 32 := by
  have hle : s.unstarted ≤ numThreads.toNat := countOf_le
  have hstore : (-1 - numThreads).toNat = 2 ^ 32 - 1 - numThreads.toNat := by
    have hone : (-1 : BitVec 32).toNat = 2 ^ 32 - 1 := rfl
    rw [BitVec.toNat_sub, hone]
    omega
  omega

theorem unstarted_notifyAll (s : ThreadPool Task numThreads) :
    s.notifyAll.unstarted = s.unstarted := by
  have hsame : ∀ w, (s.notifyAll.workers w).isStarting = (s.workers w).isStarting := by
    intro w
    simp only [notifyAll]
    cases s.workers w <;> simp [Worker.isBlocked, Worker.isStarting]
  simp only [unstarted, countOf, hsame]

theorem Stopping.negative (h : Stopping s s') (hnum : numThreads.toNat < 2 ^ 31)
    (hinv : s.Stopped) : 2 ^ 31 ≤ s'.running.toNat ∧ s'.running.toNat + s'.unstarted < 2 ^ 32 := by
  cases h with
  | store hpc => exact store_negative hnum
  | notify hpc =>
    have hneg := hinv.negative (by simp [hpc])
    rw [← unstarted_notifyAll s] at hneg
    exact hneg
  | lock hpc | set hpc | unlock hpc | join hpc => exact hinv.negative (by simp [hpc])

/-- A worker that is late when the flag is set has not got the mutex yet. -/
theorem Stopping.alone (h : Stopping s s') (hinv : s.Stopped) (halone : Alone s .stop)
    (hset : s'.stopper.hasSet = true) :
    (∀ v w, (s'.workers v).isLate = true → (s'.workers w).isLate = true → v = w) ∧
    (∀ w, (s'.workers w).isLate = true → s'.flag = true) ∧ ∀ w, s'.workers w ≠ .blocking := by
  cases h with
  | store hpc | lock hpc => simp [Stopper.hasSet] at hset
  | set hpc =>
    have hmutex : s.mutex = some .stopper := hinv.stopper.mp (by simp [hpc, Stopper.hasMutex])
    refine ⟨halone hpc, fun _ _ => rfl, fun w hblocking => ?_⟩
    have hw := hinv.worker w
    simp only at hblocking
    simp [hblocking, Worker.hasMutex, hmutex] at hw
  | notify hpc =>
    obtain ⟨hunique, hflag, hblocking⟩ := hinv.alone (by simp [hpc, Stopper.hasSet])
    have hlate : ∀ w, (s.notifyAll.workers w).isLate = (s.workers w).isLate := by
      intro w
      simp only [notifyAll]
      cases s.workers w <;> simp [Worker.isBlocked, Worker.isLate]
    refine ⟨fun v w hv hw => hunique v w (hlate v ▸ hv) (hlate w ▸ hw),
      fun w hw => hflag w (hlate w ▸ hw), fun w => ?_⟩
    have hw := hblocking w
    grind [notifyAll]
  | unlock hpc | join hpc => exact hinv.alone (by simp [hpc, Stopper.hasSet])

theorem Stopping.notified (h : Stopping s s') (hinv : s.Stopped)
    (hnotified : s'.stopper.hasNotified = true) : ∀ w, (s'.workers w).isBlocked = false := by
  cases h with
  | store hpc | lock hpc | set hpc => simp [Stopper.hasNotified] at hnotified
  | notify hpc =>
    intro w
    simp only [notifyAll]
    cases s.workers w <;> simp [Worker.isBlocked]
  | unlock hpc | join hpc => exact hinv.notified (by simp [hpc, Stopper.hasNotified])

theorem Stopped.notifyOne {waiter : Option (Fin numThreads.toNat)} (hinv : s.Stopped)
    (hnotify : s.notifyOne waiter = some s') : s'.Stopped := by
  have howned := hinv.toOwned.notifyOne hnotify
  obtain ⟨w, hblocked, rfl⟩ | ⟨-, rfl⟩ := notifyOne_cases hnotify
  · have hold : (s.workers w).isStarting = false := by
      cases hpc : s.workers w <;> simp [hpc, Worker.isBlocked] at hblocked
      rfl
    have hsame : (s.setWorker w .woken).unstarted = s.unstarted := unstarted_moved hold rfl
    refine ⟨howned, fun hstopper => ?_, fun hset => ?_, fun hnotified v => ?_⟩
    · have hneg := hinv.negative hstopper
      rw [← hsame] at hneg
      exact hneg
    · obtain ⟨hunique, hflag, hblocking⟩ := hinv.alone hset
      grind [Worker.isLate]
    · have hv := hinv.notified hnotified v
      grind [Worker.isBlocked]
  · exact ⟨howned, hinv.negative, hinv.alone, hinv.notified⟩

theorem Stopped.step {a : Action Task numThreads.toNat} (hnum : numThreads.toNat < 2 ^ 31)
    (hinv : s.Stopped) (halone : Alone s a) (hstep : ThreadPool.step s a = some s') :
    s'.Stopped := by
  cases a with
  | work w i => exact hinv.work hstep
  | enqueue task =>
    obtain rfl := Option.some.inj hstep
    exact ⟨⟨hinv.worker, hinv.stopper⟩, hinv.negative, hinv.alone, hinv.notified⟩
  | notifyOne waiter => exact hinv.notifyOne hstep
  | stop =>
    have h := stop_cases hstep
    exact ⟨hinv.toOwned.stop hstep, fun _ => h.negative hnum hinv, h.alone hinv halone,
      h.notified hinv⟩

theorem Stopped.not_leftBehind (hinv : s.Stopped) : ¬s.LeftBehind := by
  rintro ⟨hsignalled, ⟨w, hblocked⟩, -⟩
  have hnotified : s.stopper.hasNotified = true := by
    cases hpc : s.stopper <;> simp_all [Stopper.hasSignalled, Stopper.hasNotified]
  simp [hinv.notified hnotified w] at hblocked

/-- In a run in which at most one worker is late for `signal_all`, it leaves no worker
blocked. -/
theorem not_leftBehind_of_alone (numThreads : BitVec 32) (hnum : numThreads.toNat < 2 ^ 31)
    (s : ThreadPool Task numThreads) (hrun : Reaches step Alone start s) : ¬s.LeftBehind := by
  have hinv : s.Stopped := hrun.invariant start_stopped
    fun _ _ _ hinv halone hstep => hinv.step hnum halone hstep
  exact hinv.not_leftBehind

/-- The two workers of a pool of two. -/
def workerOfTwo (i : Fin 2) : Fin (2#32).toNat := ⟨i, i.isLt⟩

/-- One worker is blocked and the other late; both leave, and `stop` returns. -/
theorem not_leftBehind_of_alone_two :
    ∃ s : ThreadPool ℕ 2#32, s.stopper = .stopped ∧ ¬s.LeftBehind := by
  have hrun : ∃ s : ThreadPool ℕ 2#32, Reaches step Alone start s ∧ s.stopper = .stopped :=
    exists_reaches
      (List.replicate 5 (.work (workerOfTwo 0) 0) ++ List.replicate 2 (.work (workerOfTwo 1) 0) ++
        List.replicate 5 .stop ++ List.replicate 3 (.work (workerOfTwo 0) 0) ++
        List.replicate 4 (.work (workerOfTwo 1) 0) ++ [.stop])
      (by decide)
  obtain ⟨s, hrun, hs⟩ := hrun
  exact ⟨s, hs, not_leftBehind_of_alone 2#32 (by decide) s hrun⟩

/-- Both workers have tested `_running` when the pool is stopped. The first one takes the
flag and leaves, the second one blocks. -/
theorem second_left_behind :
    ∃ s : ThreadPool ℕ 2#32, Reachable step start s ∧ s.LeftBehind :=
  exists_reaches
    (List.replicate 2 (.work (workerOfTwo 0) 0) ++ List.replicate 2 (.work (workerOfTwo 1) 0) ++
      List.replicate 5 .stop ++ List.replicate 4 (.work (workerOfTwo 0) 0) ++
      List.replicate 3 (.work (workerOfTwo 1) 0))
    (by decide)

end ThreadPool

end Turbolib
