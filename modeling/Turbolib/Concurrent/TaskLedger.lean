import Turbolib.Concurrent.StopWakes
import Turbolib.Library.Ledger

/-!
# What becomes of the tasks

Every task that was put into the queue is still there, in the hands of a worker, called, or
dropped by a worker that found the pool stopped. Nothing is dropped before `stop`, and
nothing is called after it has returned.

## Main definitions

* `ThreadPool.records` — what a step does with a task.
* `ThreadPool.Accounted` — each task is accounted for, once.
-/

namespace Turbolib

/-- A task was put into the queue, `fun()` was called for it, or it was dropped. -/
inductive Deed (Task : Type) where
  | queued (task : Task)
  | called (task : Task)
  | dropped (task : Task)
  deriving DecidableEq, Repr

namespace Deed

variable {Task : Type} (p : Task → Bool)

def isQueued : Deed Task → Bool
  | .queued task => p task
  | _ => false

def isCalled : Deed Task → Bool
  | .called task => p task
  | _ => false

def isDropped : Deed Task → Bool
  | .dropped task => p task
  | _ => false

/-- The task is not the pool's any more. -/
def isSettled (deed : Deed Task) : Bool := deed.isCalled p || deed.isDropped p

theorem countP_isSettled (log : List (Deed Task)) :
    log.countP (isSettled p) = log.countP (isCalled p) + log.countP (isDropped p) := by
  induction log with
  | nil => rfl
  | cons deed log ih =>
    simp only [List.countP_cons, ih]
    cases deed with
    | queued task => simp [isSettled, isCalled, isDropped]
    | called task | dropped task =>
      cases hp : p task <;> simp [isSettled, isCalled, isDropped, hp]
      omega

end Deed

/-- The worker has taken a task out of the queue and has not called it. -/
def Worker.holds {Task : Type} (p : Task → Bool) : Worker Task → Bool
  | .holding task => p task
  | _ => false

namespace ThreadPool

variable {Task : Type} {numThreads : BitVec 32} {s s' : ThreadPool Task numThreads}
  {w : Fin numThreads.toNat} {p : Task → Bool}

def records (s : ThreadPool Task numThreads) : Action Task numThreads.toNat → List (Deed Task)
  | .enqueue task => [.queued task]
  | .work w _ =>
    match s.workers w with
    | .holding task => if s.isRunning then [.called task] else [.dropped task]
    | _ => []
  | _ => []

/-- The tasks that wait, in the queue or with a worker. -/
def held (p : Task → Bool) (s : ThreadPool Task numThreads) : ℕ :=
  s.queue.countP p + countOf (Worker.holds p) s.workers

/-- Each task is accounted for, once. -/
def Accounted (s : Recorded (ThreadPool Task numThreads) (Deed Task)) : Prop :=
  ∀ p : Task → Bool, s.log.countP (Deed.isQueued p) =
    s.state.queue.countP p + countOf (Worker.holds p) s.state.workers +
      s.log.countP (Deed.isCalled p) + s.log.countP (Deed.isDropped p)

theorem holds_setWorker (s : ThreadPool Task numThreads) (w : Fin numThreads.toNat)
    (pc : Worker Task) (p : Task → Bool) :
    countOf (Worker.holds p) (s.setWorker w pc).workers + ((s.workers w).holds p).toNat =
      countOf (Worker.holds p) s.workers + (pc.holds p).toNat :=
  countOf_update _ _ _ _

/-- A step that has nothing to do with a task. -/
theorem held_setWorker {pc : Worker Task} (hold : (s.workers w).holds p = false)
    (hnew : pc.holds p = false) : (s.setWorker w pc).held p = s.held p := by
  have hmove := holds_setWorker s w pc p
  rw [hold, hnew] at hmove
  exact congrArg (s.queue.countP p + ·) hmove

/-- A worker calls its task, or drops it. -/
theorem held_settle {task : Task} {pc : Worker Task} (hpc : s.workers w = .holding task)
    (hnew : pc.holds p = false) : s.held p = (s.setWorker w pc).held p + (p task).toNat := by
  have hmove := holds_setWorker s w pc p
  rw [hpc, hnew] at hmove
  simp only [Worker.holds, Bool.toNat_false] at hmove
  simp only [held, queue_setWorker]
  omega

theorem Worked.balance (h : Worked s w s') (i : ℕ) :
    s.held p + (s.records (.work w i)).countP (Deed.isQueued p) =
      s'.held p + (s.records (.work w i)).countP (Deed.isSettled p) := by
  cases h with
  | @dequeue hpc j task htask =>
    have hqueue := countP_eraseIdx htask p
    have hmove := holds_setWorker s w (.holding task) p
    simp only [hpc, Worker.holds, Bool.toNat_false] at hmove
    simp only [held, records, hpc, List.countP_nil]
    omega
  | @call task hpc hrun =>
    have hsettle : s.held p = (s.setWorker w (.working task)).held p + (p task).toNat :=
      held_settle hpc rfl
    simp only [records, hpc, hrun]
    cases hp : p task <;>
      simp [Deed.isQueued, Deed.isSettled, Deed.isCalled, Deed.isDropped, hp] at hsettle ⊢ <;> omega
  | @drop task hpc hrun =>
    have hsettle : s.held p = (s.setWorker w .testing).held p + (p task).toNat :=
      held_settle hpc rfl
    simp only [records, hpc, hrun]
    cases hp : p task <;>
      simp [Deed.isQueued, Deed.isSettled, Deed.isCalled, Deed.isDropped, hp] at hsettle ⊢ <;> omega
  | exit hpc hrun =>
    have hold : (s.workers w).holds p = false := by
      rcases hpc with hpc | hpc <;> rw [hpc] <;> rfl
    have hnone : s.records (.work w i) = [] := by
      rcases hpc with hpc | hpc <;> simp [records, hpc]
    rw [hnone, held_setWorker hold rfl, List.countP_nil, List.countP_nil]
  | _ =>
    simp only [records, *]
    refine congrArg (· + 0) (held_setWorker ?_ rfl).symm
    simp only [*]
    rfl

theorem held_notifyAll (s : ThreadPool Task numThreads) (p : Task → Bool) :
    s.notifyAll.held p = s.held p := by
  have hsame : ∀ w, (s.notifyAll.workers w).holds p = (s.workers w).holds p := by
    intro w
    simp only [notifyAll]
    cases s.workers w <;> simp [Worker.isBlocked, Worker.holds]
  simp only [held, countOf, hsame]
  rfl

theorem balance_step {a : Action Task numThreads.toNat} (hstep : step s a = some s') :
    s.held p + (s.records a).countP (Deed.isQueued p) =
      s'.held p + (s.records a).countP (Deed.isSettled p) := by
  cases a with
  | work w i => exact (work_cases hstep).balance i
  | enqueue task =>
    obtain rfl := Option.some.inj hstep
    simp only [held, enqueue, records, List.countP_append]
    cases hp : p task
    · simp [Deed.isQueued, Deed.isSettled, Deed.isCalled, Deed.isDropped, hp]
    · simp [Deed.isQueued, Deed.isSettled, Deed.isCalled, Deed.isDropped, hp]
      omega
  | notifyOne waiter =>
    obtain ⟨w, hblocked, rfl⟩ | ⟨-, rfl⟩ := notifyOne_cases hstep
    · have hold : (s.workers w).holds p = false := by
        cases hpc : s.workers w <;> simp [hpc, Worker.isBlocked] at hblocked
        rfl
      exact congrArg (· + 0) (held_setWorker hold rfl).symm
    · rfl
  | stop =>
    have hcases := stop_cases hstep
    cases hcases with
    | notify hpc => exact congrArg (· + 0) (held_notifyAll s p).symm
    | _ => simp only [held, records, List.countP_nil]

theorem accounted_of_reachable {s : Recorded (ThreadPool Task numThreads) (Deed Task)}
    (hrun : Reachable (recorded step records) ⟨start, []⟩ s) : Accounted s := by
  intro p
  have hempty : countOf (Worker.holds p) (fun _ : Fin numThreads.toNat => Worker.starting) = 0 := by
    simp [countOf, Worker.holds]
  have h := balance_of_reachable (held p) (Deed.isQueued p) (Deed.isSettled p) hrun
    (by simp [held, start, hempty]) fun _ _ _ hstep => balance_step hstep
  rw [h, Deed.countP_isSettled, held, ← Nat.add_assoc]

/-! ## Around `stop` -/

/-- Before `stop`, `_running` counts the workers, and nothing has been dropped. -/
def Kept (s : Recorded (ThreadPool Task numThreads) (Deed Task)) : Prop :=
  s.state.stopper = .idle →
    s.state.running.toNat + s.state.unstarted = numThreads.toNat ∧
      ∀ task, Deed.dropped task ∉ s.log

section kept

variable {t t' : Recorded (ThreadPool Task numThreads) (Deed Task)}

theorem Kept.work {i : ℕ} (h : Kept t) (hnum : numThreads.toNat < 2 ^ 31)
    (hstep : recorded step records t (.work w i) = some t') : Kept t' := by
  obtain ⟨hstep, hlog⟩ := recorded_eq_some_iff.mp hstep
  have hworked := work_cases hstep
  intro hidle
  rw [hworked.stopper] at hidle
  obtain ⟨hcounted, hkept⟩ := h hidle
  refine ⟨hworked.counted hcounted, fun task htask => ?_⟩
  rw [hlog, List.mem_append] at htask
  rcases htask with htask | htask
  · exact hkept task htask
  · -- a worker that has a task has counted itself
    simp only [records] at htask
    split at htask
    · rename_i held hpc
      split_ifs at htask with hrun
      · simp at htask
      · have := running_negative (w := w) hcounted (by rw [hpc]; rfl)
          (Bool.eq_false_of_not_eq_true hrun)
        omega
    · cases htask

theorem Kept.step {a : Action Task numThreads.toNat} (h : Kept t) (hnum : numThreads.toNat < 2 ^ 31)
    (hstep : recorded step records t a = some t') : Kept t' := by
  cases a with
  | work w i => exact h.work hnum hstep
  | enqueue task =>
    obtain ⟨hstep, hlog⟩ := recorded_eq_some_iff.mp hstep
    intro hidle
    have hstate := Option.some.inj hstep
    rw [← hstate] at hidle ⊢
    obtain ⟨hcounted, hkept⟩ := h hidle
    exact ⟨hcounted, by simpa [hlog, records] using hkept⟩
  | notifyOne waiter =>
    obtain ⟨hstep, hlog⟩ := recorded_eq_some_iff.mp hstep
    intro hidle
    rw [hlog]
    obtain ⟨w, hblocked, hstate⟩ | ⟨-, hstate⟩ := notifyOne_cases hstep
    · have hold : (t.state.workers w).isStarting = false := by
        cases hpc : t.state.workers w <;> simp [hpc, Worker.isBlocked] at hblocked
        rfl
      have hsame : (t.state.setWorker w .woken).unstarted = t.state.unstarted :=
        unstarted_moved hold rfl
      rw [hstate] at hidle ⊢
      obtain ⟨hcounted, hkept⟩ := h hidle
      rw [← hsame] at hcounted
      exact ⟨hcounted, by simpa [records] using hkept⟩
    · rw [hstate] at hidle ⊢
      obtain ⟨hcounted, hkept⟩ := h hidle
      exact ⟨hcounted, by simpa [records] using hkept⟩
  | stop =>
    obtain ⟨hstep, -⟩ := recorded_eq_some_iff.mp hstep
    intro hidle
    have hcases := stop_cases hstep
    generalize t'.state = u at hidle hcases
    cases hcases <;> simp at hidle

theorem not_dropped_of_idle (hnum : numThreads.toNat < 2 ^ 31)
    (hrun : Reachable (recorded ThreadPool.step records) ⟨start, []⟩ t)
    (hidle : t.state.stopper = .idle) (task : Task) : Deed.dropped task ∉ t.log := by
  have h : Kept t := by
    refine hrun.invariant (fun _ => ⟨start_attended.counted, by simp⟩) fun _ _ _ h _ hstep => ?_
    exact h.step hnum hstep
  exact (h hidle).2 task

/-- In every run, each task that was put into the queue is in the queue, with a worker,
called or dropped, none of them twice, and in a pool of fewer than `2 ^ 31` threads none is
dropped before `stop`. -/
theorem tasks_accounted (numThreads : BitVec 32)
    (s : Recorded (ThreadPool Task numThreads) (Deed Task))
    (hrun : Reachable (recorded ThreadPool.step records) ⟨start, []⟩ s) :
    Accounted s ∧ (numThreads.toNat < 2 ^ 31 → s.state.stopper = .idle →
      ∀ task, Deed.dropped task ∉ s.log) :=
  ⟨accounted_of_reachable hrun, fun hnum => not_dropped_of_idle hnum hrun⟩

theorem tasks_accounted_one :
    (1#32).toNat < 2 ^ 31 ∧ ∃ s : Recorded (ThreadPool ℕ 1#32) (Deed ℕ),
      s.log = [.queued 7, .called 7] ∧ Accounted s := by
  have hnum : (1#32).toNat < 2 ^ 31 := by decide
  have hrun : ∃ s : Recorded (ThreadPool ℕ 1#32) (Deed ℕ),
      Reachable (recorded ThreadPool.step records) ⟨start, []⟩ s ∧
        s.log = [.queued 7, .called 7] :=
    exists_reaches
      (List.replicate 5 (.work onlyWorker 0) ++ [.enqueue 7, .notifyOne (some onlyWorker)] ++
        List.replicate 5 (.work onlyWorker 0))
      (by decide)
  obtain ⟨s, hrun, hlog⟩ := hrun
  exact ⟨hnum, s, hlog, (tasks_accounted 1#32 s hrun).1⟩

/-- `stop` returns when all workers have left `run`. -/
def Gone (s : ThreadPool Task numThreads) : Prop :=
  s.stopper = .stopped ∧ ∀ w, (s.workers w).isExited = true

/-- Whatever is done with a pool that has been stopped, it touches no task. -/
theorem Gone.step {a : Action Task numThreads.toNat} (h : s.Gone)
    (hstep : ThreadPool.step s a = some s') :
    s'.Gone ∧ ∀ deed ∈ s.records a, ∃ task, deed = .queued task := by
  obtain ⟨hstopped, hexited⟩ := h
  cases a with
  | work w i =>
    have hw := hexited w
    cases hpc : s.workers w <;> simp [hpc, Worker.isExited] at hw
    simp [ThreadPool.step, work, hpc] at hstep
  | enqueue task =>
    obtain rfl := Option.some.inj hstep
    exact ⟨⟨hstopped, hexited⟩, by simp [records]⟩
  | notifyOne waiter =>
    obtain ⟨w, hblocked, rfl⟩ | ⟨-, rfl⟩ := notifyOne_cases hstep
    · have hw := hexited w
      cases hpc : s.workers w <;> simp [hpc, Worker.isExited, Worker.isBlocked] at hw hblocked
    · exact ⟨⟨hstopped, hexited⟩, by simp [records]⟩
  | stop => simp [ThreadPool.step, stop, hstopped] at hstep

theorem gone_of_stopped (hrun : Reachable (recorded ThreadPool.step records) ⟨start, []⟩ t)
    (hstopped : t.state.stopper = .stopped) : t.state.Gone := by
  let Joined : Recorded (ThreadPool Task numThreads) (Deed Task) → Prop := fun t =>
    t.state.stopper = .stopped → t.state.Gone
  have h : Joined t := by
    refine hrun.invariant (fun h => by simp [start] at h) fun u a u' hu _ hstep hstopped' => ?_
    obtain ⟨hstep, -⟩ := recorded_eq_some_iff.mp hstep
    by_cases hbefore : u.state.stopper = .stopped
    · exact ((hu hbefore).step hstep).1
    · cases a with
      | work w i => exact absurd ((work_cases hstep).stopper ▸ hstopped') hbefore
      | enqueue task =>
        rw [← Option.some.inj hstep] at hstopped'
        exact absurd hstopped' hbefore
      | notifyOne waiter =>
        obtain ⟨w, -, hstate⟩ | ⟨-, hstate⟩ := notifyOne_cases hstep <;>
        · rw [hstate] at hstopped'
          exact absurd hstopped' hbefore
      | stop =>
        have hcases := stop_cases hstep
        generalize u'.state = next at hstopped' hcases
        cases hcases with
        | join hpc hexited => exact ⟨rfl, hexited⟩
        | _ => simp at hstopped'
  exact h hstopped

/-- When `stop` has returned, each task has been called or dropped or is in the queue, and
stays there: tasks can still be put into the queue, but no other one is called. -/
theorem settled_of_stopped (numThreads : BitVec 32)
    (s s' : Recorded (ThreadPool Task numThreads) (Deed Task))
    (hrun : Reachable (recorded ThreadPool.step records) ⟨start, []⟩ s)
    (hstopped : s.state.stopper = .stopped)
    (hrun' : Reachable (recorded ThreadPool.step records) s s') :
    (∀ p : Task → Bool, s.log.countP (Deed.isQueued p) = s.state.queue.countP p +
      s.log.countP (Deed.isCalled p) + s.log.countP (Deed.isDropped p)) ∧
    ∃ later, s'.log = s.log ++ later ∧ ∀ deed ∈ later, ∃ task, deed = .queued task := by
  have hgone := gone_of_stopped hrun hstopped
  constructor
  · intro p
    have hnone : countOf (Worker.holds p) s.state.workers = 0 := by
      refine Finset.sum_eq_zero fun w _ => ?_
      have hw := hgone.2 w
      cases hpc : s.state.workers w <;> simp [hpc, Worker.isExited] at hw
      rfl
    have h := accounted_of_reachable hrun p
    rwa [hnone, Nat.add_zero] at h
  · let OnlyQueued : Recorded (ThreadPool Task numThreads) (Deed Task) → Prop := fun u =>
      u.state.Gone ∧
        ∃ later, u.log = s.log ++ later ∧ ∀ deed ∈ later, ∃ task, deed = .queued task
    have h : OnlyQueued s' := by
      refine hrun'.invariant ⟨hgone, [], by simp, by simp⟩ fun u a u' hu _ hstep => ?_
      obtain ⟨hstep, hlog⟩ := recorded_eq_some_iff.mp hstep
      obtain ⟨hu, later, hlater, hqueued⟩ := hu
      obtain ⟨hu', hrecords⟩ := hu.step hstep
      refine ⟨hu', later ++ u.state.records a, by rw [hlog, hlater, List.append_assoc], ?_⟩
      intro deed hdeed
      rcases List.mem_append.mp hdeed with hdeed | hdeed
      · exact hqueued deed hdeed
      · exact hrecords deed hdeed
    exact h.2

/-- A worker drops the task that it has taken, as the pool has been stopped; a task that
comes after that stays in the queue. -/
theorem settled_of_stopped_one :
    ∃ s s' : Recorded (ThreadPool ℕ 1#32) (Deed ℕ), s.log = [.queued 7, .dropped 7] ∧
      s'.log = [.queued 7, .dropped 7, .queued 8] ∧
      ∃ later, s'.log = s.log ++ later ∧ ∀ deed ∈ later, ∃ task, deed = .queued task := by
  have hrun : ∃ s : Recorded (ThreadPool ℕ 1#32) (Deed ℕ),
      Reachable (recorded ThreadPool.step records) ⟨start, []⟩ s ∧
        s.state.stopper = .stopped ∧ s.log = [.queued 7, .dropped 7] :=
    exists_reaches
      (List.replicate 5 (.work onlyWorker 0) ++ [.enqueue 7, .notifyOne (some onlyWorker)] ++
        List.replicate 4 (.work onlyWorker 0) ++ [.stop] ++
        List.replicate 2 (.work onlyWorker 0) ++ List.replicate 5 .stop)
      (by decide)
  obtain ⟨s, hrun, hstopped, hlog⟩ := hrun
  let s' : Recorded (ThreadPool ℕ 1#32) (Deed ℕ) := ⟨s.state.enqueue 8, s.log ++ [.queued 8]⟩
  have hrun' : Reachable (recorded ThreadPool.step records) s s' :=
    Reaches.refl.tail (a := .enqueue 8) trivial rfl
  exact ⟨s, s', hlog, by simp [s', hlog], (settled_of_stopped 1#32 s s' hrun hstopped hrun').2⟩

end kept

end ThreadPool

end Turbolib
