import Turbolib.Library.Transition
import Mathlib.Data.Int.Notation
import Mathlib.Data.List.Perm.Basic

/-!
# The deadline thread

`deadline_thread.h`: a thread that runs jobs when they are due, the callers of `schedule`
and `schedule_repeat`, and the thread that calls `shutdown`, as a system that takes one
atomic step at a time, in any order. What a thread does with `_mutex` locked is one step.
`system_clock::now()` is an integer number of nanoseconds that can be set to any other at
any time.

## Main definitions

* `DeadlineThread.run` — the next step of the thread.
* `DeadlineThread.call`, `DeadlineThread.push`, `DeadlineThread.notify` — the steps of `schedule`.
* `DeadlineThread.step` — one step of the system.
-/

namespace Turbolib

/-- What a job calls: the function that was scheduled, or the `wrapper` of `schedule_repeat`. -/
inductive Work (Fun : Type) where
  | once (f : Fun)
  | wrapper (f : Fun) (ms : BitVec 32)
  deriving DecidableEq, Repr

/-- `deadline_thread::job`. The source has no `ticket` and no `behind`: they are the number
of the call that the job comes from, and how many jobs had been started when it was pushed. -/
structure Job (Fun : Type) where
  time : ℤ
  work : Work Fun
  ticket : ℕ
  behind : ℕ
  deriving DecidableEq, Repr

/-- A job that was started, and what the clock showed. -/
structure Start (Fun : Type) where
  job : Job Fun
  clock : ℤ
  deriving DecidableEq, Repr

/-- Where the thread stands in `run`, and in `waitForWork` or `doWork`. -/
inductive Runner (Fun : Type) where
  /-- at `while (!_shutdown)` -/
  | testing
  /-- in `waitForWork`, before the lock -/
  | looking
  /-- about to call `wait_for(interval)`; the clock showed `clock` when the jobs were looked at -/
  | entering (interval : BitVec 32) (clock : ℤ)
  /-- blocked in `_cv.wait_for`; the clock showed `looked` when the jobs were looked at, and
  `called` when the wait began -/
  | blocked (interval : BitVec 32) (looked called : ℤ)
  /-- at `if (_shutdown)` in `doWork` -/
  | checking
  /-- in `doWork`, before the lock -/
  | taking
  /-- in `work()` -/
  | working (job : Job Fun)
  /-- in the `schedule` that the wrapper calls, before the lock -/
  | pushing (job : Job Fun)
  /-- in the `schedule` that the wrapper calls, before `notify_one` -/
  | notifying
  /-- returned from `run` -/
  | exited
  deriving DecidableEq, Repr

/-- Where the first thread that calls `shutdown` stands; the others return at once. -/
inductive Closer where
  /-- before `_shutdown.exchange(true)` -/
  | idle
  /-- before `notify_all` -/
  | notifying
  | joining
  | returned
  deriving DecidableEq, Repr

structure DeadlineThread (Fun : Type) where
  /-- `system_clock::now()` -/
  now : ℤ
  shutdown : Bool
  runner : Runner Fun
  jobs : List (Job Fun)
  /-- the calls of `schedule` that have read the clock and have not pushed their job -/
  pushing : List (Job Fun)
  /-- how many calls have pushed their job and not notified yet -/
  notifying : ℕ
  closer : Closer
  /-- how many calls there have been -/
  calls : ℕ
  started : List (Start Fun)
  deriving DecidableEq, Repr

namespace DeadlineThread

variable {Fun : Type}

def start (now : ℤ) : DeadlineThread Fun where
  now := now
  shutdown := false
  runner := .testing
  jobs := []
  pushing := []
  notifying := 0
  closer := .idle
  calls := 0
  started := []

/-- The nanoseconds of a `std::chrono::milliseconds(1)`. -/
def millisecond : ℤ := 1000000

/-- `millisFromNow(when)`; `duration_cast` rounds towards zero. -/
def millisFromNow (time now : ℤ) : ℤ := (time - now).tdiv millisecond

/-- `now() + std::chrono::milliseconds(ms)`. -/
def after (now : ℤ) (ms : BitVec 32) : ℤ := now + ms.toNat * millisecond

/-- `(duration < 0)? 0 : duration`, as an `unsigned`. -/
def intervalUntil (time now : ℤ) : BitVec 32 :=
  let duration := millisFromNow time now
  if duration < 0 then 0 else BitVec.ofInt 32 duration

/-- `job::operator<`. -/
def lessThan (a b : Job Fun) : Bool := a.time > b.time

/-- `_jobs.top()`: any job that is less than no other, by the place `i` it has in the list. -/
def top (s : DeadlineThread Fun) (i : ℕ) : Option (Job Fun) :=
  s.jobs[i]?.filter fun top => ∀ job ∈ s.jobs, lessThan top job = false

/-- The next step of the thread. -/
def run (s : DeadlineThread Fun) (i : ℕ) : Option (DeadlineThread Fun) :=
  match s.runner with
  | .testing => some { s with runner := if s.shutdown then .exited else .looking }
  | .looking =>
    if s.jobs = [] then some { s with runner := .entering (~~~0) s.now }
    else (s.top i).map fun top =>
      { s with runner := .entering (intervalUntil top.time s.now) s.now }
  -- nobody sets the flag of `_notifyWork`
  | .entering interval clock => some { s with runner := .blocked interval clock s.now }
  -- the time is over, or the wait ends without a reason
  | .blocked _ _ _ => some { s with runner := .checking }
  | .checking => some { s with runner := if s.shutdown then .testing else .taking }
  | .taking =>
    if s.jobs = [] then some { s with runner := .testing }
    else (s.top i).map fun top =>
      if millisFromNow top.time s.now > 0 then { s with runner := .testing }
      else
        { s with
          runner := .working top
          jobs := s.jobs.eraseIdx i
          started := s.started ++ [⟨top, s.now⟩] }
  | .working job =>
    match job.work with
    | .once _ => some { s with runner := .checking }
    | .wrapper _ ms => some { s with runner := .pushing { job with time := after s.now ms } }
  | .pushing job =>
    some { s with
      runner := .notifying
      jobs := s.jobs ++ [{ job with behind := s.started.length }] }
  | .notifying => some { s with runner := .checking }
  | .exited => none

/-- The first step of `schedule`, which reads the clock. -/
def call (s : DeadlineThread Fun) (work : Work Fun) (ms : BitVec 32) : DeadlineThread Fun :=
  { s with
    pushing := s.pushing ++ [⟨after s.now ms, work, s.calls, 0⟩]
    calls := s.calls + 1 }

def schedule (s : DeadlineThread Fun) (f : Fun) (ms : BitVec 32) : DeadlineThread Fun :=
  s.call (.once f) ms

/-- `schedule_repeat`. -/
def scheduleRepeat (s : DeadlineThread Fun) (f : Fun) (ms : BitVec 32) : DeadlineThread Fun :=
  s.call (.wrapper f ms) ms

/-- The second step of `schedule`, for one of the calls that are at it. -/
def push (s : DeadlineThread Fun) (i : ℕ) : Option (DeadlineThread Fun) :=
  s.pushing[i]?.map fun job =>
    { s with
      pushing := s.pushing.eraseIdx i
      jobs := s.jobs ++ [{ job with behind := s.started.length }]
      notifying := s.notifying + 1 }

/-- `notify_one` and `notify_all`, which wake the thread up if it is blocked. -/
def wake : Runner Fun → Runner Fun
  | .blocked _ _ _ => .checking
  | runner => runner

/-- The last step of `schedule`. -/
def notify (s : DeadlineThread Fun) : Option (DeadlineThread Fun) :=
  if s.notifying = 0 then none
  else some { s with runner := wake s.runner, notifying := s.notifying - 1 }

/-- The next step of `shutdown`. -/
def close (s : DeadlineThread Fun) : Option (DeadlineThread Fun) :=
  match s.closer with
  | .idle => some { s with shutdown := true, closer := .notifying }
  | .notifying => some { s with runner := wake s.runner, closer := .joining }
  | .joining =>
    match s.runner with
    | .exited => some { s with closer := .returned }
    | _ => none
  | .returned => none

/-- One step of somebody, or of the clock. -/
inductive Action (Fun : Type) where
  | tick (now : ℤ)
  | schedule (f : Fun) (ms : BitVec 32)
  | scheduleRepeat (f : Fun) (ms : BitVec 32)
  | push (i : ℕ)
  | notify
  | run (i : ℕ)
  | close
  deriving DecidableEq, Repr

def step (s : DeadlineThread Fun) : Action Fun → Option (DeadlineThread Fun)
  | .tick now => some { s with now := now }
  | .schedule f ms => some (s.schedule f ms)
  | .scheduleRepeat f ms => some (s.scheduleRepeat f ms)
  | .push i => s.push i
  | .notify => s.notify
  | .run i => s.run i
  | .close => s.close

variable {s s' : DeadlineThread Fun} {i : ℕ}

/-! ## What one step does -/

theorem top_eq_some_iff {job : Job Fun} :
    s.top i = some job ↔ s.jobs[i]? = some job ∧ ∀ other ∈ s.jobs, job.time ≤ other.time := by
  simp [top, lessThan, Option.filter_eq_some_iff]

/-- One case for each step the thread can take. -/
inductive Ran (s : DeadlineThread Fun) : DeadlineThread Fun → Prop
  | enter (hpc : s.runner = .testing) (hshutdown : s.shutdown = false) :
      Ran s { s with runner := .looking }
  | exit (hpc : s.runner = .testing) (hshutdown : s.shutdown = true) :
      Ran s { s with runner := .exited }
  | lookEmpty (hpc : s.runner = .looking) (hjobs : s.jobs = []) :
      Ran s { s with runner := .entering (~~~0) s.now }
  | look (hpc : s.runner = .looking) (top : Job Fun) (hmem : top ∈ s.jobs)
      (htop : ∀ other ∈ s.jobs, top.time ≤ other.time) :
      Ran s { s with runner := .entering (intervalUntil top.time s.now) s.now }
  | block (interval : BitVec 32) (clock : ℤ) (hpc : s.runner = .entering interval clock) :
      Ran s { s with runner := .blocked interval clock s.now }
  | timeout (interval : BitVec 32) (looked called : ℤ)
      (hpc : s.runner = .blocked interval looked called) : Ran s { s with runner := .checking }
  | check (hpc : s.runner = .checking) (hshutdown : s.shutdown = false) :
      Ran s { s with runner := .taking }
  | stop (hpc : s.runner = .checking) (hshutdown : s.shutdown = true) :
      Ran s { s with runner := .testing }
  | nothingDue (hpc : s.runner = .taking)
      (hjobs : ∀ job ∈ s.jobs, 0 < millisFromNow job.time s.now) :
      Ran s { s with runner := .testing }
  | take (hpc : s.runner = .taking) (i : ℕ) (top : Job Fun) (hi : s.jobs[i]? = some top)
      (htop : ∀ other ∈ s.jobs, top.time ≤ other.time) (hdue : millisFromNow top.time s.now ≤ 0) :
      Ran s { s with
        runner := .working top
        jobs := s.jobs.eraseIdx i
        started := s.started ++ [⟨top, s.now⟩] }
  | finish (job : Job Fun) (f : Fun) (hpc : s.runner = .working job) (hwork : job.work = .once f) :
      Ran s { s with runner := .checking }
  | reschedule (job : Job Fun) (f : Fun) (ms : BitVec 32) (hpc : s.runner = .working job)
      (hwork : job.work = .wrapper f ms) :
      Ran s { s with runner := .pushing { job with time := after s.now ms } }
  | push (job : Job Fun) (hpc : s.runner = .pushing job) :
      Ran s { s with
        runner := .notifying
        jobs := s.jobs ++ [{ job with behind := s.started.length }] }
  | notify (hpc : s.runner = .notifying) : Ran s { s with runner := .checking }

/-- A job that is due later is not due sooner by the clock of another. -/
theorem millisFromNow_mono {a b now : ℤ} (h : a ≤ b) : millisFromNow a now ≤ millisFromNow b now :=
  Int.tdiv_le_tdiv (by decide) (by omega)

theorem ran_of_run (hrun : s.run i = some s') : Ran s s' := by
  rw [run] at hrun
  split at hrun
  case h_1 hpc =>
    obtain rfl := Option.some_inj.mp hrun
    split_ifs with hshutdown
    · exact .exit hpc hshutdown
    · exact .enter hpc (Bool.eq_false_iff.mpr hshutdown)
  case h_2 hpc =>
    split_ifs at hrun with hjobs
    · obtain rfl := Option.some_inj.mp hrun
      exact .lookEmpty hpc hjobs
    · obtain ⟨top, htop, rfl⟩ := Option.map_eq_some_iff.mp hrun
      obtain ⟨hi, hleast⟩ := top_eq_some_iff.mp htop
      exact .look hpc top (List.mem_of_getElem? hi) hleast
  case h_3 interval clock hpc =>
    obtain rfl := Option.some_inj.mp hrun
    exact .block interval clock hpc
  case h_4 interval looked called hpc =>
    obtain rfl := Option.some_inj.mp hrun
    exact .timeout interval looked called hpc
  case h_5 hpc =>
    obtain rfl := Option.some_inj.mp hrun
    split_ifs with hshutdown
    · exact .stop hpc hshutdown
    · exact .check hpc (Bool.eq_false_iff.mpr hshutdown)
  case h_6 hpc =>
    split_ifs at hrun with hjobs
    · obtain rfl := Option.some_inj.mp hrun
      exact .nothingDue hpc (by simp [hjobs])
    · obtain ⟨top, htop, rfl⟩ := Option.map_eq_some_iff.mp hrun
      obtain ⟨hi, hleast⟩ := top_eq_some_iff.mp htop
      split_ifs with hdue
      · exact .nothingDue hpc fun job hjob =>
          Int.lt_of_lt_of_le hdue (millisFromNow_mono (hleast job hjob))
      · exact .take hpc i top hi hleast (Int.not_lt.mp hdue)
  case h_7 job hpc =>
    split at hrun
    case h_1 f hwork =>
      obtain rfl := Option.some_inj.mp hrun
      exact .finish job f hpc hwork
    case h_2 f ms hwork =>
      obtain rfl := Option.some_inj.mp hrun
      exact .reschedule job f ms hpc hwork
  case h_8 job hpc =>
    obtain rfl := Option.some_inj.mp hrun
    exact .push job hpc
  case h_9 hpc =>
    obtain rfl := Option.some_inj.mp hrun
    exact .notify hpc
  case h_10 => cases hrun

/-- One case for each step `shutdown` can take. -/
inductive Closed (s : DeadlineThread Fun) : DeadlineThread Fun → Prop
  | exchange (hpc : s.closer = .idle) : Closed s { s with shutdown := true, closer := .notifying }
  | notifyAll (hpc : s.closer = .notifying) :
      Closed s { s with runner := wake s.runner, closer := .joining }
  | join (hpc : s.closer = .joining) (hexited : s.runner = .exited) :
      Closed s { s with closer := .returned }

theorem closed_of_close (hclose : s.close = some s') : Closed s s' := by
  rw [close] at hclose
  split at hclose
  case h_1 hpc =>
    obtain rfl := Option.some_inj.mp hclose
    exact .exchange hpc
  case h_2 hpc =>
    obtain rfl := Option.some_inj.mp hclose
    exact .notifyAll hpc
  case h_3 hpc =>
    split at hclose
    case h_1 hexited =>
      obtain rfl := Option.some_inj.mp hclose
      exact .join hpc hexited
    case h_2 => cases hclose
  case h_4 => cases hclose

theorem push_eq_some_iff : s.push i = some s' ↔ ∃ job, s.pushing[i]? = some job ∧
    s' = { s with
      pushing := s.pushing.eraseIdx i
      jobs := s.jobs ++ [{ job with behind := s.started.length }]
      notifying := s.notifying + 1 } := by
  rw [push, Option.map_eq_some_iff]
  exact exists_congr fun job => and_congr_right fun _ => eq_comm

theorem notify_eq_some_iff : s.notify = some s' ↔ 0 < s.notifying ∧
    s' = { s with runner := wake s.runner, notifying := s.notifying - 1 } := by
  rw [notify, Nat.pos_iff_ne_zero]
  split_ifs with h
  · simp [h]
  · simp [h, eq_comm]

end DeadlineThread

end Turbolib
