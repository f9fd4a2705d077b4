import Turbolib.Concurrent.DeadlineThread
import Mathlib.Data.Finset.Max

/-!
# Waking the deadline thread up

The thread looks at the queue, lets go of the mutex and then blocks for the time it has
found. `notify_one` and `notify_all` leave nothing behind for a thread that has not blocked
yet: as long as none of them comes in between, the thread does not sleep longer than the
jobs in the queue could wait when it looked at them, and `shutdown` does not leave it asleep.

## Main definitions

* `DeadlineThread.InTime` — the time that the thread blocks for is not too long.
* `DeadlineThread.Heard` — no notification is lost on a thread that is about to block.
* `Runner.stepsLeft` — how many steps the thread takes at most before it exits.
-/

namespace Turbolib

variable {Fun : Type}

/-- The time the thread blocks for, with the clock when it looked at the jobs and when the wait
began; the wait of a thread that is about to block can begin at once. -/
def Runner.waits : Runner Fun → Option (BitVec 32 × ℤ × ℤ)
  | .entering interval clock => some (interval, clock, clock)
  | .blocked interval looked called => some (interval, looked, called)
  | _ => none

/-- Past the test of `_shutdown` and on the way to block. -/
def Runner.isLate : Runner Fun → Bool
  | .looking | .entering _ _ => true
  | _ => false

def Runner.isBlocked : Runner Fun → Bool
  | .blocked _ _ _ => true
  | _ => false

/-- How many steps the thread takes at most before it exits, if it does not block. -/
def Runner.stepsLeft : Runner Fun → ℕ
  | .exited => 0
  | .testing => 1
  | .checking => 2
  | .notifying => 3
  | .pushing _ => 4
  | .working _ => 5
  | .taking => 6
  | .looking | .entering _ _ | .blocked _ _ _ => 0

/-- `notify_all` has been done. -/
def Closer.hasNotified : Closer → Bool
  | .joining | .returned => true
  | _ => false

namespace DeadlineThread

variable {s s' : DeadlineThread Fun} {a : Action Fun}

/-! ## How long the thread blocks -/

/-- Whoever looked at the jobs at `looked` and waits for `interval` from `called` on is back when
a job is due, or at once, but for what the clock went on from the look to the wait. -/
def InTime (s : DeadlineThread Fun) (interval : BitVec 32) (looked called : ℤ) : Prop :=
  ∀ job ∈ s.jobs,
    called + interval.toNat * millisecond ≤ max looked job.time + (called - looked)

instance decidableInTime (s : DeadlineThread Fun) (interval : BitVec 32) (looked called : ℤ) :
    Decidable (s.InTime interval looked called) :=
  inferInstanceAs (Decidable (∀ job ∈ s.jobs, _ ≤ max looked job.time + (called - looked)))

theorem intervalUntil_le (time now : ℤ) :
    now + (intervalUntil time now).toNat * millisecond ≤ max now time := by
  rw [intervalUntil, millisFromNow, millisecond]
  rcases Int.le_total 0 (time - now) with h | h
  · rw [Int.tdiv_eq_ediv_of_nonneg h]
    split_ifs
    · simp
    · rw [BitVec.toNat_ofInt]
      omega
  · have hle := Int.tdiv_le_tdiv (by decide : (0 : ℤ) < 1000000) h
    rw [Int.zero_tdiv] at hle
    split_ifs
    · simp
    · have hzero : (time - now).tdiv 1000000 = 0 := by omega
      simp [hzero]

/-! ## While no notification is lost -/

/-- Where `notify_one` comes before the thread has blocked, another call is about to notify
or the thread does not wait too long; `notify_all` comes before the thread has tested
`_shutdown`, or when it has blocked. -/
def Heard (s : DeadlineThread Fun) : Action Fun → Prop
  | .notify =>
    match s.runner with
    | .entering interval clock => 1 < s.notifying ∨ s.InTime interval clock clock
    | _ => True
  | .close => s.closer = .notifying → s.runner.isLate = false
  | _ => True

instance decidableHeard (s : DeadlineThread Fun) (a : Action Fun) : Decidable (Heard s a) :=
  match a with
  | .notify => by
    unfold Heard
    cases s.runner <;> infer_instance
  | .close => inferInstanceAs (Decidable (_ → s.runner.isLate = false))
  | .tick _ | .schedule _ _ | .scheduleRepeat _ _ | .push _ | .run _ => isTrue trivial

/-- The thread does not wait too long while nobody is about to notify it, and does not wait
at all once `shutdown` has notified it. -/
structure Awake (s : DeadlineThread Fun) : Prop where
  inTime : ∀ interval looked called, s.runner.waits = some (interval, looked, called) →
    0 < s.notifying ∨ s.InTime interval looked called
  shutdown : s.closer ≠ .idle → s.shutdown = true
  left : s.closer.hasNotified = true → s.runner.isLate = false ∧ s.runner.isBlocked = false

theorem awake_start (now : ℤ) : (start now : DeadlineThread Fun).Awake := by
  constructor <;> simp [start, Runner.waits, Closer.hasNotified]

theorem Awake.run (h : s.Awake) (hran : Ran s s') : s'.Awake := by
  have hwaits := h.inTime
  have hleft := h.left
  have hshutdown := h.shutdown
  cases hran with
  | look hpc top hmem htop =>
    refine ⟨fun interval looked called hinterval => Or.inr fun job hjob => ?_, hshutdown, ?_⟩
    · obtain ⟨rfl, rfl, rfl⟩ :
          intervalUntil top.time s.now = interval ∧ s.now = looked ∧ s.now = called := by
        simpa [Runner.waits] using hinterval
      have := intervalUntil_le top.time s.now
      have := htop job hjob
      omega
    · exact fun hnotified => absurd (hleft hnotified).1 (by simp [hpc, Runner.isLate])
  | lookEmpty hpc hjobs =>
    refine ⟨fun interval looked called _ => Or.inr fun job hjob => ?_, hshutdown, ?_⟩
    · rw [hjobs] at hjob
      cases hjob
    · exact fun hnotified => absurd (hleft hnotified).1 (by simp [hpc, Runner.isLate])
  | block interval clock hpc =>
    refine ⟨?_, hshutdown, ?_⟩
    · intro interval' looked called hwait
      obtain ⟨rfl, rfl, rfl⟩ : interval = interval' ∧ clock = looked ∧ s.now = called := by
        simpa [Runner.waits] using hwait
      refine (hwaits interval clock clock (by rw [hpc]; rfl)).imp_right fun hin job hjob => ?_
      have := hin job hjob
      omega
    · exact fun hnotified => absurd (hleft hnotified).1 (by simp [hpc, Runner.isLate])
  | enter hpc hrunning =>
    refine ⟨by simp [Runner.waits], hshutdown, fun hnotified => ?_⟩
    have hclosed := hshutdown (by rintro hidle; simp [hidle, Closer.hasNotified] at hnotified)
    rw [hrunning] at hclosed
    cases hclosed
  | _ => exact ⟨by simp [Runner.waits], hshutdown, by simp [Runner.isLate, Runner.isBlocked]⟩

@[simp] theorem isBlocked_wake (runner : Runner Fun) : (wake runner).isBlocked = false := by
  cases runner <;> rfl

@[simp] theorem isLate_wake (runner : Runner Fun) : (wake runner).isLate = runner.isLate := by
  cases runner <;> rfl

/-- The thread has not blocked yet, if it waits after a notification. -/
theorem entering_of_waits_wake {runner : Runner Fun} {interval : BitVec 32} {looked called : ℤ}
    (h : (wake runner).waits = some (interval, looked, called)) :
    runner = .entering interval looked ∧ looked = called := by
  cases runner with
  | entering i clock =>
    obtain ⟨rfl, rfl, rfl⟩ : i = interval ∧ clock = looked ∧ clock = called := by
      simpa [wake, Runner.waits] using h
    exact ⟨rfl, rfl⟩
  | _ => simp [wake, Runner.waits] at h

theorem Awake.notify (h : s.Awake) (hguard : Heard s .notify) (hnotify : s.notify = some s') :
    s'.Awake := by
  obtain ⟨hpos, rfl⟩ := notify_eq_some_iff.mp hnotify
  refine ⟨fun interval looked called hwait => ?_, h.shutdown, fun hnotified => ?_⟩
  · obtain ⟨hentering, rfl⟩ := entering_of_waits_wake hwait
    rw [Heard, hentering] at hguard
    rcases hguard with hmore | hin
    · exact Or.inl (by simp only; omega)
    · exact Or.inr hin
  · exact ⟨(isLate_wake _).trans (h.left hnotified).1, isBlocked_wake _⟩

theorem Awake.close (h : s.Awake) (hguard : Heard s .close) (hclose : s.close = some s') :
    s'.Awake := by
  cases closed_of_close hclose with
  | exchange hpc =>
    exact ⟨h.inTime, fun _ => rfl, fun hnotified => by cases hnotified⟩
  | notifyAll hpc =>
    refine ⟨fun interval looked called hwait => ?_, fun _ => h.shutdown (by simp [hpc]), fun _ =>
      ⟨(isLate_wake _).trans (hguard hpc), isBlocked_wake _⟩⟩
    obtain ⟨hentering, rfl⟩ := entering_of_waits_wake hwait
    exact h.inTime interval looked looked (by rw [hentering]; rfl)
  | join hpc hexited =>
    exact ⟨h.inTime, fun _ => h.shutdown (by simp [hpc]), fun _ => h.left (by rw [hpc]; rfl)⟩

theorem Awake.step (h : s.Awake) (hguard : Heard s a) (hstep : step s a = some s') :
    s'.Awake := by
  cases a with
  | tick now | schedule f ms | scheduleRepeat f ms =>
    obtain rfl := Option.some_inj.mp hstep
    exact ⟨h.inTime, h.shutdown, h.left⟩
  | push i =>
    obtain ⟨job, -, rfl⟩ := push_eq_some_iff.mp hstep
    exact ⟨fun _ _ _ _ => Or.inl (Nat.succ_pos _), h.shutdown, h.left⟩
  | notify => exact h.notify hguard hstep
  | run i => exact h.run (ran_of_run hstep)
  | close => exact h.close hguard hstep

/-- A job is pushed and notified while the thread, which has found nothing to do, is about to
block: it is due at once, and the thread sleeps for seven weeks. -/
example :
    ∃ s : DeadlineThread Unit, Reachable step (start 0) s ∧
      s.runner = .blocked 4294967295 0 0 ∧ s.notifying = 0 ∧ ¬s.InTime 4294967295 0 0 :=
  exists_reaches [.run 0, .run 0, .schedule () 0, .push 0, .notify, .run 0] (by decide)

/-! ## Once `shutdown` has been called -/

/-- `shutdown` has been called, and the thread is not on the way to block. -/
structure Leaving (s : DeadlineThread Fun) : Prop where
  shutdown : s.shutdown = true
  left : s.runner.isLate = false ∧ s.runner.isBlocked = false

/-- A step of the thread itself. -/
def Action.isRun : Action Fun → Bool
  | .run _ => true
  | _ => false

theorem stepsLeft_wake (runner : Runner Fun) (h : runner.isBlocked = false) :
    (wake runner).stepsLeft = runner.stepsLeft := by
  cases runner <;> simp_all [wake, Runner.isBlocked]

theorem Leaving.wake (h : s.Leaving) : Leaving { s with runner := DeadlineThread.wake s.runner } :=
  ⟨h.shutdown, (isLate_wake _).trans h.left.1, isBlocked_wake _⟩

theorem Leaving.run (h : s.Leaving) (hran : Ran s s') :
    s'.Leaving ∧ s'.runner.stepsLeft + 1 ≤ s.runner.stepsLeft := by
  obtain ⟨hshutdown, hlate, hblocked⟩ := h
  cases hran with
  | enter hpc hrunning | check hpc hrunning =>
    rw [hrunning] at hshutdown
    cases hshutdown
  | look hpc | lookEmpty hpc | block interval clock hpc | timeout interval looked called hpc =>
    simp [hpc, Runner.isLate, Runner.isBlocked] at hlate hblocked
  | _ =>
    refine ⟨⟨hshutdown, rfl, rfl⟩, ?_⟩
    simp [*, Runner.stepsLeft]

theorem Leaving.step (h : s.Leaving) (hstep : step s a = some s') :
    s'.Leaving ∧ s'.runner.stepsLeft + a.isRun.toNat ≤ s.runner.stepsLeft := by
  have hsame := Nat.le_of_eq (stepsLeft_wake s.runner h.left.2)
  cases a with
  | tick now | schedule f ms | scheduleRepeat f ms =>
    obtain rfl := Option.some_inj.mp hstep
    exact ⟨⟨h.shutdown, h.left⟩, Nat.le_refl _⟩
  | push i =>
    obtain ⟨job, -, rfl⟩ := push_eq_some_iff.mp hstep
    exact ⟨⟨h.shutdown, h.left⟩, Nat.le_refl _⟩
  | notify =>
    obtain ⟨-, rfl⟩ := notify_eq_some_iff.mp hstep
    exact ⟨⟨h.shutdown, h.wake.left⟩, hsame⟩
  | run i => exact h.run (ran_of_run hstep)
  | close =>
    cases closed_of_close hstep with
    | exchange => exact ⟨⟨rfl, h.left⟩, Nat.le_refl _⟩
    | notifyAll => exact ⟨⟨h.shutdown, h.wake.left⟩, hsame⟩
    | join => exact ⟨⟨h.shutdown, h.left⟩, Nat.le_refl _⟩

theorem exists_top (h : s.jobs ≠ []) : ∃ i job, s.top i = some job := by
  obtain ⟨job, hjob, hleast⟩ : ∃ job ∈ s.jobs, ∀ other ∈ s.jobs, job.time ≤ other.time := by
    classical
    simpa using Finset.exists_min_image s.jobs.toFinset Job.time (by simpa using h)
  obtain ⟨i, hi⟩ := List.getElem?_of_mem hjob
  exact ⟨i, job, top_eq_some_iff.mpr ⟨hi, hleast⟩⟩

/-- Only a thread that has exited has no next step. -/
theorem exists_run (h : s.runner ≠ .exited) : ∃ i, (s.run i).isSome = true := by
  have hqueue : s.jobs = [] ∨ ∃ i job, s.top i = some job := or_iff_not_imp_left.mpr exists_top
  cases hpc : s.runner with
  | exited => exact absurd hpc h
  | looking | taking =>
    rcases hqueue with hjobs | ⟨i, job, htop⟩
    · exact ⟨0, by simp [run, hpc, hjobs]⟩
    · refine ⟨i, ?_⟩
      simp only [run, hpc, htop, Option.map_some]
      split_ifs <;> rfl
  | working job =>
    refine ⟨0, ?_⟩
    simp only [run, hpc]
    cases job.work <;> rfl
  | _ => exact ⟨0, by simp [run, hpc]⟩

theorem stepsLeft_le (runner : Runner Fun) : runner.stepsLeft ≤ 6 := by
  cases runner <;> simp [Runner.stepsLeft]

/-- Where no notification has been lost, the thread exits within six steps after `shutdown`
has notified it, whatever the others do, so that `shutdown` returns. -/
theorem exits_of_heard (now : ℤ) (s s' : DeadlineThread Fun)
    (hrun : Reaches step Heard (start now) s) (hnotified : s.closer.hasNotified = true)
    (actions : List (Action Fun)) (hactions : actions.foldlM step s = some s') :
    actions.countP Action.isRun ≤ 6 ∧
      (s'.runner ≠ .exited → ∃ i, (s'.run i).isSome = true) := by
  have h : s.Awake :=
    hrun.invariant (awake_start now) fun _ _ _ h hguard hstep => h.step hguard hstep
  have hleaving : s.Leaving :=
    ⟨h.shutdown (by rintro hidle; simp [hidle, Closer.hasNotified] at hnotified), h.left hnotified⟩
  have hcount := (rank_add_countP_le (fun s => s.runner.stepsLeft) Action.isRun hactions hleaving
    fun _ _ _ h hstep => h.step hstep).2
  have hle := stepsLeft_le s.runner
  exact ⟨by omega, exists_run⟩

/-- The thread is blocked when it is told, and exits in two steps. -/
theorem exits_of_heard_blocked :
    ∃ s s' : DeadlineThread Unit, s'.runner = .exited ∧
      [Action.run 0, .run 0].foldlM step s = some s' ∧
      ([Action.run 0, .run 0] : List (Action Unit)).countP Action.isRun ≤ 6 ∧
      (s'.runner ≠ .exited → ∃ i, (s'.run i).isSome = true) := by
  have hrun : ∃ s : DeadlineThread Unit, Reaches step Heard (start 0) s ∧
      s.closer.hasNotified = true ∧
      (([Action.run 0, .run 0].foldlM step s).map DeadlineThread.runner) = some .exited :=
    exists_reaches (List.replicate 3 (.run 0) ++ [.close, .close]) (by decide)
  obtain ⟨s, hrun, hnotified, hexit⟩ := hrun
  obtain ⟨s', hactions, hs'⟩ := Option.map_eq_some_iff.mp hexit
  exact ⟨s, s', hs', hactions, exits_of_heard 0 s s' hrun hnotified _ hactions⟩

/-- The thread may have tested `_shutdown` already and have a job to take. -/
def mayTake (s : DeadlineThread Fun) : ℕ :=
  match s.runner with
  | .taking => 1
  | _ => 0

/-- `s'` has started what `s` has, and after that no more than `s` might take. -/
def NoMore (s s' : DeadlineThread Fun) : Prop :=
  s'.shutdown = true ∧ ∃ last, s'.started = s.started ++ last ∧
    last.length + s'.mayTake ≤ s.mayTake

theorem noMore_of_eq (hshutdown : s'.shutdown = true) (hstarted : s'.started = s.started)
    (hle : s'.mayTake ≤ s.mayTake) : NoMore s s' :=
  ⟨hshutdown, [], by rw [hstarted, List.append_nil], by simpa using hle⟩

theorem NoMore.trans {s'' : DeadlineThread Fun} (h : NoMore s s') (h' : NoMore s' s'') :
    NoMore s s'' := by
  obtain ⟨-, last, hlast, hle⟩ := h
  obtain ⟨hshutdown, last', hlast', hle'⟩ := h'
  refine ⟨hshutdown, last ++ last', by rw [hlast', hlast, List.append_assoc], ?_⟩
  rw [List.length_append]
  omega

theorem Ran.noMore (h : Ran s s') (hshutdown : s.shutdown = true) : NoMore s s' := by
  cases h with
  | check hpc hrunning =>
    rw [hrunning] at hshutdown
    cases hshutdown
  | take hpc i top => exact ⟨hshutdown, [⟨top, s.now⟩], rfl, by simp [mayTake, hpc]⟩
  | _ => exact noMore_of_eq hshutdown rfl (by simp [mayTake, *])

theorem mayTake_wake : mayTake { s with runner := wake s.runner } = s.mayTake := by
  cases hpc : s.runner <;> simp [mayTake, wake, hpc]

theorem noMore_step (hshutdown : s.shutdown = true) (hstep : step s a = some s') :
    NoMore s s' := by
  have hsame := Nat.le_of_eq (mayTake_wake (s := s))
  cases a with
  | tick now | schedule f ms | scheduleRepeat f ms =>
    obtain rfl := Option.some_inj.mp hstep
    exact noMore_of_eq hshutdown rfl (Nat.le_refl _)
  | push i =>
    obtain ⟨job, -, rfl⟩ := push_eq_some_iff.mp hstep
    exact noMore_of_eq hshutdown rfl (Nat.le_refl _)
  | notify =>
    obtain ⟨-, rfl⟩ := notify_eq_some_iff.mp hstep
    exact noMore_of_eq hshutdown rfl hsame
  | run i => exact (ran_of_run hstep).noMore hshutdown
  | close =>
    cases closed_of_close hstep with
    | exchange => exact noMore_of_eq rfl rfl (Nat.le_refl _)
    | notifyAll => exact noMore_of_eq hshutdown rfl hsame
    | join => exact noMore_of_eq hshutdown rfl (Nat.le_refl _)

/-- At most one job is started once `_shutdown` has been set, and none unless the thread had
tested it before. -/
theorem started_of_shutdown (s s' : DeadlineThread Fun) (hshutdown : s.shutdown = true)
    (hrun : Reachable step s s') :
    ∃ last, s'.started = s.started ++ last ∧ last.length ≤ 1 ∧
      (s.runner ≠ .taking → last = []) := by
  have h : NoMore s s' :=
    hrun.invariant (noMore_of_eq hshutdown rfl (Nat.le_refl _))
      fun t a t' ht _ hstep => ht.trans (noMore_step ht.1 hstep)
  obtain ⟨-, last, hlast, hle⟩ := h
  have hone : s.mayTake ≤ 1 := by
    cases hpc : s.runner <;> simp [mayTake, hpc]
  refine ⟨last, hlast, by omega, fun hpc => ?_⟩
  have hnone : s.mayTake = 0 := by
    cases hpc' : s.runner <;> simp_all [mayTake]
  exact List.length_eq_zero_iff.mp (by omega)

/-- A job that the thread was about to take is started after the call. -/
theorem started_of_shutdown_one :
    ∃ s s' : DeadlineThread Unit, s.shutdown = true ∧ s'.started.length = 1 ∧
      ∃ last, s'.started = s.started ++ last ∧ last.length ≤ 1 ∧
        (s.runner ≠ .taking → last = []) := by
  obtain ⟨s, -, hs⟩ : ∃ s : DeadlineThread Unit, Reachable step (start 0) s ∧
      s = { start 0 with
        shutdown := true, runner := .taking, closer := .notifying, jobs := [⟨0, .once (), 0, 0⟩]
        notifying := 1, calls := 1 } :=
    exists_reaches [.schedule () 0, .push 0, .run 0, .run 0, .run 0, .run 0, .run 0, .close]
      (by decide)
  obtain ⟨s', hrun, hs'⟩ : ∃ s', Reachable step s s' ∧ s'.started.length = 1 := by
    rw [hs]
    exact exists_reaches [.run 0] (by decide)
  have hshutdown : s.shutdown = true := by rw [hs]
  exact ⟨s, s', hshutdown, hs', started_of_shutdown s s' hshutdown hrun⟩

end DeadlineThread

end Turbolib
