import Turbolib.Concurrent.DeadlineThread
import Turbolib.Library.Count
import Turbolib.Library.Ledger

/-!
# When jobs are run

No job is lost or run twice; a job is started when it is due, rounded down to a
millisecond, and never before one that was in the queue and due sooner. A job of
`schedule_repeat` is run again its interval later.

## Main definitions

* `DeadlineThread.copies` — how often the job of a call is somewhere.
* `DeadlineThread.InOrder` — the order in which jobs were started.
* `DeadlineThread.Spaced` — how far the runs of a repeated job are apart.
-/

namespace Turbolib

variable {Fun : Type}

def Work.isOnce : Work Fun → Bool
  | .once _ => true
  | .wrapper _ _ => false

/-- The job that the thread has in its hands and is going to push again. -/
def Runner.again : Runner Fun → List (Job Fun)
  | .working job => if job.work.isOnce then [] else [job]
  | .pushing job => [job]
  | _ => []

namespace DeadlineThread

variable {s s' : DeadlineThread Fun} {a : Action Fun} {now : ℤ}

@[simp] theorem again_wake (runner : Runner Fun) : (wake runner).again = runner.again := by
  cases runner <;> rfl

/-! ## One run for each call -/

/-- The jobs that were started and are not to be run again. -/
def spent (s : DeadlineThread Fun) : List (Job Fun) :=
  (s.started.map Start.job).filter fun job => job.work.isOnce

def isOf (ticket : ℕ) (job : Job Fun) : Bool := job.ticket = ticket

/-- How often the job of a call is on its way into the queue, in the queue, about to be
pushed again, or spent. -/
def copies (s : DeadlineThread Fun) (ticket : ℕ) : ℕ :=
  s.pushing.countP (isOf ticket) + s.jobs.countP (isOf ticket) +
    s.runner.again.countP (isOf ticket) + s.spent.countP (isOf ticket)

theorem Ran.copies_eq (h : Ran s s') (ticket : ℕ) : s'.copies ticket = s.copies ticket := by
  cases h with
  | take hpc i top hi =>
    have hsplit := countP_eraseIdx hi (isOf ticket)
    simp only [copies, spent, hpc, Runner.again, List.map_append, List.filter_append,
      List.countP_append, List.map_cons, List.map_nil, List.countP_nil, List.filter_cons,
      List.filter_nil]
    cases top.work.isOnce <;> cases hof : isOf ticket top <;> simp [hof] at hsplit ⊢ <;> omega
  | finish job f hpc hwork => simp [copies, spent, hpc, Runner.again, hwork, Work.isOnce]
  | reschedule job f ms hpc hwork =>
    simp [copies, spent, hpc, Runner.again, hwork, Work.isOnce, isOf, List.countP_cons]
  | push job hpc =>
    simp [copies, spent, hpc, Runner.again, isOf, List.countP_cons]
    omega
  | _ => simp [copies, spent, Runner.again, *]

theorem copies_call (work : Work Fun) (ms : BitVec 32) (ticket : ℕ) :
    (s.call work ms).copies ticket = s.copies ticket + if s.calls = ticket then 1 else 0 := by
  simp only [copies, call, spent, List.countP_append, List.countP_singleton, isOf,
    decide_eq_true_eq]
  omega

theorem copies_push {i : ℕ} (hpush : s.push i = some s') (ticket : ℕ) :
    s'.copies ticket = s.copies ticket := by
  obtain ⟨job, hi, rfl⟩ := push_eq_some_iff.mp hpush
  have hsplit := countP_eraseIdx hi (isOf ticket)
  have hbehind : isOf ticket { job with behind := s.started.length } = isOf ticket job := rfl
  simp only [copies, spent, List.countP_append, List.countP_singleton, hbehind]
  cases hof : isOf ticket job <;> simp [hof] at hsplit ⊢ <;> omega

theorem copies_close (hclose : s.close = some s') (ticket : ℕ) :
    s'.copies ticket = s.copies ticket := by
  cases closed_of_close hclose with
  | exchange => rfl
  | notifyAll => simp [copies, spent]
  | join => rfl

/-- Each call's job is in one place, and nothing else is. -/
def OneEach (s : DeadlineThread Fun) : Prop :=
  ∀ ticket, s.copies ticket = if ticket < s.calls then 1 else 0

theorem OneEach.call (h : s.OneEach) (work : Work Fun) (ms : BitVec 32) :
    (s.call work ms).OneEach := by
  intro ticket
  rw [copies_call, h ticket]
  change _ = if ticket < s.calls + 1 then 1 else 0
  split_ifs <;> omega

theorem Ran.calls (h : Ran s s') : s'.calls = s.calls := by
  cases h <;> rfl

theorem OneEach.step (h : s.OneEach) (hstep : step s a = some s') : s'.OneEach := by
  cases a with
  | tick now =>
    obtain rfl := Option.some_inj.mp hstep
    exact h
  | schedule f ms =>
    obtain rfl := Option.some_inj.mp hstep
    exact h.call _ _
  | scheduleRepeat f ms =>
    obtain rfl := Option.some_inj.mp hstep
    exact h.call _ _
  | push i =>
    intro ticket
    rw [copies_push hstep, h ticket]
    obtain ⟨job, -, rfl⟩ := push_eq_some_iff.mp hstep
    rfl
  | notify =>
    obtain ⟨-, rfl⟩ := notify_eq_some_iff.mp hstep
    intro ticket
    simpa [copies, spent] using h ticket
  | run i =>
    intro ticket
    rw [(ran_of_run hstep).copies_eq, h ticket, (ran_of_run hstep).calls]
  | close =>
    intro ticket
    rw [copies_close hstep, h ticket]
    cases closed_of_close hstep <;> rfl

/-- In every run, the job of each call is in one place: on its way into the queue, in the
queue, with the thread, which pushes it again, or, if it is no repeated one, spent. -/
theorem oneEach_of_reachable (now : ℤ) (s : DeadlineThread Fun)
    (hrun : Reachable step (start now) s) : s.OneEach :=
  hrun.invariant (fun ticket => by simp [start, copies, spent, Runner.again])
    fun _ _ _ h _ hstep => h.step hstep

/-- One job is spent, and another is still on its way into the queue. -/
theorem oneEach_of_reachable_two :
    ∃ s : DeadlineThread Unit, s.calls = 2 ∧ s.started.length = 1 ∧ s.pushing.length = 1 ∧
      s.OneEach := by
  have hrun : ∃ s : DeadlineThread Unit, Reachable step (start 0) s ∧
      s.calls = 2 ∧ s.started.length = 1 ∧ s.pushing.length = 1 :=
    exists_reaches ([.schedule () 0, .push 0, .schedule () 7] ++ List.replicate 6 (.run 0))
      (by decide)
  obtain ⟨s, hrun, hcalls, hstarted, hpushing⟩ := hrun
  exact ⟨s, hcalls, hstarted, hpushing, oneEach_of_reachable 0 s hrun⟩

/-! ## When a job is started -/

/-- A job is started less than a millisecond before it is due at the earliest, and not
before one that was in the queue already and is due sooner. -/
structure InOrder (s : DeadlineThread Fun) : Prop where
  due : ∀ st ∈ s.started, st.job.time - st.clock < millisecond
  sorted : ∀ (i j : ℕ) (a b : Start Fun), s.started[i]? = some a → s.started[j]? = some b →
    i < j → b.job.behind ≤ i → a.job.time ≤ b.job.time

/-- What is in the queue is due after all that was started since it was pushed. -/
structure Queued (s : DeadlineThread Fun) : Prop extends InOrder s where
  queued : ∀ job ∈ s.jobs, ∀ (i : ℕ) (a : Start Fun), s.started[i]? = some a →
    job.behind ≤ i → a.job.time ≤ job.time

theorem millisFromNow_nonpos_iff {time now : ℤ} :
    millisFromNow time now ≤ 0 ↔ time - now < millisecond := by
  rw [millisFromNow, millisecond]
  rcases Int.le_total 0 (time - now) with h | h
  · rw [Int.tdiv_eq_ediv_of_nonneg h]
    omega
  · have := Int.tdiv_le_tdiv (by decide : (0 : ℤ) < 1000000) h
    rw [Int.zero_tdiv] at this
    omega

/-- Nothing was started after the last start. -/
theorem Queued.push (h : s.Queued) (job : Job Fun) :
    ∀ other ∈ s.jobs ++ [{ job with behind := s.started.length }], ∀ (i : ℕ) (a : Start Fun),
      s.started[i]? = some a → other.behind ≤ i → a.job.time ≤ other.time := by
  intro other hother i a ha hi
  rcases List.mem_append.mp hother with hother | hother
  · exact h.queued other hother i a ha hi
  · rw [List.mem_singleton.mp hother] at hi
    have := (List.getElem?_eq_some_iff.mp ha).1
    simp only at hi
    omega

theorem Queued.take (h : s.Queued) {i : ℕ} {top : Job Fun} (hi : s.jobs[i]? = some top)
    (htop : ∀ other ∈ s.jobs, top.time ≤ other.time) (hdue : millisFromNow top.time s.now ≤ 0) :
    Queued { s with
      runner := .working top
      jobs := s.jobs.eraseIdx i
      started := s.started ++ [⟨top, s.now⟩] } where
  due st hst := by
    rcases List.mem_append.mp hst with hst | hst
    · exact h.due st hst
    · rw [List.mem_singleton.mp hst]
      exact millisFromNow_nonpos_iff.mp hdue
  sorted j k a b ha hb hjk hbehind := by
    rcases getElem?_concat_eq_some_iff.mp hb with hb | ⟨rfl, rfl⟩
    · have hk := (List.getElem?_eq_some_iff.mp hb).1
      rw [List.getElem?_append_left (hjk.trans hk)] at ha
      exact h.sorted j k a b ha hb hjk hbehind
    · rw [List.getElem?_append_left hjk] at ha
      exact h.queued top (List.mem_of_getElem? hi) j a ha hbehind
  queued job hjob j a ha hbehind := by
    have hmem : job ∈ s.jobs := List.mem_of_mem_eraseIdx hjob
    rcases getElem?_concat_eq_some_iff.mp ha with ha | ⟨-, rfl⟩
    · exact h.queued job hmem j a ha hbehind
    · exact htop job hmem

theorem Queued.run (h : s.Queued) (hran : Ran s s') : s'.Queued := by
  cases hran with
  | take hpc i top hi htop hdue => exact h.take hi htop hdue
  | push job hpc => exact ⟨⟨h.due, h.sorted⟩, h.push job⟩
  | _ => exact ⟨⟨h.due, h.sorted⟩, h.queued⟩

theorem Queued.step (h : s.Queued) (hstep : step s a = some s') : s'.Queued := by
  cases a with
  | tick now =>
    obtain rfl := Option.some_inj.mp hstep
    exact ⟨⟨h.due, h.sorted⟩, h.queued⟩
  | schedule f ms | scheduleRepeat f ms =>
    obtain rfl := Option.some_inj.mp hstep
    exact ⟨⟨h.due, h.sorted⟩, h.queued⟩
  | push i =>
    obtain ⟨job, -, rfl⟩ := push_eq_some_iff.mp hstep
    exact ⟨⟨h.due, h.sorted⟩, h.push job⟩
  | notify =>
    obtain ⟨-, rfl⟩ := notify_eq_some_iff.mp hstep
    exact ⟨⟨h.due, h.sorted⟩, h.queued⟩
  | run i => exact h.run (ran_of_run hstep)
  | close => cases closed_of_close hstep <;> exact ⟨⟨h.due, h.sorted⟩, h.queued⟩

/-- In every run, whatever the clock is set to, jobs are started when they are due, and
those that wait together in the order in which they are due. -/
theorem inOrder_of_reachable (now : ℤ) (s : DeadlineThread Fun)
    (hrun : Reachable step (start now) s) : s.InOrder := by
  have h : s.Queued :=
    hrun.invariant ⟨⟨by simp [start], by simp [start]⟩, by simp [start]⟩
      fun _ _ _ h _ hstep => h.step hstep
  exact h.toInOrder

/-- The second call's job is due first, and is started first. -/
theorem inOrder_of_reachable_two :
    ∃ s : DeadlineThread Unit, s.started.map (fun st => st.job.ticket) = [1, 0] ∧ s.InOrder := by
  have hrun : ∃ s : DeadlineThread Unit, Reachable step (start 0) s ∧
      s.started.map (fun st => st.job.ticket) = [1, 0] :=
    exists_reaches ([.schedule () 7, .push 0, .schedule () 5, .push 0, .tick 7000000, .run 0,
      .run 1, .run 0, .run 0, .run 0, .run 1] ++ List.replicate 3 (.run 0)) (by decide)
  obtain ⟨s, hrun, hstarted⟩ := hrun
  exact ⟨s, hstarted, inOrder_of_reachable 0 s hrun⟩

/-! ## Repeated jobs -/

/-- `b` is a job of the same call of `schedule_repeat` as the job that `a` started, and is
due its interval after that. -/
def Follows (a : Start Fun) (b : Job Fun) : Prop :=
  ∃ f ms, a.job.work = .wrapper f ms ∧ b.work = .wrapper f ms ∧ after a.clock ms ≤ b.time

/-- Two runs for one call are runs of a repeated job, at least its interval apart, rounded
down to a millisecond. -/
def Spaced (s : DeadlineThread Fun) : Prop :=
  ∀ (i j : ℕ) (a b : Start Fun), s.started[i]? = some a → s.started[j]? = some b → i < j →
    a.job.ticket = b.job.ticket →
    ∃ f ms, a.job.work = .wrapper f ms ∧ b.job.work = .wrapper f ms ∧
      after a.clock ms - millisecond < b.clock

/-- The clock is not set back. -/
def Forward (s : DeadlineThread Fun) : Action Fun → Prop
  | .tick now => s.now ≤ now
  | _ => True

instance decidableForward (s : DeadlineThread Fun) (a : Action Fun) : Decidable (Forward s a) :=
  match a with
  | .tick now => inferInstanceAs (Decidable (s.now ≤ now))
  | .schedule _ _ | .scheduleRepeat _ _ | .push _ | .notify | .run _ | .close => isTrue trivial

/-- What is going to be started again. -/
structure Repeats (s : DeadlineThread Fun) : Prop where
  oneEach : s.OneEach
  past : ∀ a ∈ s.started, a.clock ≤ s.now ∧ a.job.ticket < s.calls
  pushing : ∀ job ∈ s.pushing, ∀ a ∈ s.started, a.job.ticket = job.ticket → Follows a job
  jobs : ∀ job ∈ s.jobs, ∀ a ∈ s.started, a.job.ticket = job.ticket → Follows a job
  again : ∀ job, s.runner = .pushing job → ∀ a ∈ s.started, a.job.ticket = job.ticket →
    Follows a job
  working : ∀ job, s.runner = .working job → ∀ a ∈ s.started, a.job.ticket = job.ticket →
    a.job.work = job.work
  spaced : s.Spaced

theorem repeats_start (now : ℤ) : (start now : DeadlineThread Fun).Repeats where
  oneEach ticket := by simp [start, copies, spent, Runner.again]
  past := by simp [start]
  pushing := by simp [start]
  jobs := by simp [start]
  again := by simp [start]
  working := by simp [start]
  spaced := by simp [start, Spaced]

/-- The queue and the calls have no other job of the call. -/
theorem OneEach.ticket_ne (h : s.OneEach) {i : ℕ} {top other : Job Fun}
    (hi : s.jobs[i]? = some top) (hother : other ∈ s.pushing ∨ other ∈ s.jobs.eraseIdx i) :
    top.ticket ≠ other.ticket := by
  intro heq
  have hone := h top.ticket
  have hsplit := countP_eraseIdx hi (isOf top.ticket)
  have hself : isOf top.ticket top = true := by simp [isOf]
  have hof : isOf top.ticket other = true := by simp [isOf, heq]
  rw [hself, Bool.toNat_true] at hsplit
  rw [copies] at hone
  rcases hother with hother | hother
  · have := List.countP_pos_iff.mpr ⟨other, hother, hof⟩
    split_ifs at hone <;> omega
  · have := List.countP_pos_iff.mpr ⟨other, hother, hof⟩
    split_ifs at hone <;> omega

theorem Repeats.take (h : s.Repeats) {i : ℕ} {top : Job Fun} (hi : s.jobs[i]? = some top)
    (hdue : millisFromNow top.time s.now ≤ 0) (hone : OneEach { s with
      runner := .working top
      jobs := s.jobs.eraseIdx i
      started := s.started ++ [⟨top, s.now⟩] }) :
    Repeats { s with
      runner := .working top
      jobs := s.jobs.eraseIdx i
      started := s.started ++ [⟨top, s.now⟩] } where
  oneEach := hone
  past a ha := by
    rcases List.mem_append.mp ha with ha | ha
    · exact h.past a ha
    · obtain rfl := List.mem_singleton.mp ha
      refine ⟨Int.le_refl _, ?_⟩
      by_contra hge
      have hzero := h.oneEach top.ticket
      have hpos := List.countP_pos_iff.mpr ⟨top, List.mem_of_getElem? hi,
        (by simp [isOf] : isOf top.ticket top = true)⟩
      rw [if_neg hge, copies] at hzero
      omega
  pushing job hjob a ha hticket := by
    rcases List.mem_append.mp ha with ha | ha
    · exact h.pushing job hjob a ha hticket
    · obtain rfl := List.mem_singleton.mp ha
      exact absurd hticket (h.oneEach.ticket_ne hi (Or.inl hjob))
  jobs job hjob a ha hticket := by
    rcases List.mem_append.mp ha with ha | ha
    · exact h.jobs job (List.mem_of_mem_eraseIdx hjob) a ha hticket
    · obtain rfl := List.mem_singleton.mp ha
      exact absurd hticket (h.oneEach.ticket_ne hi (Or.inr hjob))
  again job hjob := by cases hjob
  working job hjob a ha hticket := by
    obtain rfl := Runner.working.inj hjob
    rcases List.mem_append.mp ha with ha | ha
    · obtain ⟨f, ms, hfirst, hsecond, -⟩ := h.jobs top (List.mem_of_getElem? hi) a ha hticket
      exact hfirst.trans hsecond.symm
    · rw [List.mem_singleton.mp ha]
  spaced j k a b ha hb hjk hticket := by
    rcases getElem?_concat_eq_some_iff.mp hb with hb | ⟨rfl, rfl⟩
    · have hk := (List.getElem?_eq_some_iff.mp hb).1
      rw [List.getElem?_append_left (hjk.trans hk)] at ha
      exact h.spaced j k a b ha hb hjk hticket
    · rw [List.getElem?_append_left hjk] at ha
      obtain ⟨f, ms, hfirst, hsecond, hle⟩ :=
        h.jobs top (List.mem_of_getElem? hi) a (List.mem_of_getElem? ha) hticket
      have := millisFromNow_nonpos_iff.mp hdue
      exact ⟨f, ms, hfirst, hsecond, by simp only; omega⟩

theorem Follows.behind {st : Start Fun} {job : Job Fun} (h : Follows st job) (behind : ℕ) :
    Follows st { job with behind := behind } := h

/-- The thread goes on with no job in its hands. -/
theorem Repeats.leave (h : s.Repeats) {runner : Runner Fun}
    (hone : OneEach { s with runner := runner })
    (hworking : ∀ job, runner ≠ .working job) (hpushing : ∀ job, runner ≠ .pushing job) :
    Repeats { s with runner := runner } where
  oneEach := hone
  past := h.past
  pushing := h.pushing
  jobs := h.jobs
  again job hjob := absurd hjob (hpushing job)
  working job hjob := absurd hjob (hworking job)
  spaced := h.spaced

theorem Repeats.reschedule (h : s.Repeats) {job : Job Fun} {f : Fun} {ms : BitVec 32}
    (hpc : s.runner = .working job) (hwork : job.work = .wrapper f ms)
    (hone : OneEach { s with runner := .pushing { job with time := after s.now ms } }) :
    Repeats { s with runner := .pushing { job with time := after s.now ms } } where
  oneEach := hone
  past := h.past
  pushing := h.pushing
  jobs := h.jobs
  again next hnext a ha hticket := by
    obtain rfl := Runner.pushing.inj hnext
    have hpast := (h.past a ha).1
    refine ⟨f, ms, (h.working job hpc a ha hticket).trans hwork, hwork, ?_⟩
    simp only [after]
    omega
  working _ hjob := nomatch hjob
  spaced := h.spaced

/-- The thread pushes the job of a wrapper. -/
theorem Repeats.pushAgain (h : s.Repeats) {job : Job Fun} (hpc : s.runner = .pushing job)
    (hone : OneEach { s with
      runner := .notifying
      jobs := s.jobs ++ [{ job with behind := s.started.length }] }) :
    Repeats { s with
      runner := .notifying
      jobs := s.jobs ++ [{ job with behind := s.started.length }] } where
  oneEach := hone
  past := h.past
  pushing := h.pushing
  jobs other hother a ha hticket := by
    rcases List.mem_append.mp hother with hother | hother
    · exact h.jobs other hother a ha hticket
    · obtain rfl := List.mem_singleton.mp hother
      exact (h.again job hpc a ha hticket).behind _
  again _ hjob := nomatch hjob
  working _ hjob := nomatch hjob
  spaced := h.spaced

theorem Repeats.run (h : s.Repeats) (hran : Ran s s') : s'.Repeats := by
  have hone : s'.OneEach := fun ticket => by
    rw [hran.copies_eq, h.oneEach ticket, hran.calls]
  cases hran with
  | take hpc i top hi htop hdue => exact h.take hi hdue hone
  | reschedule job f ms hpc hwork => exact h.reschedule hpc hwork hone
  | push job hpc => exact h.pushAgain hpc hone
  | _ => exact h.leave hone (by simp) (by simp)

theorem Repeats.call (h : s.Repeats) (work : Work Fun) (ms : BitVec 32) :
    (s.call work ms).Repeats where
  oneEach := h.oneEach.call work ms
  past a ha := ⟨(h.past a ha).1, Nat.lt_succ_of_lt (h.past a ha).2⟩
  pushing job hjob a ha hticket := by
    rcases List.mem_append.mp hjob with hjob | hjob
    · exact h.pushing job hjob a ha hticket
    · -- nothing was started for the new call
      have := (h.past a ha).2
      rw [List.mem_singleton.mp hjob] at hticket
      simp only at hticket
      omega
  jobs := h.jobs
  again := h.again
  working := h.working
  spaced := h.spaced

theorem wake_eq_iff {runner runner' : Runner Fun} (h : wake runner = runner')
    (hne : runner' ≠ .checking) : runner = runner' := by
  cases runner <;> simp_all [wake]

theorem Repeats.wake (h : s.Repeats) (hone : OneEach { s with runner := wake s.runner }) :
    Repeats { s with runner := DeadlineThread.wake s.runner } where
  oneEach := hone
  past := h.past
  pushing := h.pushing
  jobs := h.jobs
  again job hjob := h.again job (wake_eq_iff hjob (by simp))
  working job hjob := h.working job (wake_eq_iff hjob (by simp))
  spaced := h.spaced

theorem Repeats.step (h : s.Repeats) (hguard : Forward s a) (hstep : step s a = some s') :
    s'.Repeats := by
  have hone := h.oneEach.step hstep
  cases a with
  | tick now =>
    obtain rfl := Option.some_inj.mp hstep
    exact ⟨hone, fun a ha => ⟨Int.le_trans (h.past a ha).1 hguard, (h.past a ha).2⟩, h.pushing,
      h.jobs, h.again, h.working, h.spaced⟩
  | schedule f ms | scheduleRepeat f ms =>
    obtain rfl := Option.some_inj.mp hstep
    exact h.call _ _
  | push i =>
    obtain ⟨job, hi, rfl⟩ := push_eq_some_iff.mp hstep
    refine ⟨hone, h.past, fun other hother => h.pushing other (List.mem_of_mem_eraseIdx hother),
      fun other hother a ha hticket => ?_, h.again, h.working, h.spaced⟩
    rcases List.mem_append.mp hother with hother | hother
    · exact h.jobs other hother a ha hticket
    · obtain rfl := List.mem_singleton.mp hother
      exact (h.pushing job (List.mem_of_getElem? hi) a ha hticket).behind _
  | notify =>
    obtain ⟨-, rfl⟩ := notify_eq_some_iff.mp hstep
    have hwake := h.wake hone
    exact ⟨hone, hwake.past, hwake.pushing, hwake.jobs, hwake.again, hwake.working, hwake.spaced⟩
  | run i => exact h.run (ran_of_run hstep)
  | close =>
    cases closed_of_close hstep with
    | exchange => exact ⟨hone, h.past, h.pushing, h.jobs, h.again, h.working, h.spaced⟩
    | notifyAll =>
      have hwake := h.wake hone
      exact ⟨hone, hwake.past, hwake.pushing, hwake.jobs, hwake.again, hwake.working, hwake.spaced⟩
    | join => exact ⟨hone, h.past, h.pushing, h.jobs, h.again, h.working, h.spaced⟩

/-- In every run in which the clock is not set back, the runs of a repeated job are its
interval apart, and no other job is run twice. -/
theorem spaced_of_forward (now : ℤ) (s : DeadlineThread Fun)
    (hrun : Reaches step Forward (start now) s) : s.Spaced :=
  (hrun.invariant (repeats_start now) fun _ _ _ h hguard hstep => h.step hguard hstep).spaced

/-- A job that is run every five milliseconds, after its second run has begun. -/
theorem spaced_of_forward_two :
    ∃ s : DeadlineThread Unit, s.started.map Start.clock = [5000000, 10000001] ∧ s.Spaced := by
  have hrun : ∃ s : DeadlineThread Unit, Reaches step Forward (start 0) s ∧
      s.started.map Start.clock = [5000000, 10000001] :=
    exists_reaches ([.scheduleRepeat () 5, .push 0, .notify, .run 0, .run 0, .run 0,
      .tick 5000000] ++ List.replicate 11 (.run 0) ++ [.tick 10000001] ++ List.replicate 3 (.run 0))
      (by decide)
  obtain ⟨s, hrun, hs⟩ := hrun
  exact ⟨s, hs, spaced_of_forward 0 s hrun⟩

end DeadlineThread

end Turbolib
