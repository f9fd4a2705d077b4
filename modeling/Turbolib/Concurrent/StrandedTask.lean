import Turbolib.Concurrent.ThreadPool
import Turbolib.Library.Count

/-!
# Tasks left in the queue

`execute` notifies after it has put its task into the queue, and nothing remembers a
notification that no worker hears. A task is taken up when each notification finds the
queue empty again, or a worker that is blocked, or one that will still look at the queue.

## Main definitions

* `ThreadPool.Stranded` — a task waits and every worker is blocked.
* `ThreadPool.Heard` — the condition on notifications under which that does not happen.
-/

namespace Turbolib

/-- On the way from `wait` to the next `try_dequeue` that finds nothing. -/
def Worker.isAwake {Task : Type} : Worker Task → Bool
  | .woken | .leaving | .checking | .dequeuing | .holding _ | .working _ => true
  | _ => false

def Worker.isStarting {Task : Type} : Worker Task → Bool
  | .starting => true
  | _ => false

namespace ThreadPool

variable {Task : Type} {numThreads : BitVec 32} {s s' : ThreadPool Task numThreads}
  {w : Fin numThreads.toNat}

/-- A task waits in the queue, every worker is blocked and no producer is about to notify. -/
def Stranded (s : ThreadPool Task numThreads) : Prop :=
  s.queue ≠ [] ∧ (∀ w, (s.workers w).isBlocked = true) ∧ s.producing = 0

instance decidableStranded (s : ThreadPool Task numThreads) : Decidable s.Stranded :=
  inferInstanceAs (Decidable (_ ∧ _ ∧ _))

/-- Steps of the producers and the workers only. -/
def NotStopping : Action Task numThreads.toNat → Prop
  | .stop => False
  | _ => True

instance decidableNotStopping (a : Action Task numThreads.toNat) : Decidable (NotStopping a) :=
  match a with
  | .stop => isFalse id
  | .work _ _ | .enqueue _ | .notifyOne _ => isTrue trivial

/-- A notification comes when the queue is empty again, or some worker is blocked, or some
worker is on its way from `wait` to a `try_dequeue` that finds nothing. -/
def Heard (s : ThreadPool Task numThreads) : Action Task numThreads.toNat → Prop
  | .notifyOne _ =>
    s.queue = [] ∨ ∃ w, (s.workers w).isBlocked = true ∨ (s.workers w).isAwake = true
  | _ => True

instance decidableHeard (s : ThreadPool Task numThreads) (a : Action Task numThreads.toNat) :
    Decidable (Heard s a) :=
  match a with
  | .notifyOne _ => inferInstanceAs (Decidable (_ ∨ _))
  | .work _ _ | .enqueue _ | .stop => isTrue trivial

/-- How many workers have not counted themselves in `_running` yet. -/
def unstarted (s : ThreadPool Task numThreads) : ℕ := countOf Worker.isStarting s.workers

/-- Worker `w` will still look at the queue, or it has left `run`. A pool of 2 ^ 31 threads
and more turns `_running` negative; its workers leave once they test it. -/
def Attends (s : ThreadPool Task numThreads) (w : Fin numThreads.toNat) : Prop :=
  (s.workers w).isAwake = true ∨ (s.workers w).isExited = true ∨
    (s.workers w = .testing ∧ 2 ^ 31 ≤ s.running.toNat)

/-- A waiting task has a producer that is about to notify or a worker that attends to it. -/
structure Attended (s : ThreadPool Task numThreads) : Prop where
  counted : s.running.toNat + s.unstarted = numThreads.toNat
  attended : s.queue ≠ [] → 0 < s.producing ∨ ∃ w, s.Attends w

theorem isRunning_iff : s.isRunning = true ↔ 0 < s.running.toNat ∧ s.running.toNat < 2 ^ 31 := by
  have hlt := s.running.isLt
  simp only [isRunning, BitVec.toInt_eq_toNat_cond, decide_eq_true_eq]
  split <;> omega

theorem unstarted_setWorker (s : ThreadPool Task numThreads) (w : Fin numThreads.toNat)
    (pc : Worker Task) :
    (s.setWorker w pc).unstarted + (s.workers w).isStarting.toNat =
      s.unstarted + pc.isStarting.toNat :=
  countOf_update _ _ _ _

theorem unstarted_moved {pc : Worker Task} (hold : (s.workers w).isStarting = false)
    (hnew : pc.isStarting = false) : (s.setWorker w pc).unstarted = s.unstarted := by
  have hmove := unstarted_setWorker s w pc
  simpa [hold, hnew] using hmove

/-- Only a worker's first step changes `_running` and how many have not started. -/
theorem Worked.running_cases (h : Worked s w s') :
    (s.workers w = .starting ∧ s'.running = s.running + 1 ∧ s'.unstarted + 1 = s.unstarted) ∨
      ((s.workers w).isStarting = false ∧ s'.running = s.running ∧ s'.unstarted = s.unstarted) := by
  cases h with
  | count hpc =>
    have hmove := unstarted_setWorker s w .testing
    rw [hpc] at hmove
    exact Or.inl ⟨hpc, rfl, hmove⟩
  | exit hpc =>
    have hold : (s.workers w).isStarting = false := by
      obtain hpc | hpc := hpc <;> rw [hpc] <;> rfl
    exact Or.inr ⟨hold, rfl, unstarted_moved hold rfl⟩
  | _ =>
    have hold : (s.workers w).isStarting = false := by
      simp only [*]
      rfl
    exact Or.inr ⟨hold, rfl, unstarted_moved hold rfl⟩

/-- While the pool is not stopped `_running` counts the workers that have started. -/
theorem Worked.counted (h : Worked s w s')
    (hcounted : s.running.toNat + s.unstarted = numThreads.toNat) :
    s'.running.toNat + s'.unstarted = numThreads.toNat := by
  obtain ⟨-, hrunning, hunstarted⟩ | ⟨-, hrunning, hunstarted⟩ := h.running_cases
  · have hlt := numThreads.isLt
    have hone : (1 : BitVec 32).toNat = 1 := rfl
    rw [hrunning, BitVec.toNat_add, hone]
    omega
  · rw [hrunning, hunstarted, hcounted]

theorem Worked.running_le (h : Worked s w s')
    (hcounted : s.running.toNat + s.unstarted = numThreads.toNat) :
    s.running.toNat ≤ s'.running.toNat := by
  have hcounted' := h.counted hcounted
  obtain ⟨-, -, hunstarted⟩ | ⟨-, hrunning, -⟩ := h.running_cases
  · omega
  · rw [hrunning]

/-- Where a worker that has started finds `_running` not positive it is negative. -/
theorem running_negative (hcounted : s.running.toNat + s.unstarted = numThreads.toNat)
    (hstarted : (s.workers w).isStarting = false) (hrun : s.isRunning = false) :
    2 ^ 31 ≤ s.running.toNat := by
  have hlt : s.unstarted < numThreads.toNat := countOf_lt hstarted
  have hpos : 0 < s.running.toNat := by omega
  by_contra hneg
  exact absurd (isRunning_iff.mpr ⟨hpos, by omega⟩) (by simp [hrun])

theorem Worked.other {v : Fin numThreads.toNat} (h : Worked s w s') (hne : v ≠ w) :
    s'.workers v = s.workers v := by
  cases h <;> simp [setWorker, hne]

theorem Worked.producing (h : Worked s w s') : s'.producing = s.producing := by
  cases h <;> rfl

/-- A worker that attends to the queue does so until it finds it empty. -/
theorem Worked.attends_self (h : Worked s w s')
    (hcounted : s.running.toNat + s.unstarted = numThreads.toNat) (hqueue : s'.queue ≠ [])
    (hattends : s.Attends w) : s'.Attends w := by
  cases h with
  | enter hpc hrun =>
    have hpos := isRunning_iff.mp hrun
    simp [Attends, hpc, Worker.isAwake, Worker.isExited] at hattends
    omega
  | empty _ hempty => exact absurd hempty hqueue
  | drop hpc hrun =>
    have hneg : 2 ^ 31 ≤ s.running.toNat :=
      running_negative (w := w) hcounted (by rw [hpc]; rfl) hrun
    exact Or.inr (Or.inr ⟨by simp, hneg⟩)
  | exit => exact Or.inr (Or.inl (by simp [Worker.isExited]))
  | _ => simp_all [Attends, Worker.isAwake, Worker.isExited]

theorem Worked.queue_cases (h : Worked s w s') : s'.queue = s.queue ∨ s'.Attends w := by
  cases h with
  | dequeue => exact Or.inr (Or.inl (by simp [Worker.isAwake]))
  | _ => exact Or.inl rfl

theorem Attended.work {i : ℕ} (hinv : s.Attended) (hwork : s.work w i = some s') : s'.Attended := by
  have h := work_cases hwork
  refine ⟨h.counted hinv.counted, fun hqueue => ?_⟩
  obtain hsame | hattends := h.queue_cases
  · rw [hsame] at hqueue
    obtain hproducing | ⟨v, hv⟩ := hinv.attended hqueue
    · exact Or.inl (h.producing ▸ hproducing)
    · refine Or.inr ⟨v, ?_⟩
      by_cases hvw : v = w
      · subst hvw
        exact h.attends_self hinv.counted (hsame ▸ hqueue) hv
      · have hle := h.running_le hinv.counted
        simp only [Attends, h.other hvw] at hv ⊢
        obtain hv | hv | ⟨hv, hneg⟩ := hv
        · exact Or.inl hv
        · exact Or.inr (Or.inl hv)
        · exact Or.inr (Or.inr ⟨hv, hneg.trans hle⟩)
  · exact Or.inr ⟨w, hattends⟩

theorem Attended.notifyOne {waiter : Option (Fin numThreads.toNat)} (hinv : s.Attended)
    (hheard : Heard s (.notifyOne waiter)) (hnotify : s.notifyOne waiter = some s') :
    s'.Attended := by
  obtain ⟨w, hblocked, rfl⟩ | ⟨hnone, rfl⟩ := notifyOne_cases hnotify
  · have hold : (s.workers w).isStarting = false := by
      cases hpc : s.workers w <;> simp [hpc, Worker.isBlocked] at hblocked
      rfl
    have hcounted : s.running.toNat + (s.setWorker w .woken).unstarted = numThreads.toNat := by
      rw [unstarted_moved hold rfl, hinv.counted]
    exact ⟨hcounted, fun _ => Or.inr ⟨w, Or.inl (by simp [Worker.isAwake])⟩⟩
  · refine ⟨hinv.counted, fun hqueue => ?_⟩
    obtain hempty | ⟨w, hblocked | hawake⟩ := hheard
    · exact absurd hempty hqueue
    · simp [hnone w] at hblocked
    · exact Or.inr ⟨w, Or.inl hawake⟩

theorem Attended.step {a : Action Task numThreads.toNat} (hinv : s.Attended)
    (hnot : NotStopping a) (hheard : Heard s a) (hstep : step s a = some s') : s'.Attended := by
  cases a with
  | work w i => exact hinv.work hstep
  | enqueue task =>
    obtain rfl := Option.some.inj hstep
    exact ⟨hinv.counted, fun _ => Or.inl (Nat.succ_pos _)⟩
  | notifyOne waiter => exact hinv.notifyOne hheard hstep
  | stop => exact hnot.elim

theorem start_attended : (start : ThreadPool Task numThreads).Attended where
  counted := by simp [start, unstarted, countOf, Worker.isStarting]
  attended hqueue := absurd rfl hqueue

theorem Attended.not_stranded (hinv : s.Attended) : ¬s.Stranded := by
  rintro ⟨hqueue, hblocked, hproducing⟩
  obtain hpos | ⟨w, hw⟩ := hinv.attended hqueue
  · omega
  · have hw' := hblocked w
    cases hpc : s.workers w <;>
      simp_all [Attends, Worker.isBlocked, Worker.isAwake, Worker.isExited]

/-- In a run of producers and workers in which every notification is heard no task is
stranded. -/
theorem not_stranded_of_heard (numThreads : BitVec 32) (s : ThreadPool Task numThreads)
    (hrun : Reaches step (fun s a => NotStopping a ∧ Heard s a) start s) : ¬s.Stranded := by
  have hinv : s.Attended := hrun.invariant start_attended
    fun _ _ _ hinv ⟨hnot, hheard⟩ hstep => hinv.step hnot hheard hstep
  exact hinv.not_stranded

/-- The worker of a pool of one. -/
def onlyWorker : Fin (1#32).toNat := ⟨0, by decide⟩

/-- The worker blocks, is woken up for task 7 and takes it out of the queue. -/
theorem not_stranded_of_heard_one :
    ∃ s : ThreadPool ℕ 1#32, s.workers onlyWorker = .holding 7 ∧ ¬s.Stranded := by
  have hrun : ∃ s : ThreadPool ℕ 1#32, Reaches step (fun s a => NotStopping a ∧ Heard s a) start s ∧
      s.workers onlyWorker = .holding 7 :=
    exists_reaches
      (List.replicate 5 (.work onlyWorker 0) ++ [.enqueue 7, .notifyOne (some onlyWorker)] ++
        List.replicate 4 (.work onlyWorker 0))
      (by decide)
  obtain ⟨s, hrun, hs⟩ := hrun
  exact ⟨s, hs, not_stranded_of_heard 1#32 s hrun⟩

/-- The only worker has tested `_running` and is about to call `wait` when a task is put
into the queue. Nobody hears of it, and the worker blocks. -/
theorem lost_notification :
    ∃ s : ThreadPool ℕ 1#32, Reaches step (fun _ a => NotStopping a) start s ∧ s.Stranded :=
  exists_reaches
    (List.replicate 2 (.work onlyWorker 0) ++ [.enqueue 7, .notifyOne none] ++
      List.replicate 3 (.work onlyWorker 0))
    (by decide)

end ThreadPool

end Turbolib
