import Turbolib.Socket.LiveHandles

/-!
# Handles that are lost

A handle that the server was given is to be closed some day. Until then a thread is to go on
with it, or the read set or the pool has it. There are three ways to lose one: a `connect`
that fails, a connection that could not be added to the read set and is not in the pool either,
and `SimplePool::close`, which asks a closed socket for its endpoint and erases what another
one has there.

## Main definitions

* `PooledServer.Kept` — a handle is closed, or somebody has it.
* `PooledServer.Keeping` — the condition under which no handle is lost.
* `PooledServer.Lost` — a handle that is open, and that nobody has.
-/

namespace Turbolib

/-- A thread that is to put the handle into the pool or the read set, or to close it. -/
def Thread.Keeps {A : Type} (thread : Thread A) (h : ℕ) : Prop :=
  thread.fresh = some h ∨ thread = .closing h

@[grind →] theorem Thread.Keeps.handle_eq {A : Type} {thread : Thread A} {h : ℕ}
    (hkeeps : thread.Keeps h) : thread.handle = some h := by
  rcases hkeeps with hfresh | rfl
  · exact thread.handle_of_fresh hfresh
  · rfl

namespace PooledServer

variable {A : Type} {peer : ℕ → A} {s s' : PooledServer A} {t h : ℕ} {thread : Thread A}

/-- A handle is closed, in the read set, or with a thread that will see to it. -/
def Guarded (s : PooledServer A) (h : ℕ) : Prop :=
  s.closed h = true ∨ s.readSet h = true ∨ ∃ t, (s.threads t).Keeps h

/-- Some endpoint maps to the handle. -/
def Pooled (s : PooledServer A) (h : ℕ) : Prop := ∃ addr, s.pool.find addr = some h

/-- A handle is closed, or somebody has it. -/
def Kept (s : PooledServer A) (h : ℕ) : Prop := s.Guarded h ∨ s.Pooled h

/-- What is erased from the pool is closed, or somebody has it still. -/
def MayErase (s : PooledServer A) (addr : A) : Prop :=
  ∀ h, s.pool.find addr = some h → s.Guarded h ∨
    ∃ addr', addr' ≠ addr ∧ s.pool.find addr' = some h

/-- `connect` succeeds, and so does an `add` to the read set in `accept`, unless the pool has
the handle. -/
def Keeping (s : PooledServer A) : Action A → Prop
  | .connect _ ok => ok = true
  | .add t ok => ok = false → ∀ h, s.threads t = .adding .accept h → s.Pooled h
  | .erase _ addr => s.MayErase addr
  | _ => True

/-- A handle that is open, and that nobody has. -/
structure Lost (s : PooledServer A) (h : ℕ) : Prop where
  opened : s.closed h = false
  unwatched : s.readSet h = false
  unpooled : ∀ addr, s.pool.find addr ≠ some h
  unheld : ∀ t, (s.threads t).handle ≠ some h

/-! ## What one step does -/

/-- One case for each thing a step can do with a handle. -/
inductive Stepped (s : PooledServer A) : Action A → PooledServer A → Prop
  | move (a : Action A) (t : ℕ) (thread : Thread A)
      (hhandle : ∀ h, thread.handle = some h → (s.threads t).handle = some h ∨ s.readSet h = true)
      (hfresh : thread.fresh = (s.threads t).fresh)
      (hclosing : ∀ h, s.threads t ≠ .closing h ∧ thread ≠ .closing h) :
      Stepped s a (s.setThread t thread)
  | issue (a : Action A) (t : ℕ) (caller : Caller) (hcaller : caller ≠ .run)
      (hnone : (s.threads t).handle = none) :
      Stepped s a { s.setThread t (.asking caller s.next) with next := s.next + 1 }
  | refuse (t : ℕ) (hnone : (s.threads t).handle = none) :
      Stepped s (.connect t false) { s.setThread t .idle with next := s.next + 1 }
  | write (a : Action A) (writers : List (ℕ × Bool)) : Stepped s a { s with writers := writers }
  | insert (a : Action A) (t : ℕ) (caller : Caller) (h : ℕ) (endpoint : A)
      (hthread : s.threads t = .inserting caller h endpoint) (pool : SimplePool A)
      (writers : List (ℕ × Bool)) (thread : Thread A)
      (hold : ∀ addr k, s.pool.find addr = some k → pool.find addr = some k)
      (hnew : ∀ addr k, pool.find addr = some k → s.pool.find addr = some k ∨ k = h)
      (hhandle : thread = .idle ∨ thread.handle = some h)
      (hfresh : thread.fresh = if caller = .run then none else some h)
      (hclosing : ∀ h, thread ≠ .closing h) :
      Stepped s a { s.setThread t thread with pool := pool, writers := writers }
  | watch (t : ℕ) (caller : Caller) (h : ℕ) (hthread : s.threads t = .adding caller h) :
      Stepped s (.add t true)
        { s.setThread t .idle with readSet := Function.update s.readSet h true }
  | turnAway (t : ℕ) (caller : Caller) (h : ℕ) (hthread : s.threads t = .adding caller h)
      (hcaller : caller ≠ .getWriter) : Stepped s (.add t false) (s.setThread t .idle)
  | unwatch (a : Action A) (t h : ℕ) (hthread : s.threads t = .removing h) :
      Stepped s a
        { s.setThread t (.closing h) with readSet := Function.update s.readSet h false }
  | close (a : Action A) (t h : ℕ) (thread : Thread A) (hthread : (s.threads t).Keeps h)
      (hnext : thread = .idle ∨ thread = .erasing h) :
      Stepped s a
        { s.setThread t thread with closed := Function.update s.closed h true }
  | erase (t h : ℕ) (addr : A) (hthread : s.threads t = .erasing h) (pool : SimplePool A)
      (hpool : ∀ addr' k, pool.find addr' = some k ↔ addr' ≠ addr ∧ s.pool.find addr' = some k) :
      Stepped s (.erase t addr) { s.setThread t .idle with pool := pool }

theorem stepped_insert [DecidableEq A] {caller : Caller} {endpoint : A} (a : Action A)
    (hthread : s.threads t = .inserting caller h endpoint) :
    Stepped s a (s.insert t caller h endpoint) := by
  obtain ⟨pool, isnew, writer, hinsert, hold, hnew⟩ : ∃ pool isnew writer,
      s.pool.insert endpoint h = (pool, isnew, writer) ∧
      (∀ addr k, s.pool.find addr = some k → pool.find addr = some k) ∧
      ∀ addr k, pool.find addr = some k → s.pool.find addr = some k ∨ k = h := by
    cases hfind : s.pool.find endpoint with
    | some existing =>
      exact ⟨_, _, _, SimplePool.insert_of_some h hfind, fun _ _ hk => hk, fun _ _ hk => .inl hk⟩
    | none =>
      obtain ⟨pool, hinsert, hpool⟩ := SimplePool.insert_of_none h hfind
      refine ⟨pool, true, h, hinsert, fun addr k hk => ?_, fun addr k hk => ?_⟩ <;> grind
  simp only [PooledServer.insert, hinsert]
  cases caller with
  | accept =>
    exact .insert a t .accept h endpoint hthread pool _ _ hold hnew (.inr rfl) rfl (by simp)
  | run => exact .insert a t .run h endpoint hthread pool _ _ hold hnew (.inl rfl) rfl (by simp)
  | getWriter =>
    cases isnew <;>
      exact .insert a t .getWriter h endpoint hthread pool _ _ hold hnew (.inr rfl) rfl (by simp)

theorem stepped_of_step [DecidableEq A] {a : Action A} (hstep : step peer s a = some s') :
    Stepped s a s' := by
  cases a with
  | accept t =>
    simp only [PooledServer.step] at hstep
    split_ifs at hstep with hidle
    obtain rfl := Option.some.inj hstep
    exact .issue _ t .accept (by simp) (by rw [hidle]; rfl)
  | read t handle =>
    simp only [PooledServer.step] at hstep
    split_ifs at hstep with hread
    obtain rfl := Option.some.inj hstep
    refine .move _ t _ (fun h hh => ?_) (by rw [hread.1]; rfl) fun h => ?_
    · obtain rfl : handle = h := Option.some.inj hh
      exact .inr hread.2
    · simp [hread.1]
  | recv t ok =>
    simp only [PooledServer.step] at hstep
    split at hstep
    case h_1 handle hthread =>
      split_ifs at hstep
      all_goals
        obtain rfl := Option.some.inj hstep
        refine .move _ t _ (fun h hh => ?_) ?_ fun h => ?_ <;>
          simp_all [Thread.handle, Thread.fresh]
    case h_2 => cases hstep
  | getWriter t endpoint =>
    simp only [PooledServer.step] at hstep
    split_ifs at hstep with hidle
    split at hstep
    case h_1 handle hfind =>
      obtain rfl := Option.some.inj hstep
      exact .write _ _
    case h_2 =>
      obtain rfl := Option.some.inj hstep
      exact .move _ t _ (by simp [Thread.handle]) (by rw [hidle]; rfl) (by simp [hidle])
  | connect t ok =>
    simp only [PooledServer.step] at hstep
    split_ifs at hstep with hconnecting hok
    · obtain rfl := Option.some.inj hstep
      exact .issue _ t .getWriter (by simp) (by rw [hconnecting]; rfl)
    · obtain rfl := Option.some.inj hstep
      obtain rfl : ok = false := by simpa using hok
      exact .refuse t (by rw [hconnecting]; rfl)
  | endpoint t addr =>
    simp only [PooledServer.step] at hstep
    split at hstep
    case h_1 caller handle hthread =>
      split_ifs at hstep
      obtain rfl := Option.some.inj hstep
      refine .move _ t _ (fun h hh => ?_) ?_ fun h => ?_ <;>
        simp_all [Thread.handle, Thread.fresh]
    case h_2 => cases hstep
  | insert t =>
    simp only [PooledServer.step] at hstep
    split at hstep
    case h_1 caller handle endpoint hthread =>
      obtain rfl := Option.some.inj hstep
      exact stepped_insert _ hthread
    case h_2 => cases hstep
  | add t ok =>
    simp only [PooledServer.step] at hstep
    split at hstep
    case h_1 caller handle hthread =>
      split_ifs at hstep with hok hcaller
      · obtain rfl := Option.some.inj hstep
        obtain rfl : ok = true := hok
        exact .watch t caller handle hthread
      · obtain rfl := Option.some.inj hstep
        refine .move _ t _ (fun h hh => ?_) ?_ fun h => ?_ <;>
          simp_all [Thread.handle, Thread.fresh]
      · obtain rfl := Option.some.inj hstep
        obtain rfl : ok = false := by simpa using hok
        exact .turnAway t caller handle hthread hcaller
    case h_2 => cases hstep
  | remove t =>
    simp only [PooledServer.step] at hstep
    split at hstep
    case h_1 handle hthread =>
      obtain rfl := Option.some.inj hstep
      exact .unwatch _ t handle hthread
    case h_2 => cases hstep
  | close t =>
    simp only [PooledServer.step] at hstep
    split at hstep
    case h_1 handle hthread | h_2 handle hthread =>
      obtain rfl := Option.some.inj hstep
      exact .close _ t handle .idle (.inl (by rw [hthread]; rfl)) (.inl rfl)
    case h_3 handle hthread =>
      obtain rfl := Option.some.inj hstep
      exact .close _ t handle _ (.inr hthread) (.inr rfl)
    case h_4 => cases hstep
  | erase t addr =>
    simp only [PooledServer.step] at hstep
    split at hstep
    case h_1 handle hthread =>
      split_ifs at hstep
      obtain rfl := Option.some.inj hstep
      exact .erase t handle addr hthread _ fun addr' k => by grind
    case h_2 => cases hstep

/-! ## No handle is lost -/

section

variable (s : PooledServer A) (t t' h : ℕ) (thread : Thread A)

@[simp, grind =] theorem closed_setThread : (s.setThread t thread).closed h = s.closed h := rfl
@[simp, grind =] theorem readSet_setThread : (s.setThread t thread).readSet h = s.readSet h := rfl
@[simp, grind =] theorem pool_setThread : (s.setThread t thread).pool = s.pool := rfl
@[simp, grind =] theorem next_setThread : (s.setThread t thread).next = s.next := rfl

@[simp, grind =] theorem threads_setThread :
    (s.setThread t thread).threads t' = if t' = t then thread else s.threads t' :=
  Function.update_apply ..

end

theorem Guarded.setThread (hguarded : s.Guarded h)
    (hkeeps : (s.threads t).Keeps h → thread.Keeps h) : (s.setThread t thread).Guarded h := by
  rcases hguarded with hclosed | hread | ⟨t', ht'⟩
  · exact .inl hclosed
  · exact .inr (.inl hread)
  · refine .inr (.inr ⟨t', ?_⟩)
    by_cases heq : t' = t
    · subst heq
      simpa using hkeeps ht'
    · simpa [heq] using ht'

theorem guarded_setThread (hkeeps : thread.Keeps h) : (s.setThread t thread).Guarded h :=
  .inr (.inr ⟨t, by simpa using hkeeps⟩)

/-- A thread that goes on with another handle, or with none. -/
theorem Guarded.setOther {k : ℕ} (hguarded : s.Guarded h) (thread : Thread A)
    (hthread : (s.threads t).handle = some k) (hne : h ≠ k) : (s.setThread t thread).Guarded h :=
  hguarded.setThread fun hkeeps =>
    absurd (Option.some.inj (hkeeps.handle_eq.symm.trans hthread)) hne

/-- What a guard is depends on the handle's own entries, and on where the threads stand. -/
theorem Guarded.congr (hguarded : s.Guarded h) (hclosed : s'.closed h = s.closed h)
    (hread : s'.readSet h = s.readSet h) (hthreads : s'.threads = s.threads) : s'.Guarded h := by
  rw [Guarded, hclosed, hread, hthreads]
  exact hguarded

/-- A handle is left without a guard only by `accept`, when it could not be added. -/
theorem Guarded.step {a : Action A} (hguarded : s.Guarded h) (hstep : Stepped s a s') :
    s'.Guarded h ∨ ∃ t, a = .add t false ∧ s.threads t = .adding .accept h ∧
      s'.threads t = .idle := by
  cases hstep with
  | move a t thread hhandle hfresh hclosing =>
    refine .inl (hguarded.setThread fun hkeeps => ?_)
    rcases hkeeps with hold | hold
    · exact .inl (hfresh.trans hold)
    · exact absurd hold (hclosing h).1
  | issue a t caller hcaller hnone | refuse t hnone =>
    have hidle : ¬(s.threads t).Keeps h := by
      intro hkeeps
      rw [hkeeps.handle_eq] at hnone
      cases hnone
    exact .inl (hguarded.setThread fun hkeeps => absurd hkeeps hidle)
  | write a k => exact .inl hguarded
  | insert a t caller k endpoint hthread pool writers thread hold hnew hhandle hfresh hclosing =>
    have hmove : (s.setThread t thread).Guarded h := hguarded.setThread fun hkeeps => by
      rw [hthread] at hkeeps
      rcases hkeeps with hfresh' | hclosing'
      · exact .inl (hfresh.trans hfresh')
      · cases hclosing'
    exact .inl hmove
  | watch t caller k hthread =>
    left
    by_cases heq : h = k
    · subst heq
      exact .inr (.inl (by simp))
    · have hother : (s.setThread t .idle).Guarded h :=
        hguarded.setOther .idle (by rw [hthread]; rfl) heq
      exact hother.congr rfl (Function.update_of_ne heq ..) rfl
  | turnAway t caller k hthread hcaller =>
    by_cases haccept : caller = .accept ∧ h = k
    · obtain ⟨rfl, rfl⟩ := haccept
      exact .inr ⟨t, rfl, hthread, by simp⟩
    · refine .inl (hguarded.setThread fun hkeeps => ?_)
      rw [hthread] at hkeeps
      rcases hkeeps with hfresh | hclosing
      · cases caller with
        | accept => exact absurd ⟨rfl, (Option.some.inj hfresh).symm⟩ haccept
        | run => cases hfresh
        | getWriter => exact absurd rfl hcaller
      · cases hclosing
  | unwatch a t k hthread =>
    left
    by_cases heq : h = k
    · subst heq
      exact guarded_setThread (s := { s with readSet := _ }) (.inr rfl)
    · have hother : (s.setThread t (.closing k)).Guarded h :=
        hguarded.setOther (.closing k) (by rw [hthread]; rfl) heq
      exact hother.congr rfl (Function.update_of_ne heq ..) rfl
  | close a t k thread hthread hnext =>
    left
    by_cases heq : h = k
    · subst heq
      exact .inl (by simp)
    · have hother : (s.setThread t thread).Guarded h :=
        hguarded.setOther thread hthread.handle_eq heq
      exact hother.congr (Function.update_of_ne heq ..) rfl rfl
  | erase t k addr hthread pool hpool =>
    have hmove : (s.setThread t .idle).Guarded h := hguarded.setThread fun hkeeps => by
      rw [hthread] at hkeeps
      rcases hkeeps with hfresh | hclosing
      · cases hfresh
      · cases hclosing
    exact .inl hmove

/-- A handle leaves the pool only when it is erased. -/
theorem Pooled.step {a : Action A} (hpooled : s.Pooled h) (hstep : Stepped s a s') :
    s'.Pooled h ∨ ∃ t addr, a = .erase t addr ∧ s.pool.find addr = some h ∧
      ∀ addr', addr' ≠ addr → s.pool.find addr' ≠ some h := by
  cases hstep with
  | insert a t caller k endpoint hthread pool writers thread hold =>
    obtain ⟨addr, haddr⟩ := hpooled
    exact .inl ⟨addr, hold addr h haddr⟩
  | erase t k addr hthread pool hpool =>
    by_cases hother : ∃ addr', addr' ≠ addr ∧ s.pool.find addr' = some h
    · obtain ⟨addr', hne, haddr'⟩ := hother
      exact .inl ⟨addr', (hpool addr' h).mpr ⟨hne, haddr'⟩⟩
    · obtain ⟨addr', haddr'⟩ := hpooled
      obtain rfl : addr' = addr := by
        by_contra hne
        exact hother ⟨addr', hne, haddr'⟩
      exact .inr ⟨t, addr', rfl, haddr', fun other hne hfind => hother ⟨other, hne, hfind⟩⟩
  | _ => exact .inl hpooled

theorem Kept.step {a : Action A} (hkept : s.Kept h) (hkeeping : Keeping s a)
    (hstep : Stepped s a s') : s'.Kept h := by
  rcases hkept with hguarded | hpooled
  · obtain hguarded' | ⟨t, rfl, hthread, -⟩ := hguarded.step hstep
    · exact .inl hguarded'
    · obtain hpooled' | ⟨t', addr, ha, -⟩ := Pooled.step (hkeeping rfl h hthread) hstep
      · exact .inr hpooled'
      · cases ha
  · obtain hpooled' | ⟨t, addr, rfl, hfind, hnone⟩ := hpooled.step hstep
    · exact .inr hpooled'
    · obtain hguarded | ⟨addr', hne, hfind'⟩ := hkeeping h hfind
      · obtain hguarded' | ⟨t', ha, -⟩ := hguarded.step hstep
        · exact .inl hguarded'
        · cases ha
      · exact absurd hfind' (hnone addr' hne)

/-- What a step issues is with a thread. -/
theorem kept_of_issued {a : Action A} (hkeeping : Keeping s a) (hstep : Stepped s a s')
    (hnew : s.next ≤ h) (hissued : h < s'.next) : s'.Kept h := by
  cases hstep with
  | issue a t caller hcaller hnone =>
    obtain rfl : h = s.next := Nat.le_antisymm (Nat.le_of_lt_succ hissued) hnew
    have hkeeps : (Thread.asking caller s.next : Thread A).Keeps s.next := .inl (if_neg hcaller)
    have hguarded : (s.setThread t (.asking caller s.next)).Guarded s.next :=
      guarded_setThread hkeeps
    exact .inl hguarded
  | refuse t hnone => cases hkeeping
  | _ => exact absurd hissued (Nat.not_lt.mpr hnew)

/-- In a run whose steps all meet the condition, every handle that was issued is closed, or
somebody has it. -/
theorem kept_of_keeping [DecidableEq A] (hrun : Reaches (step peer) Keeping start s) :
    ∀ h < s.next, s.Kept h := by
  let AllKept : PooledServer A → Prop := fun s => ∀ h < s.next, s.Kept h
  have hall : AllKept s := by
    refine hrun.invariant (fun h hh => absurd hh (Nat.not_lt_zero h)) ?_
    intro s a s' hkept hkeeping hstep h hh
    rcases Nat.lt_or_ge h s.next with hlt | hge
    · exact (hkept h hlt).step hkeeping (stepped_of_step hstep)
    · exact kept_of_issued hkeeping (stepped_of_step hstep) hge hh
  exact hall

/-- The condition, where nothing fails and no endpoint that is in use is erased. -/
def plain [DecidableEq A] (s : PooledServer A) : Action A → Bool
  | .connect _ ok | .add _ ok => ok
  | .erase _ addr => s.pool.find addr = none
  | _ => true

theorem keeping_of_plain [DecidableEq A] (s : PooledServer A) (a : Action A)
    (hplain : s.plain a = true) : Keeping s a := by
  cases a with
  | connect t ok => exact hplain
  | add t ok =>
    rintro rfl
    cases hplain
  | erase t addr =>
    intro h hfind
    rw [of_decide_eq_true hplain] at hfind
    cases hfind
  | _ => trivial

/-- A connection whose reading fails, and one that was asked for. -/
theorem kept_of_keeping_two :
    ∃ s : PooledServer (Fin 2), s.next = 2 ∧ ∀ h < s.next, s.Kept h := by
  obtain ⟨s, hrun, hnext⟩ : ∃ s : PooledServer (Fin 2),
      Reaches (step fun h => if h = 0 then 0 else 1) (fun s a => s.plain a = true) start s ∧
        s.next = 2 :=
    exists_reaches [.accept 0, .endpoint 0 0, .insert 0, .add 0 true, .read 1 0, .recv 1 false,
      .remove 1, .close 1, .erase 1 1, .getWriter 2 1, .connect 2 true, .endpoint 2 1, .insert 2,
      .add 2 true] (by decide)
  exact ⟨s, hnext, kept_of_keeping (hrun.mono keeping_of_plain)⟩

/-! ## What is lost stays lost -/

theorem Stepped.next_le {a : Action A} (hstep : Stepped s a s') : s.next ≤ s'.next := by
  cases hstep with
  | issue | refuse => exact Nat.le_succ _
  | _ => exact Nat.le_refl _

/-- A step gets hold of no handle that was lost, nor of one that has not been issued. -/
theorem Lost.step {a : Action A} (hlost : s.Lost h) (hnew : h < s.next ∨ s'.next ≤ h)
    (hstep : Stepped s a s') : s'.Lost h := by
  obtain ⟨opened, unwatched, unpooled, unheld⟩ := hlost
  cases hstep with
  | move a t thread hhandle hfresh hclosing => constructor <;> grind
  | issue a t caller hcaller hnone => constructor <;> grind [Thread.handle]
  | refuse t hnone => constructor <;> grind [Thread.handle]
  | write a k => exact ⟨opened, unwatched, unpooled, unheld⟩
  | insert a t caller k endpoint hthread pool writers thread hold hnew hhandle hfresh hclosing =>
    constructor <;> grind [Thread.handle]
  | watch t caller k hthread => constructor <;> grind [Thread.handle, Function.update_apply]
  | turnAway t caller k hthread hcaller => constructor <;> grind [Thread.handle]
  | unwatch a t k hthread => constructor <;> grind [Thread.handle, Function.update_apply]
  | close a t k thread hthread hnext => constructor <;> grind [Thread.handle, Function.update_apply]
  | erase t k addr hthread pool hpool => constructor <;> grind [Thread.handle]

/-- What holds in every run. -/
structure Traced (s : PooledServer A) : Prop where
  /-- a handle that has not been issued is nowhere -/
  unissued : ∀ h, s.next ≤ h → s.Lost h
  /-- a fresh socket is open, and no other thread knows of it -/
  fresh : ∀ t h, (s.threads t).fresh = some h → s.closed h = false ∧ s.readSet h = false ∧
    ∀ t', (s.threads t').handle = some h → t' = t
  /-- a thread that only reads has the handle from the read set -/
  known : ∀ t h, (s.threads t).handle = some h → s.Guarded h

theorem start_traced : (start : PooledServer A).Traced := by
  refine ⟨fun h _ => ?_, ?_, ?_⟩
  · constructor <;> simp [start, SimplePool.find, Thread.handle]
  · simp [start, Thread.fresh]
  · simp [start, Thread.handle]

/-- Who has a handle behind a step had it before, or has it from the read set, or new. -/
theorem Stepped.handle_eq {a : Action A} (hstep : Stepped s a s')
    (hhandle : (s'.threads t).handle = some h) :
    (s.threads t).handle = some h ∨ s.readSet h = true ∨ (s'.threads t).Keeps h := by
  cases hstep with
  | move a t' thread hhandle' => grind
  | issue a t' caller hcaller hnone => grind [Thread.handle, Thread.fresh, Thread.Keeps]
  | insert a t' caller k endpoint hthread pool writers thread hold hnew hhandle' =>
    grind [Thread.handle]
  | _ => grind [Thread.handle]

theorem Traced.step {a : Action A} (h : s.Traced) (hstep : Stepped s a s') : s'.Traced := by
  refine ⟨fun k hk => ?_, ?_, fun t k hk => ?_⟩
  · exact (h.unissued k (Nat.le_trans hstep.next_le hk)).step (.inr hk) hstep
  · obtain ⟨unissued, fresh, known⟩ := h
    have unheld : ∀ t, (s.threads t).handle ≠ some s.next :=
      (unissued s.next (Nat.le_refl _)).unheld
    cases hstep with
    | move a t thread hhandle hfresh hclosing => grind
    | issue a t caller hcaller hnone =>
      have hnext := unissued s.next (Nat.le_refl _)
      grind [Thread.handle, Thread.fresh, Lost]
    | write a k => exact fresh
    | insert a t caller k endpoint hthread pool writers thread hold hnew hhandle hfresh hclosing =>
      grind [Thread.handle, Thread.fresh]
    | _ => grind [Thread.handle, Thread.fresh, Function.update_apply]
  · rcases hstep.handle_eq hk with hold | hread | hkeeps
    · obtain hguarded | ⟨t', -, hthread, hidle⟩ := (h.known t k hold).step hstep
      · exact hguarded
      · -- the thread that lets go of it was the only one that had it
        obtain rfl : t = t' := (h.fresh t' k (by rw [hthread]; rfl)).2.2 t hold
        rw [hidle] at hk
        cases hk
    · obtain hguarded | ⟨t', -, hthread, -⟩ := Guarded.step (.inr (.inl hread)) hstep
      · exact hguarded
      · rw [(h.fresh t' k (by rw [hthread]; rfl)).2.1] at hread
        cases hread
    · exact .inr (.inr ⟨t, hkeeps⟩)

theorem traced_of_reachable [DecidableEq A] (hrun : Reachable (step peer) start s) : s.Traced :=
  hrun.invariant start_traced fun _ _ _ h _ hstep => h.step (stepped_of_step hstep)

/-- A step that violates the condition loses a handle. -/
theorem Traced.lost [DecidableEq A] {a : Action A} (h : s.Traced) (hslip : ¬Keeping s a)
    (hstep : PooledServer.step peer s a = some s') : ∃ k < s'.next, s'.Lost k := by
  cases a with
  | connect t ok =>
    simp only [PooledServer.step] at hstep
    split_ifs at hstep with hconnecting hok
    · exact absurd hok hslip
    · obtain rfl := Option.some.inj hstep
      have hnext := h.unissued s.next (Nat.le_refl _)
      refine ⟨s.next, Nat.lt_succ_self _, hnext.opened, hnext.unwatched, hnext.unpooled, ?_⟩
      have hunheld := hnext.unheld
      grind [Thread.handle]
  | add t ok =>
    simp only [Keeping, not_forall] at hslip
    obtain ⟨rfl, k, hthread, hpooled⟩ := hslip
    have hfresh := h.fresh t k (by rw [hthread]; rfl)
    simp only [PooledServer.step, hthread] at hstep
    obtain rfl := Option.some.inj hstep
    refine ⟨k, ?_, hfresh.1, hfresh.2.1, fun addr hfind => hpooled ⟨addr, hfind⟩, ?_⟩
    · by_contra hge
      exact (h.unissued k (Nat.not_lt.mp hge)).unheld t (by rw [hthread]; rfl)
    · grind [Thread.handle]
  | erase t addr =>
    simp only [Keeping, MayErase, not_forall, not_or, not_exists, not_and] at hslip
    obtain ⟨k, hfind, hguarded, hother⟩ := hslip
    simp only [Guarded, not_or, Bool.not_eq_true] at hguarded
    have hunheld : ∀ t', (s.threads t').handle ≠ some k := by
      intro t' hk
      have hknown := h.known t' k hk
      simp [Guarded, hguarded] at hknown
    simp only [PooledServer.step] at hstep
    split at hstep
    case h_1 handle hthread =>
      split_ifs at hstep
      obtain rfl := Option.some.inj hstep
      refine ⟨k, ?_, hguarded.1, hguarded.2.1, fun addr' hfind' => ?_, ?_⟩
      · by_contra hge
        exact (h.unissued k (Nat.not_lt.mp hge)).unpooled addr hfind
      · grind
      · grind [Thread.handle]
    case h_2 => cases hstep
  | _ => exact absurd trivial hslip

/-- Once a step violates the condition, there is a handle that the server never closes, and that
no thread, nor the read set, nor the pool ever has again. -/
theorem lost_of_slip [DecidableEq A] (hrun : Reachable (step peer) start s) {a : Action A}
    (hslip : ¬Keeping s a) (hstep : step peer s a = some s') :
    ∃ h < s'.next, ∀ s'', Reachable (step peer) s' s'' → s''.Lost h := by
  obtain ⟨h, hissued, hlost⟩ := (traced_of_reachable hrun).lost hslip hstep
  refine ⟨h, hissued, fun s'' hrest => ?_⟩
  let Gone : PooledServer A → Prop := fun s => h < s.next ∧ s.Lost h
  have hgone : Gone s'' := by
    refine hrest.invariant ⟨hissued, hlost⟩ fun u b u' hu _ hone => ?_
    have hone := stepped_of_step hone
    exact ⟨Nat.lt_of_lt_of_le hu.1 hone.next_le, hu.2.step (.inl hu.1) hone⟩
  exact hgone.2

/-- Two connections from one peer, the second of which cannot be added to the read set. -/
theorem lost_of_slip_second :
    ∃ s : PooledServer (Fin 2), ∃ h < s.next,
      ∀ s'', Reachable (step fun _ => 0) s s'' → s''.Lost h := by
  obtain ⟨s, hrun, hthread, hpool⟩ : ∃ s : PooledServer (Fin 2),
      Reachable (step fun _ => 0) start s ∧
        s.threads 0 = .adding .accept 1 ∧ ∀ addr, s.pool.find addr ≠ some 1 :=
    exists_reaches [.accept 0, .endpoint 0 0, .insert 0, .add 0 true, .accept 0, .endpoint 0 0,
      .insert 0] (by decide)
  have hslip : ¬Keeping s (.add 0 false) := fun hkeeping =>
    let ⟨addr, hfind⟩ := hkeeping rfl 1 hthread
    hpool addr hfind
  obtain ⟨s', hstep⟩ : ∃ s', step (fun _ => 0) s (.add 0 false) = some s' := by
    simp [PooledServer.step, hthread]
  exact ⟨s', lost_of_slip hrun hslip hstep⟩

end PooledServer

end Turbolib
