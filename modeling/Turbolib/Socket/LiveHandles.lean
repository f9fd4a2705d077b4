import Turbolib.Socket.PooledServer

/-!
# Closed handles in the pool

`SimplePool::close` closes the socket and then asks it for its endpoint, which it has
none any more, and `getWriter` closes a socket it could not add without taking it out of
the pool. Which of these closes leave a closed handle in the pool depends on what was
inserted, erased and closed before them.

## Main definitions

* `PooledServer.Alive` — the pool holds open handles, and has handed out no others.
* `PooledServer.Deed`, `PooledServer.logStep` — runs that note what the threads do.
* `PooledServer.Careful` — the condition on what was done under which it stays so.
-/

namespace Turbolib

/-- The handle a thread works with. -/
def Thread.handle {A : Type} : Thread A → Option ℕ
  | .asking _ h | .inserting _ h _ | .adding _ h | .rejecting h | .abandoning h | .reading h
  | .removing h | .closing h | .erasing h => some h
  | .idle | .connecting => none

/-- The handle of a socket that only this thread knows of. -/
def Thread.fresh {A : Type} : Thread A → Option ℕ
  | .asking caller h | .inserting caller h _ | .adding caller h =>
    if caller = .run then none else some h
  | .rejecting h | .abandoning h => some h
  | _ => none

/-- The handle of such a socket that has not been put into the pool. -/
def Thread.unpooled {A : Type} : Thread A → Option ℕ
  | .asking caller h | .inserting caller h _ => if caller = .run then none else some h
  | .rejecting h => some h
  | _ => none

@[grind →] theorem Thread.handle_of_fresh {A : Type} {thread : Thread A} {h : ℕ}
    (hfresh : thread.fresh = some h) : thread.handle = some h := by
  cases thread <;> simp_all [Thread.fresh, Thread.handle]

@[grind →] theorem Thread.fresh_of_unpooled {A : Type} {thread : Thread A} {h : ℕ}
    (hunpooled : thread.unpooled = some h) : thread.fresh = some h := by
  cases thread <;> simp_all [Thread.fresh, Thread.unpooled]

namespace PooledServer

variable {A : Type} {peer : ℕ → A} {s s' : PooledServer A} {t : ℕ}

/-- No endpoint maps to a closed handle, and no writer has been taken from the pool on a
handle that was closed by then. -/
def Alive (s : PooledServer A) : Prop :=
  (∀ addr h, s.pool.find addr = some h → s.closed h = false) ∧
    ∀ writer ∈ s.writers, writer.2 = false

/-- No endpoint maps to the handle that is closed after a failed read, or because it could
not be added, and none gets a closed one. -/
def Harmless (s : PooledServer A) : Action A → Prop
  | .close t =>
    match s.threads t with
    | .closing h | .abandoning h => ∀ addr, s.pool.find addr ≠ some h
    | _ => True
  | .insert t =>
    match s.threads t with
    | .inserting .run h endpoint => s.closed h = true → s.pool.find endpoint ≠ none
    | _ => True
  | _ => True

/-- What holds in a run of harmless steps. -/
structure Sound (s : PooledServer A) : Prop where
  alive : s.Alive
  /-- a handle that has not been issued is nowhere -/
  unissued : ∀ h, s.next ≤ h → s.closed h = false ∧ s.readSet h = false ∧
    (∀ addr, s.pool.find addr ≠ some h) ∧ ∀ t, (s.threads t).handle ≠ some h
  /-- a fresh socket is open, and no other thread knows of it -/
  fresh : ∀ t h, (s.threads t).fresh = some h → s.closed h = false ∧ s.readSet h = false ∧
    ∀ t', (s.threads t').handle = some h → t' = t
  unpooled : ∀ t h, (s.threads t).unpooled = some h → ∀ addr, s.pool.find addr ≠ some h

theorem start_sound : (start : PooledServer A).Sound := by
  constructor <;> simp [start, Alive, SimplePool.find, Thread.handle, Thread.fresh, Thread.unpooled]

/-- A thread that goes on with the same handle, knowing no more than before. -/
theorem Sound.setThread {thread : Thread A} (hinv : s.Sound)
    (hhandle : ∀ h, thread.handle = some h → (s.threads t).handle = some h ∨ s.readSet h = true)
    (hfresh : ∀ h, thread.fresh = some h → (s.threads t).fresh = some h)
    (hunpooled : ∀ h, thread.unpooled = some h → (s.threads t).unpooled = some h) :
    (s.setThread t thread).Sound := by
  obtain ⟨alive, unissued, fresh, unpooled⟩ := hinv
  simp only [PooledServer.setThread]
  constructor
  case alive => exact alive
  all_goals grind [Function.update_apply]

/-- A thread that has made a socket. -/
theorem Sound.issue {caller : Caller} (hinv : s.Sound) :
    Sound { s.setThread t (.asking caller s.next) with next := s.next + 1 } := by
  obtain ⟨alive, unissued, fresh, unpooled⟩ := hinv
  simp only [PooledServer.setThread]
  constructor
  case alive => exact alive
  all_goals grind [Function.update_apply, Thread.handle, Thread.fresh, Thread.unpooled]

/-- A thread that has failed to make a socket. -/
theorem Sound.skip (hinv : s.Sound) :
    Sound { s.setThread t .idle with next := s.next + 1 } := by
  obtain ⟨alive, unissued, fresh, unpooled⟩ := hinv
  simp only [PooledServer.setThread]
  constructor
  case alive => exact alive
  all_goals grind [Function.update_apply, Thread.handle, Thread.fresh, Thread.unpooled]

theorem Sound.makeWriter {h : ℕ} {addr : A} (hinv : s.Sound) (hfind : s.pool.find addr = some h) :
    (s.makeWriter h).Sound := by
  obtain ⟨⟨alive, writers⟩, unissued, fresh, unpooled⟩ := hinv
  refine ⟨⟨alive, ?_⟩, unissued, fresh, unpooled⟩
  have hopen := alive addr h hfind
  simp only [PooledServer.makeWriter]
  grind

theorem Sound.close {h : ℕ} {thread : Thread A} (hinv : s.Sound)
    (hhandle : (s.threads t).handle = some h) (hpool : ∀ addr, s.pool.find addr ≠ some h)
    (hthread : thread = .idle ∨ thread = .erasing h) :
    Sound { s.setThread t thread with closed := Function.update s.closed h true } := by
  obtain ⟨⟨alive, writers⟩, unissued, fresh, unpooled⟩ := hinv
  simp only [PooledServer.setThread]
  constructor
  case alive =>
    refine ⟨?_, writers⟩
    grind [Function.update_apply]
  all_goals grind [Function.update_apply, Thread.handle, Thread.fresh, Thread.unpooled]

theorem Sound.add {caller : Caller} {h : ℕ} (hinv : s.Sound)
    (hthread : s.threads t = .adding caller h) :
    Sound { s.setThread t .idle with readSet := Function.update s.readSet h true } := by
  obtain ⟨alive, unissued, fresh, unpooled⟩ := hinv
  simp only [PooledServer.setThread]
  constructor
  case alive => exact alive
  all_goals grind [Function.update_apply, Thread.handle, Thread.fresh, Thread.unpooled]

theorem Sound.remove {h : ℕ} (hinv : s.Sound) (hthread : s.threads t = .removing h) :
    Sound { s.setThread t (.closing h) with readSet := Function.update s.readSet h false } := by
  obtain ⟨alive, unissued, fresh, unpooled⟩ := hinv
  simp only [PooledServer.setThread]
  constructor
  case alive => exact alive
  all_goals grind [Function.update_apply, Thread.handle, Thread.fresh, Thread.unpooled]

variable [DecidableEq A]

/-- An endpoint that was vacant gets the handle, which is open. -/
theorem Sound.put {caller : Caller} {h : ℕ} {endpoint : A} {pool : SimplePool A} {thread : Thread A}
    (hinv : s.Sound) (hthread : s.threads t = .inserting caller h endpoint)
    (hopen : s.closed h = false)
    (hpool : ∀ addr, pool.find addr = if addr = endpoint then some h else s.pool.find addr)
    (hnext : thread = .adding caller h ∨ thread = .idle) (hrun : caller = .run → thread = .idle) :
    (({ s with pool : PooledServer A }.makeWriter h).setThread t thread).Sound := by
  have hhandle : (s.threads t).handle = some h := by rw [hthread]; rfl
  have hfresh : caller ≠ .run → (s.threads t).fresh = some h := by
    intro hcaller
    rw [hthread]
    exact if_neg hcaller
  obtain ⟨⟨alive, writers⟩, unissued, fresh, unpooled⟩ := hinv
  simp only [PooledServer.setThread, PooledServer.makeWriter]
  constructor
  case alive =>
    constructor
    · grind
    · grind
  all_goals grind [Function.update_apply, Thread.handle, Thread.fresh, Thread.unpooled]

theorem Sound.insert {caller : Caller} {h : ℕ} {endpoint : A} (hinv : s.Sound)
    (hthread : s.threads t = .inserting caller h endpoint) (hharmless : s.Harmless (.insert t)) :
    (s.insert t caller h endpoint).Sound := by
  cases hfind : s.pool.find endpoint with
  | some existing =>
    have hwriter := hinv.makeWriter hfind
    simp only [PooledServer.insert, SimplePool.insert_of_some h hfind]
    cases caller <;> refine hwriter.setThread ?_ ?_ ?_ <;>
      simp [PooledServer.makeWriter, hthread, Thread.handle, Thread.fresh, Thread.unpooled]
  | none =>
    obtain ⟨pool, hinsert, hpool⟩ := SimplePool.insert_of_none h hfind
    simp only [PooledServer.insert, hinsert]
    have hfresh : caller ≠ .run → s.closed h = false := by
      intro hcaller
      refine (hinv.fresh t h ?_).1
      rw [hthread]
      exact if_neg hcaller
    cases caller with
    | accept => exact hinv.put hthread (hfresh nofun) hpool (Or.inl rfl) nofun
    | getWriter => exact hinv.put hthread (hfresh nofun) hpool (Or.inl rfl) nofun
    | run =>
      refine hinv.put hthread ?_ hpool (Or.inr rfl) (fun _ => rfl)
      simp only [Harmless, hthread] at hharmless
      by_contra hclosed
      exact hharmless (by simpa using hclosed) hfind

theorem Sound.erase {addr : A} (hinv : s.Sound) :
    Sound { s.setThread t .idle with pool := s.pool.erase addr } := by
  obtain ⟨⟨alive, writers⟩, unissued, fresh, unpooled⟩ := hinv
  simp only [PooledServer.setThread]
  constructor
  case alive =>
    refine ⟨?_, writers⟩
    grind [Function.update_apply]
  all_goals grind [Function.update_apply, Thread.handle, Thread.fresh, Thread.unpooled]

/-- Every harmless step keeps the invariant. -/
theorem Sound.step {a : Action A} (hinv : s.Sound) (hharmless : s.Harmless a)
    (hstep : step peer s a = some s') : s'.Sound := by
  cases a with
  | accept t =>
    simp only [PooledServer.step] at hstep
    split at hstep
    · obtain rfl := Option.some.inj hstep
      exact hinv.issue
    · nomatch hstep
  | read t handle =>
    simp only [PooledServer.step] at hstep
    split at hstep
    case isTrue hread =>
      obtain rfl := Option.some.inj hstep
      apply hinv.setThread <;> grind [Thread.handle, Thread.fresh, Thread.unpooled]
    case isFalse => nomatch hstep
  | recv t ok =>
    simp only [PooledServer.step] at hstep
    split at hstep
    case h_1 handle hthread =>
      split_ifs at hstep
      all_goals
        obtain rfl := Option.some.inj hstep
        apply hinv.setThread <;>
          simp [hthread, Thread.handle, Thread.fresh, Thread.unpooled]
    case h_2 => nomatch hstep
  | getWriter t endpoint =>
    simp only [PooledServer.step] at hstep
    split_ifs at hstep with hidle
    split at hstep
    case h_1 handle hfind =>
      obtain rfl := Option.some.inj hstep
      exact hinv.makeWriter hfind
    case h_2 =>
      obtain rfl := Option.some.inj hstep
      apply hinv.setThread <;> simp [Thread.handle, Thread.fresh, Thread.unpooled]
  | connect t ok =>
    simp only [PooledServer.step] at hstep
    split_ifs at hstep
    · obtain rfl := Option.some.inj hstep
      exact hinv.issue
    · obtain rfl := Option.some.inj hstep
      exact hinv.skip
  | endpoint t addr =>
    simp only [PooledServer.step] at hstep
    split at hstep
    case h_1 caller handle hthread =>
      split_ifs at hstep
      obtain rfl := Option.some.inj hstep
      apply hinv.setThread <;> simp [hthread, Thread.handle, Thread.fresh, Thread.unpooled]
    case h_2 => nomatch hstep
  | insert t =>
    simp only [PooledServer.step] at hstep
    split at hstep
    case h_1 caller handle endpoint hthread =>
      obtain rfl := Option.some.inj hstep
      exact hinv.insert hthread hharmless
    case h_2 => nomatch hstep
  | add t ok =>
    simp only [PooledServer.step] at hstep
    split at hstep
    case h_1 caller handle hthread =>
      split at hstep
      · obtain rfl := Option.some.inj hstep
        exact hinv.add hthread
      · obtain rfl := Option.some.inj hstep
        apply hinv.setThread <;> grind [Thread.handle, Thread.fresh, Thread.unpooled]
    case h_2 => nomatch hstep
  | remove t =>
    simp only [PooledServer.step] at hstep
    split at hstep
    case h_1 handle hthread =>
      obtain rfl := Option.some.inj hstep
      exact hinv.remove hthread
    case h_2 => nomatch hstep
  | close t =>
    simp only [PooledServer.step] at hstep
    simp only [Harmless] at hharmless
    split at hstep
    case h_1 handle hthread =>
      obtain rfl := Option.some.inj hstep
      -- the socket that is not needed was never put into the pool
      exact hinv.close (by rw [hthread]; rfl) (hinv.unpooled t handle (by rw [hthread]; rfl))
        (Or.inl rfl)
    case h_2 handle hthread =>
      obtain rfl := Option.some.inj hstep
      simp only [hthread] at hharmless
      exact hinv.close (by rw [hthread]; rfl) hharmless (Or.inl rfl)
    case h_3 handle hthread =>
      obtain rfl := Option.some.inj hstep
      simp only [hthread] at hharmless
      exact hinv.close (by rw [hthread]; rfl) hharmless (Or.inr rfl)
    case h_4 => nomatch hstep
  | erase t addr =>
    simp only [PooledServer.step] at hstep
    split at hstep
    case h_1 handle hthread =>
      split_ifs at hstep
      obtain rfl := Option.some.inj hstep
      exact hinv.erase
    case h_2 => nomatch hstep

/-- A step that is not harmless puts a closed handle into the pool, or leaves one there. -/
theorem harmless_of_alive {a : Action A} (hstep : step peer s a = some s')
    (halive : s'.Alive) : s.Harmless a := by
  cases a with
  | close t =>
    rw [Harmless]
    cases hthread : s.threads t with
    | abandoning h =>
      simp only [PooledServer.step, hthread] at hstep
      obtain rfl := Option.some.inj hstep
      intro addr hfind
      have := halive.1 addr h hfind
      simp at this
    | closing h =>
      simp only [PooledServer.step, hthread] at hstep
      obtain rfl := Option.some.inj hstep
      intro addr hfind
      have := halive.1 addr h hfind
      simp at this
    | _ => trivial
  | insert t =>
    rw [Harmless]
    cases hthread : s.threads t with
    | inserting caller h endpoint =>
      cases caller with
      | run =>
        simp only [PooledServer.step, hthread] at hstep
        obtain rfl := Option.some.inj hstep
        intro hclosed hfind
        obtain ⟨pool, hinsert, hpool⟩ := SimplePool.insert_of_none h hfind
        have := halive.1 endpoint h
        simp [PooledServer.insert, hinsert, PooledServer.makeWriter, PooledServer.setThread, hpool,
          hclosed] at this
      | _ => trivial
    | _ => trivial
  | _ => trivial

/-! ### What the threads do -/

/-- What a thread does at an endpoint of the pool, or to a socket. -/
inductive Deed (A : Type) where
  | inserts (handle : ℕ) (endpoint : A)
  | erases (endpoint : A)
  | closes (handle : ℕ)
  deriving DecidableEq, Repr

def deed (s : PooledServer A) : Action A → Option (Deed A)
  | .insert t =>
    match s.threads t with
    | .inserting _ h endpoint => some (.inserts h endpoint)
    | _ => none
  | .close t => (s.threads t).handle.map .closes
  | .erase _ addr => some (.erases addr)
  | _ => none

/-- One step, with the deeds so far, the latest first. -/
def logStep (peer : ℕ → A) (s : PooledServer A × List (Deed A)) (a : Action A) :
    Option (PooledServer A × List (Deed A)) :=
  (step peer s.1 a).map fun s' => (s', (s.1.deed a).toList ++ s.2)

/-- The socket that is inserted at the endpoint. -/
def Deed.insertedAt (addr : A) : Deed A → Option ℕ
  | .inserts h endpoint => if endpoint = addr then some h else none
  | _ => none

/-- The sockets that were inserted at the endpoint since it was last erased, the latest
first. -/
def insertedSince (deeds : List (Deed A)) (addr : A) : List ℕ :=
  (deeds.takeWhile (· ≠ .erases addr)).filterMap (Deed.insertedAt addr)

/-- After a failed read, or because it could not be added, a socket is closed only when it
was not the first to be inserted at its peer's address since that was last erased. -/
def MayClose (peer : ℕ → A) (deeds : List (Deed A)) : Thread A → Prop
  | .closing h | .abandoning h => (insertedSince deeds (peer h)).getLast? ≠ some h
  | _ => True

/-- A reader whose socket was closed since its `recv` inserts it only at an endpoint at which
one was inserted since it was last erased. -/
def MayInsert (deeds : List (Deed A)) : Thread A → Prop
  | .inserting .run h endpoint => .closes h ∈ deeds → insertedSince deeds endpoint ≠ []
  | _ => True

def Careful (peer : ℕ → A) (s : PooledServer A × List (Deed A)) : Action A → Prop
  | .close t => MayClose peer s.2 (s.1.threads t)
  | .insert t => MayInsert s.2 (s.1.threads t)
  | _ => True

theorem insertedSince_inserts (deeds : List (Deed A)) (h : ℕ) (endpoint addr : A) :
    insertedSince (.inserts h endpoint :: deeds) addr =
      if endpoint = addr then h :: insertedSince deeds addr else insertedSince deeds addr := by
  simp only [insertedSince, List.takeWhile_cons, ne_eq, reduceCtorEq, not_false_eq_true,
    decide_true, if_true, List.filterMap_cons, Deed.insertedAt]
  split_ifs <;> rfl

theorem insertedSince_erases (deeds : List (Deed A)) (endpoint addr : A) :
    insertedSince (.erases endpoint :: deeds) addr =
      if endpoint = addr then [] else insertedSince deeds addr := by
  by_cases h : endpoint = addr <;> simp [insertedSince, List.filterMap_cons, Deed.insertedAt, h]

theorem insertedSince_closes (deeds : List (Deed A)) (h : ℕ) (addr : A) :
    insertedSince (.closes h :: deeds) addr = insertedSince deeds addr := by
  simp [insertedSince, List.filterMap_cons, Deed.insertedAt]

/-- What the deeds say about the state: an endpoint maps to the first socket inserted there
since it was last erased, and an open socket is inserted at its peer's address. -/
structure Told (peer : ℕ → A) (s : PooledServer A) (deeds : List (Deed A)) : Prop where
  pool : ∀ addr, s.pool.find addr = (insertedSince deeds addr).getLast?
  closed : ∀ h, s.closed h = true ↔ .closes h ∈ deeds
  asked : ∀ t caller h endpoint, s.threads t = .inserting caller h endpoint →
    endpoint = peer h ∨ s.closed h = true
  placed : ∀ addr h, s.pool.find addr = some h → addr = peer h ∨ s.closed h = true

theorem told_start : Told peer (start : PooledServer A) [] := by
  constructor <;> simp [start, SimplePool.find, insertedSince]

section told

variable {deeds : List (Deed A)}

/-- A thread that does nothing to the pool and closes nothing. -/
theorem Told.setThread {thread : Thread A} (h : Told peer s deeds)
    (hasked : ∀ caller k endpoint, thread = .inserting caller k endpoint →
      endpoint = peer k ∨ s.closed k = true) : Told peer (s.setThread t thread) deeds := by
  refine ⟨h.pool, h.closed, fun t' caller k endpoint hthread => ?_, h.placed⟩
  simp only [PooledServer.setThread, Function.update_apply] at hthread
  split_ifs at hthread
  · exact hasked caller k endpoint hthread
  · exact h.asked t' caller k endpoint hthread

/-- A thread that is not about to insert, nor does anything to the pool or closes a socket. -/
theorem Told.move {thread : Thread A} (h : Told peer s deeds)
    (hthread : ∀ caller k endpoint, thread ≠ .inserting caller k endpoint)
    (hpool : s'.pool = s.pool) (hclosed : s'.closed = s.closed)
    (hthreads : s'.threads = Function.update s.threads t thread) : Told peer s' deeds := by
  have hset : Told peer (s.setThread t thread) deeds :=
    h.setThread fun caller k endpoint heq => absurd heq (hthread caller k endpoint)
  have hasked := hset.asked
  have hplaced := hset.placed
  simp only [PooledServer.setThread] at hasked hplaced
  constructor
  case pool => exact fun addr => hpool ▸ h.pool addr
  case closed => exact fun k => hclosed ▸ h.closed k
  case asked =>
    rw [hthreads, hclosed]
    exact hasked
  case placed =>
    rw [hpool, hclosed]
    exact hplaced

theorem Told.insert {caller : Caller} {k : ℕ} {endpoint : A} (h : Told peer s deeds)
    (hthread : s.threads t = .inserting caller k endpoint) :
    Told peer (s.insert t caller k endpoint) (.inserts k endpoint :: deeds) := by
  suffices hput : ∀ pool writers, (∀ addr, SimplePool.find pool addr =
      if addr = endpoint then some ((s.pool.find endpoint).getD k) else s.pool.find addr) →
      Told peer { s with pool := pool, writers := writers } (.inserts k endpoint :: deeds) by
    cases hfind : s.pool.find endpoint with
    | some existing =>
      simp only [PooledServer.insert, SimplePool.insert_of_some k hfind]
      cases caller <;> refine (hput s.pool _ ?_).setThread ?_ <;> grind
    | none =>
      obtain ⟨pool, hinsert, hpool⟩ := SimplePool.insert_of_none k hfind
      simp only [PooledServer.insert, hinsert]
      cases caller <;> refine (hput pool _ ?_).setThread ?_ <;> grind
  intro pool writers hpool
  have hfirst := h.pool endpoint
  refine ⟨fun addr => ?_, by simpa using h.closed, h.asked, fun addr k' hk' => ?_⟩
  · rw [hpool, insertedSince_inserts]
    by_cases haddr : endpoint = addr
    · subst haddr
      rw [if_pos rfl, if_pos rfl, hfirst]
      cases insertedSince deeds endpoint with
      | nil => rfl
      | cons first rest => simp [List.getLast?_cons]
    · rw [if_neg (Ne.symm haddr), if_neg haddr, h.pool]
  · have hasked := h.asked t caller k endpoint hthread
    have hplaced := h.placed
    grind

theorem Told.close {k : ℕ} {thread : Thread A} (h : Told peer s deeds)
    (hthread : ∀ caller k endpoint, thread ≠ .inserting caller k endpoint) :
    Told peer { s.setThread t thread with closed := Function.update s.closed k true }
      (.closes k :: deeds) := by
  have hasked := h.asked
  have hplaced := h.placed
  have hclosed := h.closed
  simp only [PooledServer.setThread]
  constructor
  case pool => exact fun addr => (h.pool addr).trans (by rw [insertedSince_closes])
  all_goals grind [Function.update_apply]

theorem Told.erase {addr : A} (h : Told peer s deeds) :
    Told peer { s.setThread t .idle with pool := s.pool.erase addr } (.erases addr :: deeds) := by
  have hasked := h.asked
  have hplaced := h.placed
  have hclosed := h.closed
  have hpool := h.pool
  simp only [PooledServer.setThread]
  constructor
  case pool => grind [insertedSince_erases]
  all_goals grind [Function.update_apply]

theorem Told.step {a : Action A} (h : Told peer s deeds) (hstep : step peer s a = some s') :
    Told peer s' ((s.deed a).toList ++ deeds) := by
  cases a with
  | endpoint t addr =>
    simp only [PooledServer.step] at hstep
    split at hstep
    case h_1 caller handle hthread =>
      split_ifs at hstep with haddr
      obtain rfl := Option.some.inj hstep
      refine h.setThread fun caller' k endpoint heq => ?_
      obtain ⟨rfl, rfl, rfl⟩ := Thread.inserting.inj heq
      by_cases hclosed : s.closed handle = true
      · exact Or.inr hclosed
      · exact Or.inl (by simpa [isEndpoint, hclosed] using haddr)
    case h_2 => nomatch hstep
  | insert t =>
    simp only [PooledServer.step] at hstep
    split at hstep
    case h_1 caller handle endpoint hthread =>
      obtain rfl := Option.some.inj hstep
      simpa [deed, hthread] using h.insert hthread
    case h_2 => nomatch hstep
  | close t =>
    simp only [PooledServer.step] at hstep
    split at hstep
    case h_4 => nomatch hstep
    all_goals
      obtain rfl := Option.some.inj hstep
      simpa [deed, Thread.handle, *] using h.close (by simp)
  | erase t addr =>
    simp only [PooledServer.step] at hstep
    split at hstep
    case h_1 handle hthread =>
      split_ifs at hstep
      obtain rfl := Option.some.inj hstep
      exact h.erase
    case h_2 => nomatch hstep
  | accept t =>
    simp only [PooledServer.step] at hstep
    split_ifs at hstep
    obtain rfl := Option.some.inj hstep
    exact h.move (t := t) (by simp) rfl rfl rfl
  | read t handle =>
    simp only [PooledServer.step] at hstep
    split_ifs at hstep
    obtain rfl := Option.some.inj hstep
    exact h.move (t := t) (by simp) rfl rfl rfl
  | recv t ok =>
    simp only [PooledServer.step] at hstep
    split at hstep
    case h_1 handle hthread =>
      split_ifs at hstep
      all_goals
        obtain rfl := Option.some.inj hstep
        exact h.move (t := t) (by simp) rfl rfl rfl
    case h_2 => nomatch hstep
  | getWriter t endpoint =>
    simp only [PooledServer.step] at hstep
    split_ifs at hstep
    split at hstep
    case h_1 handle hfind =>
      obtain rfl := Option.some.inj hstep
      exact ⟨h.pool, h.closed, h.asked, h.placed⟩
    case h_2 =>
      obtain rfl := Option.some.inj hstep
      exact h.move (t := t) (by simp) rfl rfl rfl
  | connect t ok =>
    simp only [PooledServer.step] at hstep
    split_ifs at hstep
    all_goals
      obtain rfl := Option.some.inj hstep
      exact h.move (t := t) (by simp) rfl rfl rfl
  | add t ok =>
    simp only [PooledServer.step] at hstep
    split at hstep
    case h_1 caller handle hthread =>
      split at hstep
      · obtain rfl := Option.some.inj hstep
        exact h.move (t := t) (by simp) rfl rfl rfl
      · obtain rfl := Option.some.inj hstep
        exact h.move (t := t) (by split_ifs <;> simp) rfl rfl rfl
    case h_2 => nomatch hstep
  | remove t =>
    simp only [PooledServer.step] at hstep
    split at hstep
    case h_1 handle hthread =>
      obtain rfl := Option.some.inj hstep
      exact h.move (t := t) (by simp) rfl rfl rfl
    case h_2 => nomatch hstep

/-- What the condition says of the deeds holds of the pool. -/
theorem Told.harmless_iff {a : Action A} (h : Told peer s deeds)
    (hopen : ∀ addr k, s.pool.find addr = some k → s.closed k = false) :
    s.Harmless a ↔ Careful peer (s, deeds) a := by
  have hplaced := h.placed
  cases a with
  | close t =>
    have hiff : ∀ k, (∀ addr, s.pool.find addr ≠ some k) ↔
        (insertedSince deeds (peer k)).getLast? ≠ some k := by
      intro k
      rw [← h.pool]
      grind
    cases hthread : s.threads t <;> simp [Harmless, Careful, MayClose, hthread, hiff]
  | insert t =>
    cases hthread : s.threads t with
    | inserting caller k endpoint =>
      cases caller <;>
        simp [Harmless, Careful, MayInsert, hthread, h.pool, h.closed, List.getLast?_eq_none_iff]
    | _ => simp [Harmless, Careful, MayInsert, hthread]
  | _ => exact Iff.rfl

theorem sound_of_careful (hrun : Reaches (logStep peer) (Careful peer) (start, []) (s, deeds)) :
    s.Sound ∧ Told peer s deeds := by
  let SoundAndTold : PooledServer A × List (Deed A) → Prop := fun s => s.1.Sound ∧ Told peer s.1 s.2
  have hrunning : SoundAndTold (s, deeds) := by
    refine hrun.invariant ⟨start_sound, told_start⟩ fun s a s' h hcareful hstep => ?_
    obtain ⟨s₁, hnext, rfl⟩ := Option.map_eq_some_iff.mp hstep
    have hharmless := (h.2.harmless_iff h.1.alive.1).mpr hcareful
    exact ⟨h.1.step hharmless hnext, h.2.step hnext⟩
  exact hrunning

/-- The first step that is not careful leaves a closed handle in the pool. -/
theorem careful_of_alive {a : Action A}
    (hrun : Reaches (logStep peer) (Careful peer) (start, []) (s, deeds))
    (hstep : step peer s a = some s') (halive : s'.Alive) : Careful peer (s, deeds) a := by
  obtain ⟨hsound, htold⟩ := sound_of_careful hrun
  exact (htold.harmless_iff hsound.alive.1).mp (harmless_of_alive hstep halive)

end told

/-- In a run that stays careful, the pool holds open handles only, and every writer taken
from it was on an open handle. -/
theorem alive_of_careful {deeds : List (Deed A)}
    (hrun : Reaches (logStep peer) (Careful peer) (start, []) (s, deeds)) : s.Alive :=
  (sound_of_careful hrun).1.alive

/-! ### Two addresses -/

instance decidableMayClose (peer : ℕ → A) (deeds : List (Deed A)) :
    (thread : Thread A) → Decidable (MayClose peer deeds thread)
  | .closing _ | .abandoning _ => inferInstanceAs (Decidable (_ ≠ _))
  | .idle | .connecting | .asking .. | .inserting .. | .adding .. | .rejecting _ | .reading _
  | .removing _ | .erasing _ => isTrue trivial

instance decidableMayInsert (deeds : List (Deed A)) :
    (thread : Thread A) → Decidable (MayInsert deeds thread)
  | .inserting .run _ _ => inferInstanceAs (Decidable (_ → _))
  | .inserting .accept _ _ | .inserting .getWriter _ _ | .idle | .connecting | .asking ..
  | .adding .. | .rejecting _ | .reading _ | .removing _ | .closing _ | .abandoning _
  | .erasing _ => isTrue trivial

instance decidableCareful (peer : ℕ → A) (s : PooledServer A × List (Deed A)) :
    (a : Action A) → Decidable (Careful peer s a)
  | .close t => decidableMayClose peer s.2 (s.1.threads t)
  | .insert t => decidableMayInsert s.2 (s.1.threads t)
  | .accept _ | .read .. | .recv .. | .getWriter .. | .connect .. | .endpoint .. | .add ..
  | .remove _ | .erase .. => isTrue trivial

/-- A connection is accepted twice from one peer; reading from the second fails, and a writer
is asked for. -/
theorem alive_of_careful_read :
    ∃ s : PooledServer (Fin 2), s.writers.length = 3 ∧ s.closed 1 = true ∧ s.Alive := by
  have hrun : ∃ s : PooledServer (Fin 2) × List (Deed (Fin 2)),
      Reaches (logStep fun _ => 0) (Careful fun _ => 0) (start, []) s ∧
        s.1.writers.length = 3 ∧ s.1.closed 1 = true :=
    exists_reaches
      [.accept 0, .endpoint 0 0, .insert 0, .add 0 true, .accept 0, .endpoint 0 0, .insert 0,
        .add 0 true, .read 1 1, .recv 1 false, .remove 1, .close 1, .erase 1 1, .getWriter 2 0]
      (by decide)
  obtain ⟨⟨s, deeds⟩, hrun, hs, hclosed⟩ := hrun
  exact ⟨s, hs, hclosed, alive_of_careful hrun⟩

/-- A connection is accepted, reading from it fails, and a writer is asked for. -/
theorem closed_handle_pooled :
    ∃ s : PooledServer (Fin 2), Reachable (step (fun _ => 0)) start s ∧ ¬s.Alive := by
  have hrun : ∃ s : PooledServer (Fin 2), Reachable (step (fun _ => 0)) start s ∧
      s.pool.find 0 = some 0 ∧ s.closed 0 = true :=
    exists_reaches
      [.accept 0, .endpoint 0 0, .insert 0, .add 0 true, .read 1 0, .recv 1 false, .remove 1,
        .close 1, .erase 1 1, .getWriter 2 0]
      (by decide)
  obtain ⟨s, hrun, hfind, hclosed⟩ := hrun
  refine ⟨s, hrun, fun halive => ?_⟩
  rw [halive.1 0 0 hfind] at hclosed
  exact Bool.false_ne_true hclosed

end PooledServer

end Turbolib
