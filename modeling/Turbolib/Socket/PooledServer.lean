import Turbolib.Library.Transition
import Mathlib.Data.Nat.Notation
import Mathlib.Logic.Function.Basic

/-!
# The pooled socket server

The threads of `PooledSocketServer.h` over a `SimplePool` of `udt_socket`s: one accepts
connections, some read, and any may ask for a writer. They take one step at a time, in
any order; a reader that has several handles in hand stands for as many threads. A handle is
never issued twice, and each has one peer.

## Main definitions

* `SimplePool.insert`, `SimplePool.find`, `SimplePool.erase` — the map of the pool.
* `Thread` — where a thread stands in `accept`, `run` or `getWriter`.
* `PooledServer.step` — one step of some thread.
-/

namespace Turbolib

/-- `_connections`: endpoints to handles. -/
def SimplePool (A : Type) : Type := A → Option ℕ

namespace SimplePool

variable {A : Type} [DecidableEq A]

/-- `insert`, once it has asked the socket for its endpoint: whether the entry is new, and
the handle of the writer it makes. -/
def insert (pool : SimplePool A) (endpoint : A) (handle : ℕ) : SimplePool A × Bool × ℕ :=
  match pool endpoint with
  | some existing => (pool, false, existing)
  | none => (Function.update pool endpoint (some handle), true, handle)

def find (pool : SimplePool A) (addr : A) : Option ℕ := pool addr

def erase (pool : SimplePool A) (addr : A) : SimplePool A := Function.update pool addr none

@[simp, grind =] theorem find_erase (pool : SimplePool A) (addr addr' : A) :
    (pool.erase addr).find addr' = if addr' = addr then none else pool.find addr' :=
  Function.update_apply ..

theorem insert_of_some {pool : SimplePool A} {endpoint : A} {existing : ℕ} (handle : ℕ)
    (hfind : pool.find endpoint = some existing) :
    pool.insert endpoint handle = (pool, false, existing) := by
  rw [find] at hfind
  simp [insert, hfind]

theorem insert_of_none {pool : SimplePool A} {endpoint : A} (handle : ℕ)
    (hfind : pool.find endpoint = none) :
    ∃ pool' : SimplePool A, pool.insert endpoint handle = (pool', true, handle) ∧
      ∀ addr, pool'.find addr = if addr = endpoint then some handle else pool.find addr := by
  rw [find] at hfind
  exact ⟨Function.update pool endpoint (some handle), by simp [insert, hfind],
    fun addr => Function.update_apply ..⟩

end SimplePool

/-- Who calls `insert`. -/
inductive Caller where
  | accept
  | run
  | getWriter
  deriving DecidableEq, Repr

/-- Where a thread stands. -/
inductive Thread (A : Type) where
  | idle
  /-- in `getWriter`, before it has made a socket for the endpoint -/
  | connecting
  /-- before `sock.endpoint()` in `insert` -/
  | asking (caller : Caller) (handle : ℕ)
  /-- before the update of the map in `insert` -/
  | inserting (caller : Caller) (handle : ℕ) (endpoint : A)
  /-- before `_readSet.add` -/
  | adding (caller : Caller) (handle : ℕ)
  /-- in `getWriter`, before `sock.close()` of a socket that is not needed -/
  | rejecting (handle : ℕ)
  /-- in `getWriter`, before `sock.close()` of a socket that could not be added -/
  | abandoning (handle : ℕ)
  /-- in `run`, before `sock.recv` -/
  | reading (handle : ℕ)
  /-- in `run`, before `_readSet.remove` -/
  | removing (handle : ℕ)
  /-- in `SimplePool::close`, before `sock.close()` -/
  | closing (handle : ℕ)
  /-- in `SimplePool::close`, before the erasure of `sock.endpoint()` -/
  | erasing (handle : ℕ)
  deriving DecidableEq, Repr

/-- The server and its threads. -/
structure PooledServer (A : Type) where
  pool : SimplePool A
  /-- the handles passed to `UDT::close` -/
  closed : ℕ → Bool
  readSet : ℕ → Bool
  /-- the next handle that `UDT::socket` or `UDT::accept` returns -/
  next : ℕ
  threads : ℕ → Thread A
  /-- the writers taken from the pool so far, with whether their handle was closed by
  then; only for reasoning -/
  writers : List (ℕ × Bool)

namespace PooledServer

variable {A : Type} [DecidableEq A] (peer : ℕ → A)

def start : PooledServer A where
  pool _ := none
  closed _ := false
  readSet _ := false
  next := 0
  threads _ := .idle
  writers := []

def setThread (s : PooledServer A) (t : ℕ) (thread : Thread A) : PooledServer A :=
  { s with threads := Function.update s.threads t thread }

/-- `sock.endpoint()`. Of a closed socket `UDT::getpeername` does not report the former
peer, and the address is whatever was in memory. -/
def isEndpoint (s : PooledServer A) (handle : ℕ) (addr : A) : Bool :=
  if s.closed handle then addr ≠ peer handle else addr = peer handle

/-- A writer for a handle taken from the pool. -/
def makeWriter (s : PooledServer A) (handle : ℕ) : PooledServer A :=
  { s with writers := s.writers ++ [(handle, s.closed handle)] }

/-- The map update of `insert`, and where its caller goes from there. -/
def insert (s : PooledServer A) (t : ℕ) (caller : Caller) (handle : ℕ) (endpoint : A) :
    PooledServer A :=
  let (pool, isnew, writer) := s.pool.insert endpoint handle
  let s := { s with pool }.makeWriter writer
  match caller with
  | .accept => s.setThread t (.adding .accept handle)
  | .run => s.setThread t .idle
  | .getWriter => s.setThread t (if isnew then .adding .getWriter handle else .rejecting handle)

inductive Action (A : Type) where
  /-- the acceptor gets a connection -/
  | accept (t : ℕ)
  /-- a reader takes a handle from the read set -/
  | read (t handle : ℕ)
  | recv (t : ℕ) (ok : Bool)
  | getWriter (t : ℕ) (endpoint : A)
  | connect (t : ℕ) (ok : Bool)
  | endpoint (t : ℕ) (addr : A)
  | insert (t : ℕ)
  | add (t : ℕ) (ok : Bool)
  | remove (t : ℕ)
  | close (t : ℕ)
  | erase (t : ℕ) (addr : A)
  deriving DecidableEq, Repr

/-- One step of some thread. -/
def step (s : PooledServer A) : Action A → Option (PooledServer A)
  | .accept t =>
    if s.threads t = .idle then
      some { s.setThread t (.asking .accept s.next) with next := s.next + 1 }
    else none
  | .read t handle =>
    if s.threads t = .idle ∧ s.readSet handle then some (s.setThread t (.reading handle)) else none
  | .recv t ok =>
    match s.threads t with
    | .reading handle =>
      if ok then
        if s.closed handle then none else some (s.setThread t (.asking .run handle))
      else some (s.setThread t (.removing handle))
    | _ => none
  | .getWriter t endpoint =>
    if s.threads t = .idle then
      match s.pool.find endpoint with
      | some handle => some (s.makeWriter handle)
      | none => some (s.setThread t .connecting)
    else none
  | .connect t ok =>
    if s.threads t = .connecting then
      if ok then some { s.setThread t (.asking .getWriter s.next) with next := s.next + 1 }
      else some { s.setThread t .idle with next := s.next + 1 }
    else none
  | .endpoint t addr =>
    match s.threads t with
    | .asking caller handle =>
      if s.isEndpoint peer handle addr then some (s.setThread t (.inserting caller handle addr))
      else none
    | _ => none
  | .insert t =>
    match s.threads t with
    | .inserting caller handle endpoint => some (s.insert t caller handle endpoint)
    | _ => none
  | .add t ok =>
    match s.threads t with
    | .adding caller handle =>
      if ok then
        some { s.setThread t .idle with readSet := Function.update s.readSet handle true }
      else some (s.setThread t (if caller = .getWriter then .abandoning handle else .idle))
    | _ => none
  | .remove t =>
    match s.threads t with
    | .removing handle =>
      some { s.setThread t (.closing handle) with
        readSet := Function.update s.readSet handle false }
    | _ => none
  | .close t =>
    match s.threads t with
    | .rejecting handle | .abandoning handle =>
      some { s.setThread t .idle with closed := Function.update s.closed handle true }
    | .closing handle =>
      some { s.setThread t (.erasing handle) with closed := Function.update s.closed handle true }
    | _ => none
  | .erase t addr =>
    match s.threads t with
    -- `sock.close()` has made the socket an invalid one
    | .erasing handle =>
      if addr ≠ peer handle then
        some { s.setThread t .idle with pool := s.pool.erase addr }
      else none
    | _ => none

end PooledServer

end Turbolib
