import Turbolib.Critbit.Tree
import Turbolib.Library.Heap

/-!
# The tree in memory

The functions of `critbit_tree.h` over a heap: pointers are words, the low bit of a
pointer tells whether it points to a branch, and the walks load and store through them.
What the language leaves undefined (a null pointer or one to freed memory that is followed,
a pointer that is freed twice) is `none`. A loop has a number of rounds, and is `none` when
it needs more.

## Main definitions

* `Cell` — an element or a branch in memory.
* `HeapTree` — `critbit_tree`, with the heap that its root points into.
* `HeapTree.insertUpdate`, `HeapTree.removeUpdate` — up to `_ext.onchange()`.
-/

namespace Turbolib

/-- The value of a pointer. -/
abbrev Word := ℕ

/-- The pointer to what was allocated at an address: `posix_memalign` aligns it to
`sizeof(void*)`. -/
def Word.of (a : ℕ) : ℕ := 8 * (a + 1)

/-- The address behind a pointer, if it is one to an allocated block. -/
def Word.addr (w : ℕ) : Option Addr := if w % 8 = 0 ∧ w ≠ 0 then some (w / 8 - 1) else none

/-- `isBranch()`. -/
def Word.isBranch (w : ℕ) : Bool := w % 2 = 1

/-- The fields of `critbit_branch`, and what an extension adds. -/
structure BranchCell (H : Type) where
  child0 : Word
  child1 : Word
  byte : ℕ
  otherbits : UInt8
  hash : H
deriving DecidableEq

/-- What is allocated: an element or a branch. -/
inductive Cell (E H : Type) where
  | elem (val : E)
  | branch (q : BranchCell H)
deriving DecidableEq

namespace BranchCell

variable {H : Type}

/-- `child[d]`. -/
def child (q : BranchCell H) (d : Bool) : Word := if d then q.child1 else q.child0

/-- `child[d] = w`. -/
def setChild (q : BranchCell H) (d : Bool) (w : Word) : BranchCell H :=
  if d then { q with child1 := w } else { q with child0 := w }

/-- `calculateDirection`. -/
def direction (q : BranchCell H) (keybytes : List UInt8) : Bool :=
  calculateDirection q.byte q.otherbits keybytes keybytes.length

end BranchCell

/-- `void**`: the root, or a child of a branch. -/
inductive Slot where
  | root
  | child (a : Addr) (d : Bool)
deriving DecidableEq

namespace Cell

variable {E H : Type}

/-- `*p.leaf()`. -/
def loadElem (h : Heap (Cell E H)) (p : Word) : Option E := do
  match Heap.load h (← Word.addr p) with
  | some (.elem val) => some val
  | _ => none

/-- `p.branch()`, which takes the tag off. -/
def loadBranch (h : Heap (Cell E H)) (p : Word) : Option (Addr × BranchCell H) := do
  let a ← Word.addr (p - 1)
  match Heap.load h a with
  | some (.branch q) => some (a, q)
  | _ => none

/-- `free`, of an element. -/
def freeElem (h : Heap (Cell E H)) (p : Word) : Option (Heap (Cell E H)) := do
  let _ ← loadElem h p
  Heap.free h (← Word.addr p)

/-- `walkTreeForBestMember`. -/
def walk (h : Heap (Cell E H)) (keybytes : List UInt8) : ℕ → Word → Option Word
  | 0, _ => none
  | rounds + 1, p =>
    if Word.isBranch p then do
      let (_, q) ← loadBranch h p
      walk h keybytes rounds (q.child (q.direction keybytes))
    else some p

/-- The private `clear(p)`. -/
def clearFrom : ℕ → Word → Heap (Cell E H) → Option (Heap (Cell E H))
  | 0, _, _ => none
  | rounds + 1, p, h =>
    if Word.isBranch p then do
      let (_, q) ← loadBranch h p
      let h ← clearFrom rounds q.child0 h
      let (a, q) ← loadBranch h p
      let h ← clearFrom rounds q.child1 h
      Heap.free h a
    else freeElem h p

end Cell

open Cell (loadElem loadBranch freeElem walk clearFrom)

/-- `critbit_tree`, and the heap. -/
structure HeapTree (E H : Type) [CritbitExt E H] where
  root : Word
  ext : Changes E H
  heap : Heap (Cell E H)

/-- Where an update stands when it returns, or when it calls `_ext.onchange()`. -/
inductive HeapUpdate (E H R : Type) [CritbitExt E H] where
  | returns (t : HeapTree E H) (result : R)
  | changed (t : HeapTree E H) (result : R)

namespace HeapTree

variable {E H : Type} [CritbitExt E H]

def empty : HeapTree E H := ⟨0, noChanges, ∅⟩

/-- `*where`. -/
def load (t : HeapTree E H) : Slot → Option Word
  | .root => some t.root
  | .child a d =>
    match Heap.load t.heap a with
    | some (.branch q) => some (q.child d)
    | _ => none

/-- `*where = w`. -/
def store (t : HeapTree E H) (slot : Slot) (w : Word) : Option (HeapTree E H) :=
  match slot with
  | .root => some { t with root := w }
  | .child a d =>
    match Heap.load t.heap a with
    | some (.branch q) =>
      (Heap.store t.heap a (.branch (q.setChild d w))).map fun h => { t with heap := h }
    | _ => none

/-- The loop over `where_at`, which ends at the place for the new branch. -/
def findPlace (t : HeapTree E H) (keybytes : List UInt8) (newbyte : ℕ) (newotherbits : UInt8) :
    ℕ → Slot → Changes E H → Option (Slot × Changes E H)
  | 0, _, _ => none
  | rounds + 1, slot, changes => do
    let node ← t.load slot
    if Word.isBranch node then do
      let (a, q) ← loadBranch t.heap node
      if q.byte > newbyte then some (slot, changes)
      else if q.byte = newbyte ∧ q.otherbits > newotherbits then some (slot, changes)
      else
        t.findPlace keybytes newbyte newotherbits rounds (.child a (q.direction keybytes))
          (pushChange a changes)
    else some (slot, changes)

/-- The locals of `remove`. -/
structure Removal (E H : Type) [CritbitExt E H] where
  best : Word
  whereBest : Slot
  parent : Option Addr
  whereParent : Option Slot
  direction : Bool
  changes : Changes E H

/-- The loop of `remove`. -/
def findBest (t : HeapTree E H) (keybytes : List UInt8) :
    ℕ → Removal E H → Option (Removal E H)
  | 0, _ => none
  | rounds + 1, r =>
    if Word.isBranch r.best then do
      let (a, q) ← loadBranch t.heap r.best
      let direction := q.direction keybytes
      let best ← t.load (.child a direction)
      t.findBest keybytes rounds
        { best := best
          whereBest := .child a direction
          parent := some a
          whereParent := some r.whereBest
          direction := direction
          changes := if Word.isBranch best then pushChange a r.changes else r.changes }
    else some r

variable [CritbitElemOps E]

/-- `lower_bound`; a null pointer is 0. -/
def lowerBound (t : HeapTree E H) (rounds : ℕ) (val : E) : Option Word :=
  if t.root = 0 then some 0 else walk t.heap (keyBytes val) rounds t.root

/-- `find`. -/
def find (t : HeapTree E H) (rounds : ℕ) (val : E) : Option Word := do
  let p ← t.lowerBound rounds val
  if p = 0 then some 0
  else do
    let elem ← loadElem t.heap p
    some (if equals val elem then p else 0)

/-- `insertIntoEmptyTree`. -/
def insertIntoEmptyTree (t : HeapTree E H) (val : E) (elem : Option Fresh) :
    HeapTree E H × Word :=
  match elem with
  | none => (t, 0)
  | some mem =>
    let x := mem.pick t.heap.keys
    ({ t with root := Word.of x, heap := t.heap.insert x (.elem val) }, Word.of x)

/-- "insert node into tree", in `insert`. -/
def link (t : HeapTree E H) (rounds : ℕ) (keybytes : List UInt8) (c : CriticalBit)
    (newnode : Addr) : Option (HeapTree E H) := do
  let (slot, changes) ← t.findPlace keybytes c.newbyte c.newotherbits rounds .root t.ext
  let old ← t.load slot
  let t ← t.store (.child newnode c.newdirection) old
  let t ← t.store slot (Word.of newnode + 1)
  some { t with ext := pushChange newnode changes }

/-- `insert(val, is_new)` from "allocate node" on. The memory of a new branch has any bytes in
it, also in its children. -/
def insertNew (t : HeapTree E H) (rounds : ℕ) (val : E) (isNew : Bool)
    (mem : Memory (BranchCell H)) (c : CriticalBit) : Option (HeapUpdate E H (Word × Bool)) :=
  match mem.newnode with
  | none => some (.returns t (0, isNew))
  | some newnode =>
    let newnode := newnode.pick t.heap.keys
    let heap := t.heap.insert newnode (.branch mem.garbage)
    match mem.elem with
    | none => do
      let heap ← Heap.free heap newnode
      some (.returns { t with heap := heap } (0, isNew))
    | some elem => do
      let x := elem.pick heap.keys
      let heap := heap.insert x (.elem val)
      let q := { mem.garbage with byte := c.newbyte, otherbits := c.newotherbits }
      let q := q.setChild (!c.newdirection) (Word.of x)
      let heap ← Heap.store heap newnode (.branch q)
      let t ← { t with heap := heap }.link rounds (keyBytes val) c newnode
      some (.changed t (Word.of x, true))

/-- `insert(val, is_new)` up to `_ext.onchange()`, with the pointer that it returns and what
it leaves in `is_new`. -/
def insertUpdate (t : HeapTree E H) (rounds : ℕ) (val : E) (isNew : Bool)
    (mem : Memory (BranchCell H)) : Option (HeapUpdate E H (Word × Bool)) :=
  if t.root = 0 then
    let (t, x) := t.insertIntoEmptyTree val mem.elem
    some (.returns t (x, true))
  else do
    let keybytes := keyBytes val
    let closest ← walk t.heap keybytes rounds t.root
    let p := keyBytes (← loadElem t.heap closest)
    match findCriticalBit p p.length keybytes keybytes.length with
    | none => some (.returns t (closest, false))
    | some c => t.insertNew rounds val isNew mem c

/-- `remove` up to `_ext.onchange()`. -/
def removeUpdate (t : HeapTree E H) (rounds : ℕ) (val : E) : Option (HeapUpdate E H ℕ) :=
  if t.root = 0 then some (.returns t 0)
  else do
    let r ← t.findBest (keyBytes val) rounds ⟨t.root, .root, none, none, false, t.ext⟩
    let elem ← loadElem t.heap r.best
    if !equals val elem then some (.returns { t with ext := clearChanges r.changes } 0)
    else do
      let heap ← freeElem t.heap r.best
      let t := { t with heap := heap, ext := r.changes }
      match r.whereParent, r.parent with
      | some whereParent, some parent => do
        let other ← t.load (.child parent (!r.direction))
        let t ← t.store whereParent other
        let heap ← Heap.free t.heap parent
        some (.changed { t with heap := heap } 1)
      | _, _ => some (.returns { t with root := 0 } 1)

/-- `clear()`. -/
def clear (t : HeapTree E H) (rounds : ℕ) : Option (HeapTree E H) :=
  if t.root = 0 then some t
  else do
    let heap ← clearFrom rounds t.root t.heap
    some { t with root := 0, heap := heap }

end HeapTree

end Turbolib
