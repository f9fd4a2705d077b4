import Turbolib.Critbit.CriticalBit

/-!
# The crit-bit tree

The functions of `critbit_tree.h`. A non-null `critbit_node_ptr` is a `Node`, so
both children of a branch are always there; a null pointer is `none`. Nodes keep
the address they were allocated at: element pointers are compared by address,
and the change list of `critbit_ext` names branches by address.

Loops that walk down the tree are recursions on it, and a store through
`where_at` or `where_parent` rebuilds the path above. `insert` and `remove` are
cut at their call of `_ext.onchange()`, which sees the tree already changed.
-/

namespace Turbolib

/-- The address of an allocated element or branch. -/
abbrev Addr := ℕ

/-- `ValType*`, with the element it points to. -/
structure ValPtr (E : Type) where
  addr : Addr
  val : E
deriving DecidableEq

/-- The fields of `critbit_branch` beside its children; `hash` is the field that
`merkle_branch` adds, and `Unit` where there is none. -/
structure Branch (H : Type) where
  addr : Addr
  byte : ℕ
  otherbits : UInt8
  hash : H
deriving DecidableEq

/-- A non-null `critbit_node_ptr<ValType, Branch>`. -/
inductive Node (E H : Type) where
  | leaf (x : ValPtr E)
  | branch (q : Branch H) (child0 child1 : Node E H)
deriving DecidableEq

namespace Node

variable {E H : Type}

def isBranch : Node E H → Bool
  | leaf _ => false
  | branch _ _ _ => true

/-- Every address in use below the node. -/
def addrs : Node E H → List Addr
  | leaf x => [x.addr]
  | branch q c0 c1 => q.addr :: (c0.addrs ++ c1.addrs)

def branchAddrs : Node E H → List Addr
  | leaf _ => []
  | branch q c0 c1 => q.addr :: (c0.branchAddrs ++ c1.branchAddrs)

/-- The tree with the extension's data left out of its branches. -/
def skeleton : Node E H → Node E Unit
  | leaf x => leaf x
  | branch q c0 c1 => branch ⟨q.addr, q.byte, q.otherbits, ()⟩ c0.skeleton c1.skeleton

/-- `begin(root)`. -/
def beginLeaf : Node E H → ValPtr E
  | leaf x => x
  | branch _ c0 _ => c0.beginLeaf

/-- `end(root)`. -/
def endLeaf : Node E H → ValPtr E
  | leaf x => x
  | branch _ _ c1 => c1.endLeaf

/-- `walkTreeForBestMember`. -/
def walkTreeForBestMember (keybytes : List UInt8) (keylen : ℕ) : Node E H → ValPtr E
  | leaf x => x
  | branch q c0 c1 =>
    if calculateDirection q.byte q.otherbits keybytes keylen then
      c1.walkTreeForBestMember keybytes keylen
    else c0.walkTreeForBestMember keybytes keylen

/-- The loop of `nearest_subtree`. -/
def nearestSubtree (keybytes : List UInt8) (bitmask : UInt8) (keylen : ℕ) : Node E H → Node E H
  | leaf x => leaf x
  | branch q c0 c1 =>
    if q.byte + 1 ≥ keylen ∧ (q.byte ≥ keylen ∨ (q.otherbits ^^^ 0xFF) &&& bitmask > 0) then
      branch q c0 c1
    else if calculateDirection q.byte q.otherbits keybytes keylen then
      c1.nearestSubtree keybytes bitmask keylen
    else c0.nearestSubtree keybytes bitmask keylen

end Node

/-- `critbit_ext<ValType, Branch>`: what the tree calls when branches change.
`names` lists the branches waiting for `onchange`, and `onchange` is `none` when
it follows a pointer to a branch that is no longer there.

The laws are what the tree relies on: only pushed branches are waiting, and
`onchange` on branches of the tree returns with nothing waiting and touches only
the extension's own data. -/
class CritbitExt (E H : Type) where
  Changes : Type
  noChanges : Changes
  names : Changes → List Addr
  pushChange : Addr → Changes → Changes
  clearChanges : Changes → Changes
  onchange : Node E H → Changes → Option (Node E H × Changes)
  names_noChanges : names noChanges = []
  names_pushChange : ∀ a c, names (pushChange a c) ⊆ a :: names c
  clearChanges_eq : ∀ c, clearChanges c = noChanges
  onchange_ok : ∀ root c, (∀ a ∈ names c, a ∈ root.branchAddrs) →
    ∃ root', onchange root c = some (root', noChanges) ∧ root'.skeleton = root.skeleton

export CritbitExt (Changes noChanges pushChange clearChanges onchange)

/-- The unspecialised `critbit_ext`, whose functions are empty. -/
instance {E : Type} : CritbitExt E Unit where
  Changes := Unit
  noChanges := ()
  names _ := []
  pushChange _ c := c
  clearChanges c := c
  onchange root c := some (root, c)
  names_noChanges := rfl
  names_pushChange _ _ := by simp
  clearChanges_eq _ := rfl
  onchange_ok root c _ := ⟨root, rfl, rfl⟩

/-- A `posix_memalign` that succeeds: some address that is not in use. -/
structure Fresh where
  pick : List Addr → Addr
  fresh : ∀ live, pick live ∉ live

theorem le_foldr_max (live : List Addr) : ∀ a ∈ live, a ≤ live.foldr max 0 := by
  induction live with
  | nil => simp
  | cons b live ih =>
    intro a ha
    rw [List.foldr_cons]
    rcases List.mem_cons.mp ha with rfl | ha
    · exact le_max_left _ _
    · exact (ih a ha).trans (le_max_right _ _)

/-- The address after the largest one in use. -/
def Fresh.next : Fresh where
  pick live := live.foldr max 0 + 1
  fresh live h := absurd (le_foldr_max live _ h) (Nat.not_succ_le_self _)

/-- How the allocations of one `insert` go, `none` being a failure. A new branch
starts with whatever bytes were in its memory. -/
structure Memory (H : Type) where
  newnode : Option Fresh
  garbage : H
  elem : Option Fresh

/-- Every allocation succeeds. -/
def Memory.ample {H : Type} (garbage : H) : Memory H := ⟨some .next, garbage, some .next⟩

/-- Do the allocations succeed that `insert` makes for a new key? An empty tree
needs no branch. -/
def Memory.suffices {H : Type} (mem : Memory H) (isEmpty : Bool) : Bool :=
  mem.elem.isSome && (isEmpty || mem.newnode.isSome)

/-- `critbit_tree<ValType, ExternalType, Branch>`. -/
structure CritbitTree (E H : Type) [CritbitExt E H] where
  root : Option (Node E H)
  ext : Changes E H

/-- Where an update stands when it returns, or when it calls `_ext.onchange()`. -/
inductive Update (E H R : Type) [CritbitExt E H] where
  | returns (t : CritbitTree E H) (result : R)
  | changed (root : Node E H) (changes : Changes E H) (freed : List Addr) (result : R)

/-- Run the pending `onchange`, if there is one. -/
def Update.finish {E H R : Type} [CritbitExt E H] :
    Update E H R → Option (CritbitTree E H × R)
  | returns t result => some (t, result)
  | changed root changes _ result =>
    (onchange root changes).map fun next => (⟨some next.1, next.2⟩, result)

namespace CritbitTree

variable {E H : Type} [CritbitExt E H]

/-- A newly constructed tree. -/
def empty : CritbitTree E H := ⟨none, noChanges⟩

/-- `empty()`. -/
def isEmpty (t : CritbitTree E H) : Bool := t.root.isNone

/-- `clear()`. The extension is not told. -/
def clear (t : CritbitTree E H) : CritbitTree E H := { t with root := none }

variable [CritbitElemOps E]

/-- The default argument `keylen = ~0`. -/
def defaultKeylen : ℕ := 2 ^ 64 - 1

/-- `if (keylen == ~0) keylen = key_size(prefix)`. -/
def keylenOf (pre : E) (keylen : ℕ) : ℕ :=
  if keylen = defaultKeylen then (keyBytes pre).length else keylen

/-- `nearest_subtree`. -/
def nearestSubtree (t : CritbitTree E H) (pre : E) (bitmask : UInt8) (keylen : ℕ) :
    Option (Node E H) :=
  t.root.map (·.nearestSubtree (keyBytes pre) bitmask (keylenOf pre keylen))

/-- The validity test of `subtree`: the bytes of some leaf below against the prefix. -/
def prefixMatches (keybytes leafbytes : List UInt8) (bitmask : UInt8) (keylen : ℕ) : Prop :=
  keylen > 0 → (∀ i < keylen - 1, byteAt keybytes i = byteAt leafbytes i) ∧
    (byteAt keybytes (keylen - 1) ^^^ byteAt leafbytes (keylen - 1)) &&& ~~~bitmask = 0

instance (keybytes leafbytes : List UInt8) (bitmask : UInt8) (keylen : ℕ) :
    Decidable (prefixMatches keybytes leafbytes bitmask keylen) := by
  unfold prefixMatches
  infer_instance

/-- `subtree` with a length given. -/
def subtreeOf (t : CritbitTree E H) (pre : E) (bitmask : UInt8) (keylen : ℕ) :
    Option (Node E H) :=
  match t.root.map (·.nearestSubtree (keyBytes pre) bitmask keylen) with
  | none => none
  | some top =>
    if prefixMatches (keyBytes pre) (keyBytes top.beginLeaf.val) bitmask keylen then some top
    else none

/-- `subtree`. -/
def subtree (t : CritbitTree E H) (pre : E) (bitmask : UInt8) (keylen : ℕ) :
    Option (Node E H) :=
  t.subtreeOf pre bitmask (keylenOf pre keylen)

/-- `lower_bound`. -/
def lowerBound (t : CritbitTree E H) (val : E) : Option (ValPtr E) :=
  t.root.map (·.walkTreeForBestMember (keyBytes val) (keyBytes val).length)

/-- `find`. -/
def find (t : CritbitTree E H) (val : E) : Option (ValPtr E) :=
  match t.lowerBound val with
  | none => none
  | some p => if equals val p.val then some p else none

/-- `contains`. -/
def contains (t : CritbitTree E H) (val : E) : Bool := (t.find val).isSome

end CritbitTree

/-! ## insert -/

namespace Node

variable {E H : Type} [CritbitExt E H]

/-- The loop over `where_at` and the two stores after it: put `newnode` between
the place the walk stops at and what hangs there. -/
def spliceAt (keybytes : List UInt8) (newbyte : ℕ) (newotherbits : UInt8)
    (newnode : Node E H → Node E H) : Node E H → Changes E H → Node E H × Changes E H
  | leaf x, changes => (newnode (leaf x), changes)
  | branch q c0 c1, changes =>
    if q.byte > newbyte then (newnode (branch q c0 c1), changes)
    else if q.byte = newbyte ∧ q.otherbits > newotherbits then
      (newnode (branch q c0 c1), changes)
    else
      let changes := pushChange q.addr changes
      if calculateDirection q.byte q.otherbits keybytes keybytes.length then
        let (c1, changes) := c1.spliceAt keybytes newbyte newotherbits newnode changes
        (branch q c0 c1, changes)
      else
        let (c0, changes) := c0.spliceAt keybytes newbyte newotherbits newnode changes
        (branch q c0 c1, changes)

/-- `newnode->child[1-newdirection] = x` and `newnode->child[newdirection] = *where_at`. -/
def newBranch (q : Branch H) (newdirection : Bool) (x : ValPtr E) (old : Node E H) : Node E H :=
  if newdirection then branch q (leaf x) old else branch q old (leaf x)

end Node

namespace CritbitTree

variable {E H : Type} [CritbitExt E H] [CritbitElemOps E]

/-- `insertIntoEmptyTree`. -/
def insertIntoEmptyTree (t : CritbitTree E H) (val : E) (elem : Option Fresh) :
    CritbitTree E H × Option (ValPtr E) :=
  match elem with
  | none => (t, none)
  | some mem =>
    let x : ValPtr E := ⟨mem.pick [], val⟩
    ({ t with root := some (.leaf x) }, some x)

/-- `insert(val, is_new)` up to `_ext.onchange()`. The result is the pointer
returned, `none` being out of memory, and the value left in `is_new`. -/
def insertUpdate (t : CritbitTree E H) (val : E) (isNew : Bool) (mem : Memory H) :
    Update E H (Option (ValPtr E) × Bool) :=
  match t.root with
  | none =>
    let (t', x) := t.insertIntoEmptyTree val mem.elem
    .returns t' (x, true)
  | some root =>
    let keybytes := keyBytes val
    let closest := root.walkTreeForBestMember keybytes keybytes.length
    let p := keyBytes closest.val
    match findCriticalBit p p.length keybytes keybytes.length with
    | none => .returns t (some closest, false)
    | some c =>
      match mem.newnode with
      | none => .returns t (none, isNew)
      | some newnode =>
        let newnode := newnode.pick root.addrs
        match mem.elem with
        | none => .returns t (none, isNew)
        | some elem =>
          let x : ValPtr E := ⟨elem.pick (newnode :: root.addrs), val⟩
          let q : Branch H := ⟨newnode, c.newbyte, c.newotherbits, mem.garbage⟩
          let (root, changes) := root.spliceAt keybytes c.newbyte c.newotherbits
            (Node.newBranch q c.newdirection x) t.ext
          .changed root (pushChange newnode changes) [] (some x, true)

/-- `insert(val, is_new)`. -/
def insert (t : CritbitTree E H) (val : E) (isNew : Bool) (mem : Memory H) :
    Option (CritbitTree E H × Option (ValPtr E) × Bool) :=
  (t.insertUpdate val isNew mem).finish

end CritbitTree

/-! ## remove -/

/-- What the walk of `remove` finds below a node: the best match, its parent
branch, the tree once the parent is replaced by its other child, and the changes
pushed on the way. A null `where_parent` is the pair of `none`s. -/
structure BestMatch (E H : Type) [CritbitExt E H] where
  best : ValPtr E
  parent : Option Addr
  rest : Option (Node E H)
  changes : Changes E H

namespace Node

variable {E H : Type} [CritbitExt E H]

/-- The walk of `remove`. A branch is pushed when the walk goes on to another
branch, so the parent of the best match never is. -/
def findBestMatch (keybytes : List UInt8) (keylen : ℕ) :
    Node E H → Changes E H → BestMatch E H
  | leaf x, changes => ⟨x, none, none, changes⟩
  | branch q c0 c1, changes =>
    if calculateDirection q.byte q.otherbits keybytes keylen then
      let changes := if c1.isBranch then pushChange q.addr changes else changes
      let m := c1.findBestMatch keybytes keylen changes
      match m.rest with
      | none => { m with parent := some q.addr, rest := some c0 }
      | some c1 => { m with rest := some (branch q c0 c1) }
    else
      let changes := if c0.isBranch then pushChange q.addr changes else changes
      let m := c0.findBestMatch keybytes keylen changes
      match m.rest with
      | none => { m with parent := some q.addr, rest := some c1 }
      | some c0 => { m with rest := some (branch q c0 c1) }

end Node

namespace CritbitTree

variable {E H : Type} [CritbitExt E H] [CritbitElemOps E]

/-- `remove` up to `_ext.onchange()`: 0 if nothing changed, 1 if the element is gone. -/
def removeUpdate (t : CritbitTree E H) (val : E) : Update E H ℕ :=
  match t.root with
  | none => .returns t 0
  | some root =>
    let m := root.findBestMatch (keyBytes val) (keyBytes val).length t.ext
    if !equals val m.best.val then .returns { t with ext := clearChanges m.changes } 0
    else
      match m.rest with
      | none => .returns ⟨none, m.changes⟩ 1
      | some root => .changed root m.changes (m.best.addr :: m.parent.toList) 1

/-- `remove`. -/
def remove (t : CritbitTree E H) (val : E) : Option (CritbitTree E H × ℕ) :=
  (t.removeUpdate val).finish

/-- The trees that calls of `insert`, `remove` and `clear` can lead to. -/
inductive Reachable : CritbitTree E H → Prop where
  | empty : Reachable empty
  | insert {t t' : CritbitTree E H} {val : E} {isNew : Bool} {mem : Memory H}
      {r : Option (ValPtr E) × Bool} :
      Reachable t → t.insert val isNew mem = some (t', r) → Reachable t'
  | remove {t t' : CritbitTree E H} {val : E} {r : ℕ} :
      Reachable t → t.remove val = some (t', r) → Reachable t'
  | clear {t : CritbitTree E H} : Reachable t → Reachable t.clear

end CritbitTree

end Turbolib
