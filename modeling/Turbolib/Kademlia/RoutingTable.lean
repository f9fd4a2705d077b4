import Turbolib.Library.HighestBit
import Turbolib.Library.Machine
import Turbolib.Library.Walk
import Mathlib.Data.List.Perm.Basic

/-!
# The routing table

The table of `routing_table.h`: values in buckets by the XOR distance of their hash from
the origin, and a count kept beside them. `HashType` is an unsigned integer of `w` bits,
and the table has `sizeof(HashType)*8`, that is `w`, buckets.

## Main definitions

* `RoutingTable.index` — the bucket of a hash.
* `RoutingTable.insert`, `RoutingTable.erase`, `RoutingTable.find` — the operations; `none`
  for a bucket outside the table.
* `RoutingTable.serve` — one request.
* `RoutingTable.cursor` — going through the table with `++`, from `begin()` to `end()`.
* `RoutingTable.random` — a random place; `none` for a step out of range.
-/

namespace Turbolib

/-- What `erase` and `find` use of a key of any type: its hash, and `value == key` for a
stored value. -/
structure LookupKey (V : Type) (w : ℕ) where
  hash : BitVec w
  equals : V → Bool

/-- A stored type's own value as a key. -/
def LookupKey.ofValue {V : Type} {w : ℕ} [BEq V] (hash : V → BitVec w) (value : V) :
    LookupKey V w :=
  ⟨hash value, (· == value)⟩

/-- A place in a bucket. -/
structure ListIterator where
  bucket : ℕ
  position : ℕ
  deriving DecidableEq, Repr

/-- `_iterator`: a place in a bucket, and the range of buckets left. -/
structure TableIterator extends ListIterator where
  current : ℕ
  tableEnd : ℕ
  deriving DecidableEq, Repr

/-- The draws of a random engine: `draw n a b` is the draw number `n`, made with
`std::uniform_int_distribution<unsigned int>(a, b)`. -/
structure RandomEngine where
  draw : ℕ → BitVec 32 → BitVec 32 → BitVec 32
  inRange : ∀ n a b, a ≤ b → a ≤ draw n a b ∧ draw n a b ≤ b

structure RoutingTable (V : Type) (w : ℕ) where
  table : Vector (List V) w
  origin : BitVec w
  size : BitVec 32

namespace RoutingTable

variable {V : Type} {w : ℕ}

/-- A new table. The source leaves the origin uninitialised. -/
def new (origin : BitVec w) : RoutingTable V w :=
  ⟨Vector.replicate w [], origin, 0⟩

/-- The loop of `index`: `while (mask >>= 1) ++index`. -/
def indexLoop (mask : BitVec w) (index : ℕ) : ℕ :=
  let mask' := mask >>> 1
  if mask' = 0#w then index else indexLoop mask' (index + 1)
termination_by mask.toNat
decreasing_by
  rename_i hmask
  rw [half_eq_zero_iff] at hmask
  rw [toNat_half]
  omega

/-- `index`, of a key with the given hash. -/
def index (t : RoutingTable V w) (hash : BitVec w) : ℕ := indexLoop (hash ^^^ t.origin) 0

/-- `std::find` over a bucket: the position of the first match, or the end. -/
def stdFind (bucket : List V) (equals : V → Bool) : ℕ := bucket.findIdx equals

/-- `while (*this == _current->end())` of the iterator. It moves on to the next bucket
until there is a value, and stays at the end of the last one if there is none. -/
def iterateUntilValidOrEnd (t : RoutingTable V w) (it : ListIterator) (current : ℕ) :
    TableIterator :=
  if hcurrent : current < w then
    if it = ⟨current, t.table[current].length⟩ then
      if current + 1 = w then ⟨it, current + 1, w⟩
      else iterateUntilValidOrEnd t ⟨current + 1, 0⟩ (current + 1)
    else ⟨it, current, w⟩
  else ⟨it, current, w⟩

/-- The constructor of `_iterator`. -/
def makeIterator (t : RoutingTable V w) (it : ListIterator) (current : ℕ) : TableIterator :=
  if current ≠ w then t.iterateUntilValidOrEnd it current else ⟨it, current, w⟩

/-- `end()`: the end of the last bucket. -/
def endIterator (t : RoutingTable V w) : ListIterator :=
  ⟨w - 1, (t.table[w - 1]?.getD []).length⟩

/-- The value a place in a bucket holds. -/
def deref (t : RoutingTable V w) (it : ListIterator) : Option V := do
  let bucket ← t.table[it.bucket]?
  bucket[it.position]?

/-- `set_origin`, of a value with the given hash. -/
def setOrigin (t : RoutingTable V w) (hash : BitVec w) : RoutingTable V w :=
  { t with origin := hash }

section

variable [BEq V] (hash : V → BitVec w)

def insert (t : RoutingTable V w) (value : V) : Option (RoutingTable V w × Bool) :=
  let i := t.index (hash value)
  if hi : i < w then
    let bucket := t.table[i]
    if stdFind bucket (· == value) ≠ bucket.length then
      some (t, false)
    else
      some ({ t with table := t.table.set i (bucket ++ [value]), size := t.size + 1 }, true)
  else none

end

def erase (t : RoutingTable V w) (key : LookupKey V w) : Option (RoutingTable V w × Bool) :=
  let i := t.index key.hash
  if hi : i < w then
    let bucket := t.table[i]
    let it := stdFind bucket key.equals
    if it = bucket.length then
      some (t, false)
    else
      some ({ t with table := t.table.set i (bucket.eraseIdx it), size := t.size - 1 }, true)
  else none

def find (t : RoutingTable V w) (key : LookupKey V w) : Option TableIterator :=
  let i := t.index key.hash
  if hi : i < w then
    let bucket := t.table[i]
    let it := stdFind bucket key.equals
    if it = bucket.length then some (t.makeIterator t.endIterator w)
    else some (t.makeIterator ⟨i, it⟩ i)
  else none

/-- `begin()`. -/
def beginIterator (t : RoutingTable V w) : TableIterator := t.makeIterator ⟨0, 0⟩ 0

/-- `++` of an iterator at a value; `none` for one past the values. -/
def increment (t : RoutingTable V w) (it : TableIterator) : Option TableIterator :=
  if (t.deref it.toListIterator).isSome ∧ it.current < w then
    some (t.iterateUntilValidOrEnd ⟨it.bucket, it.position + 1⟩ it.current)
  else none

/-- `for (; it != end(); ++it)`. Only the place in the list is compared. -/
def cursor (t : RoutingTable V w) : Cursor TableIterator V where
  AtEnd it := it.toListIterator = t.endIterator
  read it := t.deref it.toListIterator
  next := t.increment

/-- The last part of `random`: from `begin()`, as many steps as were drawn. -/
def randomFromBegin (t : RoutingTable V w) (adv : BitVec 32) : Option TableIterator :=
  t.cursor.advance adv.toNat t.beginIterator

/-- `random`. The ranges of the draws are those of `unsigned int`, whatever the type of
the size they are made from. -/
def random (t : RoutingTable V w) (rando : RandomEngine) : Option TableIterator :=
  if t.size = 0 then some t.beginIterator
  else if t.size > 100 then do
    let b := (rando.draw 0 0 (BitVec.ofNat 32 (w - 1))).toNat
    let bucket ← t.table[b]?
    if bucket ≠ [] then
      let p := (rando.draw 1 0 (BitVec.ofNat 32 (bucket.length - 1))).toNat
      if p ≤ bucket.length then some (t.makeIterator ⟨b, p⟩ b) else none
    else
      let it := t.makeIterator ⟨b, 0⟩ b
      if it.toListIterator ≠ t.endIterator then some it
      else t.randomFromBegin (rando.draw 1 0 (t.size - 1))
  else t.randomFromBegin (rando.draw 0 0 (t.size - 1))

/-- The values stored, bucket by bucket. -/
def values (t : RoutingTable V w) : List V := t.table.toList.flatten

inductive Request (V : Type) (w : ℕ) where
  | insert (value : V)
  | erase (key : LookupKey V w)
  | find (key : LookupKey V w)

inductive Answer where
  | changed (done : Bool)
  | place (it : TableIterator)
  deriving DecidableEq, Repr

def serve [BEq V] (hash : V → BitVec w) (t : RoutingTable V w) :
    Request V w → Option (RoutingTable V w × Answer)
  | .insert value => do
    let (t', done) ← t.insert hash value
    return (t', .changed done)
  | .erase key => do
    let (t', done) ← t.erase key
    return (t', .changed done)
  | .find key => do
    let it ← t.find key
    return (t, .place it)

/-! ## The bucket of a hash -/

theorem indexLoop_eq (mask : BitVec w) (index : ℕ) :
    indexLoop mask index = index + mask.toNat.log2 := by
  fun_induction indexLoop mask index with
  | case1 mask index mask' hzero =>
    rw [half_eq_zero_iff] at hzero
    rw [Nat.log2_def, if_neg (by omega), Nat.add_zero]
  | case2 mask index mask' hzero ih =>
    rw [half_eq_zero_iff] at hzero
    rw [ih, toNat_half, Nat.log2_def mask.toNat, if_pos (by omega)]
    omega

variable {t : RoutingTable V w} {h : BitVec w} {i : ℕ}

theorem index_highestBit : HighestBit (h ^^^ t.origin) (t.index h) := by
  rw [highestBit_iff, index, indexLoop_eq, Nat.zero_add]

theorem index_eq_iff : t.index h = i ↔ HighestBit (h ^^^ t.origin) i :=
  ⟨fun hi => hi ▸ index_highestBit, index_highestBit.unique⟩

theorem index_lt (hw : 0 < w) : t.index h < w := index_highestBit.lt hw

end RoutingTable

end Turbolib
