import Turbolib.Critbit.Operations
import Mathlib.Tactic.IntervalCases

/-!
# The Merkle tree

`merkle_tree.h`: a crit-bit tree of fixed-size keys whose leaves carry a hash
and whose branches keep the XOR of the hashes below. `location` describes a
node by a key and a number of key bits, and `diff` compares such a description,
made by another replica, with what this tree has at the same place.

`uint16_t` fields are `UInt16`: the number of key bits wraps around. The values
stored beside the hash are one type `V` here.
-/

namespace Turbolib

/-- What the tree asks of `HashType`. -/
class HashType (H : Type) extends XorOp H, Zero H where
  xor_assoc : ∀ a b c : H, a ^^^ b ^^^ c = a ^^^ (b ^^^ c)
  xor_comm : ∀ a b : H, a ^^^ b = b ^^^ a
  xor_zero : ∀ a : H, a ^^^ 0 = a

instance {w : ℕ} : HashType (BitVec w) where
  xor_assoc := BitVec.xor_assoc
  xor_comm := BitVec.xor_comm
  xor_zero _ := BitVec.xor_zero

/-- `HashType()`. -/
instance (priority := low) {H : Type} [HashType H] : Inhabited H := ⟨0⟩

/-- The stored pairs, `critbit_map_pair<KeyType, tuple<HashType, ValueType...>>`. -/
abbrev Record (n : ℕ) (H V : Type) := CritbitMapPair n (H × V)

section Ext

variable {n : ℕ} {H V : Type}

/-- `std::get<0>(leaf->second)`. -/
def leafHash (x : ValPtr (Record n H V)) : H := x.val.second.1

namespace Node

/-- `getHash`. -/
def getHash : Node (Record n H V) H → H
  | leaf x => leafHash x
  | branch q _ _ => q.hash

variable [HashType H]

/-- One round of `onchange`: store the hash of the branch at address `a`. -/
def recompute (a : Addr) : Node (Record n H V) H → Option (Node (Record n H V) H)
  | leaf _ => none
  | branch q c0 c1 =>
    if q.addr = a then some (branch { q with hash := c0.getHash ^^^ c1.getHash } c0 c1)
    else
      match c0.recompute a with
      | some c0 => some (branch q c0 c1)
      | none => (c1.recompute a).map (branch q c0)

theorem recompute_skeleton {m m' : Node (Record n H V) H} {a : Addr}
    (h : m.recompute a = some m') : m'.skeleton = m.skeleton := by
  induction m generalizing m' with
  | leaf x => simp [recompute] at h
  | branch q c0 c1 ih0 ih1 =>
    simp only [recompute] at h
    split_ifs at h with ha
    · cases h
      rfl
    · split at h
      next c0' h0 =>
        cases h
        simp [skeleton, ih0 h0]
      next h0 =>
        obtain ⟨c1', h1, rfl⟩ := Option.map_eq_some_iff.mp h
        simp [skeleton, ih1 h1]

theorem recompute_isSome {m : Node (Record n H V) H} {a : Addr} (h : a ∈ m.branchAddrs) :
    ∃ m', m.recompute a = some m' := by
  induction m with
  | leaf x => simp [branchAddrs] at h
  | branch q c0 c1 ih0 ih1 =>
    simp only [recompute]
    split_ifs with ha
    · exact ⟨_, rfl⟩
    · split
      · exact ⟨_, rfl⟩
      next h0 =>
        simp only [branchAddrs, List.mem_cons, List.mem_append] at h
        rcases h with rfl | h | h
        · exact absurd rfl ha
        · obtain ⟨m', hm⟩ := ih0 h
          rw [hm] at h0
          exact absurd h0 (by simp)
        · obtain ⟨m', hm⟩ := ih1 h
          exact ⟨branch q c0 m', by simp [hm]⟩

theorem recompute_mem {m m' : Node (Record n H V) H} {a : Addr} (h : m.recompute a = some m') :
    a ∈ m.branchAddrs := by
  induction m generalizing m' with
  | leaf x => simp [recompute] at h
  | branch q c0 c1 ih0 ih1 =>
    simp only [recompute] at h
    simp only [branchAddrs, List.mem_cons, List.mem_append]
    split_ifs at h with ha
    · exact Or.inl ha.symm
    · split at h
      next c0' h0 => exact Or.inr (Or.inl (ih0 h0))
      next h0 =>
        obtain ⟨c1', h1, -⟩ := Option.map_eq_some_iff.mp h
        exact Or.inr (Or.inr (ih1 h1))

/-- The loop of `onchange`. -/
def recomputeAll (m : Node (Record n H V) H) : List Addr → Option (Node (Record n H V) H)
  | [] => some m
  | a :: changes =>
    match m.recompute a with
    | none => none
    | some m => m.recomputeAll changes

theorem recomputeAll_isSome (changes : List Addr) {m : Node (Record n H V) H}
    (h : ∀ a ∈ changes, a ∈ m.branchAddrs) :
    ∃ m', m.recomputeAll changes = some m' ∧ m'.skeleton = m.skeleton := by
  induction changes generalizing m with
  | nil => exact ⟨m, rfl, rfl⟩
  | cons a changes ih =>
    obtain ⟨m₁, h₁⟩ := recompute_isSome (h a (by simp))
    have hs := recompute_skeleton h₁
    have hmem : ∀ b ∈ changes, b ∈ m₁.branchAddrs := by
      intro b hb
      rw [← branchAddrs_skeleton, hs, branchAddrs_skeleton]
      exact h b (by simp [hb])
    obtain ⟨m₂, h₂, hs₂⟩ := ih hmem
    exact ⟨m₂, by simp [recomputeAll, h₁, h₂], hs₂.trans hs⟩

end Node

/-- An empty change list names no branch. -/
theorem changes_nil : (fun changes : List Addr => changes) [] = [] := rfl

/-- `critbit_ext<critbit_map_pair, merkle_branch>`. -/
instance [HashType H] : CritbitExt (Record n H V) H where
  Changes := List Addr
  noChanges := []
  names changes := changes
  pushChange a changes := a :: changes
  clearChanges _ := []
  onchange root changes := (root.recomputeAll changes).map fun root => (root, [])
  names_noChanges := changes_nil
  names_pushChange _ _ := by simp
  clearChanges_eq _ := rfl
  onchange_ok root changes h := by
    obtain ⟨root', hr, hs⟩ := Node.recomputeAll_isSome changes h
    exact ⟨root', by simp [hr], hs⟩

end Ext

/-- `merkle_tree<KeyType, HashType, ValueType...>` with keys of `n` bytes. -/
abbrev MerkleTree (n : ℕ) (H V : Type) [HashType H] := CritbitTree (Record n H V) H

/-- `merkle_tree::location`. -/
structure Location (n : ℕ) (H : Type) where
  hash : H
  key : FixedKey n
  keybits : UInt16
deriving DecidableEq

namespace Location

variable {n : ℕ} {H : Type}

/-- `MAX_KEYBITS`. -/
def maxKeybits (n : ℕ) : UInt16 := UInt16.ofNat (n * 8)

/-- `location::null()`. -/
def null [HashType H] : Location n H := ⟨0, FixedKey.zero n, 0xFFFF⟩

/-- `location(hash, key)`. -/
def ofKey (hash : H) (key : FixedKey n) : Location n H := ⟨hash, key, maxKeybits n⟩

/-- `copy`. -/
def copy (p : Location n H) (newhash : H) : Location n H := ⟨newhash, p.key, p.keybits⟩

end Location

/-- `merkle_tree::diff_result`. -/
structure DiffResult (n : ℕ) (H : Type) where
  points : List (Location n H)
  missing : Bool
deriving DecidableEq

namespace DiffResult

variable {n : ℕ} {H : Type}

def leaf (r : DiffResult n H) : Bool := r.points.length == 1

def noDifference (r : DiffResult n H) : Bool := r.points.isEmpty

def traverse (r : DiffResult n H) : Bool := r.points.length ≥ 2

def needExchange (r : DiffResult n H) : Bool := !r.missing && r.leaf

variable [HashType H] [DecidableEq H]

def needRange (r : DiffResult n H) : Bool :=
  r.missing && r.leaf && r.points.head? == some .null

def needPartialRange (r : DiffResult n H) : Bool :=
  r.missing && r.leaf && !(r.points.head? == some .null)

end DiffResult

/-- `MultiplyDeBruijnBitPosition`. -/
def multiplyDeBruijnBitPosition : List ℕ :=
  [0, 1, 28, 2, 29, 14, 24, 3, 30, 22, 20, 15, 25, 17, 4, 8,
   31, 27, 13, 23, 21, 19, 16, 7, 26, 12, 18, 6, 11, 5, 10, 9]

/-- `keybits(byte, otherbits)`. The table is never asked for more than 7 here, so
the subtraction does not go below zero. -/
def keybits (byte : ℕ) (otherbits : UInt8) : UInt16 :=
  let x := otherbits.toUInt32
  let i := ((x &&& -x) * 0x077CB531) >>> 27
  UInt16.ofNat (byte * 8 + 8 - multiplyDeBruijnBitPosition.getD i.toNat 0)

/-- The number of key bits in front of a branch's critical bit. -/
def Branch.keybits {H : Type} (q : Branch H) : UInt16 :=
  Turbolib.keybits q.byte (q.otherbits ^^^ 0xFF) - 1

/-- `getPoint`. -/
def Node.getPoint {n : ℕ} {H V : Type} (key : FixedKey n) : Node (Record n H V) H → Location n H
  | leaf x => .ofKey (leafHash x) x.val.first
  | branch q _ _ => ⟨q.hash, key, q.keybits⟩

/-- What `diff` does with the node that `nearest_subtree` has found: its cases 2 to 7. -/
def Node.diff {n : ℕ} {H V : Type} [DecidableEq H] (nodep : Node (Record n H V) H)
    (point : Location n H) : DiffResult n H :=
  if point.hash = nodep.getHash then ⟨[], false⟩
  else
    match nodep with
    | leaf x =>
      let current := Location.ofKey (leafHash x) x.val.first
      ⟨[current], current.key ≠ point.key ∨ current.keybits ≠ point.keybits⟩
    | branch q c0 c1 =>
      let leftLeaf := (branch q c0 c1).beginLeaf
      if q.keybits > point.keybits then
        ⟨[⟨q.hash, leftLeaf.val.first, q.keybits⟩], true⟩
      else
        let rightLeaf := c1.beginLeaf
        ⟨[c0.getPoint leftLeaf.val.first, c1.getPoint rightLeaf.val.first,
          point.copy q.hash], false⟩

namespace MerkleTree

variable {n : ℕ} {H V : Type} [HashType H]

/-- `insert`. -/
def insert (t : MerkleTree n H V) (key : FixedKey n) (hash : H) (value : V) (isNew : Bool)
    (mem : Memory H) : Option (MerkleTree n H V × Option (ValPtr (Record n H V)) × Bool) :=
  CritbitTree.insert t ⟨key, (hash, value)⟩ isNew mem

variable [Inhabited V]

/-- `remove`. -/
def remove (t : MerkleTree n H V) (key : FixedKey n) : Option (MerkleTree n H V × ℕ) :=
  CritbitTree.remove t (.ofKey key)

/-- The subtree mask made from `keybits % 8`. -/
def bitmaskOf (keybits : UInt16) : UInt8 :=
  if keybits % 8 ≠ 0 then (1 <<< (8 - (keybits % 8).toUInt8)) - 1 else 0

/-- The key length made from `keybits`. -/
def keylenOf (keybits : UInt16) : ℕ :=
  if keybits % 8 ≠ 0 then keybits.toNat / 8 + 1 else keybits.toNat / 8

/-- `nearest_subtree(key, keybits)`. -/
def nearestSubtree (t : MerkleTree n H V) (key : FixedKey n) (keybits : UInt16) :
    Option (Node (Record n H V) H) :=
  CritbitTree.nearestSubtree t (.ofKey key) (bitmaskOf keybits) (keylenOf keybits)

/-- `top`. -/
def top (t : MerkleTree n H V) : Location n H :=
  match t.nearestSubtree (.zero n) 0 with
  | none => .null
  | some node => node.getPoint (.zero n)

variable [DecidableEq H]

/-- `diff`. -/
def diff (t : MerkleTree n H V) (point : Location n H) : DiffResult n H :=
  if t.isEmpty then ⟨[.null], true⟩
  else
    match t.nearestSubtree point.key point.keybits with
    | none => ⟨[.null], true⟩
    | some nodep => nodep.diff point

end MerkleTree

end Turbolib
