import Turbolib.Merkle.Location

/-!
# History independence

A Merkle tree is determined by its records, the pairs of a key and its leaf
hash. Forgetting the addresses, a reachable tree maps to a crit-bit trie of
records whose shape the set of records fixes, and the masks and branch hashes
follow from that shape.
-/

namespace Turbolib

open BitString

/-- What two replicas can compare of a tree: everything but the addresses and
the values stored beside the hashes. -/
inductive Shape (n : ℕ) (H : Type) where
  | leaf (key : FixedKey n) (hash : H)
  | branch (byte : ℕ) (otherbits : UInt8) (hash : H) (child0 child1 : Shape n H)
deriving DecidableEq

/-- The key and the hash of a leaf. -/
def recordOf {n : ℕ} {H V : Type} (x : ValPtr (Record n H V)) : FixedKey n × H :=
  (x.val.first, leafHash x)

/-- The bits a record is filed under. -/
def recordBits {n : ℕ} {H : Type} (r : FixedKey n × H) : BitString := bitsOf r.1.bytes

namespace Node

variable {n : ℕ} {H V : Type}

def shape : Node (Record n H V) H → Shape n H
  | leaf x => .leaf x.val.first (leafHash x)
  | branch q c0 c1 => .branch q.byte q.otherbits q.hash c0.shape c1.shape

/-- The trie of the records below a node. -/
def recordTrie (m : Node (Record n H V) H) : Trie (FixedKey n × H) := m.toTrie.map recordOf

theorem WellFormed.recordTrie {m : Node (Record n H V) H} (h : m.WellFormed) :
    m.recordTrie.Ordered recordBits :=
  Trie.ordered_map.mpr h.ordered

theorem mem_recordTrie {m : Node (Record n H V) H} {r : FixedKey n × H} :
    r ∈ m.recordTrie ↔ ∃ x ∈ m, recordOf x = r := Trie.mem_map

theorem mem_recordTrie_branch {q : Branch H} {c0 c1 : Node (Record n H V) H} {r : FixedKey n × H} :
    r ∈ (branch q c0 c1).recordTrie ↔ r ∈ c0.recordTrie ∨ r ∈ c1.recordTrie := Trie.mem_node

/-- Nodes of one shape are described by the same location. -/
theorem getPoint_of_shape {m m' : Node (Record n H V) H} (h : m.shape = m'.shape)
    (key : FixedKey n) : m.getPoint key = m'.getPoint key := by
  cases m <;> cases m' <;> simp_all [shape, getPoint, Branch.keybits]

theorem getHash_of_shape {m m' : Node (Record n H V) H} (h : m.shape = m'.shape) :
    m.getHash = m'.getHash := by
  cases m <;> cases m' <;> simp_all [shape, getHash]

variable [HashType H]

theorem hashBelow_eq_recordTrie (m : Node (Record n H V) H) :
    m.hashBelow = xorAll (m.recordTrie.leaves.map Prod.snd) := by
  rw [hashBelow, recordTrie, Trie.leaves_map, List.map_map]
  rfl

/-- With right masks and hashes the trie of records gives the shape. -/
theorem shape_eq_of_recordTrie {m m' : Node (Record n H V) H} (hm : m.Masks) (hm' : m'.Masks)
    (hh : m.Hashed) (hh' : m'.Hashed) (h : m.recordTrie = m'.recordTrie) :
    m.shape = m'.shape := by
  induction m generalizing m' with
  | leaf x =>
    cases m' with
    | leaf y =>
      simp only [recordTrie, toTrie, Trie.map, Trie.leaf.injEq, recordOf, Prod.mk.injEq] at h
      rw [shape, shape, h.1, h.2]
    | branch q' c0' c1' => simp [recordTrie, toTrie, Trie.map] at h
  | branch q c0 c1 ih0 ih1 =>
    cases m' with
    | leaf y => simp [recordTrie, toTrie, Trie.map] at h
    | branch q' c0' c1' =>
      have hhash : q.hash = q'.hash := by
        rw [hh.1 (by simp), hh'.1 (by simp), hashBelow_eq_recordTrie, hashBelow_eq_recordTrie, h]
      simp only [recordTrie, toTrie, Trie.map, Trie.node.injEq] at h
      obtain ⟨hpos, h0, h1⟩ := h
      obtain ⟨hbyte, hbits⟩ := critPos_inj hm.1 hm'.1 hpos
      rw [shape, shape, hbyte, hbits, hhash, ih0 hm.2.1 hm'.2.1 hh.2.1 hh'.2.1 h0,
        ih1 hm.2.2 hm'.2.2 hh.2.2 hh'.2.2 h1]

end Node

namespace MerkleTree

variable {n : ℕ} {H V : Type} [HashType H]

/-- The keys stored, each with its leaf hash. -/
def records (t : MerkleTree n H V) : Set (FixedKey n × H) := {r | ∃ x ∈ t, recordOf x = r}

theorem mem_records {t : MerkleTree n H V} {r : FixedKey n × H} :
    r ∈ t.records ↔ ∃ x ∈ t, recordOf x = r := Iff.rfl

variable {t u : MerkleTree n H V}

/-- The records in the order of their keys. -/
def recordList (t : MerkleTree n H V) : List (FixedKey n × H) :=
  match t.root with
  | none => []
  | some root => root.recordTrie.leaves

theorem records_of_root {root : Node (Record n H V) H} (hr : t.root = some root)
    (r : FixedKey n × H) : r ∈ t.records ↔ r ∈ root.recordTrie := by
  rw [mem_records, Node.mem_recordTrie]
  simp [CritbitTree.mem_def, hr]

theorem records_eq_empty (hr : t.root = none) : t.records = ∅ := by
  ext r
  simp [mem_records, CritbitTree.mem_def, hr]

theorem mem_recordList {r : FixedKey n × H} : r ∈ t.recordList ↔ r ∈ t.records := by
  unfold recordList
  cases hr : t.root with
  | none => simp [records_eq_empty hr]
  | some root => exact (records_of_root hr r).symm

/-- The shape of a reachable tree is a function of its records. -/
theorem shape_eq_of_records (ht : t.Reachable) (hu : u.Reachable) (h : t.records = u.records) :
    t.root.map Node.shape = u.root.map Node.shape := by
  cases hr : t.root with
  | none =>
    cases hr' : u.root with
    | none => rfl
    | some root' =>
      have hmem : recordOf root'.beginLeaf ∈ u.records :=
        ⟨_, ⟨root', hr', root'.beginLeaf_mem⟩, rfl⟩
      rw [← h, records_eq_empty hr] at hmem
      exact hmem.elim
  | some root =>
    cases hr' : u.root with
    | none =>
      have hmem : recordOf root.beginLeaf ∈ t.records :=
        ⟨_, ⟨root, hr, root.beginLeaf_mem⟩, rfl⟩
      rw [h, records_eq_empty hr'] at hmem
      exact hmem.elim
    | some root' =>
      have hw := ht.valid.wellFormed root hr
      have hw' := hu.valid.wellFormed root' hr'
      refine congrArg some (Node.shape_eq_of_recordTrie hw.masks hw'.masks
        (hashed_of_reachable ht root hr) (hashed_of_reachable hu root' hr') ?_)
      refine hw.recordTrie.eq_of_mem_iff hw'.recordTrie fun r => ?_
      rw [← records_of_root hr, ← records_of_root hr', h]

variable [Inhabited V] [DecidableEq H]

/-- A tree finds no difference in the top of a tree with the same shape. -/
theorem diff_top_of_shape {root root' : Node (Record n H V) H} (ht : t.Valid) (hu : u.Valid)
    (hr : t.root = some root) (hr' : u.root = some root') (h : root.shape = root'.shape) :
    (t.diff u.top).noDifference = true := by
  have hmasks := (ht.wellFormed root hr).masks
  have hnode : root.descend (bitsOf u.top.key.bytes) u.top.keybits.toNat = root := by
    refine Node.descend_of_le_pos fun q c0 c1 hq => ?_
    rw [top_eq hu hr', ← Node.getPoint_of_shape h, hq]
    subst hq
    change q.keybits.toNat ≤ _
    rw [Branch.keybits_toNat hmasks.1]
    exact Nat.mod_le _ _
  have hhash : u.top.hash = root.getHash := by
    rw [Node.getHash_of_shape h, top_eq hu hr']
    cases root' <;> rfl
  rw [diff_eq ht hr, hnode]
  simp [Node.diff, hhash, DiffResult.noDifference]

/-- Two trees with the same records have the same shape, whatever was done to
them, and comparing them by their tops finds no difference. -/
theorem history_independent (ht : t.Reachable) (hu : u.Reachable)
    (h : t.records = u.records) :
    t.root.map Node.shape = u.root.map Node.shape ∧
      (t.isEmpty = false → t.top = u.top ∧ (t.diff u.top).noDifference = true ∧
        (u.diff t.top).noDifference = true) := by
  have hs := shape_eq_of_records ht hu h
  refine ⟨hs, fun he => ?_⟩
  obtain ⟨root, hr⟩ : ∃ root, t.root = some root := by
    simpa [CritbitTree.isEmpty, Option.isSome_iff_exists] using he
  rw [hr, Option.map_some] at hs
  obtain ⟨root', hr', hs⟩ := Option.map_eq_some_iff.mp hs.symm
  refine ⟨?_, diff_top_of_shape ht.valid hu.valid hr hr' hs.symm,
    diff_top_of_shape hu.valid ht.valid hr' hr hs⟩
  rw [top_eq ht.valid hr, top_eq hu.valid hr', Node.getPoint_of_shape hs]

/-- Two keys inserted in either order. -/
theorem history_independent_two :
    let t : MerkleTree 1 (BitVec 8) Unit :=
      CritbitTree.ofList 0 [⟨⟨[0x10], rfl⟩, (1, ())⟩, ⟨⟨[0x11], rfl⟩, (2, ())⟩]
    let u : MerkleTree 1 (BitVec 8) Unit :=
      CritbitTree.ofList 0 [⟨⟨[0x11], rfl⟩, (2, ())⟩, ⟨⟨[0x10], rfl⟩, (1, ())⟩]
    t.root.map Node.shape = u.root.map Node.shape ∧
      (t.isEmpty = false → t.top = u.top ∧ (t.diff u.top).noDifference = true ∧
        (u.diff t.top).noDifference = true) := by
  refine history_independent (CritbitTree.reachable_ofList _ _) (CritbitTree.reachable_ofList _ _)
    (Set.ext fun r => ?_)
  rw [← mem_recordList, ← mem_recordList]
  exact iff_of_eq (congrArg (r ∈ ·) (by decide))

end MerkleTree

end Turbolib
