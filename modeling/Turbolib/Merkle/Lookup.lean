import Turbolib.Merkle.Verdict

/-!
# Hash lookup

`hash_lookup` gives the hash of the members with a given prefix. The prefix is never
compared with anything: if a member has it, the walk along its bits ends at the subtree
of all members that do.
-/

namespace Turbolib

open BitString

/-- Two keys have the same first `i` bits, read from the high bit of each byte; a key has
`8 * n` of them. -/
def FixedKey.SharesBits {n : ℕ} (i : ℕ) (key key' : FixedKey n) : Prop :=
  ∀ j < min i (8 * n),
    msb (byteAt key.bytes (j / 8)) (j % 8) = msb (byteAt key'.bytes (j / 8)) (j % 8)

theorem FixedKey.sharesBits_iff {n : ℕ} {i : ℕ} {key key' : FixedKey n} :
    key.SharesBits i key' ↔ Agree i (bitsOf key.bytes) (bitsOf key'.bytes) := by
  constructor
  · intro h j hj
    by_cases hn : j < 8 * n
    · exact h j (lt_min hj hn)
    · rw [bitsOf_of_le key (not_lt.mp hn), bitsOf_of_le key' (not_lt.mp hn)]
  · exact fun h j hj => h j (hj.trans_le (min_le_left _ _))

namespace Node

variable {E H : Type}

theorem isBranch_eq (m : Node E H) : m.isBranch = decide (2 ≤ m.leaves.length) := by
  cases m with
  | leaf x => rfl
  | branch q c0 c1 =>
    have h0 : 0 < c0.leaves.length := List.length_pos_of_mem c0.beginLeaf_mem
    have h1 : 0 < c1.leaves.length := List.length_pos_of_mem c1.beginLeaf_mem
    rw [leaves_branch, List.length_append, isBranch, decide_eq_true]
    omega

theorem WellFormed.nodup_leaves [CritbitElemOps E] {m : Node E H} (h : m.WellFormed) :
    m.leaves.Nodup :=
  h.ordered.sorted.imp fun hlt heq => hlt.ne (congrArg ptrBits heq)

end Node

namespace MerkleTree

variable {n : ℕ} {H V : Type} [HashType H] [Inhabited V]

/-- `hash_lookup`: the value returned and the hash set. -/
def hashLookup (t : MerkleTree n H V) (key : FixedKey n) (keybits : UInt16) : Bool × H :=
  match t.nearestSubtree key keybits with
  | none => (false, 0)
  | some nodep => (nodep.isBranch, nodep.getHash)

/-- If some member has the prefix, `hash_lookup` sums the hashes of the members that have
it, and says whether there are at least two. -/
theorem hashLookup_exact {t : MerkleTree n H V} (h : t.Reachable) (key : FixedKey n)
    (keybits : UInt16) (hex : ∃ x ∈ t, key.SharesBits keybits.toNat x.val.first) :
    ∃ members : List (ValPtr (Record n H V)), members.Nodup ∧
      (∀ x, x ∈ members ↔ x ∈ t ∧ key.SharesBits keybits.toNat x.val.first) ∧
      t.hashLookup key keybits = (decide (2 ≤ members.length), xorAll (members.map leafHash)) := by
  obtain ⟨x, ⟨root, hr, hx⟩, hshare⟩ := hex
  have hw := h.valid.wellFormed root hr
  have hd := hw.descend (bitsOf key.bytes) keybits.toNat
  have hhash := (hashed_of_reachable h root hr).descend (bitsOf key.bytes) keybits.toNat
  refine ⟨(root.descend (bitsOf key.bytes) keybits.toNat).leaves, hd.nodup_leaves, fun y => ?_, ?_⟩
  · have hmem := hw.mem_descend_iff (y := y) hx (FixedKey.sharesBits_iff.mp hshare)
    rw [FixedKey.sharesBits_iff, CritbitTree.mem_def]
    simp only [hr, Option.some.injEq, exists_eq_left']
    exact hmem
  · rw [hashLookup, nearestSubtree_eq h.valid, hr, ← Node.isBranch_eq]
    exact Prod.ext rfl hhash.getHash_eq

/-- Two of the three keys begin with the bits 100. -/
theorem hashLookup_exact_three :
    let t : MerkleTree 1 (BitVec 8) Unit := CritbitTree.ofList 0 [⟨⟨[0x80], rfl⟩, (1, ())⟩,
      ⟨⟨[0x90], rfl⟩, (2, ())⟩, ⟨⟨[0xA0], rfl⟩, (4, ())⟩]
    ∃ members : List (ValPtr (Record 1 (BitVec 8) Unit)), members.Nodup ∧
      (∀ x, x ∈ members ↔ x ∈ t ∧ (⟨[0x85], rfl⟩ : FixedKey 1).SharesBits 3 x.val.first) ∧
      t.hashLookup ⟨[0x85], rfl⟩ 3 =
        (decide (2 ≤ members.length), xorAll (members.map leafHash)) := by
  intro t
  refine hashLookup_exact (CritbitTree.reachable_ofList _ _) ⟨[0x85], rfl⟩ 3 ?_
  obtain ⟨root, hr, hkey⟩ : ∃ root, t.root = some root ∧
      root.beginLeaf.val.first = (⟨[0x80], rfl⟩ : FixedKey 1) := by
    refine Option.map_eq_some_iff.mp ?_
    decide
  refine ⟨root.beginLeaf, ⟨root, hr, root.beginLeaf_mem⟩, ?_⟩
  rw [hkey, FixedKey.sharesBits_iff]
  decide

end MerkleTree

end Turbolib
