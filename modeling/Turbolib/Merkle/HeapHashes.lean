import Turbolib.Critbit.HeapMap
import Turbolib.Merkle.Lookup

/-!
# The Merkle tree in memory

`onchange` follows the pointers to the branches that are waiting, and puts the hashes of
the children together there. Whatever is asked of a newly constructed tree, the hash that
is read at its root is that of what the finite map stores.

## Main definitions

* `Cell.onchange` — the loop of `onchange`.
* `HeapTree.hashLookup` — `hash_lookup` in memory.
* `ElemMap.hash` — the XOR of the hashes that a map stores.
-/

namespace Turbolib

open Cell (loadElem loadBranch)

variable {n : ℕ} {H V : Type}

namespace Cell

/-- `getHash`. -/
def getHash (h : Heap (Cell (Record n H V) H)) (elem : Word) : Option H :=
  if Word.isBranch elem then (loadBranch h elem).map fun q => q.2.hash
  else (loadElem h elem).map fun x => x.second.1

variable [HashType H]

/-- One round of `onchange`, with `*it` the branch at an address. -/
def recompute (h : Heap (Cell (Record n H V) H)) (a : Addr) :
    Option (Heap (Cell (Record n H V) H)) := do
  let (a, q) ← loadBranch h (Word.of a + 1)
  let left ← getHash h q.child0
  let right ← getHash h q.child1
  Heap.store h a (.branch { q with hash := left ^^^ right })

/-- The loop of `onchange`. -/
def recomputeAll (h : Heap (Cell (Record n H V) H)) (changes : List Addr) :
    Option (Heap (Cell (Record n H V) H)) :=
  changes.foldlM recompute h

end Cell

namespace Node

variable {h : Heap (Cell (Record n H V) H)} {m m' : Node (Record n H V) H}

theorem Stored.getHash (hm : m.Stored h) : Cell.getHash h m.word = some m.getHash := by
  cases m with
  | leaf x =>
    rw [word_leaf, Cell.getHash, Word.isBranch_of, if_neg Bool.false_ne_true, loadElem_of hm]
    rfl
  | branch q c0 c1 =>
    rw [word_branch, Cell.getHash, Word.isBranch_of_succ, if_pos rfl, loadBranch_of hm.1]
    rfl

variable [HashType H]

theorem recompute_word {a : Addr} (h : m.recompute a = some m') : m'.word = m.word := by
  rw [← word_skeleton, recompute_skeleton h, word_skeleton]

/-- What one round of `onchange` does to a stored tree. -/
structure Recomputed (h : Heap (Cell (Record n H V) H)) (m' : Node (Record n H V) H) (a : Addr)
    (h' : Heap (Cell (Record n H V) H)) : Prop where
  stored : m'.Stored h'
  frame : ∀ b ≠ a, Heap.load h' b = Heap.load h b
  uses : ∀ used, Heap.Uses h used → Heap.Uses h' used

theorem Stored.recompute {a : Addr} (hm : m.Stored h) (hnodup : m.addrs.Nodup)
    (hr : m.recompute a = some m') :
    ∃ h', Cell.recompute h a = some h' ∧ Recomputed h m' a h' := by
  induction m generalizing m' with
  | leaf x => exact absurd hr (by simp [Node.recompute])
  | branch q c0 c1 ih0 ih1 =>
    obtain ⟨hq, h0, h1⟩ := hm
    simp only [addrs, List.nodup_cons, List.mem_append, not_or, List.nodup_append'] at hnodup
    obtain ⟨⟨hq0, hq1⟩, hnodup0, hnodup1, hdisj⟩ := hnodup
    rw [Node.recompute] at hr
    split_ifs at hr with ha
    · -- the branch itself
      subst ha
      cases hr
      let cell' := cell { q with hash := c0.getHash ^^^ c1.getHash } c0.word c1.word
      refine ⟨h.insert q.addr (.branch cell'), ?_, ⟨?_, ?_, ?_⟩, fun b hb => ?_, fun used hu => ?_⟩
      · simp only [Cell.recompute, loadBranch_of hq, Option.bind_eq_bind, Option.bind_some,
          show (cell q c0.word c1.word).child0 = c0.word from rfl,
          show (cell q c0.word c1.word).child1 = c1.word from rfl, h0.getHash, h1.getHash]
        exact Heap.store_of_load hq _
      · exact Heap.load_insert _ _ _
      · exact h0.congr (Heap.agree_insert hq0)
      · exact h1.congr (Heap.agree_insert hq1)
      · exact Heap.load_insert_ne hb
      · exact hu.insert_of_mem ((hu _).mp (Heap.mem_of_load hq))
    · have hqa : q.addr ≠ a := ha
      split at hr
      next c0' hc0 =>
        cases hr
        obtain ⟨h', hh', hdone⟩ := ih0 h0 hnodup0 hc0
        have ha0 := branchAddrs_subset c0 (recompute_mem hc0)
        refine ⟨h', hh', ⟨?_, hdone.stored, ?_⟩, hdone.frame, hdone.uses⟩
        · rw [hdone.frame _ hqa, hq, recompute_word hc0]
        · exact h1.congr fun b hb => hdone.frame b fun he => hdisj ha0 (he ▸ hb)
      next =>
        obtain ⟨c1', hc1, rfl⟩ := Option.map_eq_some_iff.mp hr
        obtain ⟨h', hh', hdone⟩ := ih1 h1 hnodup1 hc1
        have ha1 := branchAddrs_subset c1 (recompute_mem hc1)
        refine ⟨h', hh', ⟨?_, ?_, hdone.stored⟩, hdone.frame, hdone.uses⟩
        · rw [hdone.frame _ hqa, hq, recompute_word hc1]
        · exact h0.congr fun b hb => hdone.frame b fun he => hdisj hb (he ▸ ha1)

theorem Stored.recomputeAll {changes : List Addr} (hm : m.Stored h) (hnodup : m.addrs.Nodup)
    (hr : m.recomputeAll changes = some m') :
    ∃ h', Cell.recomputeAll h changes = some h' ∧ m'.Stored h' ∧ m'.skeleton = m.skeleton ∧
      ∀ used, Heap.Uses h used → Heap.Uses h' used := by
  induction changes generalizing h m with
  | nil =>
    cases hr
    exact ⟨h, rfl, hm, rfl, fun _ hu => hu⟩
  | cons a changes ih =>
    rw [Node.recomputeAll] at hr
    split at hr
    · exact absurd hr (by simp)
    next m₁ hm₁ =>
      obtain ⟨h₁, hh₁, hdone⟩ := hm.recompute hnodup hm₁
      have hskel := recompute_skeleton hm₁
      have haddrs : m₁.addrs = m.addrs := by rw [← addrs_skeleton, hskel, addrs_skeleton]
      obtain ⟨h₂, hh₂, hstored, hskel₂, huses⟩ := ih hdone.stored (haddrs ▸ hnodup) hr
      refine ⟨h₂, ?_, hstored, hskel₂.trans hskel, fun used hu => huses _ (hdone.uses _ hu)⟩
      rw [Cell.recomputeAll, List.foldlM_cons, hh₁]
      exact hh₂

end Node

/-- `critbit_ext<critbit_map_pair, merkle_branch>`. -/
instance merkleHeapExt [HashType H] : HeapExt (Record n H V) H where
  onchange h changes := (Cell.recomputeAll h changes).map fun h => (h, clearChanges changes)
  onchange_stored {h m m' changes changes'} hm hnodup hon := by
    obtain ⟨m₁, hr, he⟩ := Option.map_eq_some_iff.mp hon
    cases he
    obtain ⟨h', hh', hstored, hskel, huses⟩ := hm.recomputeAll hnodup hr
    exact ⟨h', by rw [show Cell.recomputeAll h changes = _ from hh']; rfl, hstored, hskel, huses⟩

/-! ## hash_lookup -/

section nearestSubtree

variable {E : Type}

/-- The loop of `nearest_subtree`. -/
def Cell.nearestSubtree (h : Heap (Cell E H)) (keybytes : List UInt8) (bitmask : UInt8)
    (keylen : ℕ) : ℕ → Word → Option Word
  | 0, _ => none
  | rounds + 1, top =>
    if Word.isBranch top then do
      let (_, q) ← loadBranch h top
      if q.byte + 1 ≥ keylen ∧ (q.byte ≥ keylen ∨ (q.otherbits ^^^ 0xFF) &&& bitmask > 0) then
        some top
      else
        nearestSubtree h keybytes bitmask keylen rounds
          (q.child (calculateDirection q.byte q.otherbits keybytes keylen))
    else some top

theorem Node.Stored.nearestSubtree {h : Heap (Cell E H)} {m : Node E H} (hm : m.Stored h)
    (keybytes : List UInt8) (bitmask : UInt8) (keylen : ℕ) {rounds : ℕ}
    (hrounds : m.depth < rounds) :
    Cell.nearestSubtree h keybytes bitmask keylen rounds m.word =
        some (m.nearestSubtree keybytes bitmask keylen).word ∧
      (m.nearestSubtree keybytes bitmask keylen).Stored h := by
  induction m generalizing rounds with
  | leaf x =>
    obtain ⟨rounds, rfl⟩ : ∃ r, rounds = r + 1 := ⟨rounds - 1, by omega⟩
    refine ⟨?_, hm⟩
    rw [word_leaf, Cell.nearestSubtree, Word.isBranch_of, if_neg Bool.false_ne_true]
    rfl
  | branch q c0 c1 ih0 ih1 =>
    obtain ⟨rounds, rfl⟩ : ∃ r, rounds = r + 1 := ⟨rounds - 1, by omega⟩
    obtain ⟨hq, h0, h1⟩ := hm
    rw [Node.depth] at hrounds
    have ih0 := ih0 h0 (show c0.depth < rounds by omega)
    have ih1 := ih1 h1 (show c1.depth < rounds by omega)
    rw [word_branch, Cell.nearestSubtree, Word.isBranch_of_succ, if_pos rfl, loadBranch_of hq,
      Option.bind_eq_bind, Option.bind_some, Node.nearestSubtree]
    simp only [cell_byte, cell_otherbits, cell_child]
    by_cases hstop : q.byte + 1 ≥ keylen ∧
        (q.byte ≥ keylen ∨ (q.otherbits ^^^ 0xFF) &&& bitmask > 0)
    · simp only [eq_true hstop, if_true]
      exact ⟨rfl, hq, h0, h1⟩
    simp only [eq_false hstop, if_false]
    cases calculateDirection q.byte q.otherbits keybytes keylen with
    | true => exact ih1
    | false => exact ih0

end nearestSubtree

namespace HeapTree

variable [HashType H] [Inhabited V]

/-- `hash_lookup`: the value returned and the hash set. -/
def hashLookup (t : HeapTree (Record n H V) H) (rounds : ℕ) (key : FixedKey n)
    (keybits : UInt16) : Option (Bool × H) :=
  if t.root = 0 then some (false, 0)
  else do
    let keylen := CritbitTree.keylenOf (.ofKey key : Record n H V) (MerkleTree.keylenOf keybits)
    let node ← Cell.nearestSubtree t.heap (keyBytes (.ofKey key : Record n H V))
      (MerkleTree.bitmaskOf keybits) keylen rounds t.root
    let hash ← Cell.getHash t.heap node
    some (Word.isBranch node, hash)

theorem Refined.hashLookup {t : HeapTree (Record n H V) H} {s : MerkleTree n H V}
    (h : t.Refined s) (key : FixedKey n) (keybits : UInt16) :
    t.hashLookup t.rounds key keybits = some (MerkleTree.hashLookup s key keybits) := by
  unfold HeapTree.hashLookup MerkleTree.hashLookup MerkleTree.nearestSubtree
  unfold CritbitTree.nearestSubtree
  cases hroot : s.root with
  | none => rw [if_pos (h.root_none hroot), Option.map_none]
  | some root =>
    have hat := h.root_some root hroot
    have hnonzero : t.root ≠ 0 := h.root_eq_zero.not.mpr (by simp [hroot])
    have hstored : root.Stored t.heap := hat.stored
    obtain ⟨hnear, hsub⟩ := hstored.nearestSubtree (keyBytes (.ofKey key : Record n H V))
      (MerkleTree.bitmaskOf keybits)
      (CritbitTree.keylenOf (.ofKey key : Record n H V) (MerkleTree.keylenOf keybits))
      (h.depth_lt hroot)
    rw [← show t.root = root.word from hat.root] at hnear
    rw [if_neg hnonzero]
    simp only [hnear, Option.bind_eq_bind, Option.bind_some, hsub.getHash, Node.isBranch_word,
      Option.map_some]

end HeapTree

/-- The XOR of the hashes that a map stores. -/
def ElemMap.hash [HashType H] (m : ElemMap (Record n H V)) : H :=
  m.keys.fold (· ^^^ ·) 0 fun key => ((m.lookup key).map fun x => x.second.1).getD 0

theorem CritbitTree.Represents.hash_eq [HashType H] {s : MerkleTree n H V}
    {m : ElemMap (Record n H V)} (h : s.Represents m) {root : Node (Record n H V) H}
    (hroot : s.root = some root) : m.hash = root.hashBelow := by
  have hlookup : ∀ x ∈ root.leaves,
      ((m.lookup (keyBytes x.val)).map fun y => y.second.1).getD 0 = leafHash x := by
    intro x hx
    rw [h.lookup_of_mem ⟨root, hroot, hx⟩]
    rfl
  rw [ElemMap.hash, h.keys_eq hroot, Finset.fold, List.toFinset_val, (h.nodup_keys hroot).dedup,
    Multiset.map_coe, Multiset.coe_fold_r, List.map_map]
  exact congrArg xorAll (List.map_congr_left hlookup)

namespace MerkleTree

variable [HashType H] [Inhabited V]

/-- Any requests to a newly constructed Merkle tree in memory are answered as a map that starts
empty answers them, and the hash at the root is then the XOR of those that the map stores. -/
theorem run_in_memory_hash (requests : List (Request (Record n H V) (BranchCell H)))
    (key : FixedKey n) :
    let m := (runSpec ElemMap.answer ∅ requests).1
    ∃ t : HeapTree (Record n H V) H,
      run HeapTree.answer HeapTree.empty requests =
        some (t, (runSpec ElemMap.answer ∅ requests).2) ∧
      t.hashLookup t.rounds key 0 = some (decide (2 ≤ m.keys.card), m.hash) := by
  obtain ⟨t, hrun, s, hr, hm, hs⟩ :=
    HeapTree.answer_refines.run requests (HeapTree.represents_empty (H := H))
  refine ⟨t, hrun, ?_⟩
  rw [hr.hashLookup]
  generalize (runSpec ElemMap.answer ∅ requests).1 = m at hm
  cases hroot : s.root with
  | none =>
    have hkeys : m.keys = ∅ := by
      have h := hm.isEmpty_eq
      rwa [CritbitTree.isEmpty, hroot, Option.isNone_none, eq_comm, decide_eq_true_iff] at h
    simp [MerkleTree.hashLookup, MerkleTree.nearestSubtree, CritbitTree.nearestSubtree, hroot,
      ElemMap.hash, hkeys]
  | some root =>
    have hcard : m.keys.card = root.leaves.length := by
      rw [hm.keys_eq hroot, List.toFinset_card_of_nodup (hm.nodup_keys hroot), List.length_map]
    have hnear : MerkleTree.nearestSubtree s key 0 = some root := by
      rw [nearestSubtree_eq hm.valid, hroot, Option.map_some]
      exact congrArg some (Node.descend_of_le_pos fun q c0 c1 _ => Nat.zero_le _)
    rw [MerkleTree.hashLookup, hnear, hm.hash_eq hroot, hcard, ← Node.isBranch_eq,
      ← (hashed_of_reachable hs root hroot).getHash_eq]

end MerkleTree

end Turbolib
