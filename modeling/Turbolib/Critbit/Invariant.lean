import Turbolib.Critbit.Tree
import Turbolib.Library.Trie

/-!
# The crit-bit tree refines the trie

`Node.toTrie` forgets addresses and extension data and keeps, for every branch,
the position of its critical bit. Each operation of the tree is one of the trie
operations under this map, so the crit-bit invariant and what follows from it
carry over to every reachable tree. The other half of the invariant is about the
memory: no address is used twice, and only branches of the tree are waiting in
the change list.
-/

namespace Turbolib

open BitString

/-- The bits an allocated element is filed under. -/
def ptrBits {E : Type} [CritbitElemOps E] (x : ValPtr E) : BitString := elemBits x.val

namespace Node

variable {E H : Type}

def toTrie : Node E H → Trie (ValPtr E)
  | leaf x => .leaf x
  | branch q c0 c1 => .node (critPos q.byte q.otherbits) c0.toTrie c1.toTrie

/-- Every branch names a single critical bit. -/
def Masks : Node E H → Prop
  | leaf _ => True
  | branch q c0 c1 => CritMask q.otherbits ∧ c0.Masks ∧ c1.Masks

/-- The leaves from left to right. -/
def leaves (n : Node E H) : List (ValPtr E) := n.toTrie.leaves

instance : Membership (ValPtr E) (Node E H) := ⟨fun n x => x ∈ n.toTrie⟩

theorem mem_def {n : Node E H} {x : ValPtr E} : x ∈ n ↔ x ∈ n.toTrie := Iff.rfl

@[simp] theorem mem_leaf {x y : ValPtr E} : y ∈ (leaf x : Node E H) ↔ y = x := by
  simp [mem_def, toTrie]

@[simp] theorem mem_branch {q : Branch H} {c0 c1 : Node E H} {x : ValPtr E} :
    x ∈ branch q c0 c1 ↔ x ∈ c0 ∨ x ∈ c1 := by simp [mem_def, toTrie]

@[simp] theorem leaves_leaf (x : ValPtr E) : (leaf x : Node E H).leaves = [x] := rfl

@[simp] theorem leaves_branch (q : Branch H) (c0 c1 : Node E H) :
    (branch q c0 c1).leaves = c0.leaves ++ c1.leaves := rfl

theorem beginLeaf_eq (n : Node E H) : n.beginLeaf = n.toTrie.first := by
  induction n with
  | leaf x => rfl
  | branch q c0 c1 ih0 _ => exact ih0

theorem endLeaf_eq (n : Node E H) : n.endLeaf = n.toTrie.last := by
  induction n with
  | leaf x => rfl
  | branch q c0 c1 _ ih1 => exact ih1

theorem beginLeaf_mem (n : Node E H) : n.beginLeaf ∈ n := by
  rw [beginLeaf_eq]
  exact n.toTrie.first_mem

theorem branchAddrs_subset (n : Node E H) : n.branchAddrs ⊆ n.addrs := by
  induction n with
  | leaf x => simp [branchAddrs]
  | branch q c0 c1 ih0 ih1 =>
    intro a ha
    simp only [branchAddrs, addrs, List.mem_cons, List.mem_append] at ha ⊢
    rcases ha with rfl | ha | ha
    · exact Or.inl rfl
    · exact Or.inr (Or.inl (ih0 ha))
    · exact Or.inr (Or.inr (ih1 ha))

/-! ### What does not depend on the extension's data -/

@[simp] theorem toTrie_skeleton (n : Node E H) : n.skeleton.toTrie = n.toTrie := by
  induction n with
  | leaf x => rfl
  | branch q c0 c1 ih0 ih1 => simp [skeleton, toTrie, ih0, ih1]

@[simp] theorem addrs_skeleton (n : Node E H) : n.skeleton.addrs = n.addrs := by
  induction n with
  | leaf x => rfl
  | branch q c0 c1 ih0 ih1 => simp [skeleton, addrs, ih0, ih1]

@[simp] theorem branchAddrs_skeleton (n : Node E H) :
    n.skeleton.branchAddrs = n.branchAddrs := by
  induction n with
  | leaf x => rfl
  | branch q c0 c1 ih0 ih1 => simp [skeleton, branchAddrs, ih0, ih1]

@[simp] theorem masks_skeleton (n : Node E H) : n.skeleton.Masks ↔ n.Masks := by
  induction n with
  | leaf x => rfl
  | branch q c0 c1 ih0 ih1 => simp [skeleton, Masks, ih0, ih1]

/-! ### Walks -/

theorem walkTreeForBestMember_eq {n : Node E H} (h : n.Masks) (key : List UInt8) :
    n.walkTreeForBestMember key key.length = n.toTrie.walk (bitsOf key) := by
  induction n with
  | leaf x => rfl
  | branch q c0 c1 ih0 ih1 =>
    simp only [walkTreeForBestMember, toTrie, Trie.walk, calculateDirection_eq h.1, ih0 h.2.1,
      ih1 h.2.2]

/-- The mask of the `j` low bits of a byte, which `nearest_subtree` disregards. -/
def lowMask (j : ℕ) : UInt8 := UInt8.ofNat (2 ^ j - 1)

theorem critMask_and_lowMask : ∀ i < 8, ∀ j < 9,
    ((critMask i ^^^ 0xFF) &&& lowMask j > 0 ↔ 8 ≤ i + j) := by decide

/-- `nearest_subtree` stops at the first branch past the bits it is asked to match. -/
theorem stop_iff {q : Branch H} (h : CritMask q.otherbits) {j keylen : ℕ} (hj : j < 9) :
    (q.byte + 1 ≥ keylen ∧ (q.byte ≥ keylen ∨ (q.otherbits ^^^ 0xFF) &&& lowMask j > 0)) ↔
      8 * keylen - j ≤ critPos q.byte q.otherbits := by
  have hi := h.bitIndex_lt
  have hm : (q.otherbits ^^^ 0xFF) &&& lowMask j > 0 ↔ 8 ≤ bitIndex q.otherbits + j := by
    rw [← critMask_and_lowMask _ hi j hj, ← h.eq_critMask]
  rw [hm, critPos]
  omega

/-- Follow the bits of `k` down to the first branch at position `n` or later. -/
def descend (k : BitString) (n : ℕ) : Node E H → Node E H
  | leaf x => leaf x
  | branch q c0 c1 =>
    if n ≤ critPos q.byte q.otherbits then branch q c0 c1
    else if k (critPos q.byte q.otherbits) then c1.descend k n
    else c0.descend k n

theorem toTrie_descend (k : BitString) (i : ℕ) (n : Node E H) :
    (n.descend k i).toTrie = n.toTrie.descend k i := by
  induction n with
  | leaf x => rfl
  | branch q c0 c1 ih0 ih1 =>
    simp only [descend, toTrie, Trie.descend]
    split_ifs
    · rfl
    · exact ih1
    · exact ih0

theorem descend_of_le_pos {n : Node E H} {k : BitString} {i : ℕ}
    (h : ∀ q c0 c1, n = branch q c0 c1 → i ≤ critPos q.byte q.otherbits) : n.descend k i = n := by
  cases n with
  | leaf x => rfl
  | branch q c0 c1 => rw [descend, if_pos (h q c0 c1 rfl)]

theorem nearestSubtree_eq {n : Node E H} (h : n.Masks) (key : List UInt8) {j keylen : ℕ}
    (hj : j < 9) : n.nearestSubtree key (lowMask j) keylen =
      n.descend (bitsOf key) (8 * keylen - j) := by
  induction n with
  | leaf x => rfl
  | branch q c0 c1 ih0 ih1 =>
    have hb := h.1.bitIndex_lt
    simp only [nearestSubtree, descend, stop_iff h.1 hj]
    by_cases hs : 8 * keylen - j ≤ critPos q.byte q.otherbits
    · rw [if_pos hs, if_pos hs]
    · rw [if_neg hs, if_neg hs,
        calculateDirection_of_lt h.1 (by unfold critPos at hs; omega)]
      split
      · exact ih1 h.2.2
      · exact ih0 h.2.1

end Node

/-! ## The invariant of a node -/

namespace Node

variable {E H : Type} [CritbitElemOps E]

/-- The crit-bit invariant and the disjointness of the allocations below a node. -/
structure WellFormed (n : Node E H) : Prop where
  masks : n.Masks
  ordered : n.toTrie.Ordered ptrBits
  nodup : n.addrs.Nodup

theorem WellFormed.of_skeleton {H' : Type} {n : Node E H} {n' : Node E H'}
    (h : n.WellFormed) (hs : n'.skeleton = n.skeleton) : n'.WellFormed where
  masks := by rw [← masks_skeleton, hs, masks_skeleton]; exact h.masks
  ordered := by rw [← toTrie_skeleton, hs, toTrie_skeleton]; exact h.ordered
  nodup := by rw [← addrs_skeleton, hs, addrs_skeleton]; exact h.nodup

theorem wellFormed_leaf (x : ValPtr E) : (leaf x : Node E H).WellFormed :=
  ⟨trivial, trivial, by simp [addrs]⟩

theorem WellFormed.child0 {q : Branch H} {c0 c1 : Node E H} (h : (branch q c0 c1).WellFormed) :
    c0.WellFormed :=
  ⟨h.masks.2.1, h.ordered.2.2.2.1, (List.nodup_append.mp h.nodup.of_cons).1⟩

theorem WellFormed.child1 {q : Branch H} {c0 c1 : Node E H} (h : (branch q c0 c1).WellFormed) :
    c1.WellFormed :=
  ⟨h.masks.2.2, h.ordered.2.2.2.2, (List.nodup_append.mp h.nodup.of_cons).2.1⟩

theorem WellFormed.descend {n : Node E H} (h : n.WellFormed) (k : BitString) (i : ℕ) :
    (n.descend k i).WellFormed := by
  induction n with
  | leaf x => exact h
  | branch q c0 c1 ih0 ih1 =>
    simp only [Node.descend]
    split_ifs
    · exact h
    · exact ih1 h.child1
    · exact ih0 h.child0

/-- The element a walk along an element's key ends at. -/
theorem WellFormed.walk_mem {n : Node E H} (h : n.WellFormed) (key : List UInt8) :
    n.walkTreeForBestMember key key.length ∈ n := by
  rw [walkTreeForBestMember_eq h.masks]
  exact n.toTrie.walk_mem _

/-- A stored key is where its walk ends. -/
theorem WellFormed.walk_eq {n : Node E H} (h : n.WellFormed) {x : ValPtr E} (hx : x ∈ n)
    {val : E} (hk : keyBytes x.val = keyBytes val) :
    n.walkTreeForBestMember (keyBytes val) (keyBytes val).length = x := by
  rw [walkTreeForBestMember_eq h.masks]
  exact h.ordered.walk_eq hx (keyBytes_eq_iff.mp hk)

theorem WellFormed.eq_of_keyBytes {n : Node E H} (h : n.WellFormed) {x y : ValPtr E}
    (hx : x ∈ n) (hy : y ∈ n) (hk : keyBytes x.val = keyBytes y.val) : x = y :=
  h.ordered.eq_of_bits hx hy (keyBytes_eq_iff.mp hk)

end Node

/-! ## Insertion refines `Trie.insertAt` -/

namespace Node

variable {E H : Type}

section Splice

variable {key : List UInt8} {q : Branch H} {x : ValPtr E} {d : Bool}

theorem toTrie_newBranch (n : Node E H)
    (hd : d = !bitsOf key (critPos q.byte q.otherbits)) :
    (newBranch q d x n).toTrie =
      Trie.join (bitsOf key) (critPos q.byte q.otherbits) x n.toTrie := by
  subst hd
  unfold newBranch Trie.join
  cases bitsOf key (critPos q.byte q.otherbits) <;> simp [toTrie]

theorem newBranch_masks {n : Node E H} (h : n.Masks) (hq : CritMask q.otherbits) :
    (newBranch q d x n).Masks := by
  unfold newBranch
  split <;> simp [Masks, h, hq]

theorem newBranch_addrs (n : Node E H) :
    (newBranch q d x n).addrs.Perm (q.addr :: x.addr :: n.addrs) := by
  unfold newBranch
  split
  · simp [addrs]
  · refine List.Perm.cons _ ?_
    simp [addrs]

theorem newBranch_branchAddrs (n : Node E H) :
    (newBranch q d x n).branchAddrs = q.addr :: n.branchAddrs := by
  unfold newBranch
  split <;> simp [branchAddrs]

variable [CritbitExt E H]

/-- The walk of `insert` continues at branches that are not past the critical bit. -/
theorem spliceAt_branch {b : Branch H} {c0 c1 : Node E H} (hb : CritMask b.otherbits)
    (hq : CritMask q.otherbits) (new : Node E H → Node E H) (changes : Changes E H) :
    (branch b c0 c1).spliceAt key q.byte q.otherbits new changes =
      if critPos q.byte q.otherbits < critPos b.byte b.otherbits then
        (new (branch b c0 c1), changes)
      else if bitsOf key (critPos b.byte b.otherbits) then
        let r := c1.spliceAt key q.byte q.otherbits new (pushChange b.addr changes)
        (branch b c0 r.1, r.2)
      else
        let r := c0.spliceAt key q.byte q.otherbits new (pushChange b.addr changes)
        (branch b r.1 c1, r.2) := by
  simp only [spliceAt, critPos_lt_iff hq hb, calculateDirection_eq hb]
  by_cases h1 : b.byte > q.byte
  · rw [if_pos h1, if_pos (Or.inl h1)]
  · by_cases h2 : b.byte = q.byte ∧ b.otherbits > q.otherbits
    · rw [if_neg h1, if_pos h2, if_pos (Or.inr ⟨h2.1.symm, h2.2⟩)]
    · have h3 : ¬ (q.byte < b.byte ∨ q.byte = b.byte ∧ q.otherbits < b.otherbits) := by
        rintro (h | h)
        · exact h1 h
        · exact h2 ⟨h.1.symm, h.2⟩
      rw [if_neg h1, if_neg h2, if_neg h3]

theorem spliceAt_toTrie {n : Node E H} (h : n.Masks) (hq : CritMask q.otherbits)
    (hd : d = !bitsOf key (critPos q.byte q.otherbits)) (changes : Changes E H) :
    (n.spliceAt key q.byte q.otherbits (newBranch q d x) changes).1.toTrie =
      n.toTrie.insertAt (bitsOf key) (critPos q.byte q.otherbits) x := by
  induction n generalizing changes with
  | leaf y => exact toTrie_newBranch _ hd
  | branch b c0 c1 ih0 ih1 =>
    rw [spliceAt_branch h.1 hq, toTrie, Trie.insertAt]
    split_ifs
    · exact toTrie_newBranch _ hd
    · simp only [toTrie, ih1 h.2.2]
    · simp only [toTrie, ih0 h.2.1]

theorem spliceAt_masks {n : Node E H} (h : n.Masks) (hq : CritMask q.otherbits)
    (changes : Changes E H) :
    (n.spliceAt key q.byte q.otherbits (newBranch q d x) changes).1.Masks := by
  induction n generalizing changes with
  | leaf y => exact newBranch_masks h hq
  | branch b c0 c1 ih0 ih1 =>
    rw [spliceAt_branch h.1 hq]
    split_ifs
    · exact newBranch_masks h hq
    · exact ⟨h.1, h.2.1, ih1 h.2.2 _⟩
    · exact ⟨h.1, ih0 h.2.1 _, h.2.2⟩

theorem spliceAt_addrs {n : Node E H} (h : n.Masks) (hq : CritMask q.otherbits)
    (changes : Changes E H) :
    (n.spliceAt key q.byte q.otherbits (newBranch q d x) changes).1.addrs.Perm
      (q.addr :: x.addr :: n.addrs) := by
  induction n generalizing changes with
  | leaf y => exact newBranch_addrs _
  | branch b c0 c1 ih0 ih1 =>
    rw [spliceAt_branch h.1 hq]
    split_ifs
    · exact newBranch_addrs _
    · refine ((ih1 h.2.2 (pushChange b.addr changes)).append_left c0.addrs |>.cons b.addr).trans ?_
      simp only [addrs, ← List.cons_append]
      exact List.perm_append_comm_assoc _ [q.addr, x.addr] _
    · refine ((ih0 h.2.1 (pushChange b.addr changes)).append_right c1.addrs |>.cons b.addr).trans ?_
      simp only [addrs, List.cons_append]
      exact (List.Perm.swap _ _ _).trans ((List.Perm.swap _ _ _).cons _)

theorem spliceAt_branchAddrs {n : Node E H} (h : n.Masks) (hq : CritMask q.otherbits)
    (changes : Changes E H) {a : Addr} :
    a ∈ (n.spliceAt key q.byte q.otherbits (newBranch q d x) changes).1.branchAddrs ↔
      a = q.addr ∨ a ∈ n.branchAddrs := by
  induction n generalizing changes with
  | leaf y => simp [spliceAt, newBranch_branchAddrs]
  | branch b c0 c1 ih0 ih1 =>
    rw [spliceAt_branch h.1 hq]
    split_ifs
    · simp [newBranch_branchAddrs]
    · simp only [branchAddrs, List.mem_cons, List.mem_append, ih1 h.2.2]
      grind
    · simp only [branchAddrs, List.mem_cons, List.mem_append, ih0 h.2.1]
      grind

/-- A name that was added at a branch or in its child `c` is that of a branch of the whole. -/
theorem names_or_branchAddrs {b : Branch H} {c c0 c1 : Node E H} (hc : c = c0 ∨ c = c1)
    {changes : Changes E H} {a : Addr}
    (ha : a ∈ CritbitExt.names (pushChange b.addr changes) ∨ a ∈ c.branchAddrs) :
    a ∈ CritbitExt.names changes ∨ a ∈ (branch b c0 c1).branchAddrs := by
  rw [branchAddrs, List.mem_cons, List.mem_append]
  rcases ha with hpush | hchild
  · rcases List.mem_cons.mp (CritbitExt.names_pushChange b.addr changes hpush) with rfl | hnames
    · exact .inr (.inl rfl)
    · exact .inl hnames
  · rcases hc with rfl | rfl
    · exact .inr (.inr (.inl hchild))
    · exact .inr (.inr (.inr hchild))

/-- Only branches the walk passes are added to the changes. -/
theorem spliceAt_names {n : Node E H} (h : n.Masks) (hq : CritMask q.otherbits)
    (new : Node E H → Node E H) (changes : Changes E H) :
    ∀ a ∈ CritbitExt.names (n.spliceAt key q.byte q.otherbits new changes).2,
      a ∈ CritbitExt.names changes ∨ a ∈ n.branchAddrs := by
  induction n generalizing changes with
  | leaf y => exact fun a ha => Or.inl ha
  | branch b c0 c1 ih0 ih1 =>
    rw [spliceAt_branch h.1 hq]
    split_ifs
    · exact fun a ha => Or.inl ha
    · exact fun a ha => names_or_branchAddrs (.inr rfl) (ih1 h.2.2 _ a ha)
    · exact fun a ha => names_or_branchAddrs (.inl rfl) (ih0 h.2.1 _ a ha)

theorem WellFormed.spliceAt [CritbitElemOps E] {n : Node E H} (h : n.WellFormed)
    (hq : CritMask q.otherbits)
    (hd : d = !bitsOf (keyBytes x.val) (critPos q.byte q.otherbits))
    (hs : SplitAt (critPos q.byte q.otherbits) (ptrBits x)
      (ptrBits (n.toTrie.walk (ptrBits x))))
    (hqn : q.addr ∉ n.addrs) (hxn : x.addr ∉ n.addrs) (hqx : x.addr ≠ q.addr)
    (changes : Changes E H) :
    (n.spliceAt (keyBytes x.val) q.byte q.otherbits (newBranch q d x) changes).1.WellFormed where
  masks := spliceAt_masks h.masks hq changes
  ordered := by
    rw [spliceAt_toTrie h.masks hq hd]
    exact h.ordered.insertAt rfl hs
  nodup := by
    rw [(spliceAt_addrs h.masks hq changes).nodup_iff, List.nodup_cons, List.nodup_cons,
      List.mem_cons, not_or]
    exact ⟨⟨hqx.symm, hqn⟩, hxn, h.nodup⟩

theorem mem_spliceAt {n : Node E H} (h : n.Masks) (hq : CritMask q.otherbits)
    (hd : d = !bitsOf key (critPos q.byte q.otherbits)) (changes : Changes E H) {y : ValPtr E} :
    y ∈ (n.spliceAt key q.byte q.otherbits (newBranch q d x) changes).1 ↔ y = x ∨ y ∈ n := by
  rw [mem_def, spliceAt_toTrie h hq hd, Trie.mem_insertAt, mem_def]

end Splice

/-! ## Removal refines `Trie.eraseWalk` -/

section Remove

variable [CritbitExt E H] {key : List UInt8}

variable (key) in
theorem findBestMatch_best {n : Node E H} (h : n.Masks) (changes : Changes E H) :
    (n.findBestMatch key key.length changes).best = n.toTrie.walk (bitsOf key) := by
  induction n generalizing changes with
  | leaf x => rfl
  | branch q c0 c1 ih0 ih1 =>
    simp only [findBestMatch, toTrie, Trie.walk, calculateDirection_eq h.1]
    split_ifs
    all_goals split <;> simp only [ih0 h.2.1, ih1 h.2.2]

variable (key) in
theorem findBestMatch_rest {n : Node E H} (h : n.Masks) (changes : Changes E H) :
    (n.findBestMatch key key.length changes).rest.map toTrie =
      n.toTrie.eraseWalk (bitsOf key) := by
  induction n generalizing changes with
  | leaf x => rfl
  | branch q c0 c1 ih0 ih1 =>
    simp only [findBestMatch, toTrie, Trie.eraseWalk, calculateDirection_eq h.1]
    by_cases hk : bitsOf key (critPos q.byte q.otherbits) = true
    · simp only [if_pos hk,
        ← ih1 h.2.2 (if c1.isBranch then pushChange q.addr changes else changes)]
      split <;> rename_i hr <;> simp [hr, toTrie]
    · simp only [if_neg hk,
        ← ih0 h.2.1 (if c0.isBranch then pushChange q.addr changes else changes)]
      split <;> rename_i hr <;> simp [hr, toTrie]

variable (key) in
/-- At a branch the walk has a parent to remove, and at a leaf it has none. -/
theorem findBestMatch_rest_isSome (n : Node E H) (changes : Changes E H) :
    (n.findBestMatch key key.length changes).rest.isSome = n.isBranch := by
  cases n with
  | leaf x => rfl
  | branch q c0 c1 =>
    simp only [findBestMatch, isBranch]
    split <;> split <;> rfl

/-- One step of the walk of `remove`: at the branch above the best match the
other child is what remains, and further up the branch stays and is pushed. -/
theorem findBestMatch_branch {q : Branch H} {c0 c1 : Node E H} (hq : CritMask q.otherbits)
    (changes : Changes E H) :
    (branch q c0 c1).findBestMatch key key.length changes =
      let dir := bitsOf key (critPos q.byte q.otherbits)
      let c := if dir then c1 else c0
      if c.isBranch then
        let m := c.findBestMatch key key.length (pushChange q.addr changes)
        { m with rest := m.rest.map fun r => if dir then branch q c0 r else branch q r c1 }
      else
        ⟨c.beginLeaf, some q.addr, some (if dir then c0 else c1), changes⟩ := by
  have hleaf : ∀ c : Node E H, c.isBranch = false →
      c.findBestMatch key key.length changes = ⟨c.beginLeaf, none, none, changes⟩ := by
    intro c hc
    cases c with
    | leaf x => rfl
    | branch => simp [isBranch] at hc
  simp only [findBestMatch, calculateDirection_eq hq]
  split_ifs with hk hb hb
  · have hs := findBestMatch_rest_isSome key c1 (pushChange q.addr changes)
    rw [hb] at hs
    obtain ⟨r, hr⟩ := Option.isSome_iff_exists.mp hs
    simp [hr]
  · simp [hleaf c1 (by simpa using hb)]
  · have hs := findBestMatch_rest_isSome key c0 (pushChange q.addr changes)
    rw [hb] at hs
    obtain ⟨r, hr⟩ := Option.isSome_iff_exists.mp hs
    simp [hr]
  · simp [hleaf c0 (by simpa using hb)]

/-- What stays of the allocations when the best match and its parent are freed. -/
theorem findBestMatch_addrs {n : Node E H} (h : n.Masks) (changes : Changes E H)
    {r : Node E H} (hr : (n.findBestMatch key key.length changes).rest = some r) :
    ∃ a, (n.findBestMatch key key.length changes).parent = some a ∧
      n.addrs.Perm ((n.findBestMatch key key.length changes).best.addr :: a :: r.addrs) := by
  induction n generalizing changes r with
  | leaf x => simp [findBestMatch] at hr
  | branch q c0 c1 ih0 ih1 =>
    have hleaf : ∀ c : Node E H, c.isBranch = false → c.addrs = [c.beginLeaf.addr] := by
      intro c hc
      cases c with
      | leaf x => rfl
      | branch => simp [isBranch] at hc
    rw [findBestMatch_branch h.1] at hr ⊢
    dsimp only at hr ⊢
    cases hk : bitsOf key (critPos q.byte q.otherbits) <;> simp only [hk, if_true, if_false,
      Bool.false_eq_true] at hr ⊢
    · split_ifs at hr ⊢ with hb
      · obtain ⟨r', hr', rfl⟩ := Option.map_eq_some_iff.mp hr
        obtain ⟨a, ha, hp⟩ := ih0 h.2.1 _ hr'
        refine ⟨a, ha, ((hp.append_right c1.addrs).cons q.addr).trans ?_⟩
        simp only [addrs, List.cons_append]
        exact (List.Perm.swap _ _ _).trans ((List.Perm.swap _ _ _).cons _)
      · cases hr
        refine ⟨q.addr, rfl, ?_⟩
        rw [addrs, hleaf c0 (by simpa using hb)]
        exact List.Perm.swap _ _ _
    · split_ifs at hr ⊢ with hb
      · obtain ⟨r', hr', rfl⟩ := Option.map_eq_some_iff.mp hr
        obtain ⟨a, ha, hp⟩ := ih1 h.2.2 _ hr'
        refine ⟨a, ha, ((hp.append_left c0.addrs).cons q.addr).trans ?_⟩
        simp only [addrs]
        exact (List.perm_middle.cons _).trans ((List.Perm.swap _ _ _).trans
          (((List.perm_middle.cons _).trans (List.Perm.swap _ _ _)).cons _))
      · cases hr
        refine ⟨q.addr, rfl, ?_⟩
        rw [addrs, hleaf c1 (by simpa using hb)]
        exact ((List.perm_append_comm).cons _).trans (List.Perm.swap _ _ _)

theorem findBestMatch_masks {n : Node E H} (h : n.Masks) (changes : Changes E H)
    {r : Node E H} (hr : (n.findBestMatch key key.length changes).rest = some r) : r.Masks := by
  induction n generalizing changes r with
  | leaf x => simp [findBestMatch] at hr
  | branch q c0 c1 ih0 ih1 =>
    rw [findBestMatch_branch h.1] at hr
    dsimp only at hr
    cases hk : bitsOf key (critPos q.byte q.otherbits) <;> simp only [hk, if_true, if_false,
      Bool.false_eq_true] at hr
    · split_ifs at hr with hb
      · obtain ⟨r', hr', rfl⟩ := Option.map_eq_some_iff.mp hr
        exact ⟨h.1, ih0 h.2.1 _ hr', h.2.2⟩
      · cases hr
        exact h.2.2
    · split_ifs at hr with hb
      · obtain ⟨r', hr', rfl⟩ := Option.map_eq_some_iff.mp hr
        exact ⟨h.1, h.2.1, ih1 h.2.2 _ hr'⟩
      · cases hr
        exact h.2.1

/-- Only branches that stay are added to the changes. -/
theorem findBestMatch_names {n : Node E H} (h : n.Masks) (changes : Changes E H)
    {r : Node E H} (hr : (n.findBestMatch key key.length changes).rest = some r) :
    ∀ a ∈ CritbitExt.names (n.findBestMatch key key.length changes).changes,
      a ∈ CritbitExt.names changes ∨ a ∈ r.branchAddrs := by
  induction n generalizing changes r with
  | leaf x => simp [findBestMatch] at hr
  | branch q c0 c1 ih0 ih1 =>
    rw [findBestMatch_branch h.1] at hr ⊢
    dsimp only at hr ⊢
    cases hk : bitsOf key (critPos q.byte q.otherbits) <;> simp only [hk, if_true, if_false,
      Bool.false_eq_true] at hr ⊢
    · split_ifs at hr ⊢ with hb
      · obtain ⟨r', hr', rfl⟩ := Option.map_eq_some_iff.mp hr
        exact fun a ha => names_or_branchAddrs (.inl rfl) (ih0 h.2.1 _ hr' a ha)
      · exact fun a ha => Or.inl ha
    · split_ifs at hr ⊢ with hb
      · obtain ⟨r', hr', rfl⟩ := Option.map_eq_some_iff.mp hr
        exact fun a ha => names_or_branchAddrs (.inr rfl) (ih1 h.2.2 _ hr' a ha)
      · exact fun a ha => Or.inl ha

/-- A best match without a parent is the whole tree. -/
theorem findBestMatch_rest_none {n : Node E H} {changes : Changes E H}
    (hr : (n.findBestMatch key key.length changes).rest = none) :
    n = leaf (n.findBestMatch key key.length changes).best := by
  cases n with
  | leaf x => rfl
  | branch q c0 c1 =>
    have := findBestMatch_rest_isSome key (branch q c0 c1) changes
    simp [hr, isBranch] at this

section

variable [CritbitElemOps E]

theorem mem_findBestMatch {n : Node E H} (h : n.WellFormed) (changes : Changes E H)
    {r : Node E H} (hr : (n.findBestMatch key key.length changes).rest = some r) {y : ValPtr E} :
    y ∈ r ↔ y ∈ n ∧ y ≠ (n.findBestMatch key key.length changes).best := by
  have he := findBestMatch_rest key h.masks changes
  rw [hr, Option.map_some] at he
  rw [mem_def, h.ordered.mem_eraseWalk he.symm, findBestMatch_best key h.masks, mem_def]

theorem WellFormed.findBestMatch {n : Node E H} (h : n.WellFormed) (changes : Changes E H)
    {r : Node E H} (hr : (n.findBestMatch key key.length changes).rest = some r) :
    r.WellFormed where
  masks := findBestMatch_masks h.masks changes hr
  ordered := by
    have he := findBestMatch_rest key h.masks changes
    rw [hr, Option.map_some] at he
    exact h.ordered.eraseWalk he.symm
  nodup := by
    obtain ⟨a, -, hp⟩ := findBestMatch_addrs h.masks changes hr
    exact (hp.nodup_iff.mp h.nodup).of_cons.of_cons

end

end Remove

end Node

end Turbolib
