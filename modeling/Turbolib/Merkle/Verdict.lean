import Turbolib.Merkle.History
import Mathlib.Data.Finset.Fold

/-!
# What the answers of diff mean

A point that one replica hands out describes a node by the bits its members
share. `sharedBits` is that number and `DistinctXors` the assumption that hashes
tell sets of records apart. Under them every verdict of the other replica's
`diff` on the point is true, for keys of fewer than 8192 bytes; with longer keys
the number of bits does not fit in `keybits`.
-/

namespace Turbolib

open BitString

/-! ## XOR over sets of records -/

section Xor

variable {n : ℕ} {H : Type} [HashType H]

instance xorCommutative : Std.Commutative fun a b : H => a ^^^ b := ⟨HashType.xor_comm⟩

instance xorAssociative : Std.Associative fun a b : H => a ^^^ b := ⟨HashType.xor_assoc⟩

/-- The XOR of the hashes of a set of records. -/
def xorOver (s : Finset (FixedKey n × H)) : H := s.fold (· ^^^ ·) 0 Prod.snd

/-- Different sets of these records have different XORs of their hashes. -/
def DistinctXors (records : Set (FixedKey n × H)) : Prop :=
  ∀ s s' : Finset (FixedKey n × H), ↑s ⊆ records → ↑s' ⊆ records → xorOver s = xorOver s' → s = s'

theorem xorOver_toFinset [DecidableEq H] {l : List (FixedKey n × H)} (h : l.Nodup) :
    xorOver l.toFinset = xorAll (l.map Prod.snd) := by
  rw [xorOver, Finset.fold, List.toFinset_val, h.dedup, Multiset.map_coe, Multiset.coe_fold_r]
  rfl

theorem getLsbD_xorOver {w : ℕ} {s : Finset (FixedKey n × BitVec w)} {i : ℕ}
    {r : FixedKey n × BitVec w} (h : ∀ r' ∈ s, r'.2.getLsbD i = true ↔ r' = r) :
    (xorOver s).getLsbD i = true ↔ r ∈ s := by
  classical
  induction s using Finset.induction_on with
  | empty => simp [xorOver]
  | insert a s ha ih =>
    have hs := ih fun r' hr' => h r' (Finset.mem_insert_of_mem hr')
    have hbit := h a (Finset.mem_insert_self a s)
    have hxor : xorOver (insert a s) = a.2 ^^^ xorOver s := by
      rw [xorOver, Finset.fold_insert ha]
      rfl
    rw [hxor, BitVec.getLsbD_xor, Finset.mem_insert, ← hs]
    by_cases har : a = r
    · subst har
      have hrs : ¬ (xorOver s).getLsbD i = true := by rwa [hs]
      simp [hbit.mpr rfl, hrs]
    · have hbit' : ¬ a.2.getLsbD i = true := fun h => har (hbit.mp h)
      simp [hbit', Ne.symm har]

/-- Hashes with a bit of their own each tell all sets of their records apart. -/
theorem distinctXors_of_bits {w : ℕ} {l : List (FixedKey n × BitVec w)}
    (hl : (l.map Prod.snd).Nodup)
    (hbits : ∀ h ∈ l.map Prod.snd, ∃ i < w, ∀ h' ∈ l.map Prod.snd, h'.getLsbD i = true ↔ h' = h)
    {records : Set (FixedKey n × BitVec w)} (hr : ∀ r ∈ records, r ∈ l) : DistinctXors records := by
  have hinj := List.inj_on_of_nodup_map hl
  have hmem : ∀ s : Finset (FixedKey n × BitVec w), ↑s ⊆ records → ∀ r ∈ s, r ∈ l :=
    fun s hs r h => hr r (hs h)
  have hread : ∀ s s' : Finset (FixedKey n × BitVec w), ↑s ⊆ records → ↑s' ⊆ records →
      xorOver s = xorOver s' → s ⊆ s' := by
    intro s s' hs hs' heq r hrs
    obtain ⟨i, -, hbit⟩ := hbits r.2 (List.mem_map_of_mem (hmem s hs r hrs))
    have hown : ∀ r' ∈ l, r'.2.getLsbD i = true ↔ r' = r := fun r' hr' =>
      (hbit r'.2 (List.mem_map_of_mem hr')).trans
        ⟨fun h => hinj hr' (hmem s hs r hrs) h, fun h => h ▸ rfl⟩
    rw [← getLsbD_xorOver fun r' h => hown r' (hmem s' hs' r' h), ← heq,
      getLsbD_xorOver fun r' h => hown r' (hmem s hs r' h)]
    exact hrs
  exact fun s s' hs hs' heq => (hread s s' hs hs' heq).antisymm (hread s' s hs' hs heq.symm)

end Xor

/-! ## The bits a node's members share -/

/-- A key has no bits past its bytes. -/
theorem bitsOf_of_le {n : ℕ} (key : FixedKey n) {i : ℕ} (h : 8 * n ≤ i) :
    bitsOf key.bytes i = false := by
  rw [bitsOf, ofBits_apply, byteAt_of_length_le (by rw [key.size]; omega)]
  simp [msb]

theorem bitsOf_zero (n i : ℕ) : bitsOf (FixedKey.zero n).bytes i = false := by
  have hbyte : byteAt (List.replicate n 0) (i / 8) = 0 := by
    by_cases hi : i / 8 < n
    · rw [byteAt_of_lt (by simpa using hi), List.getElem_replicate]
    · exact byteAt_of_length_le (by simpa using hi)
  rw [bitsOf, ofBits_apply, FixedKey.zero, hbyte]
  simp [msb]

/-- Elements with the same key are filed under the same bits. -/
theorem ptrBits_of_key {n : ℕ} {H V : Type} {x y : ValPtr (Record n H V)}
    (h : x.val.first = y.val.first) : ptrBits x = ptrBits y := by
  simp only [ptrBits, elemBits, keyBytes, h]

namespace Node

variable {n : ℕ} {H V : Type} {m m' : Node (Record n H V) H}

/-- How many leading bits the members of a node share: all of them at a leaf. -/
def sharedBits : Node (Record n H V) H → ℕ
  | leaf _ => 8 * n
  | branch q _ _ => critPos q.byte q.otherbits

theorem WellFormed.agree_sharedBits (h : m.WellFormed) {x y : ValPtr (Record n H V)} (hx : x ∈ m)
    (hy : y ∈ m) : Agree m.sharedBits (ptrBits x) (ptrBits y) := by
  cases m with
  | leaf z =>
    rw [mem_leaf.mp hx, mem_leaf.mp hy]
  | branch q c0 c1 => exact h.ordered.1 x hx y hy

theorem WellFormed.critPos_lt {q : Branch H} {c0 c1 : Node (Record n H V) H}
    (h : (branch q c0 c1).WellFormed) : critPos q.byte q.otherbits < 8 * n := by
  have hs := h.ordered.splitAt c0.toTrie.first_mem c1.toTrie.first_mem
  by_contra hge
  refine hs.2 ?_
  exact (bitsOf_of_le _ (by omega)).trans (bitsOf_of_le _ (by omega)).symm

theorem WellFormed.sharedBits_le (h : m.WellFormed) : m.sharedBits ≤ 8 * n := by
  cases m with
  | leaf x => exact le_rfl
  | branch q c0 c1 => exact h.critPos_lt.le

theorem WellFormed.lt_sharedBits_child {q : Branch H} {c0 c1 c : Node (Record n H V) H}
    (h : (branch q c0 c1).WellFormed) (hc : c = c0 ∨ c = c1) :
    (branch q c0 c1).sharedBits < c.sharedBits := by
  cases c with
  | leaf x => exact h.critPos_lt
  | branch b d0 d1 =>
    rcases hc with rfl | rfl
    · exact h.ordered.pos_lt_left rfl
    · exact h.ordered.pos_lt_right rfl

/-- A node with more keys shares fewer bits. -/
theorem WellFormed.sharedBits_mono (h : m.WellFormed) (h' : m'.WellFormed)
    (hsub : ∀ x ∈ m, ∃ y ∈ m', y.val.first = x.val.first) : m'.sharedBits ≤ m.sharedBits := by
  cases m with
  | leaf x => exact h'.sharedBits_le
  | branch q c0 c1 =>
    refine h.ordered.le_pos fun x hx y hy => ?_
    obtain ⟨x', hx', hkx⟩ := hsub x hx
    obtain ⟨y', hy', hky⟩ := hsub y hy
    rw [← ptrBits_of_key hkx, ← ptrBits_of_key hky]
    exact h'.agree_sharedBits hx' hy'

theorem mem_of_mem_descend {k : BitString} {i : ℕ} {x : ValPtr (Record n H V)}
    (hx : x ∈ m.descend k i) : x ∈ m := by
  induction m with
  | leaf y => exact hx
  | branch q c0 c1 ih0 ih1 =>
    simp only [descend] at hx
    split_ifs at hx
    · exact hx
    · exact mem_branch.mpr (Or.inr (ih1 hx))
    · exact mem_branch.mpr (Or.inl (ih0 hx))

theorem recordTrie_descend_subset {k : BitString} {i : ℕ} :
    ∀ r ∈ (m.descend k i).recordTrie, r ∈ m.recordTrie := by
  intro r hr
  obtain ⟨x, hx, rfl⟩ := mem_recordTrie.mp hr
  exact mem_recordTrie.mpr ⟨x, mem_of_mem_descend hx, rfl⟩

/-- The subtree reached shares at least the bits of the node it was reached in. -/
theorem WellFormed.sharedBits_le_descend (h : m.WellFormed) (k : BitString) (i : ℕ) :
    m.sharedBits ≤ (m.descend k i).sharedBits :=
  (h.descend k i).sharedBits_mono h fun x hx => ⟨x, mem_of_mem_descend hx, rfl⟩

/-- Asked for no more bits than its members share, a node answers itself. -/
theorem descend_self {k : BitString} {i : ℕ} (hi : i ≤ m.sharedBits) : m.descend k i = m :=
  descend_of_le_pos fun q c0 c1 hq => by subst hq; exact hi

/-- If one side sees no difference and the other traverses, the nodes hold the
same records all the same. -/
theorem records_eq_of_same_of_branch (hm : m.WellFormed) {k k' : BitString} {b : Branch H}
    {c0 c1 : Node (Record n H V) H}
    (hsame : ∀ r, r ∈ m.recordTrie ↔ r ∈ (m'.descend k m.sharedBits).recordTrie)
    (hb : m.descend k' m'.sharedBits = .branch b c0 c1)
    (hle : critPos b.byte b.otherbits ≤ m'.sharedBits) :
    ∀ r, r ∈ m.recordTrie ↔ r ∈ m'.recordTrie := by
  have hs := hm.sharedBits_le_descend k' m'.sharedBits
  rw [hb] at hs
  rwa [descend_self (hs.trans hle)] at hsame

/-- If a member shares `i` bits with the key, the subtree holds all members that do. -/
theorem WellFormed.mem_descend_iff (h : m.WellFormed) {k : BitString} {i : ℕ}
    {x y : ValPtr (Record n H V)} (hx : x ∈ m) (hk : Agree i k (ptrBits x)) :
    y ∈ m.descend k i ↔ y ∈ m ∧ Agree i k (ptrBits y) := by
  have hwalk := h.ordered.agree_walk hx hk
  rw [mem_def, toTrie_descend, h.ordered.mem_descend]
  constructor
  · exact fun hy => ⟨hy.1, hwalk.trans hy.2⟩
  · exact fun hy => ⟨hy.1, hwalk.symm.trans hy.2⟩

theorem Hashed.descend [HashType H] (h : m.Hashed) (k : BitString) (i : ℕ) :
    (m.descend k i).Hashed := by
  induction m with
  | leaf x => exact h
  | branch q c0 c1 ih0 ih1 =>
    simp only [Node.descend]
    split_ifs
    · exact h
    · exact ih1 h.2.2
    · exact ih0 h.2.1

/-- The number of bits in a location of the node, for keys short enough. -/
theorem WellFormed.getPoint_keybits (hn : n < 8192) (h : m.WellFormed) (key : FixedKey n) :
    (m.getPoint key).keybits.toNat = m.sharedBits := by
  cases m with
  | leaf x =>
    change (UInt16.ofNat (n * 8)).toNat = 8 * n
    rw [UInt16.toNat_ofNat', Nat.mod_eq_of_lt (by omega), Nat.mul_comm]
  | branch q c0 c1 =>
    have hlt := h.critPos_lt
    change q.keybits.toNat = critPos q.byte q.otherbits
    rw [Branch.keybits_toNat h.masks.1, Nat.mod_eq_of_lt (by omega)]

theorem getPoint_hash (m : Node (Record n H V) H) (key : FixedKey n) :
    (m.getPoint key).hash = m.getHash := by
  cases m <;> rfl

/-- The location that `diff` makes of a child: a member's key and the shared bits. -/
def location (m : Node (Record n H V) H) : Location n H := m.getPoint m.beginLeaf.val.first

theorem location_key (m : Node (Record n H V) H) : m.location.key = m.beginLeaf.val.first := by
  cases m <;> rfl

theorem WellFormed.nodup_records (h : m.WellFormed) : m.recordTrie.leaves.Nodup :=
  h.recordTrie.sorted.imp fun hlt => by
    rintro rfl
    exact lt_irrefl _ hlt

theorem two_le_length_leaves (q : Branch H) (c0 c1 : Node (Record n H V) H) :
    2 ≤ (branch q c0 c1).recordTrie.leaves.length := by
  have h0 := List.length_pos_of_ne_nil c0.recordTrie.leaves_ne_nil
  have h1 := List.length_pos_of_ne_nil c1.recordTrie.leaves_ne_nil
  change 2 ≤ (c0.recordTrie.leaves ++ c1.recordTrie.leaves).length
  rw [List.length_append]
  omega

variable [DecidableEq H]

/-- The records below a node as a finite set. -/
def recordSet (m : Node (Record n H V) H) : Finset (FixedKey n × H) :=
  m.recordTrie.leaves.toFinset

@[simp] theorem mem_recordSet {r : FixedKey n × H} : r ∈ m.recordSet ↔ r ∈ m.recordTrie :=
  List.mem_toFinset

/-- A branch holds two different records. -/
theorem exists_ne_records {q : Branch H} {c0 c1 : Node (Record n H V) H}
    (h : (branch q c0 c1).WellFormed) :
    ∃ r ∈ (branch q c0 c1).recordSet, ∃ r' ∈ (branch q c0 c1).recordSet, r ≠ r' := by
  have hs := h.recordTrie.splitAt c0.recordTrie.first_mem c1.recordTrie.first_mem
  refine ⟨_, mem_recordSet.mpr (mem_recordTrie_branch.mpr (Or.inl c0.recordTrie.first_mem)),
    _, mem_recordSet.mpr (mem_recordTrie_branch.mpr (Or.inr c1.recordTrie.first_mem)), ?_⟩
  exact fun e => hs.ne (congrArg recordBits e)

variable [HashType H]

theorem getHash_eq_xorOver (h : m.WellFormed) (hh : m.Hashed) :
    m.getHash = xorOver m.recordSet := by
  rw [hh.getHash_eq, hashBelow_eq_recordTrie, recordSet, xorOver_toFinset h.nodup_records]

/-- Nodes with the same hash hold the same records. -/
theorem records_eq_of_hash {records : Set (FixedKey n × H)} (hx : DistinctXors records)
    (h : m.WellFormed) (h' : m'.WellFormed) (hh : m.Hashed) (hh' : m'.Hashed)
    (hr : ∀ r ∈ m.recordTrie, r ∈ records) (hr' : ∀ r ∈ m'.recordTrie, r ∈ records)
    (heq : m.getHash = m'.getHash) (r : FixedKey n × H) :
    r ∈ m.recordTrie ↔ r ∈ m'.recordTrie := by
  rw [getHash_eq_xorOver h hh, getHash_eq_xorOver h' hh'] at heq
  have hs := hx m.recordSet m'.recordSet (fun r h => hr r (mem_recordSet.mp h))
    (fun r h => hr' r (mem_recordSet.mp h)) heq
  rw [← mem_recordSet, hs, mem_recordSet]

end Node

/-! ## Verdicts on a point of another tree -/

theorem DiffResult.need_iff {n : ℕ} {H : Type} [HashType H] [DecidableEq H]
    (r : DiffResult n H) :
    r.needRange = true ∨ r.needPartialRange = true ↔ r.missing = true ∧ r.leaf = true := by
  unfold needRange needPartialRange
  cases r.missing <;> cases r.leaf <;> simp [em]

theorem DiffResult.need_any_iff {n : ℕ} {H : Type} [HashType H] [DecidableEq H]
    (r : DiffResult n H) :
    r.needRange = true ∨ r.needPartialRange = true ∨ r.needExchange = true ↔ r.leaf = true := by
  rw [← or_assoc, need_iff, needExchange]
  cases r.missing <;> simp

namespace MerkleTree

variable {n : ℕ} {H V : Type} [HashType H]

/-- The children of a node that `nearest_subtree` has found are sound themselves. -/
theorem child_of_descend {t : MerkleTree n H V} (h : t.Reachable) {root : Node (Record n H V) H}
    (hr : t.root = some root) {k : BitString} {i : ℕ} {b : Branch H}
    {c0 c1 c : Node (Record n H V) H} (hd : root.descend k i = .branch b c0 c1)
    (hc : c = c0 ∨ c = c1) : c.WellFormed ∧ c.Hashed ∧ ∀ x ∈ c, x ∈ root := by
  have hw := (h.valid.wellFormed root hr).descend k i
  have hh := (hashed_of_reachable h root hr).descend k i
  have hsub : ∀ x ∈ Node.branch b c0 c1, x ∈ root := fun x hx =>
    Node.mem_of_mem_descend (hd.symm ▸ hx)
  rw [hd] at hw hh
  rcases hc with rfl | rfl
  · exact ⟨hw.child0, hh.2.1, fun x hx => hsub x (Node.mem_branch.mpr (Or.inl hx))⟩
  · exact ⟨hw.child1, hh.2.2, fun x hx => hsub x (Node.mem_branch.mpr (Or.inr hx))⟩

variable [Inhabited V] [DecidableEq H]

/-- Point `p` is one of the first two of a `traverse()` answer of `t.diff(q)`,
and `m` is the node it was made from. -/
inductive PointOf (t : MerkleTree n H V) (q p : Location n H) : Node (Record n H V) H → Prop where
  | left (b : Branch H) (c0 c1 : Node (Record n H V) H) (ht : (t.diff q).traverse = true)
      (hn : t.nearestSubtree q.key q.keybits = some (.branch b c0 c1))
      (hp : (t.diff q).points[0]? = some p) : PointOf t q p c0
  | right (b : Branch H) (c0 c1 : Node (Record n H V) H) (ht : (t.diff q).traverse = true)
      (hn : t.nearestSubtree q.key q.keybits = some (.branch b c0 c1))
      (hp : (t.diff q).points[1]? = some p) : PointOf t q p c1

variable {t u : MerkleTree n H V} {p q : Location n H} {m : Node (Record n H V) H}

/-- A traversal answers with the locations of the two children. -/
theorem diff_traverse (h : t.Valid) {root : Node (Record n H V) H} (hr : t.root = some root)
    (ht : (t.diff q).traverse = true) :
    ∃ b c0 c1, root.descend (bitsOf q.key.bytes) q.keybits.toNat = .branch b c0 c1 ∧
      q.hash ≠ b.hash ∧ b.keybits ≤ q.keybits ∧
      t.diff q = ⟨[c0.location, c1.location, q.copy b.hash], false⟩ := by
  rw [diff_eq h hr] at ht ⊢
  have hcase := Node.diff_cases q (root.descend (bitsOf q.key.bytes) q.keybits.toNat)
  generalize (root.descend (bitsOf q.key.bytes) q.keybits.toNat).diff q = r at hcase ht ⊢
  cases hcase with
  | same hh => simp [DiffResult.traverse] at ht
  | leaf x hm hh => simp [DiffResult.traverse] at ht
  | missing b c0 c1 hm hh hlt => simp [DiffResult.traverse] at ht
  | children b c0 c1 hm hh hle => exact ⟨b, c0, c1, hm, hh, hle, rfl⟩

/-- A point describes a sound node of the tree that gave it out. -/
theorem PointOf.node (h : t.Reachable) (hp : PointOf t q p m) :
    p = m.location ∧ m.WellFormed ∧ m.Hashed ∧ ∀ x ∈ m, x ∈ t := by
  have hanswer : ∀ {b : Branch H} {c0 c1 : Node (Record n H V) H},
      (t.diff q).traverse = true → t.nearestSubtree q.key q.keybits = some (.branch b c0 c1) →
      (t.diff q).points = [c0.location, c1.location, q.copy b.hash] ∧
        ∀ c, c = c0 ∨ c = c1 → c.WellFormed ∧ c.Hashed ∧ ∀ x ∈ c, x ∈ t := by
    intro b c0 c1 ht hn
    rw [nearestSubtree_eq h.valid] at hn
    obtain ⟨root, hr, hd⟩ := Option.map_eq_some_iff.mp hn
    obtain ⟨b', c0', c1', hd', -, -, hdiff⟩ := diff_traverse h.valid hr ht
    obtain ⟨rfl, rfl, rfl⟩ := Node.branch.inj (hd.symm.trans hd')
    refine ⟨by rw [hdiff], fun c hc => ?_⟩
    obtain ⟨hw, hh, hsub⟩ := child_of_descend h hr hd hc
    exact ⟨hw, hh, fun x hx => ⟨root, hr, hsub x hx⟩⟩
  cases hp with
  | left b c0 c1 ht hn hp =>
    obtain ⟨hpoints, hchild⟩ := hanswer ht hn
    rw [hpoints] at hp
    exact ⟨(Option.some.inj hp).symm, hchild _ (Or.inl rfl)⟩
  | right b c0 c1 ht hn hp =>
    obtain ⟨hpoints, hchild⟩ := hanswer ht hn
    rw [hpoints] at hp
    exact ⟨(Option.some.inj hp).symm, hchild _ (Or.inr rfl)⟩

section Location

variable (hn : n < 8192) (hm : m.WellFormed)

include hn hm

/-- Where a location leads in another tree. -/
theorem diff_location (hu : u.Valid) {root : Node (Record n H V) H} (hr : u.root = some root) :
    u.diff m.location =
      (root.descend (ptrBits m.beginLeaf) m.sharedBits).diff m.location := by
  rw [diff_eq hu hr, Node.location_key, Node.location, hm.getPoint_keybits hn]
  rfl

/-- A tree that asks for the range of a location lacks one of the keys there. -/
theorem absent_of_need (hu : u.Valid)
    (h : (u.diff m.location).needRange = true ∨ (u.diff m.location).needPartialRange = true) :
    ∃ x ∈ m, ∀ y ∈ u, y.val.first ≠ x.val.first := by
  by_contra hall
  push Not at hall
  obtain ⟨y, ⟨root, hr, hy⟩, hky⟩ := hall m.beginLeaf m.beginLeaf_mem
  have hw := hu.wellFormed root hr
  have hag : Agree m.sharedBits (ptrBits m.beginLeaf) (ptrBits y) := by rw [ptrBits_of_key hky]
  -- every key of the node is below the subtree reached
  have hsub : ∀ x ∈ m, ∃ z ∈ root.descend (ptrBits m.beginLeaf) m.sharedBits,
      z.val.first = x.val.first := by
    intro x hx
    obtain ⟨z, ⟨root', hr', hz⟩, hkz⟩ := hall x hx
    cases hr.symm.trans hr'
    refine ⟨z, (hw.mem_descend_iff hy hag).mpr ⟨hz, ?_⟩, hkz⟩
    rw [ptrBits_of_key hkz]
    exact hm.agree_sharedBits m.beginLeaf_mem hx
  have hle := hm.sharedBits_mono (hw.descend (ptrBits m.beginLeaf) m.sharedBits) hsub
  obtain ⟨z, hz, hkz⟩ := hsub m.beginLeaf m.beginLeaf_mem
  have hwd := hw.descend (ptrBits m.beginLeaf) m.sharedBits
  rw [diff_location hn hm hu hr, DiffResult.need_iff] at h
  have hcase := Node.diff_cases m.location (root.descend (ptrBits m.beginLeaf) m.sharedBits)
  generalize (root.descend (ptrBits m.beginLeaf) m.sharedBits).diff m.location = r at hcase h
  cases hcase with
  | same hh => simp at h
  | leaf x hd hh =>
    rw [hd] at hz hle
    have h8 : m.sharedBits = 8 * n := le_antisymm hm.sharedBits_le hle
    obtain ⟨w, rfl⟩ : ∃ w, m = .leaf w := by
      cases m with
      | leaf w => exact ⟨w, rfl⟩
      | branch b c0 c1 => exact absurd h8 hm.critPos_lt.ne
    rw [Node.mem_leaf.mp hz] at hkz
    have hkey : x.val.first = (Node.leaf w : Node (Record n H V) H).location.key := hkz
    simp [hkey, Node.location, Node.getPoint, Location.ofKey] at h
  | missing b c0 c1 hd hh hlt =>
    rw [hd] at hle hwd
    have hlt' := UInt16.lt_iff_toNat_lt.mp hlt
    rw [Branch.keybits_toNat hwd.masks.1, Node.location, hm.getPoint_keybits hn] at hlt'
    have := hwd.critPos_lt
    change critPos b.byte b.otherbits ≤ _ at hle
    omega
  | children b c0 c1 hd hh hle' => simp at h

/-- A tree that offers an exchange has the key of the location, with another hash. -/
theorem exchange_of_location (hu : u.Valid) (h : (u.diff m.location).needExchange = true) :
    ∃ x ∈ m, ∃ y ∈ u, x.val.first = m.location.key ∧ y.val.first = m.location.key ∧
      leafHash x ≠ leafHash y := by
  cases hr : u.root with
  | none => simp [diff_of_empty hr, DiffResult.needExchange] at h
  | some root =>
    rw [diff_location hn hm hu hr] at h
    have hmem := fun x => Node.mem_of_mem_descend (m := root) (k := ptrBits m.beginLeaf)
      (i := m.sharedBits) (x := x)
    generalize root.descend (ptrBits m.beginLeaf) m.sharedBits = d at h hmem
    have hcase := Node.diff_cases m.location d
    generalize d.diff m.location = r at hcase h
    cases hcase with
    | same hh => simp [DiffResult.needExchange, DiffResult.leaf] at h
    | leaf y hd hh =>
      subst hd
      simp only [DiffResult.needExchange, DiffResult.leaf, Bool.and_eq_true, Bool.not_eq_true',
        decide_eq_false_iff_not, not_or, not_not] at h
      obtain ⟨⟨hkey, hbits⟩, -⟩ := h
      obtain ⟨x, rfl⟩ : ∃ x, m = .leaf x := by
        cases m with
        | leaf x => exact ⟨x, rfl⟩
        | branch b c0 c1 =>
          have hlt := hm.critPos_lt
          have h8 := congrArg UInt16.toNat hbits
          rw [Location.maxKeybits, UInt16.toNat_ofNat', Node.location, hm.getPoint_keybits hn] at h8
          change _ = critPos b.byte b.otherbits at h8
          omega
      refine ⟨x, by simp, y, ⟨root, hr, hmem y (by simp)⟩, rfl, hkey, hh⟩
    | missing b c0 c1 hd hh hlt => simp [DiffResult.needExchange] at h
    | children b c0 c1 hd hh hle => simp [DiffResult.needExchange, DiffResult.leaf] at h

/-- A tree that sees no difference holds every record of the location. -/
theorem records_of_noDifference (hh : m.Hashed) (hu : u.Reachable) {records : Set (FixedKey n × H)}
    (hx : DistinctXors records) (hr : ∀ r ∈ m.recordTrie, r ∈ records)
    (hr' : ∀ r ∈ u.records, r ∈ records) (h : (u.diff m.location).noDifference = true) :
    ∀ r ∈ m.recordTrie, r ∈ u.records := by
  cases hroot : u.root with
  | none => simp [diff_of_empty hroot, DiffResult.noDifference] at h
  | some root =>
    rw [diff_location hn hm hu.valid hroot] at h
    have hw := (hu.valid.wellFormed root hroot).descend (ptrBits m.beginLeaf) m.sharedBits
    have hhd := (hashed_of_reachable hu root hroot).descend (ptrBits m.beginLeaf) m.sharedBits
    have hsub : ∀ r ∈ (root.descend (ptrBits m.beginLeaf) m.sharedBits).recordTrie,
        r ∈ u.records := by
      intro r hrd
      obtain ⟨x, hxd, rfl⟩ := Node.mem_recordTrie.mp hrd
      exact ⟨x, ⟨root, hroot, Node.mem_of_mem_descend hxd⟩, rfl⟩
    have heq : m.getHash = (root.descend (ptrBits m.beginLeaf) m.sharedBits).getHash := by
      rw [← Node.getPoint_hash m m.beginLeaf.val.first]
      by_contra hne
      have hcase := Node.diff_cases m.location (root.descend (ptrBits m.beginLeaf) m.sharedBits)
      generalize (root.descend (ptrBits m.beginLeaf) m.sharedBits).diff m.location = r at hcase h
      cases hcase with
      | same hh => exact hne hh
      | leaf x hd hh => simp [DiffResult.noDifference] at h
      | missing b c0 c1 hd hh hlt => simp [DiffResult.noDifference] at h
      | children b c0 c1 hd hh hle => simp [DiffResult.noDifference] at h
    intro r hrm
    exact hsub r ((Node.records_eq_of_hash hx hm hw hh hhd hr (fun r h => hr' r (hsub r h))
      heq r).mp hrm)

end Location

/-- Every verdict on a point that another tree has handed out is true. -/
theorem diff_verdicts (hn : n < 8192) (ht : t.Reachable) (hu : u.Reachable) (hp : PointOf t q p m) :
    ((u.diff p).needRange = true ∨ (u.diff p).needPartialRange = true →
      ∃ x ∈ m, ∀ y ∈ u, y.val.first ≠ x.val.first) ∧
    ((u.diff p).needExchange = true → ∃ x ∈ t, ∃ y ∈ u,
      x.val.first = p.key ∧ y.val.first = p.key ∧ leafHash x ≠ leafHash y) ∧
    (DistinctXors (t.records ∪ u.records) → (u.diff p).noDifference = true →
      ∀ x ∈ m, recordOf x ∈ u.records) := by
  obtain ⟨rfl, hm, hh, hsub⟩ := hp.node ht
  refine ⟨absent_of_need hn hm hu.valid, fun h => ?_, fun hx h x hxm => ?_⟩
  · obtain ⟨x, hxm, hrest⟩ := exchange_of_location hn hm hu.valid h
    exact ⟨x, hsub x hxm, hrest⟩
  · refine records_of_noDifference hn hm hh hu hx (fun r hr => Or.inl ?_) (fun r hr => Or.inr hr) h
      _ (Node.mem_recordTrie.mpr ⟨x, hxm, rfl⟩)
    obtain ⟨y, hy, rfl⟩ := Node.mem_recordTrie.mp hr
    exact ⟨y, hsub y hy, rfl⟩

/-- A tree with one of two keys is asked about that key. -/
theorem diff_verdicts_two :
    let x : ValPtr (Record 1 (BitVec 8) Unit) := ⟨1, ⟨⟨[0x10], rfl⟩, (1, ())⟩⟩
    let t : MerkleTree 1 (BitVec 8) Unit :=
      CritbitTree.ofList 0 [x.val, ⟨⟨[0x11], rfl⟩, (2, ())⟩]
    let u : MerkleTree 1 (BitVec 8) Unit := CritbitTree.ofList 0 [x.val]
    let p := Location.ofKey 1 x.val.first
    ((u.diff p).needRange = true ∨ (u.diff p).needPartialRange = true →
      ∃ x' ∈ (Node.leaf x : Node _ (BitVec 8)), ∀ y ∈ u, y.val.first ≠ x'.val.first) ∧
    ((u.diff p).needExchange = true → ∃ x ∈ t, ∃ y ∈ u,
      x.val.first = p.key ∧ y.val.first = p.key ∧ leafHash x ≠ leafHash y) ∧
    (DistinctXors (t.records ∪ u.records) → (u.diff p).noDifference = true →
      ∀ x' ∈ (Node.leaf x : Node _ (BitVec 8)), recordOf x' ∈ u.records) :=
  diff_verdicts (q := ⟨0, ⟨[0x10], rfl⟩, 7⟩) (by decide) (CritbitTree.reachable_ofList _ _)
    (CritbitTree.reachable_ofList _ _) (.left _ _ _ (by decide) rfl rfl)

/-! ### Keys whose number of bits does not fit -/

/-- A key of 8192 bytes, all zero but the first: `keybits` of a leaf wraps to 0. -/
def longKey (b : UInt8) : FixedKey 8192 :=
  ⟨b :: List.replicate 8191 0, by rw [List.length_cons, List.length_replicate]⟩

/-- A tree of long keys, each with its first byte and its hash. -/
def longTree (records : List (UInt8 × BitVec 8)) : MerkleTree 8192 (BitVec 8) Unit :=
  CritbitTree.ofList 0 (records.map fun r => ⟨longKey r.1, (r.2, ())⟩)

theorem mem_longTree_concat (l : List (UInt8 × BitVec 8)) (r : UInt8 × BitVec 8)
    {x : ValPtr (Record 8192 (BitVec 8) Unit)} (hx : x ∈ longTree l) : x ∈ longTree (l ++ [r]) := by
  unfold longTree at hx ⊢
  rw [List.map_append]
  exact CritbitTree.mem_ofList_concat hx

/-- The bits and the hashes of a branch with two leaves. -/
def pairHashes {n : ℕ} {H V : Type} : Node (Record n H V) H → Option (UInt16 × H × H × H)
  | .branch q (.leaf x) (.leaf y) => some (q.keybits, q.hash, leafHash x, leafHash y)
  | _ => none

theorem pairHashes_eq {n : ℕ} {H V : Type} {m : Node (Record n H V) H} {bits : UInt16}
    {h h0 h1 : H} (hm : pairHashes m = some (bits, h, h0, h1)) :
    ∃ q x y, m = .branch q (.leaf x) (.leaf y) ∧ q.keybits = bits ∧ q.hash = h ∧
      leafHash x = h0 ∧ leafHash y = h1 := by
  unfold pairHashes at hm
  split at hm
  next q x y =>
    simp only [Option.some.injEq, Prod.mk.injEq] at hm
    exact ⟨q, x, y, rfl, hm⟩
  next => simp at hm

/-- With long keys a tree that has a leaf's key may still ask for its range: the
location of the leaf says 0 bits and leads to the root. -/
theorem long_key_need_partial_range :
    ∃ (t u : MerkleTree 8192 (BitVec 8) Unit) (q p : Location 8192 (BitVec 8))
      (m : Node (Record 8192 (BitVec 8) Unit) (BitVec 8)), t.Reachable ∧ u.Reachable ∧
      PointOf t q p m ∧ (u.diff p).needPartialRange = true ∧
      ∀ x ∈ m, ∃ y ∈ u, y.val.first = x.val.first := by
  let t := longTree [(0x80, 1), (0xC0, 2)]
  let u := longTree [(0x80, 1), (0xC0, 2), (0xA0, 4)]
  let q : Location 8192 (BitVec 8) := ⟨0, longKey 0x80, 1⟩
  have ht : t.Reachable := CritbitTree.reachable_ofList _ _
  have hu : u.Reachable := CritbitTree.reachable_ofList _ _
  have hchildren : (t.nearestSubtree q.key q.keybits).bind pairHashes = some (1, 3, 1, 2) := by
    decide +kernel
  obtain ⟨d, hd, hpair⟩ := Option.bind_eq_some_iff.mp hchildren
  obtain ⟨b, x, y, rfl, -, -, hx, -⟩ := pairHashes_eq hpair
  have htr : (t.diff q).traverse = true := by decide +kernel
  obtain ⟨p, hp⟩ : ∃ p, (t.diff q).points[0]? = some p := by
    simp only [DiffResult.traverse, decide_eq_true_eq] at htr
    exact ⟨_, List.getElem?_eq_getElem (by omega)⟩
  have hpoint : PointOf t q p (.leaf x) := .left b _ _ htr hd hp
  obtain ⟨rfl, -, -, hsub⟩ := hpoint.node ht
  refine ⟨t, u, q, _, _, ht, hu, hpoint, ?_, fun z hz => ⟨z, ?_, rfl⟩⟩
  · -- the other tree branches at bit 1, past the 0 bits asked for
    have hroot : u.root.map (fun r => (r.isBranch, (r.getPoint (longKey 0)).keybits, r.getHash)) =
        some (true, 1, 7) := by decide +kernel
    obtain ⟨root, hr, hval⟩ := Option.map_eq_some_iff.mp hroot
    cases root with
    | leaf z => simp [Node.isBranch] at hval
    | branch b' c0 c1 =>
      simp only [Node.getPoint, Node.getHash, Prod.mk.injEq] at hval
      have hbits : (Location.maxKeybits 8192).toNat = 0 := by decide
      rw [diff_eq hu.valid hr, Node.descend_of_le_pos]
      · simp [Node.diff, Node.location, Node.getPoint, Node.getHash, Location.ofKey, hx, hval,
          DiffResult.needPartialRange, DiffResult.leaf, Location.null,
          show Location.maxKeybits 8192 = 0 from rfl]
      · intro _ _ _ _
        exact (Nat.le_of_eq hbits).trans (Nat.zero_le _)
  · exact mem_longTree_concat [(0x80, 1), (0xC0, 2)] (0xA0, 4) (hsub z hz)

end MerkleTree

end Turbolib
