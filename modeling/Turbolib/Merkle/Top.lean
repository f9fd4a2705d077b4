import Turbolib.Merkle.Verdict

/-!
# The first round of a comparison

`top` describes the root with its number of bits but with key 0 instead of a
member's key, so another tree answers from the leftmost part of its own keys.
`TopTruthful` is the condition under which a request for data is nevertheless
justified, over the sets of records alone.
-/

namespace Turbolib

open BitString

section Records

variable {n : ℕ} {H : Type}

/-- The keys share exactly `k` leading bits: all of them if there is one key only. -/
def SharedBits (s : Finset (FixedKey n × H)) (k : ℕ) : Prop :=
  (∀ r ∈ s, ∀ r' ∈ s, Agree k (recordBits r) (recordBits r')) ∧
    (k = 8 * n ∨ ∃ r ∈ s, ∃ r' ∈ s, recordBits r k ≠ recordBits r' k)

variable {V : Type} [DecidableEq H]

theorem Node.WellFormed.sharedBits_iff {m : Node (Record n H V) H} (h : m.WellFormed) {k : ℕ} :
    SharedBits m.recordSet k ↔ k = m.sharedBits := by
  have hagree : ∀ r ∈ m.recordSet, ∀ r' ∈ m.recordSet,
      Agree m.sharedBits (recordBits r) (recordBits r') := by
    intro r hr r' hr'
    obtain ⟨x, hx, rfl⟩ := mem_recordTrie.mp (mem_recordSet.mp hr)
    obtain ⟨y, hy, rfl⟩ := mem_recordTrie.mp (mem_recordSet.mp hr')
    exact h.agree_sharedBits hx hy
  constructor
  · rintro ⟨hk, hdiff⟩
    cases m with
    | leaf x =>
      rcases hdiff with hdiff | ⟨r, hr, r', hr', hne⟩
      · exact hdiff
      · obtain ⟨x', hx', rfl⟩ := mem_recordTrie.mp (mem_recordSet.mp hr)
        obtain ⟨y', hy', rfl⟩ := mem_recordTrie.mp (mem_recordSet.mp hr')
        rw [mem_leaf.mp hx', mem_leaf.mp hy'] at hne
        exact absurd rfl hne
    | branch q c0 c1 =>
      have hle : k ≤ critPos q.byte q.otherbits := h.recordTrie.le_pos fun r hr r' hr' =>
        hk r (mem_recordSet.mpr hr) r' (mem_recordSet.mpr hr')
      rcases hdiff with rfl | ⟨r, hr, r', hr', hne⟩
      · exact absurd hle (not_le.mpr h.critPos_lt)
      · refine le_antisymm hle (not_lt.mp fun hlt => hne ?_)
        exact hagree r hr r' hr' k hlt
  · rintro rfl
    refine ⟨hagree, ?_⟩
    cases m with
    | leaf x => exact Or.inl rfl
    | branch q c0 c1 =>
      have hs := h.recordTrie.splitAt c0.recordTrie.first_mem c1.recordTrie.first_mem
      refine Or.inr ⟨_, mem_recordSet.mpr ?_, _, mem_recordSet.mpr ?_, hs.2⟩
      · exact mem_recordTrie_branch.mpr (Or.inl c0.recordTrie.first_mem)
      · exact mem_recordTrie_branch.mpr (Or.inr c1.recordTrie.first_mem)

end Records

namespace MerkleTree

variable {n : ℕ} {H V : Type} [HashType H]

/-- The key that `top` gives out. -/
def topKey (t : MerkleTree n H V) : FixedKey n :=
  match t.recordList with
  | [r] => r.1
  | _ => .zero n

/-- The key of `u` around which it looks for the top of `t`: the only key of `t`,
or else its own least key, where a walk along key 0 ends. -/
def topAnchor (t u : MerkleTree n H V) : FixedKey n :=
  match t.recordList, u.recordList with
  | [r], _ => r.1
  | _, r :: _ => r.1
  | _, [] => .zero n

variable {t u : MerkleTree n H V} {root root' : Node (Record n H V) H}

theorem recordList_of_root (hr : t.root = some root) : t.recordList = root.recordTrie.leaves := by
  rw [recordList, hr]

theorem topKey_of_length (h : 2 ≤ t.recordList.length) : t.topKey = .zero n := by
  unfold topKey
  split
  next r hr => simp [hr] at h
  next => rfl

theorem topAnchor_of_length (h : 2 ≤ t.recordList.length) {r : FixedKey n × H}
    {rest : List (FixedKey n × H)} (hu : u.recordList = r :: rest) : t.topAnchor u = r.1 := by
  unfold topAnchor
  split
  next r' hr => simp [hr] at h
  next r' rest' hr _ => simp_all
  next hr _ => simp [hu] at hr

variable [DecidableEq H]

/-- The keys stored, each with its leaf hash. -/
def recordSet (t : MerkleTree n H V) : Finset (FixedKey n × H) := t.recordList.toFinset

open Classical in
/-- The records of `u` that share `k` bits with the anchor. -/
noncomputable def topRegion (t u : MerkleTree n H V) (k : ℕ) : Finset (FixedKey n × H) :=
  u.recordSet.filter fun r => Agree k (bitsOf (t.topAnchor u).bytes) (recordBits r)

/-- When `u` may ask for data on seeing the top of `t`: either `t` has a key that
`u` lacks, or `u` does not ask. It does not ask if the part of `u` it looks at
has the hash of `t`, or branches where `t` does, or is the only key of `t`.
Numbers of bits are compared as 16 bits hold them. -/
def TopTruthful (t u : MerkleTree n H V) : Prop :=
  (∃ r ∈ t.records, ∀ r' ∈ u.records, r'.1 ≠ r.1) ∨
    ∃ k l, SharedBits t.recordSet k ∧ SharedBits (topRegion t u (k % 2 ^ 16)) l ∧
      (xorOver (topRegion t u (k % 2 ^ 16)) = xorOver t.recordSet ∨
        ((∃ r ∈ topRegion t u (k % 2 ^ 16), ∃ r' ∈ topRegion t u (k % 2 ^ 16), r ≠ r') ∧
          l % 2 ^ 16 ≤ k % 2 ^ 16) ∨
        ∃ r, topRegion t u (k % 2 ^ 16) = {r} ∧ r.1 = t.topKey ∧ l % 2 ^ 16 = k % 2 ^ 16)

theorem recordSet_of_root (hr : t.root = some root) : t.recordSet = root.recordSet := by
  rw [recordSet, recordList_of_root hr]
  rfl

theorem mem_recordSet {r : FixedKey n × H} : r ∈ t.recordSet ↔ r ∈ t.records := by
  rw [recordSet, List.mem_toFinset, mem_recordList]

variable [Inhabited V]

omit [DecidableEq H] in
/-- The number of bits in the top of a tree. -/
theorem top_keybits (h : t.Valid) (hr : t.root = some root) :
    t.top.keybits.toNat = root.sharedBits % 2 ^ 16 := by
  have hw := h.wellFormed root hr
  rw [top_eq h hr]
  cases root with
  | leaf x =>
    change (UInt16.ofNat (n * 8)).toNat = 8 * n % 2 ^ 16
    rw [UInt16.toNat_ofNat', Nat.mul_comm]
  | branch q c0 c1 => exact Branch.keybits_toNat hw.masks.1

omit [DecidableEq H] in
theorem top_key (h : t.Valid) (hr : t.root = some root) : t.top.key = t.topKey := by
  rw [top_eq h hr]
  cases root with
  | leaf x =>
    rw [topKey, recordList_of_root hr]
    rfl
  | branch q c0 c1 =>
    rw [topKey_of_length]
    · rfl
    · rw [recordList_of_root hr]
      exact Node.two_le_length_leaves q c0 c1

/-- What a tree with all keys of `t` looks at when it is asked about the top of `t`. -/
theorem descend_top (ht : t.Valid) (hu : u.Valid) (hr : t.root = some root)
    (hr' : u.root = some root') (hsub : ∀ r ∈ t.records, ∃ r' ∈ u.records, r'.1 = r.1) (i : ℕ) :
    (root'.descend (bitsOf t.top.key.bytes) i).recordSet = topRegion t u i := by
  classical
  have hw := hu.wellFormed root' hr'
  have hmem : ∀ y, y ∈ root'.descend (bitsOf t.top.key.bytes) i ↔
      y ∈ root' ∧ Agree i (bitsOf (t.topAnchor u).bytes) (ptrBits y) := by
    intro y
    rw [top_key ht hr]
    cases root with
    | leaf x =>
      obtain ⟨r', hr'mem, hkey⟩ := hsub (recordOf x) ⟨x, ⟨_, hr, by simp⟩, rfl⟩
      rw [records_of_root hr', Node.mem_recordTrie] at hr'mem
      obtain ⟨z, hz, rfl⟩ := hr'mem
      have hbits : bitsOf (recordOf x).1.bytes = ptrBits z := by
        rw [← hkey]
        rfl
      rw [topKey, topAnchor, recordList_of_root hr]
      exact hw.mem_descend_iff hz (hbits ▸ Agree.refl _ _)
    | branch q c0 c1 =>
      have hlen : 2 ≤ t.recordList.length := by
        rw [recordList_of_root hr]
        exact Node.two_le_length_leaves q c0 c1
      obtain ⟨rest, hfirst⟩ := root'.recordTrie.leaves_eq_first_cons
      have hanchor : recordBits root'.recordTrie.first = ptrBits root'.toTrie.first := by
        rw [Node.recordTrie, Trie.first_map]
        rfl
      have hwalk : root'.toTrie.walk (bitsOf (FixedKey.zero n).bytes) = root'.toTrie.first :=
        Trie.walk_zero (bitsOf_zero n) _
      rw [topKey_of_length hlen, topAnchor_of_length hlen ((recordList_of_root hr').trans hfirst),
        Node.mem_def, Node.toTrie_descend, hw.ordered.mem_descend, hwalk]
      exact and_congr_right fun _ => by rw [← hanchor]; rfl
  ext r
  rw [Node.mem_recordSet, topRegion, Finset.mem_filter, mem_recordSet, records_of_root hr',
    Node.mem_recordTrie, Node.mem_recordTrie]
  constructor
  · rintro ⟨y, hy, rfl⟩
    exact ⟨⟨y, ((hmem y).mp hy).1, rfl⟩, ((hmem y).mp hy).2⟩
  · rintro ⟨⟨y, hy, rfl⟩, hag⟩
    exact ⟨y, (hmem y).mpr ⟨hy, hag⟩, rfl⟩

/-- A tree with all keys of `t` asks for data about its top exactly when the part
it looks at has another hash and is neither a branch where `t` has one nor the
only key of `t`. -/
theorem need_top_iff (ht : t.Reachable) (hu : u.Reachable) (hr : t.root = some root)
    (hr' : u.root = some root') (hsub : ∀ r ∈ t.records, ∃ r' ∈ u.records, r'.1 = r.1) {k l : ℕ}
    (hk : SharedBits t.recordSet k) (hl : SharedBits (topRegion t u (k % 2 ^ 16)) l) :
    ((u.diff t.top).needRange = true ∨ (u.diff t.top).needPartialRange = true) ↔
      ¬ (xorOver (topRegion t u (k % 2 ^ 16)) = xorOver t.recordSet ∨
        ((∃ r ∈ topRegion t u (k % 2 ^ 16), ∃ r' ∈ topRegion t u (k % 2 ^ 16), r ≠ r') ∧
          l % 2 ^ 16 ≤ k % 2 ^ 16) ∨
        ∃ r, topRegion t u (k % 2 ^ 16) = {r} ∧ r.1 = t.topKey ∧ l % 2 ^ 16 = k % 2 ^ 16) := by
  have hw := ht.valid.wellFormed root hr
  have hw' := hu.valid.wellFormed root' hr'
  rw [recordSet_of_root hr, hw.sharedBits_iff] at hk
  have hbits : t.top.keybits.toNat = k % 2 ^ 16 := by rw [top_keybits ht.valid hr, hk]
  have hregion := descend_top ht.valid hu.valid hr hr' hsub (k % 2 ^ 16)
  have hwd := hw'.descend (bitsOf t.top.key.bytes) (k % 2 ^ 16)
  have hhd := (hashed_of_reachable hu root' hr').descend (bitsOf t.top.key.bytes) (k % 2 ^ 16)
  have hhash : t.top.hash = xorOver t.recordSet := by
    rw [top_eq ht.valid hr, Node.getPoint_hash, recordSet_of_root hr,
      Node.getHash_eq_xorOver hw (hashed_of_reachable ht root hr)]
  rw [DiffResult.need_iff, diff_eq hu.valid hr', hbits, ← hregion, ← hhash,
    ← Node.getHash_eq_xorOver hwd hhd]
  rw [← hregion, hwd.sharedBits_iff] at hl
  subst hl
  generalize root'.descend (bitsOf t.top.key.bytes) (k % 2 ^ 16) = d at hwd hhd ⊢
  have hcase := Node.diff_cases t.top d
  generalize d.diff t.top = r at hcase ⊢
  cases hcase with
  | same hh => simp [DiffResult.leaf, hh]
  | leaf x hd hh =>
    subst hd
    have hset : (Node.leaf x : Node (Record n H V) H).recordSet = {recordOf x} := rfl
    have hmax : Location.maxKeybits n = t.top.keybits ↔ 8 * n % 2 ^ 16 = k % 2 ^ 16 := by
      rw [← UInt16.toNat_inj, hbits, Location.maxKeybits, UInt16.toNat_ofNat', Nat.mul_comm]
    have hsingle : ∀ P : FixedKey n × H → Prop,
        (∃ r, ({recordOf x} : Finset (FixedKey n × H)) = {r} ∧ P r) ↔ P (recordOf x) := by
      intro P
      simp [Finset.singleton_inj]
    rw [hset, hsingle]
    simp only [DiffResult.leaf, Finset.mem_singleton, exists_eq_left, ne_eq, not_true_eq_false,
      false_and, false_or, Node.getHash, Ne.symm hh, not_and, List.length_singleton,
      beq_self_eq_true, and_true, decide_eq_true_eq, hmax, top_key ht.valid hr, Node.sharedBits]
    exact not_and_or.symm.trans (by rw [not_and]; rfl)
  | missing b c0 c1 hd hh hlt =>
    subst hd
    obtain ⟨r, hr, r', hr', hne⟩ := Node.exists_ne_records hwd
    have hlt' := UInt16.lt_iff_toNat_lt.mp hlt
    rw [hbits, Branch.keybits_toNat hwd.masks.1] at hlt'
    simp only [DiffResult.leaf, List.length_singleton, beq_self_eq_true, true_iff, not_or, and_self]
    refine ⟨Ne.symm hh, fun h => absurd h.2 (not_le.mpr hlt'), ?_⟩
    rintro ⟨r₀, hset, -⟩
    rw [hset, Finset.mem_singleton] at hr hr'
    exact hne (hr.trans hr'.symm)
  | children b c0 c1 hd hh hle =>
    subst hd
    have hle' := UInt16.le_iff_toNat_le.mp hle
    rw [hbits, Branch.keybits_toNat hwd.masks.1] at hle'
    simp only [DiffResult.leaf, Bool.false_eq_true, false_and, false_iff, not_not]
    exact Or.inr (Or.inl ⟨Node.exists_ne_records hwd, hle'⟩)

/-- The first round is truthful under exactly this condition on the records. -/
theorem diff_top_truthful_iff (ht : t.Reachable) (hu : u.Reachable) (hne : t.isEmpty = false) :
    ((u.diff t.top).needRange = true ∨ (u.diff t.top).needPartialRange = true →
      ∃ r ∈ t.records, ∀ r' ∈ u.records, r'.1 ≠ r.1) ↔ TopTruthful t u := by
  by_cases habs : ∃ r ∈ t.records, ∀ r' ∈ u.records, r'.1 ≠ r.1
  · exact ⟨fun _ => Or.inl habs, fun _ _ => habs⟩
  obtain ⟨root, hr⟩ : ∃ root, t.root = some root := by
    simpa [CritbitTree.isEmpty, Option.isSome_iff_exists] using hne
  have hsub : ∀ r ∈ t.records, ∃ r' ∈ u.records, r'.1 = r.1 := by
    push Not at habs
    exact habs
  obtain ⟨r₀, hr₀, -⟩ := hsub (recordOf root.beginLeaf) ⟨_, ⟨root, hr, root.beginLeaf_mem⟩, rfl⟩
  obtain ⟨root', hr'⟩ : ∃ root', u.root = some root' := by
    rw [← Option.ne_none_iff_exists']
    intro hnone
    rw [records_eq_empty hnone] at hr₀
    exact hr₀.elim
  -- the two numbers of bits exist and are the only ones
  have hk := (ht.valid.wellFormed root hr).sharedBits_iff.mpr rfl
  have hwd := (hu.valid.wellFormed root' hr').descend (bitsOf t.top.key.bytes)
    (root.sharedBits % 2 ^ 16)
  have hl := hwd.sharedBits_iff.mpr rfl
  rw [descend_top ht.valid hu.valid hr hr' hsub] at hl
  rw [← recordSet_of_root hr] at hk
  rw [TopTruthful, or_iff_right habs]
  constructor
  · intro h
    refine ⟨_, _, hk, hl, by_contra fun hcond => habs (h ?_)⟩
    exact (need_top_iff ht hu hr hr' hsub hk hl).mpr hcond
  · rintro ⟨k, l, hk', hl', hcond⟩ hneed
    exact absurd hcond ((need_top_iff ht hu hr hr' hsub hk' hl').mp hneed)

/-- Two keys that share three bits. -/
def twoKeys : MerkleTree 1 (BitVec 8) Unit :=
  CritbitTree.ofList 0 [⟨⟨[0x80], rfl⟩, (1, ())⟩, ⟨⟨[0x90], rfl⟩, (2, ())⟩]

/-- The same two keys and a smaller one. -/
def threeKeys : MerkleTree 1 (BitVec 8) Unit :=
  CritbitTree.ofList 0 [⟨⟨[0x80], rfl⟩, (1, ())⟩, ⟨⟨[0x90], rfl⟩, (2, ())⟩,
    ⟨⟨[0x00], rfl⟩, (4, ())⟩]

theorem diff_top_truthful_iff_three :
    ((threeKeys.diff twoKeys.top).needRange = true ∨
        (threeKeys.diff twoKeys.top).needPartialRange = true →
      ∃ r ∈ twoKeys.records, ∀ r' ∈ threeKeys.records, r'.1 ≠ r.1) ↔
      TopTruthful twoKeys threeKeys :=
  diff_top_truthful_iff (CritbitTree.reachable_ofList _ _) (CritbitTree.reachable_ofList _ _)
    (by decide)

/-- A tree that holds every record of another one asks for its range all the same. -/
theorem need_partial_range_of_superset :
    twoKeys.Reachable ∧ threeKeys.Reachable ∧ twoKeys.isEmpty = false ∧
      (threeKeys.diff twoKeys.top).needPartialRange = true ∧
      ¬ ∃ r ∈ twoKeys.records, ∀ r' ∈ threeKeys.records, r'.1 ≠ r.1 := by
  refine ⟨CritbitTree.reachable_ofList _ _, CritbitTree.reachable_ofList _ _, by decide, by decide,
    ?_⟩
  simp only [← mem_recordList]
  decide

end MerkleTree

end Turbolib
