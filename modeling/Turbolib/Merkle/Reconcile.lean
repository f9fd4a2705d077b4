import Turbolib.Critbit.Representation
import Turbolib.Merkle.Verdict
import Mathlib.Data.Set.Finite.Basic

/-!
# Reconciliation of two replicas

Each replica asks the other about its top and then about whatever points a
traversal returns. `Query` is the set of questions that come up. It is finite,
since every point is a location of a node of one of the trees, and if no answer
asks for data then the two trees hold the same records: the questions walk down
both trees in step.
-/

namespace Turbolib

open BitString

inductive Replica where
  | a
  | b
deriving DecidableEq

def Replica.other : Replica → Replica
  | a => b
  | b => a

@[simp] theorem Replica.other_other (X : Replica) : X.other.other = X := by cases X <;> rfl

namespace MerkleTree

variable {n : ℕ} {H V : Type} [HashType H] [Inhabited V] [DecidableEq H]

/-- The questions of a reconciliation: `Query T X p` if `X` is asked about `p`. -/
inductive Query (T : Replica → MerkleTree n H V) : Replica → Location n H → Prop where
  | top (X : Replica) : Query T X (T X.other).top
  | point {X : Replica} {p r : Location n H} (i : ℕ) (hq : Query T X p)
      (ht : ((T X).diff p).traverse = true) (hi : i < 2)
      (hr : ((T X).diff p).points[i]? = some r) : Query T X.other r

/-- No question is answered by a request for data. -/
def Quiet (T : Replica → MerkleTree n H V) : Prop :=
  ∀ X p, Query T X p → ¬ (((T X).diff p).needRange = true ∨ ((T X).diff p).needPartialRange = true ∨
    ((T X).diff p).needExchange = true)

variable {T : Replica → MerkleTree n H V}

end MerkleTree

/-! ## Finitely many questions -/

namespace MerkleTree

variable {n : ℕ} {H V : Type} [HashType H]

/-- The locations of all nodes of a tree. -/
def locations (t : MerkleTree n H V) : List (Location n H) :=
  match t.root with
  | none => []
  | some root => root.subnodes.map Node.location

variable [Inhabited V] [DecidableEq H] {T : Replica → MerkleTree n H V} {X : Replica}
  {p : Location n H}

/-- The points of a traversal are locations of the tree that answers. -/
theorem points_mem_locations {t : MerkleTree n H V} (h : t.Valid) {r : Location n H} {i : ℕ}
    (ht : (t.diff p).traverse = true) (hi : i < 2) (hr : (t.diff p).points[i]? = some r) :
    r ∈ t.locations := by
  cases hroot : t.root with
  | none => simp [diff_of_empty hroot, DiffResult.traverse] at ht
  | some root =>
    obtain ⟨b, c0, c1, hd, -, -, hdiff⟩ := diff_traverse h hroot ht
    have hmem := root.descend_mem_subnodes (bitsOf p.key.bytes) p.keybits.toNat
    rw [hd] at hmem
    obtain ⟨h0, h1⟩ := Node.children_mem_subnodes hmem
    rw [hdiff] at hr
    simp only [locations, hroot, List.mem_map]
    interval_cases i
    · exact ⟨c0, h0, Option.some.inj hr⟩
    · exact ⟨c1, h1, Option.some.inj hr⟩

theorem Query.mem (hv : ∀ X, (T X).Valid) (h : Query T X p) :
    p = (T X.other).top ∨ p ∈ (T X.other).locations := by
  cases h with
  | top => exact Or.inl rfl
  | @point X p r i hq ht hi hr =>
    rw [Replica.other_other]
    exact Or.inr (points_mem_locations (hv X) ht hi hr)

theorem query_finite (hv : ∀ X, (T X).Valid) :
    {x : Replica × Location n H | Query T x.1 x.2}.Finite := by
  refine (List.finite_toSet ([Replica.a, Replica.b].flatMap fun X =>
    ((T X.other).top :: (T X.other).locations).map (Prod.mk X))).subset ?_
  rintro ⟨X, p⟩ h
  rw [Set.mem_ofPred_eq, List.mem_flatMap]
  refine ⟨X, by cases X <;> simp, List.mem_map.mpr ⟨p, ?_, rfl⟩⟩
  exact List.mem_cons.mpr (h.mem hv)

/-! ## Trees with the same records -/

/-- Between trees with the same records only the tops are compared, and found equal. -/
theorem quiet_of_records (hr : ∀ X, (T X).Reachable) (hne : ∀ X, (T X).isEmpty = false)
    (h : ∀ X, (T X).records = (T X.other).records) : Quiet T := by
  have htop : ∀ X p, Query T X p → ((T X).diff p).noDifference = true := by
    intro X p hq
    induction hq with
    | top X => exact ((history_independent (hr X) (hr X.other) (h X)).2 (hne X)).2.1
    | @point X p r i hq ht hi hr ih =>
      simp only [DiffResult.noDifference, List.isEmpty_iff] at ih
      simp [DiffResult.traverse, ih] at ht
  intro X p hq
  have hnd := htop X p hq
  simp only [DiffResult.noDifference, List.isEmpty_iff] at hnd
  rw [DiffResult.need_any_iff]
  simp [DiffResult.leaf, hnd]

/-! ## Questions in step -/

/-- Replica `X`, with this root, is asked about node `m` of the other tree, and
the bits of the members of `m` lead through its node `m'`. -/
structure Asked (T : Replica → MerkleTree n H V) (X : Replica) (root m m' : Node (Record n H V) H) :
    Prop where
  query : ∃ key, Query T X (m.getPoint key) ∧
    root.descend (bitsOf (m.getPoint key).key.bytes) m.sharedBits =
      m'.descend (bitsOf (m.getPoint key).key.bytes) m.sharedBits
  below : ∀ x ∈ m, ∀ i, m.sharedBits ≤ i → root.descend (ptrBits x) i = m'.descend (ptrBits x) i

variable {root m m' c0 c1 d0 d1 : Node (Record n H V) H} {b b' : Branch H}

/-- A replica that asks for nothing sees no difference or traverses a branch at
the same position. -/
theorem Asked.answer (hn : n < 8192) (hq : Quiet T) (hv : (T X).Valid)
    (hr : (T X).root = some root) (hm : m.WellFormed) (h : Asked T X root m m') :
    ∃ k, m.getHash = (m'.descend k m.sharedBits).getHash ∨
      ∃ b d0 d1, m'.descend k m.sharedBits = .branch b d0 d1 ∧
        critPos b.byte b.otherbits ≤ m.sharedBits ∧
        Query T X.other d0.location ∧ Query T X.other d1.location := by
  obtain ⟨key, hquery, hd⟩ := h.query
  refine ⟨bitsOf (m.getPoint key).key.bytes, ?_⟩
  have hquiet := hq X _ hquery
  have hdiff := diff_eq hv hr (m.getPoint key)
  have hpoint := fun i => Query.point (r := (((T X).diff (m.getPoint key)).points[i]?).getD .null)
    i hquery
  have hw := (hv.wellFormed root hr).descend (bitsOf (m.getPoint key).key.bytes) m.sharedBits
  rw [hm.getPoint_keybits hn] at hdiff
  rw [hd] at hdiff hw
  generalize m'.descend (bitsOf (m.getPoint key).key.bytes) m.sharedBits = d at hdiff hw ⊢
  rw [hdiff] at hquiet hpoint
  have hcase := Node.diff_cases (m.getPoint key) d
  generalize d.diff (m.getPoint key) = r at hcase hquiet hpoint
  cases hcase with
  | same hh => exact Or.inl ((m.getPoint_hash key).symm.trans hh)
  | leaf x hx hh => exact absurd ((DiffResult.need_any_iff _).mpr rfl) hquiet
  | missing b d0 d1 hb hh hlt => exact absurd ((DiffResult.need_any_iff _).mpr rfl) hquiet
  | children b d0 d1 hb hh hle =>
    subst hb
    refine Or.inr ⟨b, d0, d1, rfl, ?_, hpoint 0 (by simp [DiffResult.traverse]) (by omega) rfl,
      hpoint 1 (by simp [DiffResult.traverse]) (by omega) rfl⟩
    have hlt := hw.critPos_lt
    have hle := UInt16.le_iff_toNat_le.mp hle
    rw [Branch.keybits_toNat hw.masks.1, hm.getPoint_keybits hn, Nat.mod_eq_of_lt (by omega)] at hle
    exact hle

/-- From branches at the same position the questions go on to the children. -/
theorem Asked.child (h : Asked T X root (.branch b c0 c1) (.branch b' d0 d1))
    (hm : (Node.branch b c0 c1).WellFormed)
    (hpos : critPos b.byte b.otherbits = critPos b'.byte b'.otherbits) {c d : Node (Record n H V) H}
    (hcd : c = c0 ∧ d = d0 ∨ c = c1 ∧ d = d1) (hq : Query T X c.location) :
    Asked T X root c d := by
  have hc : critPos b.byte b.otherbits < c.sharedBits := hm.lt_sharedBits_child (by tauto)
  have hbelow : ∀ x ∈ c, ∀ i, c.sharedBits ≤ i →
      root.descend (ptrBits x) i = d.descend (ptrBits x) i := by
    intro x hx i hi
    have hgt : ¬ i ≤ critPos b'.byte b'.otherbits := by omega
    have hstep := h.below x (Node.mem_branch.mpr (by rcases hcd with ⟨rfl, -⟩ | ⟨rfl, -⟩ <;> tauto))
      i (hc.le.trans hi)
    rw [hstep, Node.descend, if_neg hgt, ← hpos]
    rcases hcd with ⟨rfl, rfl⟩ | ⟨rfl, rfl⟩
    · rw [if_neg (by rw [hm.ordered.2.1 x hx]; simp)]
    · rw [if_pos (hm.ordered.2.2.1 x hx)]
  refine ⟨⟨c.beginLeaf.val.first, hq, ?_⟩, hbelow⟩
  have hkey : bitsOf c.location.key.bytes = ptrBits c.beginLeaf := by
    rw [Node.location_key]
    rfl
  change root.descend (bitsOf c.location.key.bytes) _ = d.descend (bitsOf c.location.key.bytes) _
  rw [hkey]
  exact hbelow _ c.beginLeaf_mem _ le_rfl

/-- Two nodes asked about in step hold the same records already, or the questions
go on in step at their children. -/
theorem Asked.step (hn : n < 8192) (hq : Quiet T) (hr : ∀ X, (T X).Reachable)
    {records : Set (FixedKey n × H)} (hx : DistinctXors records) {root' : Node (Record n H V) H}
    (hroot : (T X).root = some root) (hroot' : (T X.other).root = some root')
    (hm : m.WellFormed) (hm' : m'.WellFormed) (hh : m.Hashed) (hh' : m'.Hashed)
    (hsub : ∀ r ∈ m.recordTrie, r ∈ records) (hsub' : ∀ r ∈ m'.recordTrie, r ∈ records)
    (h : Asked T X root m m') (h' : Asked T X.other root' m' m) :
    (∀ r, r ∈ m.recordTrie ↔ r ∈ m'.recordTrie) ∨
      ∃ b c0 c1 b' d0 d1, m = .branch b c0 c1 ∧ m' = .branch b' d0 d1 ∧
        (Asked T X root c0 d0 ∧ Asked T X.other root' d0 c0) ∧
        (Asked T X root c1 d1 ∧ Asked T X.other root' d1 c1) := by
  have hsame : ∀ k, m.getHash = (m'.descend k m.sharedBits).getHash →
      ∀ r, r ∈ m.recordTrie ↔ r ∈ (m'.descend k m.sharedBits).recordTrie := fun k =>
    Node.records_eq_of_hash hx hm (hm'.descend _ _) hh (hh'.descend _ _) hsub
      fun r hr => hsub' r (Node.recordTrie_descend_subset r hr)
  have hsame' : ∀ k, m'.getHash = (m.descend k m'.sharedBits).getHash →
      ∀ r, r ∈ m'.recordTrie ↔ r ∈ (m.descend k m'.sharedBits).recordTrie := fun k =>
    Node.records_eq_of_hash hx hm' (hm.descend _ _) hh' (hh.descend _ _) hsub'
      fun r hr => hsub r (Node.recordTrie_descend_subset r hr)
  obtain ⟨k, hk⟩ := h.answer hn hq (hr X).valid hroot hm
  obtain ⟨k', hk'⟩ := h'.answer hn hq (hr X.other).valid hroot' hm'
  rcases hk with hk | ⟨b', d0, d1, hd, hle, hq0, hq1⟩
  · left
    rcases hk' with hk' | ⟨b, c0, c1, hc, hle', -, -⟩
    · intro r
      exact ⟨fun hr => Node.recordTrie_descend_subset r ((hsame k hk r).mp hr),
        fun hr => Node.recordTrie_descend_subset r ((hsame' k' hk' r).mp hr)⟩
    · exact Node.records_eq_of_same_of_branch hm (hsame k hk) hc hle'
  · rcases hk' with hk' | ⟨b, c0, c1, hc, hle', hq0', hq1'⟩
    · left
      exact fun r => (Node.records_eq_of_same_of_branch hm' (hsame' k' hk') hd hle r).symm
    · -- both traverse: the subtrees reached are the nodes themselves
      right
      have hs := hm'.sharedBits_le_descend k m.sharedBits
      have hs' := hm.sharedBits_le_descend k' m'.sharedBits
      rw [hd] at hs
      rw [hc] at hs'
      have hmm' : m.sharedBits = m'.sharedBits := le_antisymm (hs'.trans hle') (hs.trans hle)
      have hd' := Node.descend_self (m := m') (k := k) hmm'.le
      have hc' := Node.descend_self (m := m) (k := k') hmm'.ge
      obtain rfl := hd'.symm.trans hd
      obtain rfl := hc'.symm.trans hc
      rw [Replica.other_other] at hq0' hq1'
      have hpos : critPos b.byte b.otherbits = critPos b'.byte b'.otherbits := hmm'
      exact ⟨b, c0, c1, b', d0, d1, rfl, rfl,
        ⟨h.child hm hpos (Or.inl ⟨rfl, rfl⟩) hq0',
          h'.child hm' hpos.symm (Or.inl ⟨rfl, rfl⟩) hq0⟩,
        ⟨h.child hm hpos (Or.inr ⟨rfl, rfl⟩) hq1',
          h'.child hm' hpos.symm (Or.inr ⟨rfl, rfl⟩) hq1⟩⟩

/-- Two nodes asked about in step hold the same records. -/
theorem records_eq_of_asked (hn : n < 8192) (hq : Quiet T) (hr : ∀ X, (T X).Reachable)
    {records : Set (FixedKey n × H)} (hx : DistinctXors records) {root' : Node (Record n H V) H}
    (hroot : (T X).root = some root) (hroot' : (T X.other).root = some root')
    (hm : m.WellFormed) (hm' : m'.WellFormed) (hh : m.Hashed) (hh' : m'.Hashed)
    (hsub : ∀ r ∈ m.recordTrie, r ∈ records) (hsub' : ∀ r ∈ m'.recordTrie, r ∈ records)
    (h : Asked T X root m m') (h' : Asked T X.other root' m' m) :
    ∀ r, r ∈ m.recordTrie ↔ r ∈ m'.recordTrie := by
  induction m generalizing m' with
  | leaf x =>
    rcases h.step hn hq hr hx hroot hroot' hm hm' hh hh' hsub hsub' h' with
      heq | ⟨b, c0, c1, b', d0, d1, hb, -⟩
    · exact heq
    · exact absurd hb (by simp)
  | branch b c0 c1 ih0 ih1 =>
    rcases h.step hn hq hr hx hroot hroot' hm hm' hh hh' hsub hsub' h' with
      heq | ⟨b, c0, c1, b', d0, d1, hb, rfl, ⟨h0, h0'⟩, h1, h1'⟩
    · exact heq
    · obtain ⟨rfl, rfl, rfl⟩ := Node.branch.inj hb
      simp only [Node.mem_recordTrie_branch] at hsub hsub' ⊢
      intro r
      rw [ih0 hm.child0 hm'.child0 hh.2.1 hh'.2.1 (fun r hr => hsub r (Or.inl hr))
          (fun r hr => hsub' r (Or.inl hr)) h0 h0',
        ih1 hm.child1 hm'.child1 hh.2.2 hh'.2.2 (fun r hr => hsub r (Or.inr hr))
          (fun r hr => hsub' r (Or.inr hr)) h1 h1']

theorem records_eq_of_quiet (hn : n < 8192) (hq : Quiet T) (hr : ∀ X, (T X).Reachable)
    (hne : ∀ X, (T X).isEmpty = false)
    (hx : DistinctXors ((T X).records ∪ (T X.other).records)) :
    (T X).records = (T X.other).records := by
  have hroots : ∀ X, ∃ root, (T X).root = some root := fun X => by
    simpa [CritbitTree.isEmpty, Option.isSome_iff_exists] using hne X
  obtain ⟨root, hroot⟩ := hroots X
  obtain ⟨root', hroot'⟩ := hroots X.other
  have hasked : ∀ X {m m'}, (T X).root = some m' → (T X.other).root = some m →
      Asked T X m' m m' := by
    intro X m m' _ hm
    refine ⟨⟨.zero n, ?_, rfl⟩, fun _ _ _ _ => rfl⟩
    rw [← top_eq (hr X.other).valid hm]
    exact .top X
  have h := hasked X hroot hroot'
  have h' := hasked X.other hroot' (by rw [Replica.other_other]; exact hroot)
  ext r
  rw [records_of_root hroot, records_of_root hroot']
  refine (records_eq_of_asked hn hq hr hx hroot hroot'
    ((hr X.other).valid.wellFormed _ hroot') ((hr X).valid.wellFormed _ hroot)
    (hashed_of_reachable (hr X.other) _ hroot') (hashed_of_reachable (hr X) _ hroot)
    (fun r hr => Or.inr ((records_of_root hroot' r).mpr hr))
    (fun r hr => Or.inl ((records_of_root hroot r).mpr hr)) h h' r).symm

/-- Reconciliation asks finitely many questions, and no answer asks for data if
and only if the replicas hold the same records. -/
theorem reconcile_complete (hn : n < 8192) (hr : ∀ X, (T X).Reachable)
    (hne : ∀ X, (T X).isEmpty = false) (hx : DistinctXors ((T .a).records ∪ (T .b).records)) :
    {x : Replica × Location n H | Query T x.1 x.2}.Finite ∧
      ((T .a).records = (T .b).records ↔ Quiet T) := by
  refine ⟨query_finite fun X => (hr X).valid, fun h => ?_, fun h => ?_⟩
  · refine quiet_of_records hr hne fun X => ?_
    cases X
    · exact h
    · exact h.symm
  · exact records_eq_of_quiet (X := .a) hn h hr hne hx

/-- Replicas with one and with two keys. -/
theorem reconcile_complete_two :
    let T : Replica → MerkleTree 1 (BitVec 8) Unit
      | .a => CritbitTree.ofList 0 [⟨⟨[0x10], rfl⟩, (1, ())⟩]
      | .b => CritbitTree.ofList 0 [⟨⟨[0x10], rfl⟩, (1, ())⟩, ⟨⟨[0x11], rfl⟩, (2, ())⟩]
    {x : Replica × Location 1 (BitVec 8) | Query T x.1 x.2}.Finite ∧
      ((T .a).records = (T .b).records ↔ Quiet T) := by
  intro T
  have hr : ∀ X, (T X).Reachable := fun X => by
    cases X <;> exact CritbitTree.reachable_ofList _ _
  refine reconcile_complete (by decide) hr (by intro X; cases X <;> decide)
    (distinctXors_of_bits (l := (T .b).recordList) (by decide) (by decide) fun r h => ?_)
  rcases h with h | h
  · have hsub : ∀ r ∈ (T .a).recordList, r ∈ (T .b).recordList := by decide
    exact hsub r (mem_recordList.mpr h)
  · exact mem_recordList.mpr h

/-! ## Long keys -/

/-- Two trees without a common key, both with their root at bit 0. -/
def crossed : Replica → MerkleTree 8192 (BitVec 8) Unit
  | .a => longTree [(0x00, 1), (0x80, 2)]
  | .b => longTree [(0x40, 4), (0xC0, 8)]

/-- The hash of the root and of its two leaves. -/
def crossedHashes : Replica → BitVec 8 × BitVec 8 × BitVec 8
  | .a => (3, 1, 2)
  | .b => (12, 4, 8)

theorem crossed_root (X : Replica) :
    ∃ q x y, (crossed X).root = some (.branch q (.leaf x) (.leaf y)) ∧ q.keybits = 0 ∧
      q.hash = (crossedHashes X).1 ∧ leafHash x = (crossedHashes X).2.1 ∧
      leafHash y = (crossedHashes X).2.2 := by
  have hpair : (crossed X).root.bind pairHashes = some (0, crossedHashes X) := by
    cases X <;> decide +kernel
  obtain ⟨root, hroot, hpair⟩ := Option.bind_eq_some_iff.mp hpair
  obtain ⟨q, x, y, rfl, hrest⟩ := pairHashes_eq hpair
  exact ⟨q, x, y, hroot, hrest⟩

theorem crossed_reachable (X : Replica) : (crossed X).Reachable := by
  cases X <;> exact CritbitTree.reachable_ofList _ _

/-- A point with 0 bits leads to the root, and the root of the other tree traverses. -/
theorem crossed_diff {X : Replica} {p : Location 8192 (BitVec 8)} (hbits : p.keybits = 0)
    (hhash : p.hash ≠ (crossedHashes X).1) :
    ∃ x y : ValPtr (Record 8192 (BitVec 8) Unit), leafHash x = (crossedHashes X).2.1 ∧
      leafHash y = (crossedHashes X).2.2 ∧ ∃ r, (crossed X).diff p =
        ⟨[(Node.leaf x).location, (Node.leaf y).location, r], false⟩ := by
  obtain ⟨q, x, y, hroot, hq, hh, hx, hy⟩ := crossed_root X
  refine ⟨x, y, hx, hy, p.copy q.hash, ?_⟩
  rw [diff_eq (crossed_reachable X).valid hroot, hbits, show UInt16.toNat 0 = 0 from rfl,
    Node.descend_of_le_pos fun _ _ _ _ => Nat.zero_le _]
  have hne : p.hash ≠ q.hash := by rwa [hh]
  simp [Node.diff, Node.getHash, hne, hq, hbits, Node.location, Node.beginLeaf]

theorem crossed_query {X : Replica} {p : Location 8192 (BitVec 8)} (h : Query crossed X p) :
    p.keybits = 0 ∧ p.hash ≠ (crossedHashes X).1 := by
  induction h with
  | top X =>
    obtain ⟨q, x, y, hroot, hq, hh, -, -⟩ := crossed_root X.other
    rw [top_eq (crossed_reachable _).valid hroot]
    refine ⟨hq, ?_⟩
    change q.hash ≠ _
    rw [hh]
    cases X <;> decide
  | @point X p r i hquery ht hi hr ih =>
    obtain ⟨x, y, hx, hy, r', hdiff⟩ := crossed_diff ih.1 ih.2
    have hleaf : ∀ z : ValPtr (Record 8192 (BitVec 8) Unit),
        (Node.leaf z : Node _ (BitVec 8)).location.keybits = 0 := fun _ => rfl
    rw [hdiff] at hr
    interval_cases i
    · obtain rfl := Option.some.inj hr
      refine ⟨hleaf x, ?_⟩
      change leafHash x ≠ _
      rw [hx]
      cases X <;> decide
    · obtain rfl := Option.some.inj hr
      refine ⟨hleaf y, ?_⟩
      change leafHash y ≠ _
      rw [hy]
      cases X <;> decide

/-- With long keys two trees may go on traversing each other and never ask for
data, without a single record in common. -/
theorem crossed_quiet :
    (∀ X, (crossed X).Reachable) ∧ (∀ X, (crossed X).isEmpty = false) ∧
      DistinctXors ((crossed .a).records ∪ (crossed .b).records) ∧ Quiet crossed ∧
      (crossed .a).records ≠ (crossed .b).records := by
  have hhashes : ((crossed .a).recordList ++ (crossed .b).recordList).map Prod.snd =
      [1, 2, 4, 8] := by decide +kernel
  refine ⟨crossed_reachable, fun X => ?_, ?_, fun X p hq => ?_, fun heq => ?_⟩
  · obtain ⟨q, x, y, hroot, -⟩ := crossed_root X
    simp [CritbitTree.isEmpty, hroot]
  · refine distinctXors_of_bits (l := (crossed .a).recordList ++ (crossed .b).recordList)
      (by rw [hhashes]; decide) (by rw [hhashes]; decide) fun r hr => ?_
    rw [List.mem_append, mem_recordList, mem_recordList]
    exact hr
  · obtain ⟨hbits, hhash⟩ := crossed_query hq
    obtain ⟨x, y, -, -, r, hdiff⟩ := crossed_diff hbits hhash
    rw [DiffResult.need_any_iff, hdiff]
    simp [DiffResult.leaf]
  · obtain ⟨q, x, y, hroot, -, -, hx, -⟩ := crossed_root .a
    have hmem : recordOf x ∈ (crossed .a).records :=
      ⟨x, ⟨_, hroot, Node.mem_branch.mpr (Or.inl (by simp))⟩, rfl⟩
    rw [heq] at hmem
    have hin := List.mem_map_of_mem (f := Prod.snd) (mem_recordList.mpr hmem)
    have hb : (crossed .b).recordList.map Prod.snd = [4, 8] := by decide +kernel
    rw [hb] at hin
    change leafHash x ∈ _ at hin
    rw [hx] at hin
    exact absurd hin (by decide)

end MerkleTree

end Turbolib
