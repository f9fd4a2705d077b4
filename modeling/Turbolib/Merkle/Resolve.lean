import Turbolib.Critbit.Representation
import Turbolib.Merkle.Verdict

/-!
# Resolving locations

A location obtained from `top()` by traversing leads back to the node it was made from.
`top` gives key 0 to the root and `diff` a member's key to each child; the number of bits
in front of the node's own branching makes a walk along either of them stop there.
-/

namespace Turbolib

open BitString

namespace Node

variable {n : ℕ} {H V : Type} {root m : Node (Record n H V) H}

theorem WellFormed.critPos_lt_sharedBits {q : Branch H} {c0 c1 : Node (Record n H V) H}
    (h : (branch q c0 c1).WellFormed) (hm : m ∈ c0.subnodes ++ c1.subnodes) :
    critPos q.byte q.otherbits < m.sharedBits := by
  cases m with
  | leaf x => exact h.critPos_lt
  | branch b d0 d1 => exact h.critPos_lt_of_mem hm

/-- A walk along the key of any member ends at the node, if it stops at the bits that the
members share. -/
theorem WellFormed.descend_subnode (h : root.WellFormed) (hm : m ∈ root.subnodes)
    {x : ValPtr (Record n H V)} (hx : x ∈ m) : root.descend (ptrBits x) m.sharedBits = m := by
  induction root with
  | leaf y =>
    rw [subnodes, List.mem_singleton] at hm
    rw [hm]
    rfl
  | branch q c0 c1 ih0 ih1 =>
    rcases List.mem_cons.mp hm with rfl | hm
    · exact descend_self le_rfl
    have hlt := h.critPos_lt_sharedBits hm
    rw [Node.descend, if_neg (not_le.mpr hlt)]
    rcases List.mem_append.mp hm with hm | hm
    · have hbit := h.ordered.2.1 x (mem_of_mem_subnodes hm hx)
      rw [hbit, if_neg Bool.false_ne_true]
      exact ih0 h.child0 hm
    · have hbit := h.ordered.2.2.1 x (mem_of_mem_subnodes hm hx)
      rw [hbit, if_pos rfl]
      exact ih1 h.child1 hm

section

variable [DecidableEq H]

theorem diff_same {p : Location n H} (hh : p.hash = m.getHash) : m.diff p = ⟨[], false⟩ := by
  unfold diff
  rw [if_pos hh]

/-- The node's own location with another hash is answered by the leaf. -/
theorem diff_leaf {key : FixedKey n} {x : ValPtr (Record n H V)} {h : H} (hh : h ≠ leafHash x) :
    (leaf x : Node (Record n H V) H).diff (((leaf x).getPoint key).copy h) =
      ⟨[(leaf x : Node (Record n H V) H).getPoint key], false⟩ := by
  simp [diff, Location.copy, getPoint, getHash, Location.ofKey, hh]

/-- The node's own location with another hash is answered by its children. -/
theorem diff_branch {key : FixedKey n} {b : Branch H} {c0 c1 : Node (Record n H V) H} {h : H}
    (hh : h ≠ b.hash) :
    (branch b c0 c1).diff (((branch b c0 c1).getPoint key).copy h) =
      ⟨[c0.location, c1.location, (branch b c0 c1).getPoint key], false⟩ := by
  simp [diff, Location.copy, getPoint, getHash, location, beginLeaf, hh]

end

end Node

namespace MerkleTree

variable {n : ℕ} {H V : Type} [HashType H] [Inhabited V] [DecidableEq H]

/-- The locations obtained from `t.top()` by taking `t.diff(q.copy(h))` for one obtained
before and another hash, and picking one of the first two points. -/
inductive Obtained (t : MerkleTree n H V) : Location n H → Prop where
  | top : Obtained t t.top
  | point {q p : Location n H} {h : H} {i : ℕ} (hq : Obtained t q) (hh : h ≠ q.hash) (hi : i < 2)
      (hp : (t.diff (q.copy h)).points[i]? = some p) : Obtained t p

/-- The same with the node that the location was made from: the root, a child of the node
of `q`, or that node itself if it is a leaf. -/
inductive LocationOf (t : MerkleTree n H V) : Location n H → Node (Record n H V) H → Prop where
  | top {root : Node (Record n H V) H} (hr : t.root = some root) : LocationOf t t.top root
  | left {q p : Location n H} {h : H} {b : Branch H} {c0 c1 : Node (Record n H V) H}
      (hq : LocationOf t q (.branch b c0 c1)) (hh : h ≠ q.hash)
      (hp : (t.diff (q.copy h)).points[0]? = some p) : LocationOf t p c0
  | right {q p : Location n H} {h : H} {b : Branch H} {c0 c1 : Node (Record n H V) H}
      (hq : LocationOf t q (.branch b c0 c1)) (hh : h ≠ q.hash)
      (hp : (t.diff (q.copy h)).points[1]? = some p) : LocationOf t p c1
  | leaf {q p : Location n H} {h : H} {x : ValPtr (Record n H V)} {i : ℕ}
      (hq : LocationOf t q (.leaf x)) (hh : h ≠ q.hash) (hi : i < 2)
      (hp : (t.diff (q.copy h)).points[i]? = some p) : LocationOf t p (.leaf x)

/-- What it means that a location resolves to the node: it leads there, its hash is the
true one, and with any other hash it gets the leaf or the two children as answer. -/
structure ResolvesTo (t : MerkleTree n H V) (p : Location n H) (m : Node (Record n H V) H) :
    Prop where
  found : t.nearestSubtree p.key p.keybits = some m
  same : (t.diff p).noDifference = true
  leaf : ∀ x, m = .leaf x → p.key = x.val.first ∧ p.hash = leafHash x ∧
    ∀ h, h ≠ p.hash → (t.diff (p.copy h)).needExchange = true ∧ (t.diff (p.copy h)).points = [p]
  branch : ∀ b c0 c1, m = .branch b c0 c1 → ∀ h, h ≠ p.hash →
    (t.diff (p.copy h)).traverse = true ∧
      (t.diff (p.copy h)).points = [c0.location, c1.location, p]

variable {t : MerkleTree n H V} {root m : Node (Record n H V) H} {p : Location n H}

/-- A location with the node's bits and hash resolves to the node if its key leads there. -/
theorem resolvesTo_of_descend (hn : n < 8192) (ht : t.Valid) (hr : t.root = some root)
    (hm : m.WellFormed) {key : FixedKey n}
    (hd : root.descend (bitsOf (m.getPoint key).key.bytes) m.sharedBits = m) :
    t.ResolvesTo (m.getPoint key) m := by
  have hbits := hm.getPoint_keybits hn key
  have hfound : root.descend (bitsOf (m.getPoint key).key.bytes)
      (m.getPoint key).keybits.toNat = m := by rw [hbits, hd]
  have hdiff : ∀ h, t.diff ((m.getPoint key).copy h) = m.diff ((m.getPoint key).copy h) := by
    intro h
    rw [diff_eq ht hr]
    exact congrArg (Node.diff · _) hfound
  refine ⟨?_, ?_, ?_, ?_⟩
  · rw [nearestSubtree_eq ht, hr, Option.map_some, hfound]
  · rw [diff_eq ht hr, hfound, Node.diff_same (Node.getPoint_hash m key)]
    rfl
  · rintro x rfl
    refine ⟨rfl, rfl, fun h hne => ?_⟩
    rw [hdiff, Node.diff_leaf hne]
    exact ⟨rfl, rfl⟩
  · rintro b c0 c1 rfl h hne
    rw [hdiff, Node.diff_branch hne]
    exact ⟨rfl, rfl⟩

theorem location_resolves (hn : n < 8192) (ht : t.Valid) (hr : t.root = some root)
    (hm : m ∈ root.subnodes) : t.ResolvesTo m.location m := by
  have hw := ht.wellFormed root hr
  refine resolvesTo_of_descend hn ht hr (hw.subnode hm) ?_
  change root.descend (bitsOf m.location.key.bytes) _ = _
  rw [Node.location_key]
  exact hw.descend_subnode hm m.beginLeaf_mem

theorem top_resolves (hn : n < 8192) (ht : t.Valid) (hr : t.root = some root) :
    t.ResolvesTo t.top root := by
  rw [top_eq ht hr]
  exact resolvesTo_of_descend hn ht hr (ht.wellFormed root hr) (Node.descend_self le_rfl)

/-- Each location obtained was made from some node. -/
theorem obtained_iff (hr : t.root = some root) : t.Obtained p ↔ ∃ m, t.LocationOf p m := by
  constructor
  · intro hp
    induction hp with
    | top => exact ⟨root, .top hr⟩
    | point hq hh hi hpt ih =>
      obtain ⟨m, hm⟩ := ih
      cases m with
      | leaf x => exact ⟨_, .leaf hm hh hi hpt⟩
      | branch b c0 c1 =>
        obtain rfl | rfl := Nat.le_one_iff_eq_zero_or_eq_one.mp (Nat.le_of_lt_succ hi)
        · exact ⟨c0, .left hm hh hpt⟩
        · exact ⟨c1, .right hm hh hpt⟩
  · rintro ⟨m, hm⟩
    induction hm with
    | top hr => exact .top
    | left hq hh hpt ih => exact .point ih hh (by omega) hpt
    | right hq hh hpt ih => exact .point ih hh (by omega) hpt
    | leaf hq hh hi hpt ih => exact .point ih hh hi hpt

/-- A location obtained resolves to the node it was made from. -/
theorem LocationOf.resolves (hn : n < 8192) (ht : t.Valid) (hr : t.root = some root)
    (hp : t.LocationOf p m) : m ∈ root.subnodes ∧ t.ResolvesTo p m := by
  induction hp with
  | top hr' =>
    cases hr.symm.trans hr'
    exact ⟨root.self_mem_subnodes, top_resolves hn ht hr⟩
  | left hq hh hpt ih =>
    rw [(ih.2.branch _ _ _ rfl _ hh).2] at hpt
    cases hpt
    have hc := (Node.children_mem_subnodes ih.1).1
    exact ⟨hc, location_resolves hn ht hr hc⟩
  | right hq hh hpt ih =>
    rw [(ih.2.branch _ _ _ rfl _ hh).2] at hpt
    cases hpt
    have hc := (Node.children_mem_subnodes ih.1).2
    exact ⟨hc, location_resolves hn ht hr hc⟩
  | leaf hq hh hi hpt ih =>
    rw [((ih.2.leaf _ rfl).2.2 _ hh).2] at hpt
    rw [List.getElem?_singleton] at hpt
    split_ifs at hpt
    cases hpt
    exact ih

/-- From a location of a node every node below it is obtained. -/
theorem LocationOf.exists_below [Nontrivial H] (hn : n < 8192) (ht : t.Valid)
    (hr : t.root = some root) {m' : Node (Record n H V) H} (hp : t.LocationOf p m)
    (hm : m' ∈ m.subnodes) : ∃ p', t.LocationOf p' m' := by
  induction m generalizing p with
  | leaf x =>
    rw [Node.subnodes, List.mem_singleton] at hm
    exact ⟨p, hm ▸ hp⟩
  | branch b c0 c1 ih0 ih1 =>
    obtain ⟨h, hh⟩ := exists_ne p.hash
    have hpts := (((hp.resolves hn ht hr).2.branch b c0 c1 rfl) h hh).2
    rcases List.mem_cons.mp hm with rfl | hm
    · exact ⟨p, hp⟩
    rcases List.mem_append.mp hm with hm | hm
    · exact ih0 (.left hp hh (by rw [hpts]; rfl)) hm
    · exact ih1 (.right hp hh (by rw [hpts]; rfl)) hm

/-- The locations obtained from the top of a tree were made from its nodes and resolve to
them, and there is one for every node. -/
theorem locations_resolve [Nontrivial H] (hn : n < 8192) (h : t.Reachable)
    (hr : t.root = some root) :
    (∀ p, t.Obtained p ↔ ∃ m, t.LocationOf p m) ∧
      (∀ p m, t.LocationOf p m → m ∈ root.subnodes ∧ t.ResolvesTo p m) ∧
      ∀ m ∈ root.subnodes, ∃ p, t.LocationOf p m :=
  ⟨fun _ => obtained_iff hr, fun _ _ hp => hp.resolves hn h.valid hr,
    fun _ hm => (LocationOf.top hr).exists_below hn h.valid hr hm⟩

theorem locations_resolve_three :
    let t : MerkleTree 1 (BitVec 8) Unit := CritbitTree.ofList 0 [⟨⟨[0x80], rfl⟩, (1, ())⟩,
      ⟨⟨[0x90], rfl⟩, (2, ())⟩, ⟨⟨[0x00], rfl⟩, (4, ())⟩]
    ∃ root, t.root = some root ∧
      (∀ p, t.Obtained p ↔ ∃ m, t.LocationOf p m) ∧
      (∀ p m, t.LocationOf p m → m ∈ root.subnodes ∧ t.ResolvesTo p m) ∧
      ∀ m ∈ root.subnodes, ∃ p, t.LocationOf p m := by
  intro t
  have : Nontrivial (BitVec 8) := ⟨0, 1, by decide⟩
  obtain ⟨root, hr⟩ : ∃ root, t.root = some root := Option.isSome_iff_exists.mp (by decide)
  exact ⟨root, hr, locations_resolve (by decide) (CritbitTree.reachable_ofList _ _) hr⟩

/-- With keys of 8192 bytes the location of a leaf says 0 bits and leads to the root. -/
theorem long_key_unresolved :
    ∃ (t : MerkleTree 8192 (BitVec 8) Unit) (p : Location 8192 (BitVec 8)), t.Reachable ∧
      t.isEmpty = false ∧ t.Obtained p ∧ (t.diff p).noDifference = false := by
  let t := longTree [(0x80, 1), (0xC0, 2)]
  have hval : (t.diff (t.top.copy 0)).points[0]?.map (fun p => (t.diff p).noDifference) =
      some false := by decide +kernel
  have hhash : (0 : BitVec 8) ≠ t.top.hash := by decide +kernel
  obtain ⟨p, hp, hdiff⟩ := Option.map_eq_some_iff.mp hval
  exact ⟨t, p, CritbitTree.reachable_ofList _ _, by decide +kernel,
    .point .top hhash (by omega) hp, hdiff⟩

end MerkleTree

end Turbolib
