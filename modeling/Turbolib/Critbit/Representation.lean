import Turbolib.Critbit.Enumerate
import Turbolib.Critbit.KeyOrder

/-!
# The representation invariant

The crit-bit invariant of a reachable tree in terms of the bytes of its keys, a key
being read with zeros behind its end, and what follows for the order of the leaves.
That a branch has two children is part of the type of nodes.
-/

namespace Turbolib

open BitString

namespace Node

variable {H : Type}

/-! ## The nodes below a node -/

def subnodes {E : Type} : Node E H → List (Node E H)
  | leaf x => [leaf x]
  | branch q c0 c1 => branch q c0 c1 :: (c0.subnodes ++ c1.subnodes)

theorem self_mem_subnodes {E : Type} (m : Node E H) : m ∈ m.subnodes := by
  cases m <;> simp [subnodes]

theorem children_mem_subnodes {E : Type} {m c0 c1 : Node E H} {q : Branch H}
    (h : branch q c0 c1 ∈ m.subnodes) : c0 ∈ m.subnodes ∧ c1 ∈ m.subnodes := by
  induction m with
  | leaf x => simp [subnodes] at h
  | branch b d0 d1 ih0 ih1 =>
    simp only [subnodes, List.mem_cons, List.mem_append] at h ⊢
    rcases h with h | h | h
    · obtain ⟨rfl, rfl, rfl⟩ := branch.inj h
      exact ⟨Or.inr (Or.inl c0.self_mem_subnodes), Or.inr (Or.inr c1.self_mem_subnodes)⟩
    · exact ⟨Or.inr (Or.inl (ih0 h).1), Or.inr (Or.inl (ih0 h).2)⟩
    · exact ⟨Or.inr (Or.inr (ih1 h).1), Or.inr (Or.inr (ih1 h).2)⟩

theorem descend_mem_subnodes {E : Type} (m : Node E H) (k : BitString) (i : ℕ) :
    m.descend k i ∈ m.subnodes := by
  induction m with
  | leaf x => exact self_mem_subnodes _
  | branch q c0 c1 ih0 ih1 =>
    simp only [descend]
    split_ifs
    · exact self_mem_subnodes _
    · simp [subnodes, ih1]
    · simp [subnodes, ih0]

theorem mem_of_mem_subnodes {E : Type} {m n : Node E H} (hn : n ∈ m.subnodes) {x : ValPtr E}
    (hx : x ∈ n) : x ∈ m := by
  induction m with
  | leaf y =>
    rw [subnodes, List.mem_singleton] at hn
    exact hn ▸ hx
  | branch q c0 c1 ih0 ih1 =>
    simp only [subnodes, List.mem_cons, List.mem_append] at hn
    rcases hn with rfl | hn | hn
    · exact hx
    · exact mem_branch.mpr (Or.inl (ih0 hn))
    · exact mem_branch.mpr (Or.inr (ih1 hn))

theorem WellFormed.subnode {E : Type} [CritbitElemOps E] {m n : Node E H} (h : m.WellFormed)
    (hn : n ∈ m.subnodes) : n.WellFormed := by
  induction m with
  | leaf x =>
    rw [subnodes, List.mem_singleton] at hn
    exact hn ▸ h
  | branch q c0 c1 ih0 ih1 =>
    simp only [subnodes, List.mem_cons, List.mem_append] at hn
    rcases hn with rfl | hn | hn
    · exact h
    · exact ih0 h.child0 hn
    · exact ih1 h.child1 hn

/-! ## The order of the leaves -/

/-- Call `visit` on the elements in turn; the answer is whether all calls returned true. -/
def feedAll {E σ : Type} (visit : E → σ → σ × Bool) : List E → σ → σ × Bool
  | [], s => (s, true)
  | x :: xs, s =>
    let (s, go) := visit x s
    if go then feedAll visit xs s else (s, false)

theorem feedAll_append {E σ : Type} (visit : E → σ → σ × Bool) (xs ys : List E) (s : σ) :
    feedAll visit (xs ++ ys) s =
      let r := feedAll visit xs s
      if r.2 then feedAll visit ys r.1 else (r.1, false) := by
  induction xs generalizing s with
  | nil => rfl
  | cons x xs ih =>
    cases hgo : (visit x s).2 with
    | true => simpa [feedAll, hgo] using ih (visit x s).1
    | false => simp [feedAll, hgo]

/-- `enumerate(fun, node)` visits the leaves from left to right. -/
theorem enumerateAll_eq {E σ : Type} (visit : E → σ → σ × Bool) (n : Node E H) (s : σ) :
    n.enumerateAll visit s = feedAll visit (n.leaves.map ValPtr.val) s := by
  induction n generalizing s with
  | leaf x =>
    rw [enumerateAll, leaves_leaf, List.map_singleton, feedAll]
    cases hgo : (visit x.val s).2 <;> simp [feedAll, hgo, Prod.ext_iff]
  | branch q c0 c1 ih0 ih1 =>
    simp only [enumerateAll, leaves_branch, List.map_append, feedAll_append, ih0, ih1]

/-- What holds of the leaves below a node. -/
structure LeavesAscend {E : Type} [CritbitElemOps E] (n : Node E H) : Prop where
  visits : ∀ (σ : Type) (visit : E → σ → σ × Bool) (s : σ),
    n.enumerateAll visit s = feedAll visit (n.leaves.map ValPtr.val) s
  ascending : n.leaves.Pairwise fun x y => keyBytes x.val < keyBytes y.val
  begin_mem : n.beginLeaf ∈ n.leaves
  begin_le : ∀ x ∈ n.leaves, keyBytes n.beginLeaf.val ≤ keyBytes x.val
  end_mem : n.endLeaf ∈ n.leaves
  le_end : ∀ x ∈ n.leaves, keyBytes x.val ≤ keyBytes n.endLeaf.val

theorem WellFormed.leavesAscend {E : Type} [CritbitElemOps E] {n : Node E H} (h : n.WellFormed) :
    n.LeavesAscend where
  visits _ visit s := enumerateAll_eq visit n s
  ascending := h.ordered.sorted.imp fun hxy => elemBits_lt_iff.mp hxy
  begin_mem := n.beginLeaf_mem
  begin_le x hx := by
    rw [beginLeaf_eq]
    exact elemBits_le_iff.mp (h.ordered.first_le x hx)
  end_mem := by
    rw [endLeaf_eq]
    exact n.toTrie.last_mem
  le_end x hx := by
    rw [endLeaf_eq]
    exact elemBits_le_iff.mp (h.ordered.le_last x hx)

/-! ## The branches -/

end Node

/-- Bit `i` of byte `b`, counted from the high end, comes before the critical bit. -/
def Branch.After {H : Type} (q : Branch H) (b i : ℕ) : Prop :=
  b < q.byte ∨ b = q.byte ∧ i < bitIndex q.otherbits

/-- Bit `i` of byte `b` of an element's key. -/
def keyBit {E : Type} [CritbitElemOps E] (x : ValPtr E) (b i : ℕ) : Bool :=
  msb (byteAt (keyBytes x.val) b) i

theorem keyBit_eq {E : Type} [CritbitElemOps E] (x : ValPtr E) {b i : ℕ} (hi : i < 8) :
    keyBit x b i = ptrBits x (8 * b + i) :=
  (bitsOf_apply (keyBytes x.val) b i hi).symm

namespace Node

variable {E H : Type} [CritbitElemOps E]

/-- What holds at a branch: it names one bit, the branches below it name later ones,
the keys below it are the same in front of the bit, and the bit tells the children
apart. -/
structure BranchInvariant (q : Branch H) (c0 c1 : Node E H) : Prop where
  mask : CritMask q.otherbits
  increases : ∀ (p : Branch H) (d0 d1 : Node E H), branch p d0 d1 ∈ c0.subnodes ++ c1.subnodes →
    p.After q.byte (bitIndex q.otherbits)
  agree : ∀ x ∈ branch q c0 c1, ∀ y ∈ branch q c0 c1, ∀ b i, i < 8 → q.After b i →
    keyBit x b i = keyBit y b i
  left : ∀ x ∈ c0, keyBit x q.byte (bitIndex q.otherbits) = false
  right : ∀ x ∈ c1, keyBit x q.byte (bitIndex q.otherbits) = true

/-- A branch below a child is at a later position: its leaves differ there, and they
agree up to the position of the parent. -/
theorem WellFormed.critPos_lt_of_mem {q p : Branch H} {c0 c1 d0 d1 : Node E H}
    (h : (branch q c0 c1).WellFormed) (hp : branch p d0 d1 ∈ c0.subnodes ++ c1.subnodes) :
    critPos q.byte q.otherbits < critPos p.byte p.otherbits := by
  have hd : (branch p d0 d1).WellFormed := by
    rcases List.mem_append.mp hp with hp | hp
    · exact h.child0.subnode hp
    · exact h.child1.subnode hp
  refine hd.ordered.le_pos fun x hx y hy => ?_
  rcases List.mem_append.mp hp with hp | hp
  · exact h.ordered.agreeOn_left x (mem_of_mem_subnodes hp hx) y (mem_of_mem_subnodes hp hy)
  · exact h.ordered.agreeOn_right x (mem_of_mem_subnodes hp hx) y (mem_of_mem_subnodes hp hy)

theorem WellFormed.branchInvariant {q : Branch H} {c0 c1 : Node E H}
    (h : (branch q c0 c1).WellFormed) : BranchInvariant q c0 c1 where
  mask := h.masks.1
  increases p d0 d1 hp := by
    have hlt := h.critPos_lt_of_mem hp
    have hq := h.masks.1.bitIndex_lt
    unfold critPos at hlt
    unfold Branch.After
    have hmask : CritMask p.otherbits := by
      rcases List.mem_append.mp hp with hp | hp
      · exact (h.child0.subnode hp).masks.1
      · exact (h.child1.subnode hp).masks.1
    have hb := hmask.bitIndex_lt
    omega
  agree x hx y hy b i hi hbefore := by
    have hpos : 8 * b + i < critPos q.byte q.otherbits := by
      unfold Branch.After at hbefore
      unfold critPos
      omega
    rw [keyBit_eq x hi, keyBit_eq y hi]
    exact h.ordered.1 x hx y hy _ hpos
  left x hx := by
    rw [keyBit_eq x h.masks.1.bitIndex_lt]
    exact h.ordered.2.1 x hx
  right x hx := by
    rw [keyBit_eq x h.masks.1.bitIndex_lt]
    exact h.ordered.2.2.1 x hx

end Node

namespace CritbitTree

variable {E H : Type} [CritbitElemOps E] [CritbitExt E H]

/-- The crit-bit invariant of every reachable tree, and the order of the leaves below
every node. -/
theorem reachable_representation {t : CritbitTree E H} (h : t.Reachable) {root : Node E H}
    (hr : t.root = some root) :
    (∀ q c0 c1, Node.branch q c0 c1 ∈ root.subnodes → Node.BranchInvariant q c0 c1) ∧
      ∀ n ∈ root.subnodes, n.LeavesAscend := by
  have hw := h.valid.wellFormed root hr
  exact ⟨fun q c0 c1 hq => (hw.subnode hq).branchInvariant,
    fun n hn => (hw.subnode hn).leavesAscend⟩

/-- Of the strings `a` and `ab` the first is a prefix of the second. -/
theorem reachable_representation_two :
    let t : CritbitTree CString Unit := ofList () [⟨[97], by decide⟩, ⟨[97, 98], by decide⟩]
    ∃ root, t.root = some root ∧
      (∀ q c0 c1, Node.branch q c0 c1 ∈ root.subnodes → Node.BranchInvariant q c0 c1) ∧
      ∀ n ∈ root.subnodes, n.LeavesAscend := by
  intro t
  obtain ⟨root, hr⟩ : ∃ root, t.root = some root := Option.isSome_iff_exists.mp (by decide)
  exact ⟨root, hr, reachable_representation (reachable_ofList _ _) hr⟩

end CritbitTree

end Turbolib
