import Turbolib.Critbit.Range
import Turbolib.Critbit.Representation

/-!
# Prefix search

`subtree` with a prefix, a length and a mask for the last byte, and the enumeration of
the node it returns. The walk looks at the prefix only, and one leaf is compared with it
afterwards; by the crit-bit invariant that leaf speaks for all of them.
-/

namespace Turbolib

open BitString

/-- The first `keylen` bytes are the same, the low `j` bits of the last one left out. Past
its end a key reads as zeros. -/
def AgreesWith (pre key : List UInt8) (j keylen : ℕ) : Prop :=
  ∀ b < keylen, ∀ i < 8, (b + 1 = keylen → i < 8 - j) → msb (byteAt pre b) i = msb (byteAt key b) i

theorem agreesWith_iff {pre key : List UInt8} {j keylen : ℕ} (hj : j ≤ 8) :
    AgreesWith pre key j keylen ↔ Agree (8 * keylen - j) (bitsOf pre) (bitsOf key) := by
  constructor
  · intro h i hi
    obtain ⟨b, r, hr, rfl⟩ : ∃ b r, r < 8 ∧ i = 8 * b + r := ⟨i / 8, i % 8, by omega, by omega⟩
    rw [bitsOf_apply _ _ _ hr, bitsOf_apply _ _ _ hr]
    exact h b (by omega) r hr (by omega)
  · intro h b hb i hi hlast
    rw [← bitsOf_apply _ _ _ hi, ← bitsOf_apply _ _ _ hi]
    exact h _ (by omega)

/-! ## What enumerate calls -/

namespace Node

section

variable {E H σ : Type}

/-- The callback that also notes its calls and what they returned. -/
def noting (visit : E → σ → σ × Bool) (x : E) (s : σ × List (E × Bool)) :
    (σ × List (E × Bool)) × Bool :=
  let (s', go) := visit x s.1
  ((s', s.2 ++ [(x, go)]), go)

/-- The calls that `enumerate(fun, node)` makes, with what they return. -/
def calls (n : Node E H) (visit : E → σ → σ × Bool) (s : σ) : List (E × Bool) :=
  (n.enumerateAll (noting visit) (s, [])).1.2

/-- The calls are made on the list from its start, and without one that returned false on
all of it. -/
theorem feedAll_noting (visit : E → σ → σ × Bool) (xs : List E) (s : σ)
    (log : List (E × Bool)) :
    ∃ made, (feedAll (noting visit) xs (s, log)).1.2 = log ++ made ∧
      made.map Prod.fst <+: xs ∧
      ((feedAll visit xs s).2 = true ↔ ∀ c ∈ made, c.2 = true) ∧
      ((feedAll visit xs s).2 = true → made.map Prod.fst = xs) := by
  induction xs generalizing s log with
  | nil => exact ⟨[], by simp [feedAll]⟩
  | cons x xs ih =>
    obtain ⟨made, hlog, hpre, hgo, hall⟩ := ih (visit x s).1 (log ++ [(x, (visit x s).2)])
    cases hx : (visit x s).2 with
    | false => exact ⟨[(x, false)], by simp [feedAll, noting, hx]⟩
    | true =>
      rw [hx] at hlog
      refine ⟨(x, true) :: made, ?_, ?_, ?_, ?_⟩
      · simpa [feedAll, noting, hx] using hlog
      · simpa using hpre
      · simpa [feedAll, hx] using hgo
      · simpa [feedAll, hx] using hall

/-- The elements are visited from left to right, each of them unless a call before it
returned false. -/
structure VisitsLeaves (n : Node E H) (visit : E → σ → σ × Bool) (s : σ) : Prop where
  inOrder : (n.calls visit s).map Prod.fst <+: n.leaves.map ValPtr.val
  returns : (n.enumerateAll visit s).2 = true ↔ ∀ c ∈ n.calls visit s, c.2 = true
  complete : (n.enumerateAll visit s).2 = true →
    (n.calls visit s).map Prod.fst = n.leaves.map ValPtr.val

theorem visitsLeaves (n : Node E H) (visit : E → σ → σ × Bool) (s : σ) :
    n.VisitsLeaves visit s := by
  obtain ⟨made, hlog, hpre, hgo, hall⟩ :=
    feedAll_noting visit (n.leaves.map ValPtr.val) s []
  have hcalls : n.calls visit s = made := by
    rw [calls, enumerateAll_eq, hlog, List.nil_append]
  have hrun := enumerateAll_eq visit n s
  exact ⟨hcalls ▸ hpre, hcalls ▸ hrun ▸ hgo, hcalls ▸ hrun ▸ hall⟩

end

end Node

/-! ## The search -/

namespace CritbitTree

variable {E H : Type} [CritbitElemOps E] [CritbitExt E H] {t : CritbitTree E H}

/-- Prefix search among short keys is exact, for the default length of the prefix and for any
other up to `2 ^ 32` bytes: what it returns is null or the node of the elements that agree with
the prefix, in ascending order. -/
theorem subtree_exact (h : t.Reachable) (hmembers : ∀ x ∈ t, Short x.val) (pre : E) {j : ℕ}
    (hj : j ≤ 8) (keylen : ℕ) (hlen : keylenOf pre keylen ≤ 2 ^ 32) :
    ∃ found, t.subtree32 pre (Node.lowMask j) keylen = some found ∧
      (found = none ↔
        ∀ x ∈ t, ¬AgreesWith (keyBytes pre) (keyBytes x.val) j (keylenOf pre keylen)) ∧
      ∀ node, found = some node →
        (∃ root, t.root = some root ∧ node ∈ root.subnodes) ∧
        (∀ x, x ∈ node.leaves ↔
          x ∈ t ∧ AgreesWith (keyBytes pre) (keyBytes x.val) j (keylenOf pre keylen)) ∧
        node.LeavesAscend ∧
        ∀ (σ : Type) (visit : E → σ → σ × Bool) (s : σ), node.VisitsLeaves visit s := by
  have hv := h.valid
  simp only [agreesWith_iff hj]
  refine ⟨_, subtreeOf32_eq hv hmembers pre _ hlen, ?_⟩
  rw [hv.subtreeOf_eq pre (by omega)]
  refine ⟨⟨fun hnone x hx => hv.bitSubtree_none hnone hx, fun hall => ?_⟩, fun node hnode => ?_⟩
  · rw [Option.eq_none_iff_forall_ne_some]
    intro top htop
    -- the first leaf of a node found would be an element that agrees
    obtain ⟨hx, hag⟩ := ((hv.bitSubtree_some htop).2 _).mp top.beginLeaf_mem
    exact hall _ hx hag
  · obtain ⟨⟨root, hr, rfl⟩, hmem⟩ := hv.bitSubtree_some hnode
    have hw := hv.wellFormed root hr
    exact ⟨⟨root, hr, root.descend_mem_subnodes _ _⟩, hmem,
      (hw.descend _ _).leavesAscend, fun σ visit s => Node.visitsLeaves _ visit s⟩

/-- Two strings that begin like `ac`, up to the low bits of the `c`. -/
theorem subtree_exact_two :
    let pre : CString := ⟨[97, 99], by decide⟩
    let t : CritbitTree CString Unit := ofList () [⟨[97], by decide⟩, ⟨[97, 98], by decide⟩,
      ⟨[97, 99, 100], by decide⟩]
    ∃ found, t.subtree32 pre (Node.lowMask 1) defaultKeylen = some found ∧
      (found = none ↔
        ∀ x ∈ t, ¬AgreesWith (keyBytes pre) (keyBytes x.val) 1 (keylenOf pre defaultKeylen)) ∧
      ∀ node, found = some node →
        (∃ root, t.root = some root ∧ node ∈ root.subnodes) ∧
        (∀ x, x ∈ node.leaves ↔
          x ∈ t ∧ AgreesWith (keyBytes pre) (keyBytes x.val) 1 (keylenOf pre defaultKeylen)) ∧
        node.LeavesAscend ∧
        ∀ (σ : Type) (visit : CString → σ → σ × Bool) (s : σ), node.VisitsLeaves visit s := by
  intro pre t
  have hmembers : ∀ x ∈ t, Short x.val := short_of_mem_ofList (by decide)
  exact subtree_exact (reachable_ofList _ _) hmembers pre (by decide) defaultKeylen (by decide)

/-- The search for a stored key of more than `2 ^ 32` bytes never returns. -/
theorem subtree32_self {pre : E} (hlong : 2 ^ 32 < (keyBytes pre).length) (bitmask : UInt8)
    (garbage : H) :
    (ofList garbage [pre] : CritbitTree E H).subtree32 pre bitmask defaultKeylen = none := by
  obtain ⟨addr, ht⟩ := ofList_singleton (H := H) garbage pre
  have hlen : keylenOf pre defaultKeylen = (keyBytes pre).length := if_pos rfl
  have hnever : compareBytes (keyBytes pre) (keyBytes pre) ((keyBytes pre).length - 1) = none :=
    compareLoop_eq_none (by omega) (fun _ _ => rfl) _ _
  have hpos : (keyBytes pre).length > 0 := by omega
  simp only [subtree32, hlen, subtreeOf32, ht, Option.map_some, Node.nearestSubtree32,
    Node.beginLeaf, prefixMatches32, if_pos hpos, hnever, Option.map_none]

/-- The search for a string of `2 ^ 32 + 1` bytes that is stored never returns. -/
theorem subtree_never_returns :
    let pre : CString := .ones (2 ^ 32 + 1)
    let t : CritbitTree CString Unit := ofList () [pre]
    t.Reachable ∧
      (∃ x ∈ t, AgreesWith (keyBytes pre) (keyBytes x.val) 0 (keylenOf pre defaultKeylen)) ∧
      t.subtree32 pre (Node.lowMask 0) defaultKeylen = none := by
  intro pre t
  obtain ⟨addr, ht⟩ := ofList_singleton () pre
  have hmem : (⟨addr, pre⟩ : ValPtr CString) ∈ t := by
    rw [show t = _ from ht]
    exact ⟨_, rfl, Node.mem_leaf.mpr rfl⟩
  exact ⟨reachable_ofList _ _, ⟨⟨addr, pre⟩, hmem, fun _ _ _ _ _ => rfl⟩,
    subtree32_self (by rw [CString.length_ones]; exact Nat.lt_succ_self _) _ ()⟩

end CritbitTree

end Turbolib
