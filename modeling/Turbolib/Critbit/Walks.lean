import Turbolib.Critbit.Prefix

/-!
# Walks

The walks that the operations of the tree are made of: down to the best match for a key, and
over the leaves of a node from one of them to another; and the comparison that leaves the last
of these out.

## Main results

* `lowerBound_best` — no member shares more bits with a key than the one its walk ends at.
* `enumerate_interval` — the leaves that the bounded walk visits.
* `strnncmp_orders_iff` — when the comparison is the order of the keys.
-/

namespace Turbolib

open BitString

variable {E H : Type} [CritbitElemOps E]

/-! ## The best match -/

namespace CritbitTree

variable [CritbitExt E H] {t : CritbitTree E H}

/-- The walk for any key, stored or not, ends at a member that shares as many bits with the key
as any member does. Against it a short key has no critical bit if it is stored, and otherwise
the first bit that they differ in, with the member's value of it as the direction. -/
theorem lowerBound_best (h : t.Reachable) (hne : t.isEmpty = false) (k : E) (hk : Short k) :
    ∃ x ∈ t, t.lowerBound k = some x ∧
      (∀ y ∈ t, ∀ n, Agree n (elemBits k) (ptrBits y) → Agree n (elemBits k) (ptrBits x)) ∧
      ∃ found, findCriticalBit32 (keyBytes x.val) (keyBytes x.val).length (keyBytes k)
          (keyBytes k).length = some found ∧
        (found = none ↔ ∃ y ∈ t, keyBytes y.val = keyBytes k) ∧
        ∀ c, found = some c →
          CritMask c.newotherbits ∧
            SplitAt (critPos c.newbyte c.newotherbits) (ptrBits x) (elemBits k) ∧
            c.newdirection = ptrBits x (critPos c.newbyte c.newotherbits) := by
  obtain ⟨root, hr⟩ : ∃ root, t.root = some root := by
    cases hr : t.root with
    | none => simp [isEmpty, hr] at hne
    | some root => exact ⟨root, rfl⟩
  have hw := h.valid.wellFormed root hr
  have hmem : ∀ y, y ∈ t ↔ y ∈ root := by simp [mem_def, hr]
  have hwalk := Node.walkTreeForBestMember_elem hw.masks k
  refine ⟨root.toTrie.walk (elemBits k), (hmem _).mpr (root.toTrie.walk_mem _), ?_, ?_,
    _, findCriticalBit32_of_lt _ _ hk, ?_, ?_⟩
  · rw [lowerBound, hr, Option.map_some, hwalk]
  · exact fun y hy n hag => hw.ordered.agree_walk ((hmem y).mp hy) hag
  · rw [findCriticalBit_none_iff (CritbitElemOps.padded _ _) (CritbitElemOps.padded _ _)]
    constructor
    · exact fun hk => ⟨_, (hmem _).mpr (root.toTrie.walk_mem _), hk⟩
    · rintro ⟨y, hy, hk⟩
      rw [hw.ordered.walk_eq ((hmem y).mp hy) (keyBytes_eq_iff.mp hk)]
      exact hk
  · exact fun c => findCriticalBit_some (CritbitElemOps.padded _ _) (CritbitElemOps.padded _ _)

/-- The key `ac` between `ab` and `b`. -/
theorem lowerBound_best_witness :
    let t : CritbitTree CString Unit := ofList () [⟨[97, 98], by decide⟩, ⟨[98], by decide⟩]
    let k : CString := ⟨[97, 99], by decide⟩
    ∃ x ∈ t, t.lowerBound k = some x ∧
      (∀ y ∈ t, ∀ n, Agree n (elemBits k) (ptrBits y) → Agree n (elemBits k) (ptrBits x)) ∧
      ∃ found, findCriticalBit32 (keyBytes x.val) (keyBytes x.val).length (keyBytes k)
          (keyBytes k).length = some found ∧
        (found = none ↔ ∃ y ∈ t, keyBytes y.val = keyBytes k) ∧
        ∀ c, found = some c →
          CritMask c.newotherbits ∧
            SplitAt (critPos c.newbyte c.newotherbits) (ptrBits x) (elemBits k) ∧
            c.newdirection = ptrBits x (critPos c.newbyte c.newotherbits) := by
  intro t k
  exact lowerBound_best (reachable_ofList _ _) (by decide) k (by decide)

/-- The walk for a string of `2 ^ 32` bytes that is stored ends at it, and the comparison with
it never ends. -/
theorem lowerBound_never_compared :
    let k : CString := .ones (2 ^ 32)
    let t : CritbitTree CString Unit := ofList () [k]
    t.Reachable ∧ t.isEmpty = false ∧ ∃ x ∈ t, t.lowerBound k = some x ∧
      keyBytes x.val = keyBytes k ∧
      findCriticalBit32 (keyBytes x.val) (keyBytes x.val).length (keyBytes k)
        (keyBytes k).length = none := by
  intro k t
  obtain ⟨addr, ht⟩ := ofList_singleton () k
  refine ⟨reachable_ofList _ _, ?_, ⟨addr, k⟩, ?_, ?_, rfl,
    findCriticalBit32_self _ (CString.length_ones _).ge⟩
  · rw [show t = _ from ht]
    rfl
  · rw [show t = _ from ht]
    exact ⟨_, rfl, Node.mem_leaf.mpr rfl⟩
  · rw [show t = _ from ht]
    rfl

end CritbitTree

/-! ## The bounded walk -/

namespace Node

section

variable {E H σ : Type} {before between after : List (ValPtr E)} {start stop : ValPtr E}

/-- The leaves from `start` to `stop`, which are told apart from the others by their addresses. -/
theorem scan_leaves (hnodup : ((before ++ (between ++ after)).map ValPtr.addr).Nodup)
    (hstart : between.head? = some start) (hstop : between.getLast? = some stop)
    (excludeStop : Bool) :
    Scan.scan (fun x => x.addr == start.addr) (fun x => x.addr == stop.addr) excludeStop
        (before ++ (between ++ after)) =
      if excludeStop then between.dropLast else between := by
  rw [List.map_append, List.nodup_append] at hnodup
  obtain ⟨-, hrest, hbefore⟩ := hnodup
  refine Scan.scan_interval hstart hstop (beq_self_eq_true _) (fun x hx => ?_)
    (beq_self_eq_true _) fun x hx => ?_
  · have hmem : start ∈ between ++ after :=
      List.mem_append_left _ (List.mem_of_head? hstart)
    exact beq_false_of_ne
      (hbefore _ (List.mem_map_of_mem hx) _ (List.mem_map_of_mem hmem))
  · have hbetween := List.dropLast_append_getLast? stop hstop
    rw [List.map_append, List.nodup_append] at hrest
    obtain ⟨hinside, -, -⟩ := hrest
    rw [← hbetween, List.map_append, List.nodup_append] at hinside
    exact beq_false_of_ne (hinside.2.2 _ (List.mem_map_of_mem hx) _ (by simp))

/-- The calls of a walk through a list, which ends after the first of them that returns false. -/
structure CallsInTurn (made : List (E × Bool)) (xs : List E) : Prop where
  inOrder : made.map Prod.fst <+: xs
  goesOn : ∀ c ∈ made.dropLast, c.2 = true
  complete : (∀ c ∈ made, c.2 = true) → made.map Prod.fst = xs

theorem feed_noting (visit : E → σ → σ × Bool) (xs : List E) (s : σ) (log : List (E × Bool)) :
    ∃ made, (feed (noting visit) xs (s, log)).2 = log ++ made ∧ CallsInTurn made xs := by
  induction xs generalizing s log with
  | nil => exact ⟨[], by simp [feed], by simp, by simp, by simp⟩
  | cons x xs ih =>
    obtain ⟨made, hlog, hcalls⟩ := ih (visit x s).1 (log ++ [(x, (visit x s).2)])
    cases hx : (visit x s).2 with
    | false => exact ⟨[(x, false)], by simp [feed, noting, hx], by simp, by simp, by simp⟩
    | true =>
      rw [hx] at hlog
      refine ⟨(x, true) :: made, ?_, ?_, ?_, ?_⟩
      · simpa [feed, noting, hx] using hlog
      · simpa using hcalls.inOrder
      · cases made with
        | nil => simp
        | cons c made => simpa using hcalls.goesOn
      · simpa using hcalls.complete

/-- The calls that `enumerate(fun, top, start, stop, excludeStop)` makes, with what they
return. -/
def boundedCalls (top : Node E H) (visit : E → σ → σ × Bool) (start stop : ValPtr E)
    (excludeStop : Bool) (s : σ) : List (E × Bool) :=
  (top.enumerate (noting visit) start stop excludeStop .searching (s, [])).1.2

end

end Node

namespace CritbitTree

variable [CritbitExt E H] {t : CritbitTree E H}

/-- From a leaf to one that is not in front of it, the walk calls its function on the leaves in
between in turn, with the last one left out on demand, and ends after the first call that
returns false. -/
theorem enumerate_interval (h : t.Reachable) {root top : Node E H} (hr : t.root = some root)
    (htop : top ∈ root.subnodes) {before between after : List (ValPtr E)}
    (hleaves : top.leaves = before ++ (between ++ after)) {start stop : ValPtr E}
    (hstart : between.head? = some start) (hstop : between.getLast? = some stop)
    (excludeStop : Bool) {σ : Type} (visit : E → σ → σ × Bool) (s : σ) :
    let interval := if excludeStop then between.dropLast else between
    top.leaves.Nodup ∧
      (top.enumerate visit start stop excludeStop .searching s).1 =
        feed visit (interval.map ValPtr.val) s ∧
      Node.CallsInTurn (top.boundedCalls visit start stop excludeStop s)
        (interval.map ValPtr.val) := by
  intro interval
  have hw := (h.valid.wellFormed root hr).subnode htop
  have hnodup : (top.leaves.map ValPtr.addr).Nodup := top.leaves_addrs_sublist.nodup hw.nodup
  have hscan := Node.scan_leaves (hleaves ▸ hnodup) hstart hstop excludeStop
  rw [← hleaves] at hscan
  refine ⟨hnodup.of_map _, ?_, ?_⟩
  · rw [Node.enumerate_eq_feed, hscan]
  · obtain ⟨made, hlog, hcalls⟩ := Node.feed_noting visit (interval.map ValPtr.val) s []
    have hmade : top.boundedCalls visit start stop excludeStop s = made := by
      rw [Node.boundedCalls, Node.enumerate_eq_feed, hscan]
      exact hlog
    exact hmade ▸ hcalls

/-- From `10` to `11` in the tree of the two, without `11`. -/
theorem enumerate_interval_witness :
    let start : ValPtr CString := ⟨1, ten⟩
    let stop : ValPtr CString := ⟨3, eleven⟩
    let root : Node CString Unit := .branch ⟨2, 1, 0xFE, ()⟩ (.leaf start) (.leaf stop)
    let interval := if true then [start, stop].dropLast else [start, stop]
    root.leaves.Nodup ∧
      (root.enumerate record start stop true .searching []).1 =
        feed record (interval.map ValPtr.val) [] ∧
      Node.CallsInTurn (root.boundedCalls record start stop true [])
        (interval.map ValPtr.val) := by
  intro start stop root
  have hleaves : root.leaves = [] ++ ([start, stop] ++ []) := by decide
  exact enumerate_interval (reachable_ofList () [ten, eleven]) (by decide)
    root.self_mem_subnodes hleaves rfl rfl true record []

end CritbitTree

/-! ## The comparison -/

/-- Texts that are ordered as their lengths are. -/
def OrderedByLength (l r : List UInt8) : Prop :=
  (l < r ↔ l.length < r.length) ∧ (r < l ↔ r.length < l.length)

theorem signOf_lengthOrder_iff {l r : List UInt8} :
    SignOf (lengthOrder l.length r.length) l r ↔ OrderedByLength l r := by
  have heq : l = r ↔ ¬l < r ∧ ¬r < l := by
    constructor
    · rintro rfl
      exact ⟨List.lt_irrefl _, List.lt_irrefl _⟩
    · rintro ⟨hlr, hrl⟩
      exact List.le_antisymm hrl hlr
  rw [OrderedByLength]
  constructor
  · rintro ⟨hlt, -, hgt⟩
    rw [← hlt, ← hgt]
    grind [lengthOrder]
  · rintro ⟨hlt, hgt⟩
    refine ⟨?_, ?_, ?_⟩
    · grind [lengthOrder]
    · grind [lengthOrder]
    · grind [lengthOrder]

/-- The comparison is the order of the keys exactly when these do not begin alike with a zero
byte, or are ordered as their lengths are. It tells whether the stop leaf is beyond `last`
exactly when they do not begin so, or the longer of them is the one beyond. -/
theorem strnncmp_orders_iff (l r : List UInt8) (stop last : E) :
    (SignOf (strnncmp l l.length r r.length) l r ↔ (0 ∈ common l r → OrderedByLength l r)) ∧
      ((CritbitTree.Excludes last stop ↔ keyBytes last < keyBytes stop) ↔
        (0 ∈ common (keyBytes stop) (keyBytes last) →
          (keyBytes last < keyBytes stop ↔
            (keyBytes last).length < (keyBytes stop).length))) := by
  constructor
  · by_cases hnul : 0 ∈ common l r
    · rw [strnncmp_eq_lengthOrder hnul, signOf_lengthOrder_iff]
      exact (imp_iff_right hnul).symm
    · exact iff_of_true (signOf_strnncmp hnul) fun hmem => absurd hmem hnul
  · rw [CritbitTree.Excludes]
    by_cases hnul : 0 ∈ common (keyBytes stop) (keyBytes last)
    · rw [strnncmp_eq_lengthOrder hnul]
      have hgt : lengthOrder (keyBytes stop).length (keyBytes last).length = .gt ↔
          (keyBytes last).length < (keyBytes stop).length := by
        grind [lengthOrder]
      rw [hgt, imp_iff_right hnul]
      exact iff_comm
    · exact iff_of_true (signOf_strnncmp hnul).gt fun hmem => absurd hmem hnul

/-- Two keys that first differ behind a zero byte compare as equal, so that the one beyond is
not excluded. -/
theorem strnncmp_zero_wrong :
    let key : UInt8 → CritbitMapPair 2 Unit := fun b => ⟨⟨[0, b], rfl⟩, ()⟩
    strnncmp [0, 1] 2 [0, 2] 2 = .eq ∧ ([0, 1] : List UInt8) < [0, 2] ∧
      ¬CritbitTree.Excludes (key 1) (key 2) ∧ keyBytes (key 1) < keyBytes (key 2) := by
  decide

end Turbolib
