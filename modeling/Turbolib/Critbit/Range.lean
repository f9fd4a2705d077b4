import Turbolib.Critbit.ByteCounter
import Turbolib.Critbit.KeyOrder
import Turbolib.Library.TrieRange

/-!
# Range enumeration

`enumerate(fun, first, last)` scans the subtree of the members that share with
`first` the bits it shares with `last`. The module shows what it visits there and
when that is the range.
-/

namespace Turbolib

open BitString

/-! ## The subtree -/

theorem xor_and_compl_lowMask (j : ℕ) (hj : j < 9) (x : UInt8) :
    x &&& ~~~Node.lowMask j = 0 ↔ ∀ i < 8 - j, msb x i = false := by
  revert j
  exact forall_uint8 (P := fun x => ∀ j < 9,
    (x &&& ~~~Node.lowMask j = 0 ↔ ∀ i < 8 - j, msb x i = false)) (by decide +kernel) x

/-- The mask that `enumerate` makes of a critical bit: the bit and all below it. -/
theorem smear_compl_critMask : ∀ i < 8,
    smear (critMask i ^^^ 0xFF) = Node.lowMask (8 - i) := by decide

/-- `subtree` tests the bits that the mask leaves. -/
theorem prefixMatches_iff {key leaf : List UInt8} {j keylen : ℕ} (hj : j < 9) :
    CritbitTree.prefixMatches key leaf (Node.lowMask j) keylen ↔
      Agree (8 * keylen - j) (bitsOf key) (bitsOf leaf) := by
  cases keylen with
  | zero => simp [CritbitTree.prefixMatches]
  | succ m =>
    have hsplit : Agree (8 * (m + 1) - j) (bitsOf key) (bitsOf leaf) ↔
        Agree (8 * m) (bitsOf key) (bitsOf leaf) ∧
          ∀ i < 8 - j, msb (byteAt key m) i = msb (byteAt leaf m) i := by
      constructor
      · intro h
        refine ⟨h.mono (by omega), fun i hi => ?_⟩
        rw [← bitsOf_apply _ _ _ (by omega), ← bitsOf_apply _ _ _ (by omega)]
        exact h _ (by omega)
      · rintro ⟨hbytes, hbits⟩ i hi
        by_cases him : i < 8 * m
        · exact hbytes i him
        · obtain ⟨d, rfl⟩ : ∃ d, i = 8 * m + d := ⟨i - 8 * m, by omega⟩
          rw [bitsOf_apply _ _ _ (by omega), bitsOf_apply _ _ _ (by omega)]
          exact hbits d (by omega)
    rw [hsplit, agree_bytes, CritbitTree.prefixMatches, Nat.add_sub_cancel,
      xor_and_compl_lowMask j hj]
    simp only [msb_xor, bne_eq_false_iff_eq, Nat.succ_pos, forall_const, gt_iff_lt]

section

variable {E : Type} [CritbitElemOps E]

/-- How many bits of `first` `enumerate` looks up: those it shares with `last`, or all
of its key if that is the key of `last` too. -/
def commonBits (first last : E) : ℕ :=
  match findCriticalBit (keyBytes first) (keyBytes first).length
      (keyBytes last) (keyBytes last).length with
  | none => 8 * (keyBytes first).length
  | some c => critPos c.newbyte c.newotherbits

/-- An element between the two has these bits. -/
theorem agree_commonBits {first last x : E} (hfx : elemBits first ≤ elemBits x)
    (hxl : elemBits x ≤ elemBits last) :
    Agree (commonBits first last) (elemBits first) (elemBits x) := by
  have hpq := CritbitElemOps.padded first last
  have hqp := CritbitElemOps.padded last first
  cases hc : findCriticalBit (keyBytes first) (keyBytes first).length
      (keyBytes last) (keyBytes last).length with
  | none =>
    have heq := keyBytes_eq_iff.mp ((findCriticalBit_none_iff hpq hqp).mp hc)
    rw [le_antisymm hfx (hxl.trans_eq heq.symm)]
  | some c =>
    obtain ⟨-, hsplit, -⟩ := findCriticalBit_some hpq hqp hc
    rw [commonBits, hc]
    by_contra hag
    have hlt : elemBits first < elemBits x :=
      lt_of_le_of_ne hfx fun he => hag (he ▸ Agree.refl _ _)
    exact ((lt_congr_left hag hsplit.1).mp hlt).not_ge hxl

namespace CritbitTree

variable {H : Type} [CritbitExt E H] {t : CritbitTree E H}

/-- The subtree of the members that share their first `i` bits with `k`, as a walk with
one check at its end finds it. -/
def bitSubtree (t : CritbitTree E H) (k : BitString) (i : ℕ) : Option (Node E H) :=
  t.root.bind fun root =>
    let top := root.descend k i
    if Agree i k (ptrBits top.beginLeaf) then some top else none

theorem Valid.bitSubtree_some (h : t.Valid) {k : BitString} {i : ℕ} {top : Node E H}
    (htop : t.bitSubtree k i = some top) :
    (∃ root, t.root = some root ∧ top = root.descend k i) ∧
      ∀ x, x ∈ top ↔ x ∈ t ∧ Agree i k (ptrBits x) := by
  obtain ⟨root, hr, htop⟩ := Option.bind_eq_some_iff.mp htop
  dsimp only at htop
  split_ifs at htop with hag
  cases htop
  have hw := h.wellFormed root hr
  have hmem : ∀ y, y ∈ root.descend k i ↔
      y ∈ root ∧ Agree i (ptrBits (root.toTrie.walk k)) (ptrBits y) := by
    intro y
    rw [Node.mem_def, Node.toTrie_descend, hw.ordered.mem_descend, Node.mem_def]
  have hwalk := hag.trans ((hmem _).mp (Node.beginLeaf_mem _)).2.symm
  refine ⟨⟨root, hr, rfl⟩, fun x => ?_⟩
  rw [hmem, mem_def]
  constructor
  · rintro ⟨hx, hxw⟩
    exact ⟨⟨root, hr, hx⟩, hwalk.trans hxw⟩
  · rintro ⟨⟨root', hr', hx⟩, hxk⟩
    cases hr.symm.trans hr'
    exact ⟨hx, hwalk.symm.trans hxk⟩

theorem Valid.bitSubtree_none (h : t.Valid) {k : BitString} {i : ℕ}
    (htop : t.bitSubtree k i = none) {x : ValPtr E} (hx : x ∈ t) : ¬Agree i k (ptrBits x) := by
  intro hxk
  obtain ⟨root, hr, hx⟩ := hx
  have hw := h.wellFormed root hr
  rw [bitSubtree, hr, Option.bind_some] at htop
  dsimp only at htop
  split_ifs at htop with hag
  refine hag ?_
  -- the walk shares with `k` as many bits as `x` does, and so does the whole subtree
  have hwalk := hw.ordered.agree_walk hx hxk
  have hbegin := (root.descend k i).beginLeaf_mem
  rw [Node.mem_def, Node.toTrie_descend, hw.ordered.mem_descend] at hbegin
  exact hwalk.trans hbegin.2

theorem Valid.subtreeOf_eq (h : t.Valid) (pre : E) {j keylen : ℕ} (hj : j < 9) :
    t.subtreeOf pre (Node.lowMask j) keylen = t.bitSubtree (elemBits pre) (8 * keylen - j) := by
  rw [subtreeOf, bitSubtree]
  cases hr : t.root with
  | none => rfl
  | some root =>
    have hw := h.wellFormed root hr
    simp only [Option.map_some, Option.bind_some, Node.nearestSubtree_eq hw.masks _ hj,
      prefixMatches_iff hj]
    rfl

/-- The subtree that `enumerate` looks at. -/
theorem Valid.rangeTop_eq (h : t.Valid) (first last : E) :
    t.rangeTop first last = t.bitSubtree (elemBits first) (commonBits first last) := by
  rw [rangeTop, commonBits]
  cases hc : findCriticalBit (keyBytes first) (keyBytes first).length
      (keyBytes last) (keyBytes last).length with
  | none =>
    have hmask : (0 : UInt8) = Node.lowMask 0 := by decide
    simp only [subtree, keylenOf, if_true]
    rw [hmask, h.subtreeOf_eq first (by omega)]
    rfl
  | some c =>
    obtain ⟨hmask, -, -⟩ := findCriticalBit_some (CritbitElemOps.padded first last)
      (CritbitElemOps.padded last first) hc
    have hi := hmask.bitIndex_lt
    have hlow : smear (c.newotherbits ^^^ 0xFF) = Node.lowMask (8 - bitIndex c.newotherbits) := by
      rw [← smear_compl_critMask _ hi, ← hmask.eq_critMask]
    have hpos : 8 * (c.newbyte + 1) - (8 - bitIndex c.newotherbits) =
        critPos c.newbyte c.newotherbits := by
      unfold critPos
      omega
    simp only
    rw [hlow, h.subtreeOf_eq first (by omega), hpos]

/-- It holds the members with the bits looked up. -/
theorem Valid.mem_rangeTop (h : t.Valid) {first last : E} {top : Node E H}
    (htop : t.rangeTop first last = some top) {x : ValPtr E} :
    x ∈ top ↔ x ∈ t ∧ Agree (commonBits first last) (elemBits first) (ptrBits x) := by
  rw [h.rangeTop_eq] at htop
  exact (h.bitSubtree_some htop).2 x

theorem Valid.wellFormed_rangeTop (h : t.Valid) {first last : E} {top : Node E H}
    (htop : t.rangeTop first last = some top) : top.WellFormed := by
  rw [h.rangeTop_eq] at htop
  obtain ⟨⟨root, hr, rfl⟩, -⟩ := h.bitSubtree_some htop
  exact (h.wellFormed root hr).descend _ _

/-- Without a subtree nothing is in the range. -/
theorem Valid.rangeTop_none (h : t.Valid) {first last : E} (htop : t.rangeTop first last = none)
    {x : ValPtr E} (hx : x ∈ t) : ¬(elemBits first ≤ ptrBits x ∧ ptrBits x ≤ elemBits last) := by
  rw [h.rangeTop_eq] at htop
  exact fun hrange => h.bitSubtree_none htop hx (agree_commonBits hrange.1 hrange.2)

end CritbitTree

end

/-! ## Where the enumeration starts and stops -/

namespace Node

section

variable {E H : Type}

theorem leaves_addrs_sublist (n : Node E H) : (n.leaves.map ValPtr.addr).Sublist n.addrs := by
  induction n with
  | leaf x => exact List.Sublist.refl _
  | branch q c0 c1 ih0 ih1 =>
    rw [leaves_branch, List.map_append, addrs]
    exact (ih0.append ih1).cons q.addr

/-- The loop for the hypothetical parent finds the branch that `Trie.atParent` is about. -/
theorem hypotheticalParent_branch (key : List UInt8) (newbyte : ℕ) {newotherbits : UInt8}
    (hm : CritMask newotherbits) {n : Node E H} (hn : n.Masks) (p : Branch H) (d0 d1 : Node E H) :
    ∃ q c0 c1, hypotheticalParent key newbyte newotherbits (branch p d0 d1) n = branch q c0 c1 ∧
      c1.toTrie.first = Trie.atParent (fun _ r => r.first) (bitsOf key)
        (critPos newbyte newotherbits) d1.toTrie.first n.toTrie ∧
      c0.toTrie.last = Trie.atParent (fun l _ => l.last) (bitsOf key)
        (critPos newbyte newotherbits) d0.toTrie.last n.toTrie := by
  induction n generalizing p d0 d1 with
  | leaf x => exact ⟨p, d0, d1, rfl, rfl, rfl⟩
  | branch q c0 c1 ih0 ih1 =>
    have hlt := critPos_lt_iff (b := newbyte) (c := q.byte) hm hn.1
    simp only [hypotheticalParent, toTrie, Trie.atParent, hlt, calculateDirection_eq hn.1]
    by_cases h1 : q.byte > newbyte
    · rw [if_pos h1, if_pos (Or.inl h1), if_pos (Or.inl h1)]
      exact ⟨p, d0, d1, rfl, rfl, rfl⟩
    · by_cases h2 : q.byte = newbyte ∧ q.otherbits > newotherbits
      · have h3 : newbyte < q.byte ∨ newbyte = q.byte ∧ newotherbits < q.otherbits :=
          Or.inr ⟨h2.1.symm, h2.2⟩
        rw [if_neg h1, if_pos h2, if_pos h3, if_pos h3]
        exact ⟨p, d0, d1, rfl, rfl, rfl⟩
      · have h3 : ¬(newbyte < q.byte ∨ newbyte = q.byte ∧ newotherbits < q.otherbits) := by
          rintro (h | h)
          · exact h1 h
          · exact h2 ⟨h.1.symm, h.2⟩
        rw [if_neg h1, if_neg h2, if_neg h3, if_neg h3]
        split_ifs
        · exact ih1 hn.2.2 q c0 c1
        · exact ih0 hn.2.1 q c0 c1

end

variable {E H : Type} [CritbitElemOps E]

theorem walkTreeForBestMember_elem {top : Node E H} (h : top.Masks) (e : E) :
    top.walkTreeForBestMember (keyBytes e) (keyBytes e).length = top.toTrie.walk (elemBits e) :=
  walkTreeForBestMember_eq h (keyBytes e)

/-- How an element lies to a member: they have the same key, or the critical bit tells
which of the two is the smaller one. -/
theorem criticalBit_cases (x e : E) :
    (findCriticalBit (keyBytes x) (keyBytes x).length (keyBytes e) (keyBytes e).length = none ∧
      elemBits x = elemBits e) ∨
    ∃ c, findCriticalBit (keyBytes x) (keyBytes x).length (keyBytes e) (keyBytes e).length =
        some c ∧ CritMask c.newotherbits ∧
      SplitAt (critPos c.newbyte c.newotherbits) (elemBits x) (elemBits e) ∧
      ((c.newdirection = true ∧ elemBits e < elemBits x ∧
          elemBits e (critPos c.newbyte c.newotherbits) = false) ∨
        (c.newdirection = false ∧ elemBits x < elemBits e ∧
          elemBits e (critPos c.newbyte c.newotherbits) = true)) := by
  have hxe := CritbitElemOps.padded x e
  have hex := CritbitElemOps.padded e x
  cases hc : findCriticalBit (keyBytes x) (keyBytes x).length (keyBytes e)
      (keyBytes e).length with
  | none =>
    have heq := (findCriticalBit_none_iff hxe hex).mp hc
    exact Or.inl ⟨rfl, keyBytes_eq_iff.mp heq⟩
  | some c =>
    obtain ⟨hm, hs, hdir⟩ := findCriticalBit_some hxe hex hc
    have hbit : elemBits e (critPos c.newbyte c.newotherbits) = !c.newdirection := by
      rw [hdir]
      exact hs.not_eq
    refine Or.inr ⟨c, rfl, hm, hs, ?_⟩
    cases hd : c.newdirection with
    | true => exact Or.inl ⟨rfl, hs.gt_iff.mpr (hdir.symm.trans hd), by rw [hbit, hd]; rfl⟩
    | false => exact Or.inr ⟨rfl, hs.lt_iff.mpr (hdir.symm.trans hd), by rw [hbit, hd]; rfl⟩

theorem WellFormed.rangeStart_mark {top : Node E H} (h : top.WellFormed) (first : E) :
    Trie.StartMark ptrBits (elemBits first) top.toTrie (top.rangeStart (keyBytes first)) := by
  rw [rangeStart]
  simp only [walkTreeForBestMember_elem h.masks]
  obtain ⟨hc, heq⟩ | ⟨c, hc, hm, hs, ⟨hd, hlt, -⟩ | ⟨hd, hlt, hbit⟩⟩ :=
    criticalBit_cases (top.toTrie.walk (elemBits first)).val first
  · simp only [hc]
    exact .found heq.ge
  · simp only [hc, hd, if_true]
    exact .found hlt.le
  · simp only [hc, hd, Bool.false_eq_true, if_false]
    cases top with
    | leaf x => exact .nothing hlt rfl x rfl
    | branch q c0 c1 =>
      obtain ⟨q', d0, d1, hpar, hfirst, -⟩ := hypotheticalParent_branch (keyBytes first)
        c.newbyte hm h.masks q c0 c1
      obtain ⟨h0, h1, h2⟩ := h.ordered.atParent_right hs.symm hbit c1.toTrie.first
      have hbegin : d1.beginLeaf = _ := (beginLeaf_eq d1).trans hfirst
      simp only [hpar, hbegin]
      cases hturn : (branch q c0 c1).toTrie.turn ptrBits (elemBits first) with
      | none =>
        obtain ⟨hall, heq⟩ := h0 hturn
        have hmem : c1.toTrie.first ∈ (branch q c0 c1).toTrie :=
          Trie.mem_node.mpr (Or.inr c1.toTrie.first_mem)
        exact .whole hlt hturn hall (by simp [toTrie]) _
          ((congrArg (· ∈ (branch q c0 c1).toTrie) heq).mpr hmem)
      | some b =>
        cases b with
        | false => exact .next hlt hturn _ (h1 hturn).1 (h1 hturn).2
        | true => exact .back hlt hturn _ (h2 hturn).1 (h2 hturn).2

theorem WellFormed.rangeStop_mark {top : Node E H} (h : top.WellFormed) (last : E) :
    Trie.StopMark ptrBits (elemBits last) top.toTrie (top.rangeStop (keyBytes last)) := by
  rw [rangeStop]
  simp only [walkTreeForBestMember_elem h.masks]
  obtain ⟨hc, heq⟩ | ⟨c, hc, hm, hs, ⟨hd, hlt, hbit⟩ | ⟨hd, hlt, -⟩⟩ :=
    criticalBit_cases (top.toTrie.walk (elemBits last)).val last
  · simp only [hc]
    exact .found heq.le
  · simp only [hc, hd, if_true]
    cases top with
    | leaf x => exact .whole hlt rfl fun a ha => Trie.mem_leaf.mp ha ▸ hlt
    | branch q c0 c1 =>
      obtain ⟨q', d0, d1, hpar, -, hlast⟩ := hypotheticalParent_branch (keyBytes last)
        c.newbyte hm h.masks q c0 c1
      obtain ⟨h0, h1, h2⟩ := h.ordered.atParent_left hs.symm hbit c0.toTrie.last
      have hend : d0.endLeaf = _ := (endLeaf_eq d0).trans hlast
      simp only [hpar, hend]
      cases hturn : (branch q c0 c1).toTrie.turn ptrBits (elemBits last) with
      | none =>
        obtain ⟨hall, heq⟩ := h0 hturn
        exact (congrArg (Trie.StopMark ptrBits (elemBits last) (branch q c0 c1).toTrie) heq).mpr
          (.whole hlt hturn hall)
      | some b =>
        cases b with
        | true => exact .prev hlt hturn _ (h1 hturn).1 (h1 hturn).2
        | false =>
          exact (congrArg (Trie.StopMark ptrBits (elemBits last) (branch q c0 c1).toTrie)
            (h2 hturn)).mpr (.back hlt hturn)
  · simp only [hc, hd, Bool.false_eq_true, if_false]
    exact .found hlt.le

/-- Leaves are told apart by their addresses, as they are by their keys. -/
theorem WellFormed.addr_eq_iff {n : Node E H} (h : n.WellFormed) {x y : ValPtr E} (hx : x ∈ n)
    (hy : y ∈ n) : (x.addr == y.addr) = true ↔ ptrBits x = ptrBits y := by
  rw [beq_iff_eq]
  constructor
  · intro he
    rw [List.inj_on_of_nodup_map (n.leaves_addrs_sublist.nodup h.nodup) hx hy he]
  · intro he
    rw [h.ordered.eq_of_bits hx hy he]

end Node

namespace CritbitTree

variable {E H : Type} [CritbitElemOps E] [CritbitExt E H] {t : CritbitTree E H}

/-- `enumerate` calls its function on the members from `first` to `last`, in ascending
order and up to the first call that returns false. -/
def EnumeratesRange (t : CritbitTree E H) (first last : E) : Prop :=
  ∃ xs : List (ValPtr E), (xs.Pairwise fun a b => keyBytes a.val < keyBytes b.val) ∧
    (∀ x, x ∈ xs ↔ x ∈ t ∧ keyBytes first ≤ keyBytes x.val ∧ keyBytes x.val ≤ keyBytes last) ∧
    ∀ (σ : Type) (visit : E → σ → σ × Bool) (s : σ),
      t.enumerate visit first last s = feed visit (xs.map ValPtr.val) s

/-- The same with the byte counters of the source. -/
def EnumeratesRange32 (t : CritbitTree E H) (first last : E) : Prop :=
  ∃ xs : List (ValPtr E), (xs.Pairwise fun a b => keyBytes a.val < keyBytes b.val) ∧
    (∀ x, x ∈ xs ↔ x ∈ t ∧ keyBytes first ≤ keyBytes x.val ∧ keyBytes x.val ≤ keyBytes last) ∧
    ∀ (σ : Type) (visit : E → σ → σ × Bool) (s : σ),
      t.enumerate32 visit first last s = some (feed visit (xs.map ValPtr.val) s)

theorem enumeratesRange32_iff (h : t.Valid) (hmembers : ∀ x ∈ t, Short x.val) {first last : E}
    (hfirst : Short first) (hlast : Short last) :
    t.EnumeratesRange32 first last ↔ t.EnumeratesRange first last := by
  simp only [EnumeratesRange32, EnumeratesRange,
    enumerate32_eq h hmembers hfirst hlast, Option.some_inj]

/-- The comparison that excludes the last leaf. -/
def Excludes (last x : E) : Prop :=
  strnncmp (keyBytes x) (keyBytes x).length (keyBytes last) (keyBytes last).length = .gt

instance (last x : E) : Decidable (Excludes last x) :=
  inferInstanceAs (Decidable (strnncmp _ _ _ _ = .gt))

/-- A member that the traversal of the subtree comes by between its two marks. -/
def Visits (t : CritbitTree E H) (first last : E) (x : ValPtr E) : Prop :=
  ∃ top, t.rangeTop first last = some top ∧ x ∈ top ∧
    ∃ start, top.rangeStart (keyBytes first) = some start ∧
      Scan.Between (ptrBits start) (ptrBits (top.rangeStop (keyBytes last)))
        (Excludes last (top.rangeStop (keyBytes last)).val) (ptrBits x)

/-- The calls that `enumerate` makes. -/
theorem Valid.enumerate_eq_feed (h : t.Valid) (first last : E) :
    ∃ xs : List (ValPtr E), (xs.Pairwise fun a b => ptrBits a < ptrBits b) ∧
      (∀ x, x ∈ xs ↔ t.Visits first last x) ∧
      ∀ (σ : Type) (visit : E → σ → σ × Bool) (s : σ),
        t.enumerate visit first last s = feed visit (xs.map ValPtr.val) s := by
  cases htop : t.rangeTop first last with
  | none => exact ⟨[], by simp, by simp [Visits, htop], by simp [enumerate, htop, feed]⟩
  | some top =>
    cases hstart : top.rangeStart (keyBytes first) with
    | none =>
      exact ⟨[], by simp, by simp [Visits, htop, hstart], by simp [enumerate, htop, hstart, feed]⟩
    | some start =>
      have hw := h.wellFormed_rangeTop htop
      have hs : start ∈ top := (hstart ▸ hw.rangeStart_mark first).mem
      have he : top.rangeStop (keyBytes last) ∈ top := (hw.rangeStop_mark last).mem
      refine ⟨Scan.scan (fun x => x.addr == start.addr)
        (fun x => x.addr == (top.rangeStop (keyBytes last)).addr)
        (decide (Excludes last (top.rangeStop (keyBytes last)).val)) top.leaves, ?_, ?_, ?_⟩
      · exact hw.ordered.sorted.sublist (Scan.scan_sublist _ _ _ _)
      · intro x
        simp only [Visits, htop, hstart, Option.some.injEq, exists_eq_left']
        constructor
        · intro hx
          have hxt := (Scan.scan_sublist _ _ _ _).subset hx
          refine ⟨hxt, ?_⟩
          simpa using (Scan.mem_scan_iff hw.ordered.sorted
            (fun y hy => hw.addr_eq_iff hy hs) (fun y hy => hw.addr_eq_iff hy he) hs he hxt).mp hx
        · rintro ⟨hxt, hx⟩
          exact (Scan.mem_scan_iff hw.ordered.sorted (fun y hy => hw.addr_eq_iff hy hs)
            (fun y hy => hw.addr_eq_iff hy he) hs he hxt).mpr (by simpa using hx)
      · intro σ visit s
        simp only [enumerate, htop, hstart, Node.enumerate_eq_feed]
        rfl

/-- When `enumerate` is exact on a range: `Trie.RangeExact` of the subtree of the members
with the bits that `first` and `last` share, if there are any. -/
def RangeCond (t : CritbitTree E H) (excl : E → Prop) (first last : E) : Prop :=
  ∀ root, t.root = some root →
    let top := root.descend (elemBits first) (commonBits first last)
    Agree (commonBits first last) (elemBits first) (ptrBits top.beginLeaf) →
      top.toTrie.RangeExact ptrBits (elemBits first) (elemBits last) fun x => excl x.val

theorem Valid.rangeCond_iff (h : t.Valid) {excl : E → Prop} {first last : E} :
    t.RangeCond excl first last ↔ ∀ top, t.rangeTop first last = some top →
      top.toTrie.RangeExact ptrBits (elemBits first) (elemBits last) fun x => excl x.val := by
  rw [RangeCond, h.rangeTop_eq, bitSubtree]
  cases hr : t.root with
  | none => simp
  | some root =>
    simp only [Option.some.injEq, forall_eq', Option.bind_some]
    split_ifs with hag
    · simp [hag]
    · simp [hag]

/-- The members visited are those of the range exactly under `RangeCond`. -/
theorem Valid.visits_iff (h : t.Valid) {first last : E} (hfl : elemBits first ≤ elemBits last)
    (hexcl : ∀ x ∈ t, Excludes last x.val → elemBits last < ptrBits x) :
    (∀ x ∈ t, t.Visits first last x ↔ elemBits first ≤ ptrBits x ∧ ptrBits x ≤ elemBits last) ↔
      t.RangeCond (Excludes last) first last := by
  rw [h.rangeCond_iff]
  cases htop : t.rangeTop first last with
  | none =>
    refine iff_of_true (fun x hx => ?_) (by simp)
    exact iff_of_false (by simp [Visits, htop]) (h.rangeTop_none htop hx)
  | some top =>
    have hw := h.wellFormed_rangeTop htop
    have hmem : ∀ {x}, x ∈ top → x ∈ t := fun hx => ((h.mem_rangeTop htop).mp hx).1
    simp only [Option.some.injEq, forall_eq']
    rw [← (hw.rangeStart_mark first).exact_iff hw.ordered hfl (hw.rangeStop_mark last)
      fun x hx => hexcl x (hmem hx)]
    have hvisits : ∀ x, t.Visits first last x ↔ x ∈ top ∧
        ∃ start, top.rangeStart (keyBytes first) = some start ∧
          Scan.Between (ptrBits start) (ptrBits (top.rangeStop (keyBytes last)))
            (Excludes last (top.rangeStop (keyBytes last)).val) (ptrBits x) := by
      simp [Visits, htop]
    constructor
    · intro hall x hx
      rw [← hall x (hmem hx), hvisits]
      exact (and_iff_right (show x ∈ top from hx)).symm
    · intro hall x hx
      rw [hvisits]
      by_cases hxt : x ∈ top
      · exact (and_iff_right hxt).trans (hall x hxt)
      · refine iff_of_false (fun hv => hxt hv.1) fun hr => hxt ?_
        exact (h.mem_rangeTop htop).mpr ⟨hx, agree_commonBits hr.1 hr.2⟩

theorem Valid.enumeratesRange_iff (h : t.Valid) {first last : E}
    (hfl : keyBytes first ≤ keyBytes last)
    (hexcl : ∀ x ∈ t, Excludes last x.val → keyBytes last < keyBytes x.val) :
    t.EnumeratesRange first last ↔ t.RangeCond (Excludes last) first last := by
  have hlt : ∀ x : ValPtr E, elemBits last < ptrBits x ↔ keyBytes last < keyBytes x.val :=
    fun x => elemBits_lt_iff
  have hle : ∀ x : ValPtr E, elemBits first ≤ ptrBits x ∧ ptrBits x ≤ elemBits last ↔
      keyBytes first ≤ keyBytes x.val ∧ keyBytes x.val ≤ keyBytes last :=
    fun x => and_congr elemBits_le_iff elemBits_le_iff
  rw [← h.visits_iff (elemBits_le_iff.mpr hfl) fun x hx he => (hlt x).mpr (hexcl x hx he)]
  obtain ⟨xs, hsorted, hmem, hfeed⟩ := h.enumerate_eq_feed first last
  constructor
  · rintro ⟨ys, -, hys, hfeed'⟩ x hx
    have hvals : xs.map ValPtr.val = ys.map ValPtr.val :=
      eq_of_feed fun σ visit s => (hfeed σ visit s).symm.trans (hfeed' σ visit s)
    -- a member is in a list of members when its element is among theirs
    have hval : ∀ zs : List (ValPtr E), (∀ z ∈ zs, z ∈ t) →
        (x ∈ zs ↔ x.val ∈ zs.map ValPtr.val) := by
      intro zs hzs
      refine ⟨List.mem_map_of_mem, fun hm => ?_⟩
      obtain ⟨z, hz, hzx⟩ := List.mem_map.mp hm
      rwa [← h.eq_of_keyBytes (hzs z hz) hx (congrArg keyBytes hzx)]
    have hxs : ∀ z ∈ xs, z ∈ t := by
      intro z hz
      obtain ⟨top, htop, hzt, -⟩ := (hmem z).mp hz
      exact ((h.mem_rangeTop htop).mp hzt).1
    rw [← hmem, hval xs hxs, hvals, ← hval ys fun z hz => ((hys z).mp hz).1, hys, hle,
      and_iff_right hx]
  · intro hall
    refine ⟨xs, hsorted.imp fun hab => elemBits_lt_iff.mp hab, fun x => ?_, hfeed⟩
    rw [hmem]
    constructor
    · intro hv
      have hx : x ∈ t := by
        obtain ⟨top, htop, hxt, -⟩ := hv
        exact ((h.mem_rangeTop htop).mp hxt).1
      exact ⟨hx, (hle x).mp ((hall x hx).mp hv)⟩
    · rintro ⟨hx, hr⟩
      exact (hall x hx).mpr ((hle x).mpr hr)

/-- A call that records its argument. -/
def record {E : Type} (x : E) (log : List E) : List E × Bool := (log ++ [x], true)

omit [CritbitElemOps E] in
theorem feed_record (xs log : List E) : feed record xs log = log ++ xs := by
  induction xs generalizing log with
  | nil => simp [feed]
  | cons x xs ih => simp [feed, record, ih]

/-- An exact enumeration leaves a record of the range. -/
theorem EnumeratesRange.mem_record_iff {first last e : E} (h : t.EnumeratesRange first last) :
    e ∈ t.enumerate record first last [] ↔
      ∃ x ∈ t, x.val = e ∧ keyBytes first ≤ keyBytes e ∧ keyBytes e ≤ keyBytes last := by
  obtain ⟨xs, -, hmem, hfeed⟩ := h
  rw [hfeed, feed_record, List.nil_append, List.mem_map]
  constructor
  · rintro ⟨x, hx, rfl⟩
    obtain ⟨hxt, hr⟩ := (hmem x).mp hx
    exact ⟨x, hxt, rfl, hr⟩
  · rintro ⟨x, hxt, rfl, hr⟩
    exact ⟨x, (hmem x).mpr ⟨hxt, hr⟩, rfl⟩

theorem EnumeratesRange32.mem_record_iff {first last e : E} {visited : List E}
    (h : t.EnumeratesRange32 first last)
    (hvisited : t.enumerate32 record first last [] = some visited) :
    e ∈ visited ↔
      ∃ x ∈ t, x.val = e ∧ keyBytes first ≤ keyBytes e ∧ keyBytes e ≤ keyBytes last := by
  obtain ⟨xs, -, hmem, hfeed⟩ := h
  rw [hfeed, feed_record, List.nil_append, Option.some_inj] at hvisited
  subst hvisited
  rw [List.mem_map]
  constructor
  · rintro ⟨x, hx, rfl⟩
    obtain ⟨hxt, hr⟩ := (hmem x).mp hx
    exact ⟨x, hxt, rfl, hr⟩
  · rintro ⟨x, hxt, rfl, hr⟩
    exact ⟨x, (hmem x).mpr ⟨hxt, hr⟩, rfl⟩

end CritbitTree

/-! ## Fixed-size keys -/

namespace CritbitTree

section

variable {n : ℕ} {V H : Type} [CritbitExt (CritbitMapPair n V) H]

/-- On fixed-size keys the enumeration is exact under `RangeCond`. -/
theorem enumerate_fixedKeys_iff {t : CritbitTree (CritbitMapPair n V) H} (ht : t.Reachable)
    {first last : CritbitMapPair n V} (hfl : keyBytes first ≤ keyBytes last) :
    t.EnumeratesRange first last ↔ t.RangeCond (Excludes last) first last := by
  refine ht.valid.enumeratesRange_iff hfl fun x _ hx => lt_of_strnncmp ?_ hx
  exact x.val.first.size.trans last.first.size.symm

end

/-- A record of one byte. -/
def byteKey (b : UInt8) : CritbitMapPair 1 Unit := ⟨⟨[b], rfl⟩, ()⟩

/-- A set of one-byte keys. -/
def byteTree (bs : List UInt8) : CritbitTree (CritbitMapPair 1 Unit) Unit :=
  ofList () (bs.map byteKey)

/-- From one member to the other. -/
theorem enumerate_fixedKeys_iff_bytes :
    (byteTree [0x10, 0x11]).EnumeratesRange (byteKey 0x10) (byteKey 0x11) := by
  have hroot : (byteTree [0x10, 0x11]).root =
      some (.branch ⟨2, 0, 0xFE, ()⟩ (.leaf ⟨1, byteKey 0x10⟩) (.leaf ⟨3, byteKey 0x11⟩)) := by
    decide
  refine (enumerate_fixedKeys_iff (reachable_ofList _ _) (by decide)).mpr fun root hr => ?_
  obtain rfl := Option.some.inj (hr.symm.trans hroot)
  intro top _
  have htop : top =
      .branch ⟨2, 0, 0xFE, ()⟩ (.leaf ⟨1, byteKey 0x10⟩) (.leaf ⟨3, byteKey 0x11⟩) := by
    decide
  rw [htop]
  refine ⟨fun _ => ⟨Or.inl ⟨elemBits_le_iff.mpr (by decide), by decide⟩,
    Or.inl ⟨elemBits_le_iff.mpr (by decide), Or.inl (by decide)⟩⟩, fun hnone => ?_⟩
  exact absurd ⟨⟨1, byteKey 0x10⟩, Node.mem_branch.mpr (Or.inl (Node.mem_leaf.mpr rfl)),
    elemBits_le_iff.mpr (by decide), elemBits_le_iff.mpr (by decide)⟩ hnone

/-- A member of the range is left out, and one above another range is visited. -/
theorem enumerate_bytes_wrong :
    ((byteTree [0x10, 0x11]).Reachable ∧
      (byteTree [0x10, 0x11]).enumerate record (byteKey 0x01) (byteKey 0xFF) [] =
        [byteKey 0x11] ∧
      ¬(byteTree [0x10, 0x11]).EnumeratesRange (byteKey 0x01) (byteKey 0xFF)) ∧
    ((byteTree [0x10, 0xF0]).Reachable ∧
      (byteTree [0x10, 0xF0]).enumerate record (byteKey 0x20) (byteKey 0x80) [] =
        [byteKey 0xF0] ∧
      ¬(byteTree [0x10, 0xF0]).EnumeratesRange (byteKey 0x20) (byteKey 0x80)) := by
  have hlow : (byteTree [0x10, 0x11]).enumerate record (byteKey 0x01) (byteKey 0xFF) [] =
      [byteKey 0x11] := by decide
  have hhigh : (byteTree [0x10, 0xF0]).enumerate record (byteKey 0x20) (byteKey 0x80) [] =
      [byteKey 0xF0] := by decide
  refine ⟨⟨reachable_ofList _ _, hlow, fun h => ?_⟩, ⟨reachable_ofList _ _, hhigh, fun h => ?_⟩⟩
  · have hmem := (reachable_ofList () [byteKey 0x10, byteKey 0x11]).valid.find_eq_some_iff.mp
      (show (byteTree [0x10, 0x11]).find (byteKey 0x10) = some ⟨1, byteKey 0x10⟩ by decide)
    have hin := h.mem_record_iff.mpr ⟨_, hmem.1, rfl, by decide, by decide⟩
    rw [hlow] at hin
    exact absurd hin (by decide)
  · have hin : byteKey 0xF0 ∈ [byteKey 0xF0] := by decide
    rw [← hhigh, h.mem_record_iff] at hin
    obtain ⟨x, -, -, -, hle⟩ := hin
    exact absurd hle (by decide)

section

variable {H : Type} [CritbitExt CString H]

/-- On short strings the enumeration is exact under `RangeCond`. -/
theorem enumerate_strings_iff {t : CritbitTree CString H} (ht : t.Reachable)
    (hmembers : ∀ x ∈ t, Short x.val) {first last : CString} (hfirst : Short first)
    (hlast : Short last) (hfl : keyBytes first ≤ keyBytes last) :
    t.EnumeratesRange32 first last ↔
      t.RangeCond (fun x => keyBytes last < keyBytes x) first last := by
  have hexcl : Excludes last = fun x => keyBytes last < keyBytes x := by
    funext x
    exact propext (strnncmp_eq_gt_iff x last)
  rw [← hexcl, enumeratesRange32_iff ht.valid hmembers hfirst hlast]
  exact ht.valid.enumeratesRange_iff hfl fun x _ hx => (strnncmp_eq_gt_iff x.val last).mp hx

end

/-- A set of strings. -/
def stringTree (strings : List CString) : CritbitTree CString Unit := ofList () strings

/-- The strings `1`, `2`, `10`, `11` and `12`. -/
def one : CString := ⟨[49], by decide⟩
def two : CString := ⟨[50], by decide⟩
def ten : CString := ⟨[49, 48], by decide⟩
def eleven : CString := ⟨[49, 49], by decide⟩
def twelve : CString := ⟨[49, 50], by decide⟩

/-- From `10` to `11` in the tree of the two. -/
theorem enumerate_strings_iff_ten : (stringTree [ten, eleven]).EnumeratesRange32 ten eleven := by
  have hroot : (stringTree [ten, eleven]).root =
      some (.branch ⟨2, 1, 0xFE, ()⟩ (.leaf ⟨1, ten⟩) (.leaf ⟨3, eleven⟩)) := by decide
  have hmembers : ∀ x ∈ stringTree [ten, eleven], Short x.val := short_of_mem_ofList (by decide)
  refine (enumerate_strings_iff (reachable_ofList _ _) hmembers (by decide) (by decide)
    (by decide)).mpr fun root hr => ?_
  obtain rfl := Option.some.inj (hr.symm.trans hroot)
  intro top _
  have htop : top = .branch ⟨2, 1, 0xFE, ()⟩ (.leaf ⟨1, ten⟩) (.leaf ⟨3, eleven⟩) := by decide
  rw [htop]
  refine ⟨fun _ => ⟨Or.inl ⟨elemBits_le_iff.mpr (by decide), by decide⟩,
    Or.inl ⟨elemBits_le_iff.mpr (by decide), Or.inl (by decide)⟩⟩, fun hnone => ?_⟩
  exact absurd ⟨⟨1, ten⟩, Node.mem_branch.mpr (Or.inl (Node.mem_leaf.mpr rfl)),
    elemBits_le_iff.mpr (by decide), elemBits_le_iff.mpr (by decide)⟩ hnone

/-- From `1` to `2` the string `11` is left out; from `1` to `1`, where nothing is
stored, `10` is visited. -/
theorem enumerate_strings_wrong :
    ((stringTree [ten, eleven]).Reachable ∧
      (stringTree [ten, eleven]).enumerate32 record one two [] = some [ten] ∧
      ¬(stringTree [ten, eleven]).EnumeratesRange32 one two) ∧
    ((stringTree [ten, eleven, twelve]).Reachable ∧
      (stringTree [ten, eleven, twelve]).enumerate32 record one one [] = some [ten] ∧
      ¬(stringTree [ten, eleven, twelve]).EnumeratesRange32 one one) := by
  have hlow : (stringTree [ten, eleven]).enumerate32 record one two [] = some [ten] := by decide
  have hhigh : (stringTree [ten, eleven, twelve]).enumerate32 record one one [] = some [ten] := by
    decide
  refine ⟨⟨reachable_ofList _ _, hlow, fun h => ?_⟩, ⟨reachable_ofList _ _, hhigh, fun h => ?_⟩⟩
  · have hmem := (reachable_ofList () [ten, eleven]).valid.find_eq_some_iff.mp
      (show (stringTree [ten, eleven]).find eleven = some ⟨3, eleven⟩ by decide)
    have hin := (h.mem_record_iff hlow).mpr ⟨_, hmem.1, rfl, by decide, by decide⟩
    exact absurd hin (by decide)
  · have hin : ten ∈ [ten] := by decide
    rw [h.mem_record_iff hhigh] at hin
    obtain ⟨x, -, -, -, hle⟩ := hin
    exact absurd hle (by decide)

end CritbitTree

end Turbolib
