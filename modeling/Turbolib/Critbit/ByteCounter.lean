import Turbolib.Critbit.Enumerate

/-!
# The byte counters

The loops of `critbit_tree.h` over the bytes of keys count in 32 bits up to a length of 64,
and begin again at 0 behind the last value. Here they are with these counters, and with them
the calls that have such a loop; a call is `none` when one of its loops does not end. While
keys have fewer than `2 ^ 32` bytes every loop ends, and nothing differs from the calls with
natural numbers.

## Main definitions

* `compareLoop` — the loop over two keys.
* `findCriticalBit32`, `CritbitTree.insert32`, `CritbitTree.subtree32`,
  `CritbitTree.enumerate32` — the calls.
* `Short` — an element whose key has fewer than `2 ^ 32` bytes.
-/

namespace Turbolib

open BitString

/-! ## The code -/

/-- Compare the bytes of two keys in front of `len`, in a number of rounds: the counter at the
end, and whether the bytes there differ. -/
def compareLoop (p q : List UInt8) (len : ℕ) : (rounds : ℕ) → (i : UInt32) → Option (UInt32 × Bool)
  | 0, _ => none
  | rounds + 1, i =>
    if i.toNat < len then
      if byteAt p i.toNat ≠ byteAt q i.toNat then some (i, true)
      else compareLoop p q len rounds (i + 1)
    else some (i, false)

/-- The loop in as many rounds as it takes, if it ends. -/
def compareBytes (p q : List UInt8) (len : ℕ) : Option (UInt32 × Bool) :=
  compareLoop p q len (len + 1) 0

/-- `findDifferingByte`. -/
def findDifferingByte32 (p : List UInt8) (plen : ℕ) (keybytes : List UInt8) (keylen : ℕ) :
    Option (Option (ℕ × UInt8)) :=
  (compareBytes p keybytes keylen).map fun
    | (newbyte, true) =>
      some (newbyte.toNat, byteAt p newbyte.toNat ^^^ byteAt keybytes newbyte.toNat)
    | (newbyte, false) =>
      if newbyte.toNat < plen then some (newbyte.toNat, byteAt p newbyte.toNat) else none

/-- `findCriticalBit`. -/
def findCriticalBit32 (p : List UInt8) (plen : ℕ) (keybytes : List UInt8) (keylen : ℕ) :
    Option (Option CriticalBit) :=
  (findDifferingByte32 p plen keybytes keylen).map fun d => d.map (criticalBit p)

namespace Node

variable {E H : Type}

/-- The loop of `nearest_subtree`. -/
def nearestSubtree32 (keybytes : List UInt8) (bitmask : UInt8) (keylen : ℕ) :
    Node E H → Node E H
  | leaf x => leaf x
  | branch q c0 c1 =>
    if (q.byte + 1) % 2 ^ 32 ≥ keylen ∧
        (q.byte ≥ keylen ∨ (q.otherbits ^^^ 0xFF) &&& bitmask > 0) then
      branch q c0 c1
    else if calculateDirection q.byte q.otherbits keybytes keylen then
      c1.nearestSubtree32 keybytes bitmask keylen
    else c0.nearestSubtree32 keybytes bitmask keylen

end Node

namespace CritbitTree

variable {E H : Type} [CritbitExt E H] [CritbitElemOps E]

/-- The comparison of a key with the best match for it below a node. -/
def compareBest (keybytes : List UInt8) (top : Node E H) : Option (Option CriticalBit) :=
  let p := keyBytes (top.walkTreeForBestMember keybytes keybytes.length).val
  findCriticalBit32 p p.length keybytes keybytes.length

/-- `insert(val, is_new)`. -/
def insert32 (t : CritbitTree E H) (val : E) (isNew : Bool) (mem : Memory H) :
    Option (CritbitTree E H × Option (ValPtr E) × Bool) :=
  match t.root with
  | none => t.insert val isNew mem
  | some root => (compareBest (keyBytes val) root).bind fun _ => t.insert val isNew mem

/-- The validity test of `subtree`. -/
def prefixMatches32 (keybytes leafbytes : List UInt8) (bitmask : UInt8) (keylen : ℕ) :
    Option Bool :=
  if keylen > 0 then
    (compareBytes keybytes leafbytes (keylen - 1)).map fun (_, differs) =>
      !differs &&
        (byteAt keybytes (keylen - 1) ^^^ byteAt leafbytes (keylen - 1)) &&& ~~~bitmask == 0
  else some true

/-- `subtree` with a length given. -/
def subtreeOf32 (t : CritbitTree E H) (pre : E) (bitmask : UInt8) (keylen : ℕ) :
    Option (Option (Node E H)) :=
  match t.root.map (·.nearestSubtree32 (keyBytes pre) bitmask keylen) with
  | none => some none
  | some top =>
    (prefixMatches32 (keyBytes pre) (keyBytes top.beginLeaf.val) bitmask keylen).map fun valid =>
      if valid then some top else none

/-- `subtree`. -/
def subtree32 (t : CritbitTree E H) (pre : E) (bitmask : UInt8) (keylen : ℕ) :
    Option (Option (Node E H)) :=
  t.subtreeOf32 pre bitmask (keylenOf pre keylen)

/-- The subtree that `enumerate(fun, first, last)` looks at. -/
def rangeTop32 (t : CritbitTree E H) (first last : E) : Option (Option (Node E H)) := do
  match ← findCriticalBit32 (keyBytes first) (keyBytes first).length
      (keyBytes last) (keyBytes last).length with
  | none => t.subtree32 first 0 defaultKeylen
  | some c => t.subtreeOf32 first (smear (c.newotherbits ^^^ 0xFF)) ((c.newbyte + 1) % 2 ^ 32)

/-- `enumerate(fun, first, last)`. -/
def enumerate32 {σ : Type} (t : CritbitTree E H) (visit : E → σ → σ × Bool) (first last : E)
    (s : σ) : Option σ := do
  match ← t.rangeTop32 first last with
  | none => some s
  | some top =>
    let _ ← compareBest (keyBytes first) top
    match top.rangeStart (keyBytes first) with
    | none => some s
    | some start =>
      let _ ← compareBest (keyBytes last) top
      let stop := top.rangeStop (keyBytes last)
      let excludeStop := strnncmp (keyBytes stop.val) (keyBytes stop.val).length
        (keyBytes last) (keyBytes last).length == .gt
      some (top.enumerate visit start stop excludeStop .searching s).1

end CritbitTree

/-! ## The loop -/

section

variable {p q : List UInt8} {len rounds : ℕ} {i j : UInt32} {differs : Bool}

theorem toNat_add_one (h : i.toNat + 1 < 2 ^ 32) : (i + 1).toNat = i.toNat + 1 := by
  rw [UInt32.toNat_add, UInt32.toNat_one, Nat.mod_eq_of_lt h]

/-- A loop that ends has come to the first byte that differs, or to the length. -/
theorem compareLoop_some (h : compareLoop p q len rounds i = some (j, differs))
    (hi : i.toNat ≤ len) (hsame : ∀ b < i.toNat, byteAt p b = byteAt q b) :
    (∀ b < j.toNat, byteAt p b = byteAt q b) ∧
      if differs then j.toNat < len ∧ byteAt p j.toNat ≠ byteAt q j.toNat else j.toNat = len := by
  induction rounds generalizing i with
  | zero => cases h
  | succ rounds ih =>
    rw [compareLoop] at h
    split_ifs at h with hlt hne
    · obtain ⟨rfl, rfl⟩ := Prod.mk.inj (Option.some.inj h)
      exact ⟨hsame, hlt, hne⟩
    · rw [not_not] at hne
      by_cases hwrap : i.toNat + 1 < 2 ^ 32
      · have hnext := toNat_add_one hwrap
        refine ih h (by omega) fun b hb => ?_
        rcases Nat.lt_succ_iff_lt_or_eq.mp (hnext ▸ hb) with hb | rfl
        · exact hsame b hb
        · exact hne
      · -- the counter has come around
        have hzero : (i + 1).toNat = 0 := by
          rw [UInt32.toNat_add, UInt32.toNat_one]
          have := i.toNat_lt
          omega
        exact ih h (by omega) fun b hb => by omega
    · obtain ⟨rfl, rfl⟩ := Prod.mk.inj (Option.some.inj h)
      exact ⟨hsame, by simp only [Bool.false_eq_true, if_false]; omega⟩

/-- A loop to a length of 32 bits ends. -/
theorem compareLoop_isSome (hlen : len < 2 ^ 32) (hi : len < i.toNat + rounds)
    (hle : i.toNat ≤ len) : (compareLoop p q len rounds i).isSome = true := by
  induction rounds generalizing i with
  | zero => omega
  | succ rounds ih =>
    rw [compareLoop]
    split_ifs with hlt hne
    · rfl
    · have hnext := toNat_add_one (i := i) (by omega)
      exact ih (by omega) (by omega)
    · rfl

/-- A loop over longer keys that begin with the same `2 ^ 32` bytes never ends. -/
theorem compareLoop_eq_none (hlen : 2 ^ 32 ≤ len) (hsame : ∀ b < 2 ^ 32, byteAt p b = byteAt q b)
    (rounds : ℕ) (i : UInt32) : compareLoop p q len rounds i = none := by
  induction rounds generalizing i with
  | zero => rfl
  | succ rounds ih =>
    have hi := i.toNat_lt
    rw [compareLoop, if_pos (by omega), if_neg (not_not.mpr (hsame _ hi)), ih]

/-- A loop that comes to a byte that differs ends there. -/
theorem compareLoop_isSome_of_ne {b : ℕ} (hb : b < 2 ^ 32) (hlen : b < len)
    (hne : byteAt p b ≠ byteAt q b) (hi : i.toNat ≤ b) (hrounds : b < i.toNat + rounds) :
    (compareLoop p q len rounds i).isSome = true := by
  induction rounds generalizing i with
  | zero => omega
  | succ rounds ih =>
    rw [compareLoop, if_pos (by omega)]
    split_ifs with hdiffers
    · rfl
    · have hneq : i.toNat ≠ b := by
        rintro rfl
        exact hdiffers hne
      have hnext := toNat_add_one (i := i) (by omega)
      exact ih (by omega) (by omega)

/-- The rounds given to `compareBytes` are enough: without a result there, the loop never
ends. -/
theorem compareBytes_eq_none_iff :
    compareBytes p q len = none ↔ ∀ rounds, compareLoop p q len rounds 0 = none := by
  refine ⟨fun h => ?_, fun h => h _⟩
  by_cases hlen : len < 2 ^ 32
  · have hsome : (compareLoop p q len (len + 1) 0).isSome = true :=
      compareLoop_isSome hlen (by simp) (by simp)
    rw [show compareLoop p q len (len + 1) 0 = none from h] at hsome
    cases hsome
  · refine fun rounds => compareLoop_eq_none (by omega) (fun b hb => ?_) rounds 0
    by_contra hne
    have hsome : (compareLoop p q len (len + 1) 0).isSome = true :=
      compareLoop_isSome_of_ne hb (by omega) hne (by simp) (by simp; omega)
    rw [show compareLoop p q len (len + 1) 0 = none from h] at hsome
    cases hsome

theorem exists_compareBytes (p q : List UInt8) (hlen : len < 2 ^ 32) :
    ∃ r, compareBytes p q len = some r :=
  Option.isSome_iff_exists.mp (compareLoop_isSome hlen (by simp) (by simp))

theorem compareBytes_some (h : compareBytes p q len = some (j, differs)) :
    (∀ b < j.toNat, byteAt p b = byteAt q b) ∧
      if differs then j.toNat < len ∧ byteAt p j.toNat ≠ byteAt q j.toNat else j.toNat = len :=
  compareLoop_some h (by simp) (by simp)

end

/-! ## The calls -/

section

variable {p keybytes : List UInt8} {plen keylen : ℕ}

theorem findDifferingByteFrom_skip (p : List UInt8) (plen : ℕ) {keybytes : List UInt8}
    {same left newbyte : ℕ}
    (hsame : ∀ b < newbyte + same, byteAt p b = byteAt keybytes b) :
    findDifferingByteFrom p plen keybytes (same + left) newbyte =
      findDifferingByteFrom p plen keybytes left (newbyte + same) := by
  induction same generalizing newbyte with
  | zero => simp
  | succ same ih =>
    rw [Nat.add_right_comm, findDifferingByteFrom,
      if_neg (not_not.mpr (hsame newbyte (by omega))), ih fun b hb => hsame b (by omega),
      Nat.add_right_comm, Nat.add_assoc]

/-- The comparison finds, if it ends, what it finds with natural numbers. -/
theorem findDifferingByte32_eq {d : Option (ℕ × UInt8)}
    (h : findDifferingByte32 p plen keybytes keylen = some d) :
    findDifferingByte p plen keybytes keylen = d := by
  obtain ⟨⟨newbyte, differs⟩, hcompare, rfl⟩ := Option.map_eq_some_iff.mp h
  obtain ⟨hsame, hend⟩ := compareBytes_some hcompare
  have hskip : ∀ left, findDifferingByteFrom p plen keybytes (newbyte.toNat + left) 0 =
      findDifferingByteFrom p plen keybytes left newbyte.toNat := fun left => by
    rw [findDifferingByteFrom_skip p plen (by simpa using hsame), Nat.zero_add]
  rw [findDifferingByte]
  cases differs with
  | true =>
    obtain ⟨hlt, hne⟩ : newbyte.toNat < keylen ∧ _ := hend
    obtain ⟨left, rfl⟩ := Nat.exists_eq_add_of_lt hlt
    rw [Nat.add_assoc, hskip, findDifferingByteFrom, if_pos hne]
  | false =>
    obtain rfl : newbyte.toNat = keylen := hend
    rw [← Nat.add_zero newbyte.toNat, hskip, findDifferingByteFrom]

theorem findCriticalBit32_eq {c : Option CriticalBit}
    (h : findCriticalBit32 p plen keybytes keylen = some c) :
    findCriticalBit p plen keybytes keylen = c := by
  obtain ⟨d, hd, rfl⟩ := Option.map_eq_some_iff.mp h
  rw [findCriticalBit, findDifferingByte32_eq hd]

/-- The comparison with a key of fewer than `2 ^ 32` bytes ends. -/
theorem findCriticalBit32_of_lt (p : List UInt8) (plen : ℕ) {keybytes : List UInt8}
    (hlen : keylen < 2 ^ 32) : findCriticalBit32 p plen keybytes keylen =
      some (findCriticalBit p plen keybytes keylen) := by
  obtain ⟨r, hr⟩ := exists_compareBytes p keybytes hlen
  obtain ⟨c, hc⟩ : ∃ c, findCriticalBit32 p plen keybytes keylen = some c := by
    rw [findCriticalBit32, findDifferingByte32, hr]
    exact ⟨_, rfl⟩
  rw [hc, findCriticalBit32_eq hc]

/-- A key of at least `2 ^ 32` bytes is compared with itself forever. -/
theorem findCriticalBit32_self (plen : ℕ) (hlen : 2 ^ 32 ≤ keylen) :
    findCriticalBit32 p plen p keylen = none := by
  rw [findCriticalBit32, findDifferingByte32, compareBytes,
    compareLoop_eq_none hlen fun _ _ => rfl]
  rfl

/-- A critical bit is in a byte of one of the keys. -/
theorem lt_length_of_ne {p q : List UInt8} {b : ℕ} {m : UInt8} (hm : CritMask m)
    (hne : bitsOf p (critPos b m) ≠ bitsOf q (critPos b m)) :
    b < p.length ∨ b < q.length := by
  by_contra hlong
  rw [bitsOf_critPos hm, bitsOf_critPos hm, byteAt_of_length_le (by omega),
    byteAt_of_length_le (by omega)] at hne
  exact hne rfl

end

variable {E H : Type} [CritbitElemOps E]

/-- The key has fewer than `2 ^ 32` bytes. -/
def Short (e : E) : Prop := (keyBytes e).length < 2 ^ 32

instance decidableShort (e : E) : Decidable (Short e) :=
  inferInstanceAs (Decidable ((keyBytes e).length < 2 ^ 32))

/-- A string of ones; irreducible, as no proof should write a long one out. -/
@[irreducible] def CString.ones (n : ℕ) : CString :=
  ⟨List.replicate n 1, by simp [List.mem_replicate]⟩

theorem CString.length_ones (n : ℕ) : (keyBytes (CString.ones n)).length = n := by
  rw [CString.ones]
  exact List.length_replicate

/-- Two elements whose bits split at a critical bit have it in front of their last byte. -/
theorem Short.lt_of_ne {a b : E} {byte : ℕ} {m : UInt8} (ha : Short a) (hb : Short b)
    (hm : CritMask m) (hne : elemBits a (critPos byte m) ≠ elemBits b (critPos byte m)) :
    byte + 1 < 2 ^ 32 := by
  rw [Short] at ha hb
  rcases lt_length_of_ne hm hne with h | h <;> omega

namespace Node

theorem WellFormed.nearestSubtree32_eq {n : Node E H} (h : n.WellFormed)
    (hshort : ∀ x ∈ n, Short x.val) (key : List UInt8) (bitmask : UInt8) (keylen : ℕ) :
    n.nearestSubtree32 key bitmask keylen = n.nearestSubtree key bitmask keylen := by
  induction n with
  | leaf x => rfl
  | branch q c0 c1 ih0 ih1 =>
    have hbegin0 := hshort c0.beginLeaf (mem_branch.mpr (Or.inl c0.beginLeaf_mem))
    have hbegin1 := hshort c1.beginLeaf (mem_branch.mpr (Or.inr c1.beginLeaf_mem))
    have hbyte : q.byte + 1 < 2 ^ 32 := by
      refine hbegin0.lt_of_ne hbegin1 h.masks.1 ?_
      have h0 := h.ordered.2.1 _ c0.beginLeaf_mem
      have h1 := h.ordered.2.2.1 _ c1.beginLeaf_mem
      simp only [ptrBits] at h0 h1
      rw [h0, h1]
      exact Bool.false_ne_true
    rw [nearestSubtree32, nearestSubtree, Nat.mod_eq_of_lt hbyte,
      ih0 h.child0 fun x hx => hshort x (mem_branch.mpr (Or.inl hx)),
      ih1 h.child1 fun x hx => hshort x (mem_branch.mpr (Or.inr hx))]

end Node

namespace CritbitTree

variable [CritbitExt E H] {t : CritbitTree E H}

/-- The tree of one element. -/
theorem ofList_singleton (garbage : H) (val : E) :
    ∃ addr, (ofList garbage [val] : CritbitTree E H) = ⟨some (.leaf ⟨addr, val⟩), noChanges⟩ :=
  ⟨_, rfl⟩

theorem short_of_mem_ofList {garbage : H} {vals : List E} (hvals : ∀ val ∈ vals, Short val) :
    ∀ x ∈ (ofList garbage vals : CritbitTree E H), Short x.val :=
  fun _ hx => hvals _ (val_mem_of_mem_ofList hx)

omit [CritbitExt E H] in
/-- A key of at least `2 ^ 32` bytes is compared with the same key forever. -/
theorem compareBest_self {addr : Addr} {val : E} (hlong : 2 ^ 32 ≤ (keyBytes val).length) :
    compareBest (keyBytes val) (.leaf ⟨addr, val⟩ : Node E H) = none :=
  findCriticalBit32_self _ hlong

theorem insert32_eq {val : E} (hshort : Short val) (isNew : Bool) (mem : Memory H) :
    t.insert32 val isNew mem = t.insert val isNew mem := by
  rw [insert32]
  cases t.root with
  | none => rfl
  | some root => simp only [compareBest, findCriticalBit32_of_lt _ _ hshort, Option.bind_some]

theorem prefixMatches32_eq (keybytes leafbytes : List UInt8) (bitmask : UInt8) {keylen : ℕ}
    (hlen : keylen ≤ 2 ^ 32) : prefixMatches32 keybytes leafbytes bitmask keylen =
      some (decide (prefixMatches keybytes leafbytes bitmask keylen)) := by
  rw [prefixMatches32]
  split_ifs with hpos
  · have hlast : keylen - 1 < 2 ^ 32 := by omega
    obtain ⟨⟨i, differs⟩, hr⟩ := exists_compareBytes keybytes leafbytes hlast
    obtain ⟨hsame, hend⟩ := compareBytes_some hr
    rw [hr, Option.map_some, Option.some_inj]
    cases differs with
    | true =>
      obtain ⟨hlt, hne⟩ : i.toNat < keylen - 1 ∧ _ := hend
      simpa using fun hmatches : prefixMatches _ _ _ _ => hne ((hmatches hpos).1 _ hlt)
    | false =>
      have hi : i.toNat = keylen - 1 := hend
      rw [hi] at hsame
      simpa [prefixMatches, hpos, Bool.beq_eq_decide_eq] using fun _ => hsame
  · simp [prefixMatches, hpos]

theorem subtreeOf32_eq (h : t.Valid) (hmembers : ∀ x ∈ t, Short x.val) (pre : E)
    (bitmask : UInt8) {keylen : ℕ} (hlen : keylen ≤ 2 ^ 32) :
    t.subtreeOf32 pre bitmask keylen = some (t.subtreeOf pre bitmask keylen) := by
  rw [subtreeOf32, subtreeOf]
  cases hr : t.root with
  | none => rfl
  | some root =>
    have hshort : ∀ x ∈ root, Short x.val := fun x hx => hmembers x ⟨root, hr, hx⟩
    simp only [Option.map_some, (h.wellFormed root hr).nearestSubtree32_eq hshort,
      prefixMatches32_eq _ _ _ hlen, decide_eq_true_eq]

theorem rangeTop32_eq (h : t.Valid) (hmembers : ∀ x ∈ t, Short x.val) {first last : E}
    (hfirst : Short first) (hlast : Short last) :
    t.rangeTop32 first last = some (t.rangeTop first last) := by
  rw [rangeTop32, findCriticalBit32_of_lt _ _ hlast, rangeTop, Option.bind_eq_bind,
    Option.bind_some]
  have hpq := CritbitElemOps.padded first last
  have hqp := CritbitElemOps.padded last first
  cases hc : findCriticalBit (keyBytes first) (keyBytes first).length (keyBytes last)
      (keyBytes last).length with
  | none =>
    simp only [subtree32, subtree, keylenOf, if_true]
    exact subtreeOf32_eq h hmembers first 0 hfirst.le
  | some c =>
    obtain ⟨hm, hsplit, -⟩ := findCriticalBit_some hpq hqp hc
    have hbyte := hfirst.lt_of_ne hlast hm hsplit.2
    simp only [Nat.mod_eq_of_lt hbyte]
    exact subtreeOf32_eq h hmembers first _ hbyte.le

theorem enumerate32_eq {σ : Type} (h : t.Valid) (hmembers : ∀ x ∈ t, Short x.val)
    {first last : E} (hfirst : Short first) (hlast : Short last) (visit : E → σ → σ × Bool)
    (s : σ) : t.enumerate32 visit first last s = some (t.enumerate visit first last s) := by
  rw [enumerate32, rangeTop32_eq h hmembers hfirst hlast, enumerate, Option.bind_eq_bind,
    Option.bind_some]
  cases t.rangeTop first last with
  | none => rfl
  | some top =>
    simp only [compareBest, findCriticalBit32_of_lt _ _ hfirst, findCriticalBit32_of_lt _ _ hlast]
    cases top.rangeStart (keyBytes first) <;> rfl

end CritbitTree

end Turbolib
