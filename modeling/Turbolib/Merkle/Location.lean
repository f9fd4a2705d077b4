import Turbolib.Merkle.Hashes

/-!
# Locations

What `keybits`, `nearest_subtree`, `top` and `diff` compute, in terms of bit
positions: a location stands for the subtree that `Node.descend` reaches with
its key and its number of bits.
-/

namespace Turbolib

open BitString

/-! ## Numbers of key bits -/

theorem multiplyDeBruijn_critMask : ∀ j < 8,
    multiplyDeBruijnBitPosition.getD
      (((((critMask j ^^^ 0xFF).toUInt32 &&& -(critMask j ^^^ 0xFF).toUInt32) * 0x077CB531) >>>
        27).toNat) 0 = 7 - j := by decide

theorem uint16_ofNat_succ_sub_one (a : ℕ) : UInt16.ofNat (a + 1) - 1 = UInt16.ofNat a := by
  rw [UInt16.ofNat_add, show UInt16.ofNat 1 = 1 from rfl, UInt16.add_sub_cancel]

/-- The number of bits in front of the critical bit, as far as 16 bits hold it. -/
theorem Branch.keybits_eq {H : Type} {q : Branch H} (h : CritMask q.otherbits) :
    q.keybits = UInt16.ofNat (critPos q.byte q.otherbits) := by
  have hj := h.bitIndex_lt
  have ht := multiplyDeBruijn_critMask _ hj
  rw [← h.eq_critMask] at ht
  have hbits : q.byte * 8 + 8 - (7 - bitIndex q.otherbits) =
      8 * q.byte + bitIndex q.otherbits + 1 := by omega
  rw [Branch.keybits, Turbolib.keybits, ht, critPos, hbits, uint16_ofNat_succ_sub_one]

theorem Branch.keybits_toNat {H : Type} {q : Branch H} (h : CritMask q.otherbits) :
    q.keybits.toNat = critPos q.byte q.otherbits % 2 ^ 16 := by
  rw [Branch.keybits_eq h, UInt16.toNat_ofNat']

namespace MerkleTree

theorem keybits_mod (keybits : UInt16) : keybits % 8 = UInt16.ofNat (keybits.toNat % 8) := by
  apply UInt16.toNat_inj.mp
  rw [UInt16.toNat_mod, UInt16.toNat_ofNat']
  change keybits.toNat % 8 = _
  omega

/-- How many low bits of the last byte a number of key bits leaves out. -/
def bitsLeft (keybits : UInt16) : ℕ := if keybits.toNat % 8 ≠ 0 then 8 - keybits.toNat % 8 else 0

theorem bitsLeft_lt (keybits : UInt16) : bitsLeft keybits < 9 := by
  unfold bitsLeft
  split <;> omega

theorem bitmask_table : ∀ r < 8,
    (if UInt16.ofNat r ≠ 0 then (1 <<< (8 - (UInt16.ofNat r).toUInt8)) - 1 else 0 : UInt8) =
      Node.lowMask (if r ≠ 0 then 8 - r else 0) := by decide

theorem bitmaskOf_eq (keybits : UInt16) : bitmaskOf keybits = Node.lowMask (bitsLeft keybits) := by
  rw [bitmaskOf, keybits_mod, bitsLeft]
  exact bitmask_table _ (by omega)

theorem keylenOf_eq (keybits : UInt16) :
    8 * keylenOf keybits = keybits.toNat + bitsLeft keybits := by
  have h : keybits % 8 ≠ 0 ↔ keybits.toNat % 8 ≠ 0 := by
    rw [ne_eq, ne_eq, ← UInt16.toNat_inj, UInt16.toNat_mod]
    rfl
  simp only [keylenOf, bitsLeft, h]
  split_ifs <;> omega

end MerkleTree

/-! ## The functions -/

namespace Node

variable {n : ℕ} {H V : Type} [DecidableEq H]

/-- What `diff` answers at a node. -/
inductive DiffCase (p : Location n H) (m : Node (Record n H V) H) : DiffResult n H → Prop where
  | same (hh : p.hash = m.getHash) : DiffCase p m ⟨[], false⟩
  | leaf (x : ValPtr (Record n H V)) (hm : m = .leaf x) (hh : p.hash ≠ leafHash x) :
      DiffCase p m ⟨[.ofKey (leafHash x) x.val.first],
        x.val.first ≠ p.key ∨ Location.maxKeybits n ≠ p.keybits⟩
  | missing (q : Branch H) (c0 c1 : Node (Record n H V) H) (hm : m = .branch q c0 c1)
      (hh : p.hash ≠ q.hash) (hlt : p.keybits < q.keybits) :
      DiffCase p m ⟨[⟨q.hash, m.beginLeaf.val.first, q.keybits⟩], true⟩
  | children (q : Branch H) (c0 c1 : Node (Record n H V) H) (hm : m = .branch q c0 c1)
      (hh : p.hash ≠ q.hash) (hle : q.keybits ≤ p.keybits) :
      DiffCase p m ⟨[c0.getPoint c0.beginLeaf.val.first, c1.getPoint c1.beginLeaf.val.first,
        p.copy q.hash], false⟩

theorem diff_cases (p : Location n H) (m : Node (Record n H V) H) : DiffCase p m (m.diff p) := by
  unfold diff
  split_ifs with hh
  · exact .same hh
  · cases m with
    | leaf x => exact .leaf x rfl hh
    | branch q c0 c1 =>
      dsimp only
      split_ifs with hlt
      · exact .missing q c0 c1 rfl hh hlt
      · exact .children q c0 c1 rfl hh (UInt16.not_lt.mp hlt)

end Node

namespace MerkleTree

variable {n : ℕ} {H V : Type} [HashType H] [Inhabited V] {t : MerkleTree n H V}

theorem nearestSubtree_eq (h : t.Valid) (key : FixedKey n) (keybits : UInt16) :
    t.nearestSubtree key keybits =
      t.root.map fun root => root.descend (bitsOf key.bytes) keybits.toNat := by
  have hlen := keylenOf_eq keybits
  have hlt := keybits.toNat_lt
  have hleft := bitsLeft_lt keybits
  rw [nearestSubtree, CritbitTree.nearestSubtree, CritbitTree.keylenOf, if_neg]
  · cases hr : t.root with
    | none => rfl
    | some root =>
      rw [Option.map_some, Option.map_some, bitmaskOf_eq,
        Node.nearestSubtree_eq (h.wellFormed root hr).masks _ hleft]
      congr 2
      omega
  · unfold CritbitTree.defaultKeylen
    omega

theorem top_eq (h : t.Valid) {root : Node (Record n H V) H} (hr : t.root = some root) :
    t.top = root.getPoint (.zero n) := by
  rw [top, nearestSubtree_eq h, hr]
  change (root.descend _ 0).getPoint _ = _
  rw [Node.descend_of_le_pos fun q c0 c1 _ => Nat.zero_le _]

variable [DecidableEq H]

theorem diff_of_empty (hr : t.root = none) (p : Location n H) : t.diff p = ⟨[.null], true⟩ := by
  rw [diff, if_pos (by simp [CritbitTree.isEmpty, hr])]

/-- `diff` compares the point with the node its key and bits lead to. -/
theorem diff_eq (h : t.Valid) {root : Node (Record n H V) H} (hr : t.root = some root)
    (p : Location n H) :
    t.diff p = (root.descend (bitsOf p.key.bytes) p.keybits.toNat).diff p := by
  rw [diff, if_neg (by simp [CritbitTree.isEmpty, hr]), nearestSubtree_eq h, hr]
  rfl

end MerkleTree

end Turbolib
