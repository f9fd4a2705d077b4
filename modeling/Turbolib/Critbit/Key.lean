import Turbolib.Library.BitString
import Mathlib.Data.UInt
import Mathlib.Tactic.Common

/-!
# Keys of the crit-bit tree

The tree never looks at an element itself, only at its key: `key_size` bytes
read through a `const uint8_t*`. `CritbitElemOps` is the interface the template
`critbit_elem_ops` asks for, here with the two laws its users rely on, and the
module gives the two families of keys in use: NUL-terminated C strings and the
fixed-size keys of `critbit_map`.
-/

namespace Turbolib

open BitString

/-- `key[i]`. Past the end of the key this is the terminating NUL of a C string. -/
def byteAt (key : List UInt8) (i : ℕ) : UInt8 := key.getD i 0

/-- Bit `j` of a byte, the most significant one first. -/
def msb (c : UInt8) (j : ℕ) : Bool := c.toNat.testBit (7 - j)

/-- A key read as a bit string, byte by byte and from the high bit of each. -/
def bitsOf (key : List UInt8) : BitString :=
  ofBits fun i => msb (byteAt key (i / 8)) (i % 8)

theorem byteAt_of_length_le {key : List UInt8} {i : ℕ} (h : key.length ≤ i) :
    byteAt key i = 0 := by
  simp [byteAt, List.getElem?_eq_none h]

theorem byteAt_of_lt {key : List UInt8} {i : ℕ} (h : i < key.length) :
    byteAt key i = key[i] := by
  simp [byteAt, List.getElem?_eq_getElem h]

theorem bitsOf_apply (key : List UInt8) (b j : ℕ) (hj : j < 8) :
    bitsOf key (8 * b + j) = msb (byteAt key b) j := by
  rw [bitsOf, ofBits_apply, show (8 * b + j) / 8 = b by omega, show (8 * b + j) % 8 = j by omega]

theorem eq_of_msb {c d : UInt8} (h : ∀ j < 8, msb c j = msb d j) : c = d := by
  apply UInt8.toNat_inj.mp
  apply Nat.eq_of_testBit_eq
  intro i
  by_cases hi : i < 8
  · simpa [msb, show 7 - (7 - i) = i by omega] using h (7 - i) (by omega)
  · have hc := c.toNat_lt
    have hd := d.toNat_lt
    have hp : 2 ^ 8 ≤ 2 ^ i := Nat.pow_le_pow_right (by omega) (by omega)
    rw [Nat.testBit_lt_two_pow (by omega), Nat.testBit_lt_two_pow (by omega)]

/-- Agreement on whole bytes is agreement of the bytes. -/
theorem agree_bytes {p q : List UInt8} {b : ℕ} :
    Agree (8 * b) (bitsOf p) (bitsOf q) ↔ ∀ i < b, byteAt p i = byteAt q i := by
  constructor
  · intro h i hi
    refine eq_of_msb fun j hj => ?_
    rw [← bitsOf_apply p i j hj, ← bitsOf_apply q i j hj]
    exact h _ (by omega)
  · intro h i hi
    simp only [bitsOf, ofBits_apply]
    rw [h (i / 8) (by omega)]

/-- Splitting inside byte `b` at bit `j`. -/
theorem splitAt_bytes {p q : List UInt8} {b j : ℕ} (hj : j < 8)
    (hbytes : ∀ i < b, byteAt p i = byteAt q i)
    (hbits : ∀ i < j, msb (byteAt p b) i = msb (byteAt q b) i)
    (hne : msb (byteAt p b) j ≠ msb (byteAt q b) j) :
    SplitAt (8 * b + j) (bitsOf p) (bitsOf q) := by
  constructor
  · intro i hi
    by_cases hb : i < 8 * b
    · exact agree_bytes.mpr hbytes i hb
    · obtain ⟨k, rfl⟩ : ∃ k, i = 8 * b + k := ⟨i - 8 * b, by omega⟩
      rw [bitsOf_apply _ _ _ (by omega), bitsOf_apply _ _ _ (by omega)]
      exact hbits k (by omega)
  · rwa [bitsOf_apply _ _ _ hj, bitsOf_apply _ _ _ hj]

/-- Reading `p` on past its end never hides a byte of `q`. -/
def Padded (p q : List UInt8) : Prop := ∀ i, p.length ≤ i → i < q.length → byteAt q i ≠ 0

theorem Padded.length_le {p q : List UInt8} (h : Padded p q) (hpq : bitsOf p = bitsOf q) :
    q.length ≤ p.length := by
  by_contra hlt
  have hag : Agree (8 * (p.length + 1)) (bitsOf p) (bitsOf q) := hpq ▸ Agree.refl _ _
  have hb := agree_bytes.mp hag p.length (by omega)
  rw [byteAt_of_length_le le_rfl] at hb
  exact h p.length le_rfl (by omega) hb.symm

/-- Under padding in both directions a key is determined by its bits. -/
theorem eq_of_bitsOf {p q : List UInt8} (hpq : Padded p q) (hqp : Padded q p)
    (h : bitsOf p = bitsOf q) : p = q := by
  have hlen : p.length = q.length := le_antisymm (hqp.length_le h.symm) (hpq.length_le h)
  refine List.ext_getElem hlen fun i hi hi' => ?_
  have hag : Agree (8 * (i + 1)) (bitsOf p) (bitsOf q) := h ▸ Agree.refl _ _
  simpa only [byteAt_of_lt hi, byteAt_of_lt hi'] using agree_bytes.mp hag i (by omega)

/-- `critbit_elem_ops<ValType>`: the key bytes of an element and the comparison
of elements. Copying an element (`downcast`, `construct`) is the identity here.

The laws are what every element type of the program satisfies: two elements are
equal when their keys are, and keys of different lengths are told apart by
their bytes padded with zeros. -/
class CritbitElemOps (E : Type) where
  keyBytes : E → List UInt8
  equals : E → E → Bool
  equals_iff : ∀ a b, equals a b = true ↔ keyBytes a = keyBytes b
  padded : ∀ a b, Padded (keyBytes a) (keyBytes b)

export CritbitElemOps (keyBytes equals)

section

variable {E : Type} [CritbitElemOps E]

/-- The bits an element is filed under. -/
def elemBits (e : E) : BitString := bitsOf (keyBytes e)

theorem keyBytes_eq_iff {a b : E} : keyBytes a = keyBytes b ↔ elemBits a = elemBits b := by
  constructor
  · intro h
    rw [elemBits, elemBits, h]
  · exact eq_of_bitsOf (CritbitElemOps.padded a b) (CritbitElemOps.padded b a)

end

/-- `char*`: the bytes before the terminating NUL. -/
structure CString where
  bytes : List UInt8
  nul_free : (0 : UInt8) ∉ bytes
deriving DecidableEq

theorem CString.byteAt_ne_zero (s : CString) {i : ℕ} (hi : i < s.bytes.length) :
    byteAt s.bytes i ≠ 0 := by
  rw [byteAt_of_lt hi]
  exact fun h => s.nul_free (h ▸ List.getElem_mem hi)

/-- `critbit_elem_ops<char>`: the key is the string, compared with `strcmp`. -/
instance : CritbitElemOps CString where
  keyBytes s := s.bytes
  equals a b := a.bytes == b.bytes
  equals_iff a b := by simp
  padded _ b _ _ hi := b.byteAt_ne_zero hi

/-- A key object of `n` bytes, as it lies in memory. -/
structure FixedKey (n : ℕ) where
  bytes : List UInt8
  size : bytes.length = n
deriving DecidableEq

/-- `KeyType(0)`. -/
def FixedKey.zero (n : ℕ) : FixedKey n := ⟨List.replicate n 0, by simp⟩

/-- `critbit_map_pair<Key, Value>`. -/
structure CritbitMapPair (n : ℕ) (V : Type) where
  first : FixedKey n
  second : V
deriving DecidableEq

/-- The pair made from a key alone, with a default value. -/
def CritbitMapPair.ofKey {n : ℕ} {V : Type} [Inhabited V] (key : FixedKey n) :
    CritbitMapPair n V := ⟨key, default⟩

/-- `key_size()` is `sizeof(Key)`; two pairs are equal when their keys are. -/
instance {n : ℕ} {V : Type} : CritbitElemOps (CritbitMapPair n V) where
  keyBytes e := e.first.bytes
  equals a b := a.first == b.first
  equals_iff a b := by
    rw [beq_iff_eq, FixedKey.mk.injEq]
  padded a b i hi hi' := by
    have ha := a.first.size
    have hb := b.first.size
    omega

end Turbolib
