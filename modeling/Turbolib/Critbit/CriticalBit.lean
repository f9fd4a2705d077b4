import Turbolib.Critbit.Key
import Turbolib.Library.Text
import Mathlib.Tactic.IntervalCases

/-!
# Critical bits

A branch names its critical bit by the byte it is in and by `otherbits`, the
complement of that bit's mask. The definitions follow `critbit_tree.h`; the
lemmas restate them over bit strings: the direction taken at a branch is the
key's bit at `critPos`, and `findCriticalBit` reports the position at which two
keys split.

`byte` and the loop counters over key bytes are `uint32_t` in the source and
natural numbers here, which is the same for keys of fewer than `2 ^ 32` bytes;
`Critbit.ByteCounter` has the loops with the counters of the source.
-/

namespace Turbolib

open BitString

/-! ## The code -/

/-- `direction(bits, c)`: one iff the byte has every bit that `bits` lacks. -/
def direction (bits c : UInt8) : Bool := (1 + (bits ||| c).toNat) >>> 8 == 1

/-- `calculateDirection(branch, keybytes, keylen)`. -/
def calculateDirection (byte : ℕ) (otherbits : UInt8) (keybytes : List UInt8) (keylen : ℕ) :
    Bool :=
  let c := if byte < keylen then byteAt keybytes byte else 0
  direction otherbits c

/-- The loop of `findDifferingByte`, with `left` bytes of the key still to compare. -/
def findDifferingByteFrom (p : List UInt8) (plen : ℕ) (keybytes : List UInt8) :
    (left newbyte : ℕ) → Option (ℕ × UInt8)
  | 0, newbyte => if newbyte < plen then some (newbyte, byteAt p newbyte) else none
  | left + 1, newbyte =>
    if byteAt p newbyte ≠ byteAt keybytes newbyte then
      some (newbyte, byteAt p newbyte ^^^ byteAt keybytes newbyte)
    else findDifferingByteFrom p plen keybytes left (newbyte + 1)

/-- `findDifferingByte`: `newbyte` and `newotherbits`, if the keys differ. -/
def findDifferingByte (p : List UInt8) (plen : ℕ) (keybytes : List UInt8) (keylen : ℕ) :
    Option (ℕ × UInt8) :=
  findDifferingByteFrom p plen keybytes keylen 0

/-- What `findCriticalBit` writes to its three out parameters. -/
structure CriticalBit where
  newbyte : ℕ
  newotherbits : UInt8
  newdirection : Bool
deriving DecidableEq

/-- `newotherbits |= newotherbits >> 1` and so on: every bit from the highest set one down. -/
def smear (x : UInt8) : UInt8 :=
  let x := x ||| (x >>> 1)
  let x := x ||| (x >>> 2)
  x ||| (x >>> 4)

/-- `findCriticalBit` from "find differing bit" on. The masks are `uint32_t` in the source, but
never leave the low byte. -/
def criticalBit (p : List UInt8) : ℕ × UInt8 → CriticalBit
  | (newbyte, newotherbits) =>
    let newotherbits := smear newotherbits
    let newotherbits := (newotherbits &&& ~~~(newotherbits >>> 1)) ^^^ 0xFF
    let c := byteAt p newbyte
    ⟨newbyte, newotherbits, direction newotherbits c⟩

/-- `findCriticalBit`. -/
def findCriticalBit (p : List UInt8) (plen : ℕ) (keybytes : List UInt8) (keylen : ℕ) :
    Option CriticalBit :=
  (findDifferingByte p plen keybytes keylen).map (criticalBit p)

/-! ## Masks with one critical bit -/

/-- The value of `otherbits` for bit `j`, counted from the high end. -/
def critMask (j : ℕ) : UInt8 := UInt8.ofNat (255 - 2 ^ (7 - j))

/-- `otherbits` lacks exactly one bit. -/
def CritMask (otherbits : UInt8) : Prop := ∃ j < 8, otherbits = critMask j

instance : DecidablePred CritMask :=
  fun m => inferInstanceAs (Decidable (∃ j < 8, m = critMask j))

/-- Which bit `otherbits` lacks, counted from the high end. -/
def bitIndex (otherbits : UInt8) : ℕ := 7 - Nat.log2 (255 - otherbits.toNat)

/-- The position of the critical bit among all bits of a key. -/
def critPos (byte : ℕ) (otherbits : UInt8) : ℕ := 8 * byte + bitIndex otherbits

theorem bitIndex_critMask : ∀ j < 8, bitIndex (critMask j) = j := by decide

theorem CritMask.bitIndex_lt {m : UInt8} (h : CritMask m) : bitIndex m < 8 := by
  obtain ⟨j, hj, rfl⟩ := h
  rwa [bitIndex_critMask j hj]

theorem CritMask.eq_critMask {m : UInt8} (h : CritMask m) : m = critMask (bitIndex m) := by
  obtain ⟨j, hj, rfl⟩ := h
  rw [bitIndex_critMask j hj]

theorem direction_critMask (j : ℕ) (hj : j < 8) (c : UInt8) :
    direction (critMask j) c = msb c j := by
  revert j
  exact forall_uint8 (P := fun c => ∀ j < 8, direction (critMask j) c = msb c j)
    (by decide +kernel) c

/-- `uint8_t` masks compare as the bits they stand for. -/
theorem critMask_lt : ∀ i < 8, ∀ j < 8, critMask i < critMask j ↔ i < j := by decide

theorem direction_eq {m : UInt8} (h : CritMask m) (c : UInt8) :
    direction m c = msb c (bitIndex m) := by
  have := direction_critMask (bitIndex m) h.bitIndex_lt c
  rwa [← h.eq_critMask] at this

/-- The order of branches: by byte, and inside a byte by `otherbits`. -/
theorem critPos_lt_iff {b c : ℕ} {m m' : UInt8} (h : CritMask m) (h' : CritMask m') :
    critPos b m < critPos c m' ↔ b < c ∨ b = c ∧ m < m' := by
  have hlt := h.bitIndex_lt
  have hlt' := h'.bitIndex_lt
  have hm : m < m' ↔ bitIndex m < bitIndex m' := by
    conv_lhs => rw [h.eq_critMask, h'.eq_critMask]
    exact critMask_lt _ hlt _ hlt'
  rw [hm, critPos, critPos]
  omega

theorem critPos_inj {b b' : ℕ} {m m' : UInt8} (h : CritMask m) (h' : CritMask m')
    (hp : critPos b m = critPos b' m') : b = b' ∧ m = m' := by
  have hlt := h.bitIndex_lt
  have hlt' := h'.bitIndex_lt
  unfold critPos at hp
  have hi : bitIndex m = bitIndex m' := by omega
  refine ⟨by omega, ?_⟩
  rw [h.eq_critMask, h'.eq_critMask, hi]

/-! ## Directions and differences over bit strings -/

theorem bitsOf_critPos {m : UInt8} (h : CritMask m) (key : List UInt8) (b : ℕ) :
    bitsOf key (critPos b m) = msb (byteAt key b) (bitIndex m) :=
  bitsOf_apply key b _ h.bitIndex_lt

/-- At a branch inside the length given, the walk takes the key's bit. -/
theorem calculateDirection_of_lt {m : UInt8} (h : CritMask m) {key : List UInt8} {b keylen : ℕ}
    (hb : b < keylen) : calculateDirection b m key keylen = bitsOf key (critPos b m) := by
  rw [calculateDirection, if_pos hb, direction_eq h, bitsOf_critPos h]

/-- With the key's own length the walk takes the key's bit at every branch. -/
theorem calculateDirection_eq {m : UInt8} (h : CritMask m) (key : List UInt8) (b : ℕ) :
    calculateDirection b m key key.length = bitsOf key (critPos b m) := by
  by_cases hb : b < key.length
  · exact calculateDirection_of_lt h hb
  · rw [calculateDirection, if_neg hb, direction_eq h, bitsOf_critPos h,
      byteAt_of_length_le (by omega)]

/-- The critical bit of a nonzero difference: the mask of its highest bit. -/
theorem critMask_smear (x : UInt8) (hx : x ≠ 0) :
    let m := (smear x &&& ~~~(smear x >>> 1)) ^^^ 0xFF
    CritMask m ∧ msb x (bitIndex m) = true ∧ ∀ i < bitIndex m, msb x i = false := by
  revert hx
  exact forall_uint8 (P := fun x => x ≠ 0 →
    CritMask ((smear x &&& ~~~(smear x >>> 1)) ^^^ 0xFF) ∧
      msb x (bitIndex ((smear x &&& ~~~(smear x >>> 1)) ^^^ 0xFF)) = true ∧
        ∀ i < bitIndex ((smear x &&& ~~~(smear x >>> 1)) ^^^ 0xFF), msb x i = false)
    (by decide +kernel) x

theorem msb_xor (c d : UInt8) (j : ℕ) : msb (c ^^^ d) j = (msb c j ^^ msb d j) := by
  simp [msb, Nat.testBit_xor]

/-- What `findDifferingByte` reports: the first byte the keys differ in, with
the difference as a mask. -/
theorem findDifferingByteFrom_spec (p key : List UInt8) (left newbyte : ℕ)
    (hlen : newbyte + left = key.length) (hsame : ∀ i < newbyte, byteAt p i = byteAt key i) :
    match findDifferingByteFrom p p.length key left newbyte with
    | none => p.length ≤ key.length ∧ ∀ i < key.length, byteAt p i = byteAt key i
    | some (b, x) => x = byteAt p b ^^^ byteAt key b ∧
        (∀ i < b, byteAt p i = byteAt key i) ∧
        (byteAt p b ≠ byteAt key b ∨ b = key.length ∧ b < p.length) := by
  induction left generalizing newbyte with
  | zero =>
    have hn : newbyte = key.length := by omega
    subst hn
    simp only [findDifferingByteFrom]
    split_ifs with h
    · simpa [h, byteAt_of_length_le le_rfl] using hsame
    · exact ⟨by omega, hsame⟩
  | succ left ih =>
    simp only [findDifferingByteFrom]
    split_ifs with h
    · exact ⟨rfl, hsame, Or.inl h⟩
    · refine ih (newbyte + 1) (by omega) fun i hi => ?_
      rcases Nat.lt_succ_iff_lt_or_eq.mp hi with hi | rfl
      · exact hsame i hi
      · simpa using h

/-- `findCriticalBit` reports nothing for two keys with the same bits, and
otherwise the position where they split and the first key's bit there. -/
theorem findCriticalBit_spec {p key : List UInt8} (hpk : Padded p key) (hkp : Padded key p) :
    match findCriticalBit p p.length key key.length with
    | none => p = key
    | some c => CritMask c.newotherbits ∧
        SplitAt (critPos c.newbyte c.newotherbits) (bitsOf p) (bitsOf key) ∧
        c.newdirection = bitsOf p (critPos c.newbyte c.newotherbits) := by
  have hspec := findDifferingByteFrom_spec p key key.length 0 (by omega) (by omega)
  unfold findCriticalBit findDifferingByte
  cases hd : findDifferingByteFrom p p.length key key.length 0 with
  | none =>
    rw [hd] at hspec
    refine eq_of_bitsOf hpk hkp ?_
    ext i
    by_cases hi : i / 8 < key.length
    · simp only [bitsOf, ofBits_apply, hspec.2 _ hi]
    · simp only [bitsOf, ofBits_apply]
      rw [byteAt_of_length_le (by omega), byteAt_of_length_le (by omega)]
  | some d =>
    obtain ⟨b, x⟩ := d
    rw [hd] at hspec
    obtain ⟨rfl, hsame, hdiff⟩ := hspec
    have hne : byteAt p b ≠ byteAt key b := by
      rcases hdiff with h | ⟨rfl, hlt⟩
      · exact h
      · rw [byteAt_of_length_le (le_refl key.length)]
        exact hkp _ le_rfl hlt
    have hx : byteAt p b ^^^ byteAt key b ≠ 0 := by
      intro h
      exact hne (UInt8.xor_eq_zero_iff.mp h)
    obtain ⟨hm, hbit, hlow⟩ := critMask_smear _ hx
    simp only [Option.map_some, criticalBit]
    refine ⟨hm, splitAt_bytes hm.bitIndex_lt hsame ?_ ?_, ?_⟩
    · intro i hi
      have := hlow i hi
      rw [msb_xor] at this
      simpa using this
    · rw [msb_xor] at hbit
      simpa using hbit
    · rw [bitsOf_critPos hm]
      exact direction_eq hm _

theorem findCriticalBit_none_iff {p key : List UInt8} (hpk : Padded p key) (hkp : Padded key p) :
    findCriticalBit p p.length key key.length = none ↔ p = key := by
  have hspec := findCriticalBit_spec hpk hkp
  constructor
  · intro h
    rwa [h] at hspec
  · rintro rfl
    cases h : findCriticalBit p p.length p p.length with
    | none => rfl
    | some c =>
      rw [h] at hspec
      exact absurd rfl hspec.2.1.ne

theorem findCriticalBit_some {p key : List UInt8} (hpk : Padded p key) (hkp : Padded key p)
    {c : CriticalBit} (h : findCriticalBit p p.length key key.length = some c) :
    CritMask c.newotherbits ∧
      SplitAt (critPos c.newbyte c.newotherbits) (bitsOf p) (bitsOf key) ∧
      c.newdirection = bitsOf p (critPos c.newbyte c.newotherbits) := by
  have hspec := findCriticalBit_spec hpk hkp
  rwa [h] at hspec

end Turbolib
