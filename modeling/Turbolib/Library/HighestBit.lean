import Mathlib.Data.Nat.Bitwise

/-!
# The highest set bit

The place of the highest set bit of a bit vector, which is 0 for zero and for one.
-/

namespace Turbolib

variable {w : ℕ} {d : BitVec w} {i j : ℕ}

/-- Bit `i` is the highest set bit of `d`; 0 stands in where no bit is set. -/
def HighestBit (d : BitVec w) (i : ℕ) : Prop :=
  (d = 0#w ∧ i = 0) ∨ (d.getLsbD i = true ∧ ∀ j, i < j → d.getLsbD j = false)

theorem HighestBit.unique (hi : HighestBit d i) (hj : HighestBit d j) : i = j := by
  obtain ⟨hd, rfl⟩ | ⟨hi, hi'⟩ := hi <;> obtain ⟨hd', rfl⟩ | ⟨hj, hj'⟩ := hj
  · rfl
  · simp [hd] at hj
  · simp [hd'] at hi
  · obtain hlt | heq | hgt := Nat.lt_trichotomy i j
    · simp [hi' j hlt] at hj
    · exact heq
    · simp [hj' i hgt] at hi

theorem HighestBit.lt (hi : HighestBit d i) (hw : 0 < w) : i < w := by
  obtain ⟨-, rfl⟩ | ⟨hi, -⟩ := hi
  · exact hw
  · exact BitVec.lt_of_getLsbD hi

theorem highestBit_log2 (d : BitVec w) : HighestBit d d.toNat.log2 := by
  by_cases hd : d = 0#w
  · exact Or.inl ⟨hd, by simp [hd]⟩
  · have hnat : d.toNat ≠ 0 := fun h => hd (BitVec.eq_of_toNat_eq (by simpa using h))
    refine Or.inr ⟨Nat.testBit_log2 hnat, fun j hj => ?_⟩
    have hlt : d.toNat < 2 ^ j :=
      Nat.lt_log2_self.trans_le (Nat.pow_le_pow_right (by decide) hj)
    exact Nat.testBit_lt_two_pow hlt

theorem highestBit_iff : HighestBit d i ↔ i = d.toNat.log2 :=
  ⟨fun hi => hi.unique (highestBit_log2 d), fun hi => hi ▸ highestBit_log2 d⟩

theorem toNat_half (d : BitVec w) : (d >>> 1).toNat = d.toNat / 2 := by
  simp [Nat.shiftRight_one]

theorem half_eq_zero_iff : d >>> 1 = 0#w ↔ d.toNat < 2 := by
  rw [← BitVec.toNat_inj, toNat_half, BitVec.toNat_ofNat, Nat.zero_mod]
  omega

end Turbolib
