import Turbolib.Serialize.Base64Coding

/-!
# The order of encoded texts

The alphabet is ascending, so that encoding keeps the order of texts of one length. Their
bits are in the same order whether they are cut into bytes or into sextets, and both ends
are filled up alike.

## Main results

* `lex_bitsOf_iff` — texts of one length are in the order of their bits.
* `encode_lt_encode_iff` — texts of one length are in the order of their encodings.
-/

namespace Turbolib

namespace Base64

open BitGroups

variable {x y : Text} {d e : UInt8}

/-! ## Characters -/

theorem char_inj (hd : d.toNat < 64) (he : e.toNat < 64) (h : char d = char e) : d = e := by
  rw [← charFind_char hd, h, charFind_char he]

theorem char_lt_char_iff (hd : d.toNat < 64) (he : e.toNat < 64) :
    char d < char e ↔ d < e := by
  refine ⟨fun hlt => ?_, char_lt_char he⟩
  obtain hbefore | heq | hbehind := Nat.lt_trichotomy d.toNat e.toNat
  · exact UInt8.lt_iff_toNat_lt.mpr hbefore
  · rw [UInt8.toNat_inj.mp heq] at hlt
    exact absurd hlt (UInt8.lt_irrefl _)
  · exact absurd hlt (UInt8.lt_asymm (char_lt_char hd (UInt8.lt_iff_toNat_lt.mpr hbehind)))

/-! ## Texts -/

theorem missing_eq (hlength : x.length = y.length) : missing x = missing y := by
  rw [missing, missing, hlength]

theorem length_digits_eq (hlength : x.length = y.length) :
    (digits x).length = (digits y).length := by
  have hx := length_digits x
  have hy := length_digits y
  rw [hlength, missing_eq hlength] at hx
  omega

theorem length_bitsOf (w : ℕ) (s : Text) : (bitsOf w s).length = s.length * w := by
  rw [bitsOf, length_flatMap_bits, List.length_map]

/-- Texts of one length are in the order of their bits. -/
theorem lex_bitsOf_iff {w : ℕ} (hlength : x.length = y.length)
    (hx : ∀ d ∈ x, d.toNat < 2 ^ w) (hy : ∀ d ∈ y, d.toNat < 2 ^ w) :
    List.Lex Below (bitsOf w x) (bitsOf w y) ↔ x < y := by
  have hmap : List.Lex (· < ·) (x.map UInt8.toNat) (y.map UInt8.toNat) ↔ x < y := by
    refine map_lex_map_iff (p := fun _ => True) (fun a b _ _ => ?_) (by simp) (by simp)
    exact ⟨UInt8.lt_iff_toNat_lt.symm, UInt8.toNat_inj.mp⟩
  rw [bitsOf, bitsOf, ← hmap]
  exact flatMap_bits_lex_iff (by simpa using hlength) (by simpa using hx) (by simpa using hy)

/-- Cutting into sextets keeps the order: zeros fill both ends up alike. -/
theorem digits_lt_digits_iff (hlength : x.length = y.length) : digits x < digits y ↔ x < y := by
  have hbits : (bitsOf 8 x).length = (bitsOf 8 y).length := by
    rw [length_bitsOf, length_bitsOf, hlength]
  calc digits x < digits y
      ↔ List.Lex Below (bitsOf 6 (digits x)) (bitsOf 6 (digits y)) :=
        (lex_bitsOf_iff (length_digits_eq hlength) (digits_lt x) (digits_lt y)).symm
    _ ↔ List.Lex Below (bitsOf 8 x) (bitsOf 8 y) := by
        rw [bitsOf_digits, bitsOf_digits, missing_eq hlength]
        exact append_lex_append_same_iff (by simp [Below]) hbits _
    _ ↔ x < y := lex_bitsOf_iff hlength (fun d _ => d.toNat_lt) (fun d _ => d.toNat_lt)

/-- Encoding keeps the order of texts of one length. -/
theorem encode_lt_encode_iff (x y : Text) (hlength : x.length = y.length)
    (hx : x.length < 2 ^ 31) : x < y ↔ encode x < encode y := by
  have hx : x.length < 2 ^ 32 := hx.trans (by decide)
  have hchars : ((digits x).map char).length = ((digits y).map char).length := by
    rw [List.length_map, List.length_map, length_digits_eq hlength]
  calc x < y
      ↔ digits x < digits y := (digits_lt_digits_iff hlength).symm
    _ ↔ (digits x).map char < (digits y).map char := by
        refine (map_lex_map_iff (fun d e hd he => ?_) (digits_lt x) (digits_lt y)).symm
        exact ⟨char_lt_char_iff hd he, char_inj hd he⟩
    _ ↔ encode x < encode y := by
        rw [encode_eq hx, encode_eq (hlength ▸ hx), missing_eq hlength]
        exact (append_lex_append_same_iff UInt8.lt_irrefl hchars _).symm

/-- Two texts that differ in their last group. -/
theorem encode_lt_encode_witness :
    ascii "ab!y" < ascii "ab!z" ↔ encode (ascii "ab!y") < encode (ascii "ab!z") :=
  encode_lt_encode_iff (ascii "ab!y") (ascii "ab!z") (by decide) (by decide)

end Base64

end Turbolib
