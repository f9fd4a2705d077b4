import Mathlib.Data.List.Basic

/-!
# Texts

A `std::string` is a list of bytes. A search says where it found the byte, and `none`
stands for `npos`.

## Main definitions

* `Text` — a string of bytes.
* `Text.find`, `Text.findLast`, `Text.substr` — search for a byte, cut a piece out.
* `Text.cString` — what a function of C sees of the string.
-/

namespace Turbolib

/-- A property of bytes that holds of all 256 of them. -/
theorem forall_uint8 {P : UInt8 → Prop} (h : ∀ n < 256, P (UInt8.ofNat n)) (c : UInt8) : P c := by
  have hc := h c.toNat c.toNat_lt
  rwa [UInt8.ofNat_toNat] at hc

abbrev Text := List UInt8

/-- The bytes of a literal in ASCII. -/
def ascii (s : String) : Text := s.toList.map Char.toUInt8

def byte (c : Char) : UInt8 := c.toUInt8

/-- `isspace` in the C locale. -/
def isspace (c : UInt8) : Bool := c = 0x20 ∨ 0x09 ≤ c ∧ c ≤ 0x0D

namespace Text

variable {s a b : Text} {c : UInt8} {pos p : ℕ}

/-- The first place of the byte, from a position on. -/
def find (s : Text) (c : UInt8) (pos : ℕ := 0) : Option ℕ :=
  ((s.drop pos).idxOf? c).map (pos + ·)

/-- The last place of the byte. -/
def findLast (s : Text) (c : UInt8) : Option ℕ :=
  (s.reverse.idxOf? c).map (s.length - 1 - ·)

/-- The piece that starts at a position inside the text and has `n` bytes, or fewer where
the text ends. -/
def substr (s : Text) (pos n : ℕ) : Text := (s.drop pos).take n

/-- The string that a pointer to its bytes stands for: it ends at the first NUL. -/
def cString (s : Text) : Text := s.takeWhile (· ≠ 0)

theorem find_eq_none_iff : s.find c pos = none ↔ c ∉ s.drop pos := by
  simp [find]

/-- What a search has found: no such byte before it, and the byte itself. -/
theorem find_eq_some (h : s.find c pos = some p) :
    pos ≤ p ∧ p < s.length ∧ c ∉ s.substr pos (p - pos) ∧
      s.drop pos = s.substr pos (p - pos) ++ c :: s.drop (p + 1) := by
  obtain ⟨i, hi, rfl⟩ := Option.map_eq_some_iff.mp h
  obtain ⟨hlt, hget, hbefore⟩ := List.idxOf?_eq_some_iff.mp hi
  rw [List.length_drop] at hlt
  refine ⟨by omega, by omega, ?_, ?_⟩
  · rw [substr, Nat.add_sub_cancel_left]
    intro hmem
    obtain ⟨j, hj, hjc⟩ := List.mem_take_iff_getElem.mp hmem
    exact hbefore j (by omega) hjc
  · have hdrop : (s.drop pos).drop i = c :: s.drop (pos + i + 1) := by
      rw [List.drop_eq_getElem_cons (show i < (s.drop pos).length by simpa using hlt), hget,
        List.drop_drop, Nat.add_assoc]
    rw [substr, Nat.add_sub_cancel_left, ← hdrop, List.take_append_drop]

theorem find_append_cons (h : c ∉ a) : (a ++ c :: b).find c = some a.length := by
  have hfind : (a ++ c :: b).idxOf? c = some a.length := by
    refine List.idxOf?_eq_some_iff.mpr ⟨by simp, by simp, fun j hj hjc => h ?_⟩
    rw [List.getElem_append_left hj] at hjc
    exact hjc ▸ List.getElem_mem hj
  simp [find, hfind]

theorem findLast_eq_none_iff : s.findLast c = none ↔ c ∉ s := by
  simp [findLast]

theorem findLast_append_cons (h : c ∉ b) : (a ++ c :: b).findLast c = some a.length := by
  have hreverse : (a ++ c :: b).reverse = b.reverse ++ c :: a.reverse := by simp
  have hfind := find_append_cons (b := a.reverse) (mt List.mem_reverse.mp h)
  have hidx : (b.reverse ++ c :: a.reverse).idxOf? c = some b.length := by
    simpa [find] using hfind
  rw [findLast, hreverse, hidx, Option.map_some, List.length_append, List.length_cons]
  congr 1
  omega

/-- A text with the byte in it is what is in front of the last one and what is behind. -/
theorem exists_last (h : c ∈ s) : ∃ a b, s = a ++ c :: b ∧ c ∉ b := by
  obtain ⟨b, a, hreverse, hb⟩ := List.eq_append_cons_of_mem (List.mem_reverse.mpr h)
  refine ⟨a.reverse, b.reverse, ?_, mt List.mem_reverse.mp hb⟩
  rw [← List.reverse_reverse s, hreverse]
  simp

theorem last_inj {a' b' : Text} (hb : c ∉ b) (hb' : c ∉ b') (h : a ++ c :: b = a' ++ c :: b') :
    a = a' ∧ b = b' := by
  have hlength : some a.length = some a'.length := by
    rw [← findLast_append_cons hb, h, findLast_append_cons hb']
  obtain ⟨ha, hrest⟩ := List.append_inj h (Option.some.inj hlength)
  exact ⟨ha, (List.cons.inj hrest).2⟩

end Text

end Turbolib
