import Mathlib.Data.List.Induction
import Mathlib.Data.Nat.Digits.Lemmas
import Turbolib.Library.Text

/-!
# Numerals

Natural numbers written with the digits of a base, the most significant one first. The
digits are those of `strtoul` and of the streams: `0` to `9` and then the letters, which
are read in both cases and written in lower case.

## Main definitions

* `Numeral.write`, `Numeral.writeInt` — a number as text.
* `Numeral.takeSign` — the sign a text begins with.
* `Numeral.span`, `Numeral.value` — the digits a text begins with, and what they say.
-/

namespace Turbolib

namespace Numeral

variable {b n d : ℕ} {s rest : Text} {c : UInt8}

def digit (d : ℕ) : UInt8 := .ofNat (if d < 10 then 0x30 + d else 0x61 + (d - 10))

/-- What a byte counts as a digit, if it is one in some base up to 36. -/
def anyDigitValue (c : UInt8) : Option ℕ :=
  if byte '0' ≤ c ∧ c ≤ byte '9' then some (c.toNat - 0x30)
  else if byte 'a' ≤ c ∧ c ≤ byte 'z' then some (c.toNat - 0x61 + 10)
  else if byte 'A' ≤ c ∧ c ≤ byte 'Z' then some (c.toNat - 0x41 + 10)
  else none

def digitValue (b : ℕ) (c : UInt8) : Option ℕ := (anyDigitValue c).filter (· < b)

def isDigit (b : ℕ) (c : UInt8) : Bool := (digitValue b c).isSome

/-- A number without leading zeros. -/
def write (b n : ℕ) : Text := if n = 0 then [digit 0] else ((Nat.digits b n).map digit).reverse

/-- An integer, with a minus if it is negative. -/
def writeInt (b : ℕ) (n : ℤ) : Text :=
  if n < 0 then byte '-' :: write b n.natAbs else write b n.natAbs

/-- The sign at the front: whether it is a minus, and what is behind it. -/
def takeSign : Text → Bool × Text
  | [] => (false, [])
  | c :: s =>
    if c = byte '-' then (true, s) else if c = byte '+' then (false, s) else (false, c :: s)

/-- The digits at the front. -/
def span (b : ℕ) (s : Text) : Text := s.takeWhile (isDigit b)

/-- What digits say; a byte that is none counts as zero. -/
def value (b : ℕ) (s : Text) : ℕ := s.foldl (fun n c => b * n + (digitValue b c).getD 0) 0

theorem digitValue_digit (hb : b ≤ 36) (hd : d < b) : digitValue b (digit d) = some d := by
  have hany : ∀ d < 36, anyDigitValue (digit d) = some d := by decide
  simp [digitValue, hany d (by omega), hd]

theorem isDigit_digit (hb : b ≤ 36) (hd : d < b) : isDigit b (digit d) = true := by
  simp [isDigit, digitValue_digit hb hd]

theorem digitValue_lt (h : isDigit b c = true) : (digitValue b c).getD 0 < b := by
  obtain ⟨d, hd⟩ := Option.isSome_iff_exists.mp h
  obtain ⟨-, hlt⟩ := Option.filter_eq_some_iff.mp hd
  simpa [hd] using hlt

theorem value_append (s : Text) (c : UInt8) :
    value b (s ++ [c]) = b * value b s + (digitValue b c).getD 0 := by
  simp [value]

/-- As many digits say less than that power of the base. -/
theorem value_lt (hb : 0 < b) (s : Text) : value b s < b ^ s.length := by
  induction s using List.reverseRecOn with
  | nil => simp [value]
  | append_singleton s c ih =>
    have hc : (digitValue b c).getD 0 < b := by
      cases hd : digitValue b c with
      | none => exact hb
      | some d => simpa [hd] using digitValue_lt (b := b) (c := c) (by simp [isDigit, hd])
    calc value b (s ++ [c]) = b * value b s + (digitValue b c).getD 0 := value_append s c
      _ < b * (value b s + 1) := by rw [Nat.mul_succ]; omega
      _ ≤ b * b ^ s.length := Nat.mul_le_mul_left b ih
      _ = b ^ (s ++ [c]).length := by rw [List.length_append, List.length_singleton, pow_succ']

theorem write_ne_nil : write b n ≠ [] := by
  rw [write]
  split_ifs with hn
  · simp
  · simpa [Nat.digits_eq_nil_iff_eq_zero] using hn

theorem isDigit_of_mem_write (hb : 2 ≤ b) (hb' : b ≤ 36) (hc : c ∈ write b n) :
    isDigit b c = true := by
  rw [write] at hc
  split_ifs at hc with hn
  · obtain rfl := List.mem_singleton.mp hc
    exact isDigit_digit hb' (by omega)
  · obtain ⟨d, hd, rfl⟩ := List.mem_map.mp (List.mem_reverse.mp hc)
    exact isDigit_digit hb' (Nat.digits_lt_base hb hd)

/-- What was written is read back. -/
theorem value_write (hb : 2 ≤ b) (hb' : b ≤ 36) : value b (write b n) = n := by
  rw [write]
  split_ifs with hn
  · simp [value, digitValue_digit hb' (show 0 < b by omega), hn]
  · have hdigits : ∀ ds : List ℕ, (∀ d ∈ ds, d < b) →
        value b (ds.map digit).reverse = Nat.ofDigits b ds := by
      intro ds hds
      rw [value, List.foldl_reverse, List.foldr_map, Nat.ofDigits_eq_foldr]
      induction ds with
      | nil => rfl
      | cons d ds ih =>
        obtain ⟨hd, hds⟩ := List.forall_mem_cons.mp hds
        rw [List.foldr_cons, List.foldr_cons, ih hds, digitValue_digit hb' hd]
        simp [Nat.add_comm]
    rw [hdigits _ fun d hd => Nat.digits_lt_base hb hd, Nat.ofDigits_digits]

/-- The digits of a number end where something else begins. -/
theorem span_write_append (hb : 2 ≤ b) (hb' : b ≤ 36) (n : ℕ) (rest : Text)
    (hrest : rest.head?.all (!isDigit b ·)) : span b (write b n ++ rest) = write b n := by
  rw [span, List.takeWhile_append_of_pos fun c hc => isDigit_of_mem_write hb hb' hc]
  cases rest with
  | nil => simp
  | cons c rest => simp_all

theorem span_write (hb : 2 ≤ b) (hb' : b ≤ 36) : span b (write b n) = write b n := by
  simpa using span_write_append hb hb' n [] rfl

/-! ## Integers -/

theorem isSome_of_isDigit (hc : isDigit b c = true) : (anyDigitValue c).isSome := by
  obtain ⟨d, hd⟩ := Option.isSome_iff_exists.mp hc
  rw [(Option.filter_eq_some_iff.mp hd).1, Option.isSome_some]

/-- A digit is neither a sign nor a blank. -/
theorem of_isDigit (hc : isDigit b c = true) :
    ¬(c = byte '-' ∨ c = byte '+') ∧ isspace c = false :=
  forall_uint8 (P := fun c => (anyDigitValue c).isSome →
    ¬(c = byte '-' ∨ c = byte '+') ∧ isspace c = false) (by decide +kernel) c (isSome_of_isDigit hc)

theorem exists_write_eq_cons (hb : 2 ≤ b) (hb' : b ≤ 36) (n : ℕ) :
    ∃ c s, write b n = c :: s ∧ isDigit b c = true := by
  obtain ⟨c, s, hwrite⟩ := List.exists_cons_of_ne_nil (write_ne_nil (b := b) (n := n))
  exact ⟨c, s, hwrite, isDigit_of_mem_write hb hb' (hwrite ▸ List.mem_cons_self)⟩

theorem takeSign_writeInt_append (hb : 2 ≤ b) (hb' : b ≤ 36) (n : ℤ) (rest : Text) :
    takeSign (writeInt b n ++ rest) = (decide (n < 0), write b n.natAbs ++ rest) := by
  rw [writeInt]
  split_ifs with hn
  · simp [takeSign, hn]
  · obtain ⟨c, s, hwrite, hc⟩ := exists_write_eq_cons hb hb' n.natAbs
    have hsign := (of_isDigit hc).1
    grind [takeSign]

theorem takeSign_writeInt (hb : 2 ≤ b) (hb' : b ≤ 36) (n : ℤ) :
    takeSign (writeInt b n) = (decide (n < 0), write b n.natAbs) := by
  simpa using takeSign_writeInt_append hb hb' n []

/-- An integer does not begin with a blank. -/
theorem dropWhile_isspace_writeInt (hb : 2 ≤ b) (hb' : b ≤ 36) (n : ℤ) :
    (writeInt b n).dropWhile isspace = writeInt b n := by
  rw [writeInt]
  split_ifs with hn
  · rfl
  · obtain ⟨c, s, hwrite, hc⟩ := exists_write_eq_cons hb hb' n.natAbs
    rw [hwrite, List.dropWhile_cons_of_neg (by simp [(of_isDigit hc).2])]

theorem writeInt_ne_nil (n : ℤ) : writeInt b n ≠ [] := by
  rw [writeInt]
  split_ifs
  · simp
  · exact write_ne_nil

/-- A number below a power of the base has no more digits than that. -/
theorem length_write_le (hb : 2 ≤ b) {k : ℕ} (hk : 0 < k) (hn : n < b ^ k) :
    (write b n).length ≤ k := by
  rw [write]
  split_ifs
  · exact hk
  · rw [List.length_reverse, List.length_map]
    exact (Nat.digits_length_le_iff hb n).mpr hn

end Numeral

end Turbolib
