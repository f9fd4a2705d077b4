import Mathlib.Data.Int.Init
import Turbolib.Library.Numeral

/-!
# Values as text

`turbo::str::str` and `fromStr` over the streams of the standard library, in the C locale.
A stream reads a number behind the blanks, and stores something when it fails as well: zero
when there is no digit, and the nearest value when there are too many. Without the flag for
names a `bool` is read as a number.

## Main definitions

* `FieldType`, `FieldType.Value` — the types that are written and read, and their values.
* `str`, `hexStr`, `fromStr` — the functions.
-/

namespace Turbolib

inductive FieldType where
  | bool
  | int
  | unsigned
  | longLong
  | string
  deriving DecidableEq, Repr

def FieldType.Value : FieldType → Type
  | .bool => Bool
  | .int => Int32
  | .unsigned => UInt32
  | .longLong => Int64
  | .string => Text

/-! ## Writing -/

/-- `ss << val`, and the words of the specialisation for `bool`. -/
def str : (t : FieldType) → t.Value → Text
  | .bool, (val : Bool) => if val then ascii "true" else ascii "false"
  | .int, (val : Int32) => Numeral.writeInt 10 val.toInt
  | .unsigned, (val : UInt32) => Numeral.writeInt 10 val.toNat
  | .longLong, (val : Int64) => Numeral.writeInt 10 val.toInt
  | .string, val => val

/-- `ss << std::hex << number` for an `unsigned`. -/
def hexStr (number : UInt32) : Text := Numeral.write 16 number.toNat

/-! ## Reading -/

/-- The number of a type with the given range that a stream reads, and whether it succeeds.
Where there are no negative numbers, a minus counts down from the end of the range. -/
def extractInt (lo hi : ℤ) (s : Text) : ℤ × Bool :=
  let (negative, s) := Numeral.takeSign s
  let digits := Numeral.span 10 s
  let val := Numeral.value 10 digits
  if digits = [] then (0, false)
  else if negative && lo < 0 then if val ≤ -lo then (-val, true) else (lo, false)
  else if val ≤ hi then if negative then (-val % (hi + 1), true) else (val, true)
  else (hi, false)

/-- `num_get` for each type. A `bool` is read as a `long`, and what is not zero is true. -/
def extract : (t : FieldType) → Text → t.Value × Bool
  | .bool, s =>
    let (val, ok) := extractInt (-2 ^ 63) (2 ^ 63 - 1) s
    (decide (val ≠ 0), ok && (val = 0 || val = 1))
  | .int, s => (extractInt (-2 ^ 31) (2 ^ 31 - 1) s).map Int32.ofInt id
  | .unsigned, s => (extractInt 0 (2 ^ 32 - 1) s).map (fun val => UInt32.ofNat val.toNat) id
  | .longLong, s => (extractInt (-2 ^ 63) (2 ^ 63 - 1) s).map Int64.ofInt id
  | .string, s => (s, true)

/-- `fromStr(var, str)`: what is in `var` afterwards, and what is returned. An empty text and
one of blanks leave the variable alone; a string is copied. -/
def fromStr (t : FieldType) (var : t.Value) (s : Text) : t.Value × Bool :=
  if t = .string then extract t s
  else if s = [] then (var, false)
  else if s.dropWhile isspace = [] then (var, false)
  else extract t (s.dropWhile isspace)

/-! ## Writing and reading -/

theorem extractInt_writeInt {lo hi n : ℤ} (hlo : lo ≤ n) (hhi : n ≤ hi) :
    extractInt lo hi (Numeral.writeInt 10 n) = (n, true) := by
  have hspan := Numeral.span_write (b := 10) (n := n.natAbs) (by omega) (by omega)
  have hvalue := Numeral.value_write (b := 10) (n := n.natAbs) (by omega) (by omega)
  rw [extractInt, Numeral.takeSign_writeInt (by omega) (by omega)]
  simp only [hspan, hvalue, if_neg Numeral.write_ne_nil]
  by_cases hn : n < 0
  · have hneg : lo < 0 := by omega
    have hval : (n.natAbs : ℤ) ≤ -lo := by omega
    simp only [hn, hneg, decide_true, Bool.and_self, if_true, if_pos hval]
    exact Prod.ext (by simp only; omega) rfl
  · have hval : (n.natAbs : ℤ) ≤ hi := by omega
    simp only [hn, decide_false, Bool.false_and, Bool.false_eq_true, if_false, if_pos hval]
    exact Prod.ext (by simp only; omega) rfl

end Turbolib
