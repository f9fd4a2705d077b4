import Mathlib.Data.List.TakeWhile
import Turbolib.Library.Numeral

/-!
# Socket addresses

`socket_address` as text: the address, a colon and the port. `fromString` assigns the address
before it converts the port with `std::stoi`, which skips blanks, takes a sign, stops at the
first byte that is no digit and throws; the number it gives is cut to 16 bits.

## Main definitions

* `stoi` — the function of the standard library.
* `SocketAddress.toString`, `SocketAddress.fromString` — the two functions.
-/

namespace Turbolib

inductive StoiError where
  | invalidArgument
  | outOfRange
  deriving DecidableEq, Repr

/-- `std::stoi` in base ten. Where `strtol` leaves the range of `long`, the number is out of that
of `int` as well. -/
def stoi (str : Text) : Except StoiError Int32 :=
  let (negative, s) := Numeral.takeSign (str.cString.dropWhile isspace)
  let digits := Numeral.span 10 s
  let val : ℤ := if negative then -Numeral.value 10 digits else Numeral.value 10 digits
  if digits = [] then .error .invalidArgument
  else if val < -2 ^ 31 ∨ 2 ^ 31 ≤ val then .error .outOfRange
  else .ok (.ofInt val)

structure SocketAddress where
  address : Text
  port : UInt16
  deriving DecidableEq, Repr

namespace SocketAddress

/-- `operator==` -/
def equals (a other : SocketAddress) : Bool := a.address = other.address && a.port = other.port

def toString (a : SocketAddress) : Text :=
  a.address ++ ascii ":" ++ Numeral.write 10 a.port.toNat

/-- What is returned or thrown, and the address afterwards. -/
def fromString (a : SocketAddress) (str : Text) : Except StoiError Bool × SocketAddress :=
  match str.findLast (byte ':') with
  | none => (.ok false, a)
  | some sep =>
    if str.length - 1 ≤ sep then (.ok false, a)
    else
      let a := { a with address := str.substr 0 sep }
      match stoi (str.drop (sep + 1)) with
      | .error e => (.error e, a)
      | .ok port => (.ok true, { a with port := port.toInt16.toUInt16 })

end SocketAddress

/-! ## Ports -/

/-- Decimal digits that say the port, and nothing else. -/
structure PortText (digits : Text) (port : UInt16) : Prop where
  nonempty : digits ≠ []
  digit : ∀ c ∈ digits, Numeral.isDigit 10 c = true
  value : Numeral.value 10 digits = port.toNat

theorem portText_write (port : UInt16) : PortText (Numeral.write 10 port.toNat) port where
  nonempty := Numeral.write_ne_nil
  digit _ hc := Numeral.isDigit_of_mem_write (by omega) (by omega) hc
  value := Numeral.value_write (by omega) (by omega)

namespace PortText

variable {digits : Text} {port : UInt16}

theorem colon_not_mem (h : PortText digits port) : byte ':' ∉ digits := fun hmem =>
  absurd (h.digit _ hmem) (by decide)

/-- Such digits are read to their end. -/
theorem stoi_eq (h : PortText digits port) : stoi digits = .ok (.ofInt port.toNat) := by
  obtain ⟨c, s, hcons⟩ := List.exists_cons_of_ne_nil h.nonempty
  obtain ⟨hsign, hspace⟩ := Numeral.of_isDigit (h.digit c (hcons ▸ List.mem_cons_self))
  have hcString : digits.cString = digits := by
    refine List.takeWhile_eq_self_iff.mpr fun d hd => ?_
    have hnul : Numeral.isDigit 10 0 = false := by decide
    grind [h.digit d hd]
  have hblank : digits.dropWhile isspace = digits := by
    rw [hcons, List.dropWhile_cons_of_neg (by simp [hspace])]
  have htake : Numeral.takeSign digits = (false, digits) := by
    grind [Numeral.takeSign]
  have hspan : Numeral.span 10 digits = digits := List.takeWhile_eq_self_iff.mpr h.digit
  have hport := port.toNat_lt
  have hrange : ¬((port.toNat : ℤ) < -2 ^ 31 ∨ 2 ^ 31 ≤ (port.toNat : ℤ)) := by omega
  rw [stoi, hcString, hblank, htake]
  simp only [hspan, h.value, h.nonempty, hrange, if_false, Bool.false_eq_true]

end PortText

/-- A port is not changed by being cut to 16 bits. -/
theorem narrow_port (port : UInt16) : (Int32.ofInt port.toNat).toInt16.toUInt16 = port := by
  rw [Int32.toInt16_ofInt, Int16.ofInt_eq_ofNat, Int16.toUInt16_ofNat', UInt16.ofNat_toNat]

/-! ## Parsing -/

namespace SocketAddress

variable (a : SocketAddress) {s address rest digits : Text} {port : UInt16}

theorem fromString_of_not_mem (hs : byte ':' ∉ s) : a.fromString s = (.ok false, a) := by
  rw [fromString, Text.findLast_eq_none_iff.mpr hs]

/-- A text with a colon, cut at the last one. -/
theorem fromString_append (hrest : byte ':' ∉ rest) :
    a.fromString (address ++ byte ':' :: rest) =
      if rest = [] then (.ok false, a)
      else match stoi rest with
        | .error e => (.error e, ⟨address, a.port⟩)
        | .ok port => (.ok true, ⟨address, port.toInt16.toUInt16⟩) := by
  have hlength : (address ++ byte ':' :: rest).length = address.length + (rest.length + 1) := by
    rw [List.length_append, List.length_cons]
  have hend : (address ++ byte ':' :: rest).length - 1 ≤ address.length ↔ rest = [] := by
    rw [hlength, ← List.length_eq_zero_iff]
    omega
  have hsubstr : (address ++ byte ':' :: rest).substr 0 address.length = address := by
    rw [Text.substr, List.drop_zero, List.take_left]
  have hdrop : (address ++ byte ':' :: rest).drop (address.length + 1) = rest := by
    rw [← List.drop_drop, List.drop_left, List.drop_one, List.tail_cons]
  rw [fromString, Text.findLast_append_cons hrest]
  simp only [hend, hsubstr, hdrop]

theorem fromString_portText (hport : PortText digits port) :
    a.fromString (address ++ byte ':' :: digits) = (.ok true, ⟨address, port⟩) := by
  rw [fromString_append a hport.colon_not_mem, if_neg hport.nonempty, hport.stoi_eq]
  simp only [narrow_port]

/-- What a parser of addresses should do: a port with nothing behind it is parsed, and any other
text changes nothing. -/
structure ParsesOrKeeps (a : SocketAddress) (s : Text)
    (result : Except StoiError Bool × SocketAddress) : Prop where
  parses : ∀ address digits port, s = address ++ byte ':' :: digits → PortText digits port →
    result = (.ok true, ⟨address, port⟩)
  keeps : (¬∃ address digits port, s = address ++ byte ':' :: digits ∧ PortText digits port) →
    result = (.ok false, a)

/-- `fromString` does so when nothing is behind the last colon, or a port. Behind anything else
it has assigned the address. -/
theorem fromString_parsesOrKeeps_iff (s : Text) :
    ParsesOrKeeps a s (a.fromString s) ↔
      ∀ address rest, s = address ++ byte ':' :: rest → byte ':' ∉ rest →
        rest = [] ∨ ∃ port, PortText rest port := by
  constructor
  · rintro ⟨-, hkeeps⟩ address rest rfl hrest
    by_contra! hcon
    obtain ⟨hnonempty, hport⟩ := hcon
    have hnone : ¬∃ address' digits port,
        address ++ byte ':' :: rest = address' ++ byte ':' :: digits ∧ PortText digits port := by
      rintro ⟨address', digits, port, heq, hdigits⟩
      obtain ⟨-, rfl⟩ := Text.last_inj hrest hdigits.colon_not_mem heq
      exact hport port hdigits
    have hresult := hkeeps hnone
    rw [fromString_append a hrest, if_neg hnonempty] at hresult
    cases hstoi : stoi rest with
    | error e => simp [hstoi] at hresult
    | ok port => simp [hstoi] at hresult
  · intro hlast
    refine ⟨fun address digits port hs hport => hs ▸ fromString_portText a hport, fun hnone => ?_⟩
    by_cases hs : byte ':' ∈ s
    · obtain ⟨address, rest, rfl, hrest⟩ := Text.exists_last hs
      obtain rfl | ⟨port, hport⟩ := hlast address rest rfl hrest
      · rw [fromString_append a hrest, if_pos rfl]
      · exact absurd ⟨address, rest, port, rfl, hport⟩ hnone
    · exact fromString_of_not_mem a hs

/-- A word for the port is refused with an exception, and the address is no longer there. -/
theorem fromString_loses_address :
    ¬ParsesOrKeeps ⟨ascii "localhost", 50000⟩ (ascii "1.2.3.4:x")
      ((⟨ascii "localhost", 50000⟩ : SocketAddress).fromString (ascii "1.2.3.4:x")) := by
  have hresult : (⟨ascii "localhost", 50000⟩ : SocketAddress).fromString (ascii "1.2.3.4:x") =
      (.error .invalidArgument, ⟨ascii "1.2.3.4", 50000⟩) := by decide +kernel
  rintro ⟨-, hkeeps⟩
  rw [hresult] at hkeeps
  refine absurd (hkeeps ?_) (by decide)
  rintro ⟨address, digits, port, heq, hdigits⟩
  have hlast : ascii "1.2.3.4" ++ byte ':' :: [byte 'x'] = address ++ byte ':' :: digits := by
    rw [← heq]
    decide
  obtain ⟨-, rfl⟩ := Text.last_inj (by decide) hdigits.colon_not_mem hlast
  exact absurd (hdigits.digit (byte 'x') List.mem_cons_self) (by decide)

/-! ## Round trip -/

theorem toString_eq : a.toString = a.address ++ byte ':' :: Numeral.write 10 a.port.toNat := by
  have hcolon : ascii ":" = [byte ':'] := by decide
  rw [toString, hcolon, List.append_assoc, List.singleton_append]

theorem equals_iff {other : SocketAddress} : a.equals other = true ↔ a = other := by
  cases a
  cases other
  simp [equals]

theorem fromString_toString (b : SocketAddress) : b.fromString a.toString = (.ok true, a) := by
  rw [toString_eq, fromString_portText b (portText_write a.port)]

/-- The last colon is the one in front of the port, whatever the address contains. -/
theorem toString_roundTrip (b : SocketAddress) :
    b.fromString a.toString = (.ok true, a) ∧ (b.fromString a.toString).2.equals a = true ∧
      ∀ a', a.toString = a'.toString → a = a' := by
  have hparse := fromString_toString a b
  refine ⟨hparse, ?_, fun a' htext => ?_⟩
  · rw [hparse, equals_iff]
  · rw [htext, fromString_toString a' b] at hparse
    exact (congrArg Prod.snd hparse).symm

end SocketAddress

end Turbolib
