import Turbolib.Library.PercentEscape

/-!
# Escapes in a URL

`Url::encode` and `Url::decode`. The index of the decoder is an `unsigned`, which comes round
to zero when the text is longer than it can count; the loop is given as many rounds as there
is fuel, and `none` is a loop that is still going. The byte an escape stands for is compared
with the blank as a `char`, which is signed.

## Main definitions

* `encode`, `decode` — the two functions.
* `strtoul` — the function of the standard library that reads the digits.
* `Special` — the bytes that `encode` escapes.
-/

namespace Turbolib

namespace Url

/-! ## The encoder -/

/-- `res << "%" << std::hex << static_cast<unsigned int>(c)` -/
def escape (c : UInt8) : Text :=
  byte '%' :: Numeral.write 16 c.toInt8.toInt32.toUInt32.toNat

/-- One round of `encode`. A `break` leaves the byte as it is, and the end of the cases
escapes it. -/
def encodeByte (c : UInt8) : Text :=
  let case2 := escape c
  let case3 := if c.toInt8 < (byte ':').toInt8 then [c] else case2
  let case4 := if c ≠ byte '@' ∧ c ≠ byte '[' ∧ c ≠ byte ']' then [c] else case3
  match c.toInt8.toInt >>> (4 : ℕ) with
  | 5 | 4 => case4
  | 3 => case3
  | 2 => case2
  | _ => [c]

def encode (text : Text) : Text := text.foldl (fun res c => res ++ encodeByte c) []

/-- The punctuation from the blank to the slash and from the colon to the question mark, and
the at sign and the brackets. -/
def Special (c : UInt8) : Prop :=
  (0x20 ≤ c ∧ c ≤ 0x2F) ∨ (0x3A ≤ c ∧ c ≤ 0x3F) ∨ c = byte '@' ∨ c = byte '[' ∨ c = byte ']'

instance : DecidablePred Special := fun _ => inferInstanceAs (Decidable (_ ∨ _))

theorem le_of_special {c : UInt8} (hc : Special c) : 0x20 ≤ c :=
  forall_uint8 (P := fun c => Special c → 0x20 ≤ c) (by decide +kernel) c hc

/-! ## The decoder -/

/-- The `0x` in front of a hexadecimal digit. -/
def dropHexMark : Text → Text
  | z :: x :: d :: s =>
    if z = byte '0' ∧ (x = byte 'x' ∨ x = byte 'X') ∧ Numeral.isDigit 16 d then d :: s
    else z :: x :: d :: s
  | s => s

/-- `std::strtoul(s.c_str(), nullptr, 16)`: blanks, a sign, a mark, and then digits. Too
large a number gives `ULONG_MAX`, and a minus negates what was read. -/
def strtoul (s : Text) : UInt64 :=
  let (negative, s) := Numeral.takeSign (s.cString.dropWhile isspace)
  let val := Numeral.value 16 (Numeral.span 16 (dropHexMark s))
  if 2 ^ 64 ≤ val then 0xFFFFFFFFFFFFFFFF
  else if negative then -.ofNat val
  else .ofNat val

/-- `val >= ' '` -/
def decodes (val : UInt8) : Bool := (byte ' ').toInt8 ≤ val.toInt8

/-- One round of `decode`: the byte it adds, and the index of the next round. -/
def decodeRound (text : Text) (i : UInt32) (c : UInt8) : UInt8 × UInt32 :=
  if c = byte '%' ∧ (i + 2).toNat < text.length then
    let temp := text.substr (i + 1).toNat 2
    let val := (strtoul temp).toUInt8
    if decodes val then (val, i + 2 + 1) else (c, i + 1)
  else (c, i + 1)

def decodeLoop (text : Text) : ℕ → UInt32 → Text → Option Text
  | 0, _, _ => none
  | fuel + 1, i, res =>
    match text[i.toNat]? with
    | some c =>
      let (val, i') := decodeRound text i c
      decodeLoop text fuel i' (res ++ [val])
    | none => some res

def decode (fuel : ℕ) (text : Text) : Option Text := decodeLoop text fuel 0 []

/-! ## What the encoder writes -/

/-- The bytes that are escaped, and what for. -/
theorem encodeByte_cases (c : UInt8) :
    (¬Special c ∧ encodeByte c = [c] ∧ c ≠ byte '%') ∨
      (Special c ∧ ∃ h l, encodeByte c = [byte '%', h, l] ∧
        Percent.escaped (byte '%') h l = some c ∧ c < 0x80 ∧ ¬Special h ∧ ¬Special l) := by
  have hall := forall_uint8 (P := fun c =>
    (¬Special c ∧ encodeByte c = [c] ∧ c ≠ byte '%') ∨
      (Special c ∧ encodeByte c =
          [byte '%', Numeral.digit (c.toNat / 16), Numeral.digit (c.toNat % 16)] ∧
        Percent.escaped (byte '%') (Numeral.digit (c.toNat / 16))
          (Numeral.digit (c.toNat % 16)) = some c ∧
        c < 0x80 ∧ ¬Special (Numeral.digit (c.toNat / 16)) ∧
        ¬Special (Numeral.digit (c.toNat % 16)))) (by decide +kernel) c
  obtain hplain | ⟨hspecial, hescape⟩ := hall
  · exact Or.inl hplain
  · exact Or.inr ⟨hspecial, _, _, hescape⟩

@[simp] theorem encode_nil : encode [] = [] := rfl

@[simp] theorem encode_cons (c : UInt8) (s : Text) : encode (c :: s) = encodeByte c ++ encode s := by
  rw [encode, ← List.flatMap_eq_foldl, List.flatMap_cons, encode, ← List.flatMap_eq_foldl]

/-- Each escape adds two bytes. -/
theorem encode_length (s : Text) :
    (encode s).length = s.length + 2 * s.countP (fun c => Special c) := by
  induction s with
  | nil => rfl
  | cons c s ih =>
    obtain ⟨hplain, hbyte, -⟩ | ⟨hspecial, h, l, hbyte, -⟩ := encodeByte_cases c
    · simp [hbyte, ih, hplain]
      omega
    · simp [hbyte, ih, hspecial]
      omega

/-- The escapes are the only special bytes of the encoding. -/
theorem escape_of_special {s before after : Text} {c : UInt8}
    (hs : encode s = before ++ c :: after) (hc : Special c) :
    ∃ h l rest v, after = h :: l :: rest ∧ Percent.escaped c h l = some v := by
  induction s generalizing before with
  | nil => simp at hs
  | cons d s ih =>
    rw [encode_cons] at hs
    obtain ⟨hplain, hbyte, -⟩ | ⟨-, h, l, hbyte, hv, -, hh, hl⟩ := encodeByte_cases d
    · -- a byte written as it is: the special one is behind it
      rw [hbyte, List.singleton_append] at hs
      rcases before with - | ⟨d', before⟩
      · exact absurd ((List.cons.inj hs).1 ▸ hc) hplain
      · exact ih (List.cons.inj hs).2
    · -- an escape: it is the percent sign, or behind the digits
      rw [hbyte] at hs
      rcases before with - | ⟨d₁, - | ⟨d₂, - | ⟨d₃, before⟩⟩⟩ <;>
        simp only [List.cons_append, List.nil_append, List.cons.injEq] at hs
      · exact ⟨h, l, encode s, d, hs.2.symm, hs.1 ▸ hv⟩
      · exact absurd (hs.2.1 ▸ hc) hh
      · exact absurd (hs.2.2.1 ▸ hc) hl
      · exact ih hs.2.2.2

/-- Resolving the escapes gives the text back when those of the special bytes are accepted. -/
theorem resolve_encode {accept : UInt8 → Bool}
    (haccept : ∀ c, Special c → c < 0x80 → accept c = true) (s : Text) :
    Percent.resolve accept (encode s) = s := by
  induction s with
  | nil => rfl
  | cons c s ih =>
    rw [encode_cons]
    obtain ⟨-, hbyte, hne⟩ | ⟨hspecial, h, l, hbyte, hv, hlow, -⟩ := encodeByte_cases c
    · rw [hbyte, List.singleton_append, Percent.resolve_cons_of_ne hne, ih]
    · rw [hbyte]
      exact (Percent.resolve_escape hv (haccept c hspecial hlow)).trans (congrArg _ ih)

/-! ## What the decoder reads -/

theorem decodes_iff (val : UInt8) : decodes val = true ↔ 0x20 ≤ val ∧ val < 0x80 :=
  forall_uint8 (P := fun val => decodes val = true ↔ 0x20 ≤ val ∧ val < 0x80)
    (by decide +kernel) val

/-- One digit at most is a control code, or negative after a minus. -/
theorem strtoul_short {s : Text} (hs : s.length ≤ 1) : decodes (strtoul s).toUInt8 = false := by
  rcases s with - | ⟨c, - | ⟨d, s⟩⟩
  · decide
  · exact forall_uint8 (P := fun c => decodes (strtoul [c]).toUInt8 = false)
      (by decide +kernel) c
  · simp at hs

/-- A sign leaves one digit at most. -/
theorem strtoul_sign {h l : UInt8} (hh : h = byte '-' ∨ h = byte '+') :
    decodes (strtoul [h, l]).toUInt8 = false := by
  obtain rfl | rfl := hh
  · exact forall_uint8 (P := fun l => decodes (strtoul [byte '-', l]).toUInt8 = false)
      (by decide +kernel) l
  · exact forall_uint8 (P := fun l => decodes (strtoul [byte '+', l]).toUInt8 = false)
      (by decide +kernel) l

/-- A blank is skipped. -/
theorem strtoul_space {h l : UInt8} (hh : isspace h = true) : strtoul [h, l] = strtoul [l] := by
  have hne : h ≠ 0 := by
    rintro rfl
    exact absurd hh (by decide)
  simp [strtoul, Text.cString, hne, hh]

/-- Without a blank or a sign in front the digits begin at once. -/
theorem strtoul_plain {h l : UInt8} (hspace : isspace h = false)
    (hsign : ¬(h = byte '-' ∨ h = byte '+')) :
    strtoul [h, l] = .ofNat (Numeral.value 16 (Numeral.span 16 [h, l])) := by
  have hsmall : ∀ s : Text, s.length ≤ 2 → ¬2 ^ 64 ≤ Numeral.value 16 (Numeral.span 16 s) := by
    intro s hs
    have hlt := Numeral.value_lt (b := 16) (by omega) (Numeral.span 16 s)
    have hspan : (Numeral.span 16 s).length ≤ 2 :=
      (List.takeWhile_sublist _).length_le.trans hs
    have hpow : 16 ^ (Numeral.span 16 s).length ≤ 16 ^ 2 := Nat.pow_le_pow_right (by omega) hspan
    omega
  have hnul : Numeral.isDigit 16 0 = false := by decide
  by_cases hh : h = 0
  · subst hh
    simp [strtoul, Text.cString, Numeral.takeSign, dropHexMark, Numeral.span, hnul, Numeral.value]
  · have hsigns : Numeral.takeSign (h :: Text.cString [l]) = (false, h :: Text.cString [l]) := by
      grind [Numeral.takeSign]
    have hcString : (Text.cString [h, l]).dropWhile isspace = h :: Text.cString [l] := by
      simp [Text.cString, hh, hspace]
    have hmark : dropHexMark (h :: Text.cString [l]) = h :: Text.cString [l] := by
      by_cases hl : l = 0 <;> simp [Text.cString, dropHexMark, hl]
    have hspan : Numeral.span 16 (h :: Text.cString [l]) = Numeral.span 16 [h, l] := by
      by_cases hl : l = 0 <;> simp [Text.cString, Numeral.span, List.takeWhile_cons, hl, hnul]
    rw [strtoul, hcString, hsigns]
    simp only [hmark, hspan, if_neg (hsmall [h, l] le_rfl), Bool.false_eq_true, if_false]

theorem escaped_of_not_digit {c h l : UInt8} (hh : Numeral.isDigit 16 h = false) :
    Percent.escaped c h l = none := by
  simp [Percent.escaped, hh]

/-- Two digits are read as the byte of the escape, one digit as a control code. -/
theorem decodes_digits (h l : UInt8) :
    match Percent.escaped (byte '%') h l with
    | some v => (UInt64.ofNat (Numeral.value 16 (Numeral.span 16 [h, l]))).toUInt8 = v
    | none =>
      decodes (UInt64.ofNat (Numeral.value 16 (Numeral.span 16 [h, l]))).toUInt8 = false := by
  cases hh : Numeral.isDigit 16 h with
  | false =>
    have hempty : Numeral.span 16 [h, l] = [] := by simp [Numeral.span, hh]
    rw [escaped_of_not_digit hh, hempty]
    decide
  | true =>
    cases hl : Numeral.isDigit 16 l with
    | true =>
      have hdigits : Numeral.span 16 [h, l] = [h, l] := by
        simp [Numeral.span, hh, hl]
      simp [Percent.escaped, hh, hl, hdigits]
    | false =>
      have hdigit : Numeral.span 16 [h, l] = [h] := by
        simp [Numeral.span, hh, hl]
      have hall : ∀ n < 16, decodes (UInt64.ofNat n).toUInt8 = false := by decide
      have hlt := Numeral.value_lt (b := 16) (by omega) [h]
      simp only [Percent.escaped, hl, hdigit]
      simpa using hall _ hlt

/-- The decoder takes the byte of an escape when that is not a control code and not
negative, and nothing else. -/
theorem decodes_strtoul (h l : UInt8) :
    match Percent.escaped (byte '%') h l with
    | some v => (strtoul [h, l]).toUInt8 = v
    | none => decodes (strtoul [h, l]).toUInt8 = false := by
  by_cases hspace : isspace h = true
  · have hh : isspace h = true → Numeral.isDigit 16 h = false :=
      forall_uint8 (P := fun h => isspace h = true → Numeral.isDigit 16 h = false)
        (by decide +kernel) h
    rw [escaped_of_not_digit (hh hspace), strtoul_space hspace]
    exact strtoul_short le_rfl
  by_cases hsign : h = byte '-' ∨ h = byte '+'
  · have hh : Numeral.isDigit 16 h = false := by
      obtain rfl | rfl := hsign <;> decide
    rw [escaped_of_not_digit hh]
    exact strtoul_sign hsign
  · rw [strtoul_plain (by simpa using hspace) hsign]
    exact decodes_digits h l

end Url

end Turbolib
