import Turbolib.Library.BitGroups
import Turbolib.Library.Text

/-!
# base64

The encoder takes three bytes at a time and the decoder four characters, each with a tail
behind its loop for a group that is not full. The alphabet is in ascending order.

## Main definitions

* `chars`, `isBase64` — the alphabet, and the separate test for it.
* `encode`, `decode` — the loops and their tails.
* `encodeBin`, `decodeAs` — an integer by its bytes.
-/

namespace Turbolib

namespace Base64

open BitGroups

/-! ## The alphabet -/

/-- `base64_chars` -/
def chars : Text :=
  ascii "0123456789" ++ ascii "ABCDEFGHIJKLMNOPQRSTUVWXYZ^_" ++ ascii "abcdefghijklmnopqrstuvwxyz"

/-- `isalnum` in the C locale. -/
def isalnum (c : UInt8) : Bool :=
  (byte '0' ≤ c && c ≤ byte '9') || (byte 'A' ≤ c && c ≤ byte 'Z') ||
    (byte 'a' ≤ c && c ≤ byte 'z')

def isBase64 (c : UInt8) : Bool := isalnum c || c = byte '^' || c = byte '_'

/-- `base64_chars[d]`, which is asked for below 64 only. -/
def char (d : UInt8) : UInt8 := chars.getD d.toNat 0

/-- `base64_chars.find(c)` as an `unsigned char`; `npos` becomes 0xFF. -/
def charFind (c : UInt8) : UInt8 :=
  match chars.find c with
  | none => 0xFF
  | some pos => .ofNat pos

/-! ## The encoder -/

def sextet0 (a : UInt8) : UInt8 := (a &&& 0xfc) >>> 2

def sextet1 (a b : UInt8) : UInt8 := ((a &&& 0x03) <<< 4) + ((b &&& 0xf0) >>> 4)

def sextet2 (b c : UInt8) : UInt8 := ((b &&& 0x0f) <<< 2) + ((c &&& 0xc0) >>> 6)

def sextet3 (c : UInt8) : UInt8 := c &&& 0x3f

/-- `char_array_4` from `char_array_3` -/
def sextets : Text → List UInt8
  | [a, b, c] => [sextet0 a, sextet1 a b, sextet2 b c, sextet3 c]
  | _ => []

/-- The group that is left behind the loop, filled up with zeros. -/
def encodeTail (charArray3 ret : Text) : Text :=
  if charArray3 = [] then ret
  else ret ++ ((sextets (charArray3 ++ List.replicate (3 - charArray3.length) 0)).take
    (charArray3.length + 1)).map char ++ List.replicate (3 - charArray3.length) (byte '=')

/-- The loop, with the bytes of the group that is not full yet. -/
def encodeLoop : Text → Text → Text → Text
  | [], charArray3, ret => encodeTail charArray3 ret
  | c :: bytes, charArray3, ret =>
    match charArray3 ++ [c] with
    | [a, b, c] => encodeLoop bytes [] (ret ++ (sextets [a, b, c]).map char)
    | charArray3 => encodeLoop bytes charArray3 ret

/-- `in_len` is an `unsigned`. -/
def encode (s : Text) : Text := encodeLoop (s.take (UInt32.ofNat s.length).toNat) [] []

/-! ## The decoder -/

def octet0 (a b : UInt8) : UInt8 := (a <<< 2) + ((b &&& 0x30) >>> 4)

def octet1 (b c : UInt8) : UInt8 := ((b &&& 0xf) <<< 4) + ((c &&& 0x3c) >>> 2)

def octet2 (c d : UInt8) : UInt8 := ((c &&& 0x3) <<< 6) + d

/-- `char_array_3` from `char_array_4`, once the characters are looked up. -/
def octets : Text → List UInt8
  | [a, b, c, d] => [octet0 a b, octet1 b c, octet2 c d]
  | _ => []

/-- The group that is left behind the loop, filled up with NULs, which are looked up too. -/
def decodeTail (charArray4 ret : Text) : Text :=
  if charArray4 = [] then ret
  else ret ++ (octets ((charArray4 ++ List.replicate (4 - charArray4.length) 0).map charFind)).take
    (charArray4.length - 1)

/-- The loop, with the characters of the group that is not full yet. `in_len` is an `int`;
when it is not zero at the end, the NUL behind the text ends the loop. -/
def decodeLoop : Text → Int32 → Text → Text → Text
  | [], _, charArray4, ret => decodeTail charArray4 ret
  | c :: rest, inLen, charArray4, ret =>
    if inLen ≠ 0 ∧ c ≠ byte '=' ∧ isBase64 c then
      match charArray4 ++ [c] with
      | [a, b, c, d] =>
        decodeLoop rest (inLen - 1) [] (ret ++ octets ([a, b, c, d].map charFind))
      | charArray4 => decodeLoop rest (inLen - 1) charArray4 ret
    else decodeTail charArray4 ret

def decode (encoded : Text) : Text := decodeLoop encoded (.ofNat encoded.length) [] []

/-! ## Integers -/

/-- The bytes of a number in memory, the least significant one first. -/
def toBytes : ℕ → ℕ → Text
  | 0, _ => []
  | n + 1, x => .ofNat (x % 256) :: toBytes n (x / 256)

def ofBytes : Text → ℕ
  | [] => 0
  | c :: s => c.toNat + 256 * ofBytes s

/-- `encode_bin` for an integer of `n` bytes. -/
def encodeBin {n : ℕ} (number : BitVec (8 * n)) : Text := encode (toBytes n number.toNat)

/-- `decode_as` -/
def decodeAs (n : ℕ) (s : Text) : BitVec (8 * n) :=
  if (decode s).length < n then 0 else .ofNat (8 * n) (ofBytes ((decode s).take n))

/-- The encodings of the tests. -/
example :
    encode (ascii "foo") = ascii "Paxj" ∧ encode (ascii "Hello") = ascii "I6LgR6w=" ∧
      encodeBin (12345 : BitVec (8 * 4)) = ascii "EJ0000==" ∧
      decode (ascii "I6LgR6w=") = ascii "Hello" := by
  decide +kernel

/-! ## The alphabet as a table -/

/-- The codes of the alphabet: digits, capitals, two signs, small letters. -/
def codes : List ℕ :=
  List.range' 0x30 10 ++ List.range' 0x41 26 ++ [0x5E, 0x5F] ++ List.range' 0x61 26

theorem chars_eq : chars = codes.map UInt8.ofNat := by decide +kernel

theorem codes_lt : ∀ n ∈ codes, n < 256 := by decide

theorem codes_ascending : codes.Pairwise (· < ·) := by decide

theorem length_chars : chars.length = 64 := by
  rw [chars_eq]
  rfl

theorem mem_chars_iff_code (c : UInt8) : c ∈ chars ↔ c.toNat ∈ codes := by
  rw [chars_eq, List.mem_map]
  constructor
  · rintro ⟨n, hn, rfl⟩
    rwa [UInt8.toNat_ofNat_of_lt' (codes_lt n hn)]
  · intro hc
    exact ⟨c.toNat, hc, UInt8.ofNat_toNat⟩

/-- The test and the table agree. -/
theorem mem_chars_iff (c : UInt8) : c ∈ chars ↔ c ≠ byte '=' ∧ isBase64 c = true := by
  rw [mem_chars_iff_code]
  exact forall_uint8 (P := fun c => c.toNat ∈ codes ↔ c ≠ byte '=' ∧ isBase64 c = true)
    (by decide +kernel) c

theorem chars_ascending : chars.Pairwise (· < ·) := by
  rw [chars_eq, List.pairwise_map]
  refine codes_ascending.imp_of_mem fun {m n} hm hn hlt => ?_
  rw [UInt8.lt_iff_toNat_lt, UInt8.toNat_ofNat_of_lt' (codes_lt m hm),
    UInt8.toNat_ofNat_of_lt' (codes_lt n hn)]
  exact hlt

theorem getElem?_char {d : UInt8} (hd : d.toNat < 64) : chars[d.toNat]? = some (char d) := by
  have hlt : d.toNat < chars.length := hd.trans_eq length_chars.symm
  rw [char, List.getD_eq_getElem _ _ hlt, List.getElem?_eq_getElem hlt]

theorem char_mem {d : UInt8} (hd : d.toNat < 64) : char d ∈ chars :=
  List.mem_of_getElem? (getElem?_char hd)

/-- The alphabet is in the order of the codes. -/
theorem char_lt_char {d e : UInt8} (he : e.toNat < 64) (h : d < e) : char d < char e := by
  have hlt : d.toNat < e.toNat := UInt8.lt_iff_toNat_lt.mp h
  obtain ⟨hd', hd⟩ := List.getElem?_eq_some_iff.mp (getElem?_char (hlt.trans he))
  obtain ⟨he', he⟩ := List.getElem?_eq_some_iff.mp (getElem?_char he)
  rw [← hd, ← he]
  exact List.pairwise_iff_getElem.mp chars_ascending _ _ hd' he' hlt

/-- Looking a character of the alphabet up gives its place. -/
theorem charFind_of_mem {c : UInt8} (hc : c ∈ chars) :
    (charFind c).toNat = chars.idxOf c ∧ chars.idxOf c < 64 := by
  obtain ⟨before, after, hsplit, hbefore⟩ := List.eq_append_cons_of_mem hc
  have hlength := length_chars
  rw [hsplit, List.length_append, List.length_cons] at hlength
  have hidx : chars.idxOf c = before.length := by
    rw [hsplit, List.idxOf_append_of_notMem hbefore, List.idxOf_cons_self, Nat.add_zero]
  have hsmall : before.length < 256 := by omega
  rw [hidx, charFind, hsplit, Text.find_append_cons hbefore]
  exact ⟨UInt8.toNat_ofNat_of_lt' hsmall, by omega⟩

theorem charFind_char {d : UInt8} (hd : d.toNat < 64) : charFind (char d) = d := by
  have hnodup : chars.Nodup := chars_ascending.imp UInt8.ne_of_lt
  obtain ⟨hlt, hget⟩ := List.getElem?_eq_some_iff.mp (getElem?_char hd)
  refine UInt8.toNat_inj.mp ?_
  rw [(charFind_of_mem (char_mem hd)).1, ← hget]
  exact hnodup.idxOf_getElem _ hlt

/-! ## Groups -/

/-- The bits of bytes, one after the other. -/
def bitsOf (w : ℕ) (s : Text) : List Bool := (s.map UInt8.toNat).flatMap (bits w)

/-- What the masks and shifts take out of a byte. -/
theorem masks (a : UInt8) :
    (((a &&& 0xfc) >>> 2).toNat = a.toNat / 4 ∧ ((a &&& 0x03) <<< 4).toNat = a.toNat % 4 * 16 ∧
      ((a &&& 0xf0) >>> 4).toNat = a.toNat / 16 ∧ ((a &&& 0x0f) <<< 2).toNat = a.toNat % 16 * 4 ∧
      ((a &&& 0xc0) >>> 6).toNat = a.toNat / 64 ∧ (a &&& 0x3f).toNat = a.toNat % 64) ∧
    (a.toNat < 64 → (a <<< 2).toNat = a.toNat * 4 ∧ ((a &&& 0x30) >>> 4).toNat = a.toNat / 16 ∧
      ((a &&& 0xf) <<< 4).toNat = a.toNat % 16 * 16 ∧ ((a &&& 0x3c) >>> 2).toNat = a.toNat / 4 ∧
      ((a &&& 0x3) <<< 6).toNat = a.toNat % 4 * 64) := by
  have hall : ∀ n < 256,
      ((n &&& 0xfc) >>> 2 = n / 4 ∧ (n &&& 0x03) <<< 4 % 256 = n % 4 * 16 ∧
        (n &&& 0xf0) >>> 4 = n / 16 ∧ (n &&& 0x0f) <<< 2 % 256 = n % 16 * 4 ∧
        (n &&& 0xc0) >>> 6 = n / 64 ∧ n &&& 0x3f = n % 64) ∧
      (n < 64 → n <<< 2 % 256 = n * 4 ∧ (n &&& 0x30) >>> 4 = n / 16 ∧
        (n &&& 0xf) <<< 4 % 256 = n % 16 * 16 ∧ (n &&& 0x3c) >>> 2 = n / 4 ∧
        (n &&& 0x3) <<< 6 % 256 = n % 4 * 64) := by
    decide +kernel
  simpa using hall a.toNat a.toNat_lt

/-! The bits of each sextet, and of each octet, come from the two bytes next to them. -/

theorem toNat_sextet0 (a : UInt8) : (sextet0 a).toNat = a.toNat / 2 ^ 2 := (masks a).1.1

theorem toNat_sextet1 (a b : UInt8) :
    (sextet1 a b).toNat = a.toNat % 2 ^ 2 * 2 ^ 4 + b.toNat / 2 ^ 4 := by
  obtain ⟨-, hhigh, -⟩ := (masks a).1
  obtain ⟨-, -, hlow, -⟩ := (masks b).1
  have hb := b.toNat_lt
  rw [sextet1, UInt8.toNat_add, hhigh, hlow]
  omega

theorem toNat_sextet2 (b c : UInt8) :
    (sextet2 b c).toNat = b.toNat % 2 ^ 4 * 2 ^ 2 + c.toNat / 2 ^ 6 := by
  obtain ⟨-, -, -, hhigh, -⟩ := (masks b).1
  obtain ⟨-, -, -, -, hlow, -⟩ := (masks c).1
  have hc := c.toNat_lt
  rw [sextet2, UInt8.toNat_add, hhigh, hlow]
  omega

theorem toNat_sextet3 (c : UInt8) : (sextet3 c).toNat = c.toNat % 2 ^ 6 :=
  (masks c).1.2.2.2.2.2

theorem bits_sextet1 (a b : UInt8) :
    bits 6 (sextet1 a b).toNat = bits 2 a.toNat ++ bits 4 (b.toNat / 2 ^ 4) := by
  have hb := b.toNat_lt
  rw [toNat_sextet1, bits_mul_add 2 (show b.toNat / 2 ^ 4 < 2 ^ 4 by omega), bits_mod le_rfl]

theorem bits_sextet2 (b c : UInt8) :
    bits 6 (sextet2 b c).toNat = bits 4 b.toNat ++ bits 2 (c.toNat / 2 ^ 6) := by
  have hc := c.toNat_lt
  rw [toNat_sextet2, bits_mul_add 4 (show c.toNat / 2 ^ 6 < 2 ^ 2 by omega), bits_mod le_rfl]

theorem bits_sextet3 (c : UInt8) : bits 6 (sextet3 c).toNat = bits 6 c.toNat := by
  rw [toNat_sextet3, bits_mod le_rfl]

theorem bits_octet0 {a b : UInt8} (ha : a.toNat < 64) (hb : b.toNat < 64) :
    bits 8 (octet0 a b).toNat = bits 6 a.toNat ++ bits 2 (b.toNat / 2 ^ 4) := by
  obtain ⟨hhigh, -⟩ := (masks a).2 ha
  obtain ⟨-, hlow, -⟩ := (masks b).2 hb
  have hsum : (octet0 a b).toNat = a.toNat * 2 ^ 2 + b.toNat / 2 ^ 4 := by
    rw [octet0, UInt8.toNat_add, hhigh, hlow]
    omega
  rw [hsum, bits_mul_add 6 (show b.toNat / 2 ^ 4 < 2 ^ 2 by omega)]

theorem bits_octet1 {b c : UInt8} (hb : b.toNat < 64) (hc : c.toNat < 64) :
    bits 8 (octet1 b c).toNat = bits 4 b.toNat ++ bits 4 (c.toNat / 2 ^ 2) := by
  obtain ⟨-, -, hhigh, -⟩ := (masks b).2 hb
  obtain ⟨-, -, -, hlow, -⟩ := (masks c).2 hc
  have hsum : (octet1 b c).toNat = b.toNat % 2 ^ 4 * 2 ^ 4 + c.toNat / 2 ^ 2 := by
    rw [octet1, UInt8.toNat_add, hhigh, hlow]
    omega
  rw [hsum, bits_mul_add 4 (show c.toNat / 2 ^ 2 < 2 ^ 4 by omega), bits_mod le_rfl]

theorem bits_octet2 {c d : UInt8} (hc : c.toNat < 64) (hd : d.toNat < 64) :
    bits 8 (octet2 c d).toNat = bits 2 c.toNat ++ bits 6 d.toNat := by
  obtain ⟨-, -, -, -, hhigh⟩ := (masks c).2 hc
  have hsum : (octet2 c d).toNat = c.toNat % 2 ^ 2 * 2 ^ 6 + d.toNat := by
    rw [octet2, UInt8.toNat_add, hhigh]
    omega
  rw [hsum, bits_mul_add 2 (show d.toNat < 2 ^ 6 by omega), bits_mod le_rfl]

end Base64

end Turbolib
