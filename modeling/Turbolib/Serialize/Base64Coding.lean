import Turbolib.Serialize.Base64
import Mathlib.Data.List.TakeWhile

/-!
# base64 there and back

Both loops keep the bits of their input: the encoder regroups them from bytes to sextets and
fills the last group up with zeros, the decoder regroups the values of the characters to bytes
and drops what is not a full byte. The NULs in the decoder's tail only reach octets that it
does not take.

## Main results

* `encodeLoop_eq`, `bitsOf_digits` — the encoder writes the bits of the bytes.
* `decode_prefix` — decoding reads the longest prefix in the alphabet, and nothing else.
* `decode_encode` — decoding undoes encoding.
-/

namespace Turbolib

namespace Base64

open BitGroups

variable {s t : Text}

/-! ## The encoder -/

/-- The sextets of the bytes, where zeros follow the last byte. -/
def digits : Text → List UInt8
  | [] => []
  | [a] => [sextet0 a, sextet1 a 0]
  | [a, b] => [sextet0 a, sextet1 a b, sextet2 b 0]
  | a :: b :: c :: s => sextets [a, b, c] ++ digits s

/-- How many bytes the last group is short of. -/
def missing (s : Text) : ℕ := (3 - s.length % 3) % 3

theorem missing_cons_cons_cons (a b c : UInt8) (s : Text) :
    missing (a :: b :: c :: s) = missing s := by
  simp only [missing, List.length_cons]
  omega

/-- The loop writes the sextets of the group it has begun and of the bytes that follow. -/
theorem encodeLoop_eq {g : Text} (hg : g.length < 3) (s ret : Text) :
    encodeLoop s g ret =
      ret ++ (digits (g ++ s)).map char ++ List.replicate (missing (g ++ s)) (byte '=') := by
  induction s generalizing g ret with
  | nil =>
    rcases g with - | ⟨a, - | ⟨b, - | ⟨c, g⟩⟩⟩
    · simp [encodeLoop, encodeTail, digits, missing]
    · simp [encodeLoop, encodeTail, digits, missing, sextets]
    · simp [encodeLoop, encodeTail, digits, missing, sextets]
    · simp only [List.length_cons] at hg
      omega
  | cons d s ih =>
    rcases g with - | ⟨a, - | ⟨b, - | ⟨c, g⟩⟩⟩
    · exact ih (g := [d]) (by decide : 1 < 3) ret
    · exact ih (g := [a, d]) (by decide : 2 < 3) ret
    · refine (ih (g := []) (by decide : 0 < 3) _).trans ?_
      simp [digits, missing_cons_cons_cons]
    · simp only [List.length_cons] at hg
      omega

theorem encode_eq (hs : s.length < 2 ^ 32) :
    encode s = (digits s).map char ++ List.replicate (missing s) (byte '=') := by
  have htake : (UInt32.ofNat s.length).toNat = s.length := UInt32.toNat_ofNat_of_lt' hs
  rw [encode, htake, List.take_length, encodeLoop_eq (by decide), List.nil_append,
    List.nil_append]

theorem digits_lt (s : Text) : ∀ d ∈ digits s, d.toNat < 64 := by
  fun_induction digits s with
  | case1 => simp
  | case2 a =>
    have ha := a.toNat_lt
    simp only [List.forall_mem_cons, toNat_sextet0, toNat_sextet1]
    refine ⟨by omega, by simp; omega, by simp⟩
  | case3 a b =>
    have ha := a.toNat_lt
    have hb := b.toNat_lt
    simp only [List.forall_mem_cons, toNat_sextet0, toNat_sextet1, toNat_sextet2]
    refine ⟨by omega, by omega, by simp; omega, by simp⟩
  | case4 a b c s ih =>
    have ha := a.toNat_lt
    have hb := b.toNat_lt
    have hc := c.toNat_lt
    simp only [sextets, List.cons_append, List.nil_append, List.forall_mem_cons, toNat_sextet0,
      toNat_sextet1, toNat_sextet2, toNat_sextet3]
    exact ⟨by omega, by omega, by omega, by omega, ih⟩

theorem length_digits (s : Text) :
    (digits s).length + missing s = 4 * ((s.length + 2) / 3) := by
  fun_induction digits s with
  | case1 => rfl
  | case2 a => simp [missing]
  | case3 a b => simp [missing]
  | case4 a b c s ih =>
    rw [missing_cons_cons_cons, sextets, List.length_append, Nat.add_assoc, ih]
    simp only [List.length_cons, List.length_nil]
    omega

theorem bitsOf_append (w : ℕ) (s t : Text) : bitsOf w (s ++ t) = bitsOf w s ++ bitsOf w t := by
  rw [bitsOf, List.map_append, List.flatMap_append, bitsOf, bitsOf]

theorem bitsOf_sextets (a b c : UInt8) : bitsOf 6 (sextets [a, b, c]) = bitsOf 8 [a, b, c] := by
  simp [bitsOf, sextets, toNat_sextet0, bits_sextet1, bits_sextet2, bits_sextet3,
    bits_add 6 2 a.toNat, bits_add 4 4 b.toNat, bits_add 2 6 c.toNat]

/-- Regrouping keeps the bits; zeros fill the last group up. -/
theorem bitsOf_digits (s : Text) :
    bitsOf 6 (digits s) = bitsOf 8 s ++ List.replicate (2 * missing s) false := by
  fun_induction digits s with
  | case1 => rfl
  | case2 a =>
    simp [bitsOf, toNat_sextet0, bits_sextet1, bits_add 6 2 a.toNat]
    simp [bits, missing]
  | case3 a b =>
    simp [bitsOf, toNat_sextet0, bits_sextet1, bits_sextet2, bits_add 6 2 a.toNat,
      bits_add 4 4 b.toNat]
    simp [bits, missing]
  | case4 a b c s ih =>
    calc bitsOf 6 (sextets [a, b, c] ++ digits s)
        = bitsOf 8 [a, b, c] ++ (bitsOf 8 s ++ List.replicate (2 * missing s) false) := by
          rw [bitsOf_append, bitsOf_sextets, ih]
      _ = bitsOf 8 ([a, b, c] ++ s) ++
            List.replicate (2 * missing (a :: b :: c :: s)) false := by
          rw [missing_cons_cons_cons, bitsOf_append, List.append_assoc]

/-! ## The decoder -/

/-- The bytes that a list of bits has in full. -/
def bytesOf (bs : List Bool) : Text := (groups 8 bs).map .ofNat

theorem bytesOf_bitsOf (s : Text) (bs : List Bool) :
    bytesOf (bitsOf 8 s ++ bs) = s ++ bytesOf bs := by
  have hbytes : ∀ n ∈ s.map UInt8.toNat, n < 2 ^ 8 := by
    intro n hn
    obtain ⟨c, -, rfl⟩ := List.mem_map.mp hn
    exact c.toNat_lt
  rw [bytesOf, bitsOf, groups_flatMap (by decide) hbytes, List.map_append, List.map_map, bytesOf]
  simp [Function.comp_def]

theorem bytesOf_of_lt {bs : List Bool} (h : bs.length < 8) : bytesOf bs = [] := by
  rw [bytesOf, groups_of_lt h, List.map_nil]

/-- What a text in the alphabet stands for. -/
def decoded (t : Text) : Text := bytesOf (bitsOf 6 (t.map charFind))

theorem charFind_lt {c : UInt8} (hc : c ∈ chars) : (charFind c).toNat < 64 := by
  obtain ⟨heq, hlt⟩ := charFind_of_mem hc
  exact heq.trans_lt hlt

/-- A full group. -/
theorem decoded_cons {a b c d : UInt8} (h : ∀ x ∈ [a, b, c, d], x ∈ chars) (t : Text) :
    decoded (a :: b :: c :: d :: t) = octets ([a, b, c, d].map charFind) ++ decoded t := by
  simp only [List.forall_mem_cons] at h
  obtain ⟨ha, hb, hc, hd, -⟩ := h
  have hbits : bitsOf 6 ([a, b, c, d].map charFind) =
      bitsOf 8 (octets ([a, b, c, d].map charFind)) := by
    simp [bitsOf, octets, bits_octet0 (charFind_lt ha) (charFind_lt hb),
      bits_octet1 (charFind_lt hb) (charFind_lt hc), bits_octet2 (charFind_lt hc) (charFind_lt hd),
      bits_add 2 4 (charFind b).toNat, bits_add 4 2 (charFind c).toNat]
  calc decoded (a :: b :: c :: d :: t)
      = bytesOf (bitsOf 6 ([a, b, c, d].map charFind ++ t.map charFind)) := rfl
    _ = octets ([a, b, c, d].map charFind) ++ decoded t := by
      rw [bitsOf_append, hbits, bytesOf_bitsOf, decoded]

/-- The group that is not full: what the fillers are looked up as is in octets that the tail
does not take. -/
theorem decodeTail_eq {g : Text} (hg : g.length < 4) (hchars : ∀ c ∈ g, c ∈ chars)
    (ret : Text) : decodeTail g ret = ret ++ decoded g := by
  rcases g with - | ⟨a, - | ⟨b, - | ⟨c, - | ⟨d, g⟩⟩⟩⟩
  · simp [decodeTail, decoded, bitsOf, bytesOf_of_lt]
  · simp [decodeTail, decoded, bitsOf, bytesOf_of_lt, octets]
  · simp only [List.forall_mem_cons] at hchars
    obtain ⟨ha, hb, -⟩ := hchars
    have hbits : bitsOf 6 [charFind a, charFind b] =
        bitsOf 8 [octet0 (charFind a) (charFind b)] ++ bits 4 (charFind b).toNat := by
      simp [bitsOf, bits_octet0 (charFind_lt ha) (charFind_lt hb), bits_add 2 4 (charFind b).toNat]
    simp [decodeTail, decoded, octets, hbits, bytesOf_bitsOf, bytesOf_of_lt]
  · simp only [List.forall_mem_cons] at hchars
    obtain ⟨ha, hb, hc, -⟩ := hchars
    have hbits : bitsOf 6 [charFind a, charFind b, charFind c] =
        bitsOf 8 [octet0 (charFind a) (charFind b), octet1 (charFind b) (charFind c)] ++
          bits 2 (charFind c).toNat := by
      simp [bitsOf, bits_octet0 (charFind_lt ha) (charFind_lt hb),
        bits_octet1 (charFind_lt hb) (charFind_lt hc), bits_add 2 4 (charFind b).toNat,
        bits_add 4 2 (charFind c).toNat]
    simp [decodeTail, decoded, octets, hbits, bytesOf_bitsOf, bytesOf_of_lt]
  · simp only [List.length_cons] at hg
    omega

/-- One step of the counter, which is not zero before it. -/
theorem inLen_step {n : ℕ} (hn : n + 1 < 2 ^ 31) :
    Int32.ofNat (n + 1) ≠ 0 ∧ Int32.ofNat (n + 1) - 1 = .ofNat n := by
  constructor
  · intro hzero
    have hint := congrArg Int32.toInt hzero
    rw [Int32.toInt_ofNat_of_lt hn, Int32.toInt_zero] at hint
    omega
  · rw [Int32.ofNat_add]
    exact Int32.add_sub_cancel _ _

/-- The loop reads on to the first character that is not in the alphabet. -/
theorem decodeLoop_eq {g : Text} (hg : g.length < 4) (hchars : ∀ c ∈ g, c ∈ chars)
    (hs : s.length < 2 ^ 31) (ret : Text) :
    decodeLoop s (.ofNat s.length) g ret = ret ++ decoded (g ++ s.takeWhile (· ∈ chars)) := by
  induction s generalizing g ret with
  | nil => simpa [decodeLoop] using decodeTail_eq hg hchars ret
  | cons e s ih =>
    obtain ⟨hnonzero, hstep⟩ := inLen_step hs
    rw [decodeLoop, List.length_cons, hstep]
    by_cases he : e ∈ chars
    · obtain ⟨hpad, halpha⟩ := (mem_chars_iff e).mp he
      have hs : s.length < 2 ^ 31 := (Nat.lt_succ_self _).trans hs
      have hmore : ∀ c ∈ g ++ [e], c ∈ chars := by
        simpa [or_imp, forall_and] using ⟨hchars, he⟩
      rw [if_pos ⟨hnonzero, hpad, halpha⟩, List.takeWhile_cons_of_pos (by simpa using he)]
      rcases g with - | ⟨a, - | ⟨b, - | ⟨c, - | ⟨d, g⟩⟩⟩⟩
      · exact ih (g := [e]) (by decide : 1 < 4) hmore hs ret
      · exact ih (g := [a, e]) (by decide : 2 < 4) hmore hs ret
      · exact ih (g := [a, b, e]) (by decide : 3 < 4) hmore hs ret
      · refine (ih (g := []) (by decide : 0 < 4) (by simp) hs _).trans ?_
        simp only [List.cons_append, List.nil_append] at hmore ⊢
        rw [decoded_cons hmore, List.append_assoc]
      · simp only [List.length_cons] at hg
        omega
    · have hstop : ¬ (Int32.ofNat (s.length + 1) ≠ 0 ∧ e ≠ byte '=' ∧ isBase64 e = true) :=
        fun h => he ((mem_chars_iff e).mpr h.2)
      rw [if_neg hstop, List.takeWhile_cons_of_neg (by simpa using he), List.append_nil]
      exact decodeTail_eq hg hchars ret

theorem decode_eq (hs : s.length < 2 ^ 31) :
    decode s = decoded (s.takeWhile (· ∈ chars)) := by
  rw [decode, decodeLoop_eq (by decide) (by simp) hs, List.nil_append, List.nil_append]

/-- The values in the alphabet are the places there. -/
theorem bitsOf_charFind (ht : ∀ c ∈ t, c ∈ chars) :
    bitsOf 6 (t.map charFind) = t.flatMap fun c => bits 6 (chars.idxOf c) := by
  rw [bitsOf, List.map_map, List.flatMap_map]
  refine List.flatMap_congr fun c hc => ?_
  rw [Function.comp, (charFind_of_mem (ht c hc)).1]

/-- Decoding a text gives the full bytes among the bits of its longest prefix in the
alphabet, and does not depend on what follows that prefix. -/
theorem decode_prefix (s : Text) (hs : s.length < 2 ^ 31) :
    (decode s).length = 3 * (s.takeWhile (· ∈ chars)).length / 4 ∧
      decode s =
        (groups 8 ((s.takeWhile (· ∈ chars)).flatMap fun c => bits 6 (chars.idxOf c))).map
          .ofNat ∧
      decode s = decode (s.takeWhile (· ∈ chars)) := by
  have hprefix : (s.takeWhile (· ∈ chars)).length < 2 ^ 31 :=
    (List.takeWhile_sublist _).length_le.trans_lt hs
  have hchars : ∀ c ∈ s.takeWhile (· ∈ chars), c ∈ chars :=
    fun c hc => by simpa using List.mem_takeWhile_imp hc
  have heq := decode_eq hs
  refine ⟨?_, ?_, ?_⟩
  · rw [heq, decoded, bytesOf, List.length_map, groups, List.length_map, List.length_range,
      bitsOf, length_flatMap_bits, List.length_map, List.length_map]
    omega
  · rw [heq, decoded, bytesOf, bitsOf_charFind hchars]
  · rw [heq, decode_eq hprefix, List.takeWhile_idem]

/-- A text that ends in a group of two, with something behind it. -/
theorem decode_prefix_witness :
    (decode (ascii "Q5 Q5")).length =
        3 * ((ascii "Q5 Q5").takeWhile (· ∈ chars)).length / 4 ∧
      decode (ascii "Q5 Q5") =
        (groups 8 (((ascii "Q5 Q5").takeWhile (· ∈ chars)).flatMap
          fun c => bits 6 (chars.idxOf c))).map .ofNat ∧
      decode (ascii "Q5 Q5") = decode ((ascii "Q5 Q5").takeWhile (· ∈ chars)) :=
  decode_prefix (ascii "Q5 Q5") (by decide)

/-! ## The round trip -/

theorem digits_char_mem (s : Text) : ∀ c ∈ (digits s).map char, c ∈ chars := by
  intro c hc
  obtain ⟨d, hd, rfl⟩ := List.mem_map.mp hc
  exact char_mem (digits_lt s d hd)

theorem takeWhile_encode (hs : s.length < 2 ^ 32) :
    (encode s).takeWhile (· ∈ chars) = (digits s).map char := by
  have hpad : byte '=' ∉ chars := fun h => ((mem_chars_iff _).mp h).1 rfl
  have hchars : ∀ c ∈ (digits s).map char, decide (c ∈ chars) = true :=
    fun c hc => decide_eq_true (digits_char_mem s c hc)
  rw [encode_eq hs, List.takeWhile_append_of_pos hchars, List.takeWhile_replicate]
  simp [hpad]

theorem decode_of_encode (hs : s.length < 2 ^ 32) (hlength : (encode s).length < 2 ^ 31) :
    decode (encode s) = s := by
  have hvalues : ((digits s).map char).map charFind = digits s := by
    rw [List.map_map]
    refine (List.map_congr_left fun d hd => ?_).trans (List.map_id _)
    exact charFind_char (digits_lt s d hd)
  have hzeros : (List.replicate (2 * missing s) false).length < 8 := by
    rw [List.length_replicate, missing]
    omega
  rw [decode_eq hlength, takeWhile_encode hs, decoded, hvalues, bitsOf_digits, bytesOf_bitsOf,
    bytesOf_of_lt hzeros, List.append_nil]

theorem length_toBytes (n x : ℕ) : (toBytes n x).length = n := by
  induction n generalizing x with
  | zero => rfl
  | succ n ih => rw [toBytes, List.length_cons, ih]

theorem ofBytes_toBytes {n x : ℕ} (hx : x < 2 ^ (8 * n)) : ofBytes (toBytes n x) = x := by
  induction n generalizing x with
  | zero =>
    rw [Nat.mul_zero, pow_zero, Nat.lt_one_iff] at hx
    rw [hx]
    rfl
  | succ n ih =>
    have hlow : (UInt8.ofNat (x % 256)).toNat = x % 256 :=
      UInt8.toNat_ofNat_of_lt' (Nat.mod_lt _ (by decide))
    have hhigh : x / 256 < 2 ^ (8 * n) := by
      rw [Nat.mul_succ, pow_add] at hx
      exact Nat.div_lt_of_lt_mul (by omega)
    rw [toBytes, ofBytes, hlow, ih hhigh]
    exact Nat.mod_add_div x 256

theorem length_encode (hs : s.length < 2 ^ 32) :
    (encode s).length = 4 * ((s.length + 2) / 3) := by
  rw [encode_eq hs, List.length_append, List.length_map, List.length_replicate, length_digits]

/-- Decoding undoes encoding, for texts and for integers of any size. The encoded text is in
the alphabet, with at most two equals signs behind it. -/
theorem decode_encode (s : Text) (hs : s.length < 2 ^ 31) (hlength : (encode s).length < 2 ^ 31) :
    decode (encode s) = s ∧
      (∃ t pad, encode s = t ++ List.replicate pad (byte '=') ∧ (∀ c ∈ t, c ∈ chars) ∧ pad ≤ 2) ∧
      (encode s).length = 4 * ((s.length + 2) / 3) ∧
      ∀ n (x : BitVec (8 * n)), 4 * ((n + 2) / 3) < 2 ^ 31 → decodeAs n (encodeBin x) = x := by
  have hs : s.length < 2 ^ 32 := hs.trans (by decide)
  refine ⟨decode_of_encode hs hlength, ?_, length_encode hs, fun n x hn => ?_⟩
  · refine ⟨(digits s).map char, missing s, encode_eq hs, digits_char_mem s, ?_⟩
    rw [missing]
    omega
  · have hbytes : (toBytes n x.toNat).length < 2 ^ 32 := by
      rw [length_toBytes]
      omega
    have hencoded : (encode (toBytes n x.toNat)).length < 2 ^ 31 := by
      rwa [length_encode hbytes, length_toBytes]
    have hback : decode (encodeBin x) = toBytes n x.toNat := decode_of_encode hbytes hencoded
    have htake : (toBytes n x.toNat).take n = toBytes n x.toNat :=
      List.take_of_length_le (length_toBytes n _).le
    rw [decodeAs, hback, if_neg (by simp [length_toBytes]), htake, ofBytes_toBytes x.isLt,
      BitVec.ofNat_toNat, BitVec.setWidth_eq]

theorem decode_encode_witness :
    decode (encode (ascii "Hello")) = ascii "Hello" ∧
      (∃ t pad, encode (ascii "Hello") = t ++ List.replicate pad (byte '=') ∧
        (∀ c ∈ t, c ∈ chars) ∧ pad ≤ 2) ∧
      (encode (ascii "Hello")).length = 4 * (((ascii "Hello").length + 2) / 3) ∧
      ∀ n (x : BitVec (8 * n)), 4 * ((n + 2) / 3) < 2 ^ 31 → decodeAs n (encodeBin x) = x :=
  decode_encode (ascii "Hello") (by decide) (by decide +kernel)

end Base64

end Turbolib
