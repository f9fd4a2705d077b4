import Turbolib.Http.Percent

/-!
# What decoding gives

Where the index can count the text, `decode` resolves the escapes whose byte is neither a
control code nor negative as a `char`. A longer text is never left: the index comes round to
its beginning.

## Main results

* `decode_encode_iff` — when decoding undoes encoding.
* `decode_resolves_iff` — when decoding resolves the escapes of all bytes from the blank on.
-/

namespace Turbolib

namespace Url

open Percent

variable {text rest res r s : Text} {i : UInt32} {c h l v : UInt8} {fuel : ℕ}

/-! ## One round -/

theorem length_of_drop {n : ℕ} (htext : text.drop n = c :: rest) :
    text.length = n + (rest.length + 1) := by
  have hlength := congrArg List.length htext
  simp only [List.length_drop, List.length_cons] at hlength
  omega

/-- The index counts on as long as it stays inside the text. -/
theorem toNat_add {n : UInt32} (hsum : i.toNat + n.toNat < 2 ^ 32) :
    (i + n).toNat = i.toNat + n.toNat := by
  rw [UInt32.toNat_add, Nat.mod_eq_of_lt hsum]

theorem toNat_next (hinside : i.toNat + 1 < 2 ^ 32) : (i + 1).toNat = i.toNat + 1 :=
  toNat_add (n := 1) hinside

/-- The two bytes that are read behind the current one. -/
theorem substr_next (hlen : text.length < 2 ^ 32) (htext : text.drop i.toNat = c :: rest) :
    text.substr (i + 1).toNat 2 = rest.take 2 := by
  have hlength := length_of_drop htext
  rw [Text.substr, toNat_next (by omega), ← List.drop_drop, htext]
  rfl

theorem decodeRound_escape (hlen : text.length < 2 ^ 32)
    (htext : text.drop i.toNat = c :: h :: l :: rest) (hv : escaped c h l = some v)
    (hdecodes : decodes v = true) : decodeRound text i c = (v, i + 2 + 1) := by
  have hlength : text.length = i.toNat + (rest.length + 2 + 1) := length_of_drop htext
  have htwo : (i + 2).toNat = i.toNat + 2 := toNat_add (n := 2) (by simp; omega)
  have htemp : text.substr (i + 1).toNat 2 = [h, l] := substr_next hlen htext
  obtain ⟨rfl, -⟩ := escaped_eq_some hv
  have hval := decodes_strtoul h l
  rw [hv] at hval
  have hval : (strtoul [h, l]).toUInt8 = v := hval
  have hinside : (i + 2).toNat < text.length := by omega
  rw [decodeRound, if_pos ⟨rfl, hinside⟩, htemp]
  simp only [hval, hdecodes, if_true]

/-- What is read behind a percent sign is not taken, unless it is an escape of a byte that
is. -/
theorem decodes_take (hnone : ∀ h l after v, rest = h :: l :: after →
      escaped (byte '%') h l = some v → decodes v = false) :
    decodes (strtoul (rest.take 2)).toUInt8 = false := by
  rcases rest with - | ⟨h, - | ⟨l, after⟩⟩
  · exact strtoul_short (by simp)
  · exact strtoul_short (by simp)
  · have hpair := decodes_strtoul h l
    cases hv : escaped (byte '%') h l with
    | none =>
      rw [hv] at hpair
      exact hpair
    | some v =>
      rw [hv] at hpair
      have hpair : (strtoul [h, l]).toUInt8 = v := hpair
      exact (congrArg decodes hpair).trans (hnone h l after v rfl hv)

theorem decodeRound_copy (hlen : text.length < 2 ^ 32) (htext : text.drop i.toNat = c :: rest)
    (hnone : ∀ h l after v, rest = h :: l :: after → escaped c h l = some v →
      decodes v = false) :
    decodeRound text i c = (c, i + 1) := by
  rw [decodeRound]
  split_ifs with hpercent
  · have hval := decodes_take (hpercent.1 ▸ hnone)
    rw [substr_next hlen htext]
    simp only [hval, Bool.false_eq_true, if_false]
  · rfl

/-- One round goes on in the text and takes the first byte off what it resolves to. -/
theorem decodeRound_spec (hlen : text.length < 2 ^ 32) (hc : text[i.toNat]? = some c) :
    i.toNat < (decodeRound text i c).2.toNat ∧
      (decodeRound text i c).2.toNat ≤ text.length ∧
      resolve decodes (text.drop i.toNat) =
        (decodeRound text i c).1 ::
          resolve decodes (text.drop (decodeRound text i c).2.toNat) := by
  obtain ⟨hinside, hget⟩ := List.getElem?_eq_some_iff.mp hc
  have htext : text.drop i.toNat = c :: text.drop (i.toNat + 1) := by
    rw [List.drop_eq_getElem_cons hinside, hget]
  by_cases hescape : ∃ h l rest v, text.drop (i.toNat + 1) = h :: l :: rest ∧
      escaped c h l = some v ∧ decodes v = true
  · obtain ⟨h, l, rest, v, hrest, hv, hdecodes⟩ := hescape
    have hlength : text.length = i.toNat + 1 + (rest.length + 1 + 1) := length_of_drop hrest
    have htwo : (i + 2).toNat = i.toNat + 2 := toNat_add (n := 2) (by simp; omega)
    have hthree : (i + 2 + 1).toNat = i.toNat + 1 + 2 := by
      rw [toNat_next (by omega), htwo]
    have hafter : text.drop (i.toNat + 1 + 2) = rest := by
      rw [← List.drop_drop, hrest]
      rfl
    rw [decodeRound_escape hlen (htext.trans (congrArg _ hrest)) hv hdecodes, hthree, hafter,
      htext, hrest, resolve_escape hv hdecodes]
    exact ⟨by omega, by omega, rfl⟩
  · have hnone : ∀ h l after v, text.drop (i.toNat + 1) = h :: l :: after →
        escaped c h l = some v → decodes v = false := by
      intro h l after v hafter hv
      by_contra hdecodes
      exact hescape ⟨h, l, after, v, hafter, hv, by simpa using hdecodes⟩
    rw [decodeRound_copy hlen htext hnone, toNat_next (by omega), htext, resolve_copy hnone]
    exact ⟨by omega, by omega, rfl⟩

/-! ## The loop -/

/-- Rounds enough for the rest of the text end the loop. -/
theorem decodeLoop_returns (hlen : text.length < 2 ^ 32) (hi : i.toNat ≤ text.length)
    (hfuel : text.length < fuel + i.toNat) : ∃ r, decodeLoop text fuel i res = some r := by
  induction fuel generalizing i res with
  | zero => omega
  | succ fuel ih =>
    rw [decodeLoop]
    cases hc : text[i.toNat]? with
    | none => exact ⟨res, rfl⟩
    | some c =>
      obtain ⟨hlt, hle, -⟩ := decodeRound_spec hlen hc
      exact ih (i := (decodeRound text i c).2) hle (by omega)

/-- What the loop leaves behind when it ends. -/
theorem decodeLoop_eq (hlen : text.length < 2 ^ 32)
    (hloop : decodeLoop text fuel i res = some r) :
    r = res ++ resolve decodes (text.drop i.toNat) := by
  induction fuel generalizing i res with
  | zero => simp [decodeLoop] at hloop
  | succ fuel ih =>
    rw [decodeLoop] at hloop
    cases hc : text[i.toNat]? with
    | none =>
      rw [hc] at hloop
      rw [List.drop_eq_nil_of_le (List.getElem?_eq_none_iff.mp hc)]
      simpa [resolve] using hloop.symm
    | some c =>
      rw [hc] at hloop
      obtain ⟨-, -, hresolve⟩ := decodeRound_spec hlen hc
      have hrest : decodeLoop text fuel (decodeRound text i c).2
          (res ++ [(decodeRound text i c).1]) = some r := hloop
      rw [ih hrest, hresolve, List.append_assoc, List.singleton_append]

/-- Fuel for each byte and one more round is enough. -/
theorem decode_of_fuel (hlen : text.length < 2 ^ 32) (hfuel : text.length < fuel) :
    decode fuel text = some (resolve decodes text) := by
  obtain ⟨r, hdecode⟩ : ∃ r, decode fuel text = some r :=
    decodeLoop_returns hlen (by simp) (by simpa using hfuel)
  have hr := decodeLoop_eq hlen hdecode
  rw [hdecode, hr]
  rfl

theorem decode_eq_some_iff (hlen : text.length < 2 ^ 32) :
    (∃ fuel, decode fuel text = some r) ↔ r = resolve decodes text := by
  constructor
  · rintro ⟨fuel, hdecode⟩
    exact decodeLoop_eq hlen hdecode
  · rintro rfl
    exact ⟨text.length + 1, decode_of_fuel hlen (Nat.lt_succ_self _)⟩

/-- The index never gets out of a text that it cannot count. -/
theorem decodeLoop_long (hlen : 2 ^ 32 ≤ text.length) (fuel : ℕ) :
    decodeLoop text fuel i res = none := by
  induction fuel generalizing i res with
  | zero => rfl
  | succ fuel ih =>
    have hinside : i.toNat < text.length := by
      have hi := i.toNat_lt
      omega
    rw [decodeLoop, List.getElem?_eq_getElem hinside]
    exact ih

theorem length_of_decode (hdecode : decode fuel text = some r) : text.length < 2 ^ 32 := by
  by_contra hlen
  rw [decode, decodeLoop_long (not_lt.mp hlen)] at hdecode
  simp at hdecode

/-! ## Encoding and decoding -/

theorem resolve_decodes_encode (s : Text) : resolve decodes (encode s) = s :=
  resolve_encode (fun c hspecial hlow => (decodes_iff c).mpr ⟨le_of_special hspecial, hlow⟩) s

theorem decode_encode_eq_some_iff :
    (∃ fuel, decode fuel (encode s) = some s) ↔
      s.length + 2 * s.countP (fun c => Special c) < 2 ^ 32 := by
  rw [← encode_length]
  constructor
  · rintro ⟨fuel, hdecode⟩
    exact length_of_decode hdecode
  · intro hlen
    exact (decode_eq_some_iff hlen).mpr (resolve_decodes_encode s).symm

/-- Decoding undoes encoding exactly when the encoded text, with two more bytes for each
special one, is short enough for the index; and the encoding has no special bytes but
the percent signs of its escapes. -/
theorem decode_encode_iff (s : Text) :
    ((∃ fuel, decode fuel (encode s) = some s) ∧
        ∀ before c after, encode s = before ++ c :: after → Special c →
          ∃ h l rest v, after = h :: l :: rest ∧ escaped c h l = some v) ↔
      s.length + 2 * s.countP (fun c => Special c) < 2 ^ 32 := by
  rw [decode_encode_eq_some_iff, and_iff_left]
  intro before c after hs hc
  exact escape_of_special hs hc

/-- So many letters are written as they are and never decoded. -/
theorem not_decode_encode :
    ¬∃ fuel, decode fuel (encode (List.replicate (2 ^ 32) (byte 'a'))) =
      some (List.replicate (2 ^ 32) (byte 'a')) := by
  intro hdecode
  have hlen := decode_encode_eq_some_iff.mp hdecode
  rw [List.length_replicate] at hlen
  omega

/-- Decoding resolves the escapes of all bytes but the control codes exactly when the index
can count the text and no escape in it stands for a byte that is negative as a `char`. -/
theorem decode_resolves_iff (text : Text) :
    (∃ fuel, decode fuel text = some (resolve (fun v => 0x20 ≤ v) text)) ↔
      text.length < 2 ^ 32 ∧ ¬Occurs (fun v => 0x80 ≤ v) text := by
  have hkind : (fun v => decide (0x20 ≤ v) = true ∧ decodes v = false) =
      fun v : UInt8 => 0x80 ≤ v := by
    funext v
    rw [Bool.eq_false_iff, ne_eq, decodes_iff, decide_eq_true_iff]
    refine propext ⟨fun hv => ?_, fun hv => ⟨UInt8.le_trans (by decide) hv, fun hand => ?_⟩⟩
    · exact UInt8.not_lt.mp fun hlow => hv.2 ⟨hv.1, hlow⟩
    · exact UInt8.not_lt.mpr hv hand.2
  have hmore : ∀ v, decodes v = true → decide (0x20 ≤ v) = true := fun v hv =>
    decide_eq_true ((decodes_iff v).mp hv).1
  have hagree := resolve_eq_iff hmore text
  rw [hkind] at hagree
  rw [← hagree]
  constructor
  · rintro ⟨fuel, hdecode⟩
    have hlen := length_of_decode hdecode
    exact ⟨hlen, ((decode_eq_some_iff hlen).mp ⟨fuel, hdecode⟩).symm⟩
  · rintro ⟨hlen, hsame⟩
    exact (decode_eq_some_iff hlen).mpr hsame.symm

/-- The two bytes of a letter with an accent stay escaped. -/
theorem not_decode_resolves :
    resolve (fun v => 0x20 ≤ v) (ascii "%C3%A9") = [0xC3, 0xA9] ∧
      ¬∃ fuel, decode fuel (ascii "%C3%A9") =
        some (resolve (fun v => 0x20 ≤ v) (ascii "%C3%A9")) := by
  refine ⟨by decide, fun hdecode => ?_⟩
  have hsame := (decode_eq_some_iff (by decide)).mp hdecode
  exact absurd hsame (by decide)

/-- The encodings of the tests, and what is left as it is. -/
example :
    encode (ascii "1@too OP?[]") = ascii "1%40too%20OP%3f%5b%5d" ∧
      decode 20 (ascii "foo%2Fbar") = some (ascii "foo/bar") ∧
      decode 20 (ascii "foobar%% 7%0x%1") = some (ascii "foobar%% 7%0x%1") := by
  decide

end Url

end Turbolib
