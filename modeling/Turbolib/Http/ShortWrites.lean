import Turbolib.Http.Framing

/-!
# Responses over streams that take a part

`HttpByteStream::write` has announced the length of a buffer before it knows how much of it the
stream takes. What is behind a short write is read as the missing bytes.

## Main definitions

* `HttpByteStream.Submits` — a payload, with what was not taken submitted again.
-/

namespace Turbolib

/-- What is behind the first bytes of a buffer. -/
def Buffer.behind (b : Buffer) (n : ℕ) : Buffer :=
  ⟨b.1.drop n, by rw [List.length_drop]; exact (Nat.sub_le _ _).trans_lt b.2⟩

namespace HttpByteStream

section

variable {σ : Type} (S : ShortStream σ)

/-- A rest is submitted, and then what of it the return value says was not taken, until nothing
is left. A negative number says that nothing was taken. -/
inductive Submits : HttpByteStream σ → Buffer → HttpByteStream σ → Prop where
  | done {h : HttpByteStream σ} {rest : Buffer} (hrest : rest.1 = []) : Submits h rest h
  | write {h h' : HttpByteStream σ} {rest : Buffer} (hrest : rest.1 ≠ [])
      (hframing : FramingInFull S h rest)
      (hbehind : Submits (h.write S rest).2
        (rest.behind (h.write S rest).1.toNatClampNeg) h') :
      Submits h rest h'

end

variable {σ : Type} {S : ShortStream σ} {h h' : HttpByteStream σ} {rest : Buffer}

/-! ## What a run adds -/

/-- What is written for a rest: nothing where nothing is left; otherwise more bytes than are
left, and the end of a line behind them. -/
inductive Framed (rest : Text) : Text → Prop where
  | none (hrest : rest = []) : Framed rest []
  | lines {before : Text} (hlength : rest.length < before.length + 2) : Framed rest (before ++ crlf)

theorem toNatClampNeg_ofNat_le {k : ℕ} (hk : k < 2 ^ 32) : (Int32.ofNat k).toNatClampNeg ≤ k := by
  rw [Int32.toNatClampNeg, asInt_eq hk, asInt]
  split_ifs <;> omega

/-- A chunk with at least as many bytes as are not submitted again. -/
theorem Framed.chunk {k j : ℕ} {text : Text} (hk : k ≤ rest.1.length) (hj : j ≤ k)
    (hframed : Framed (rest.1.drop j) text) : Framed rest.1 (shortChunk rest k ++ text) := by
  have hchunk := length_shortChunk hk
  cases hframed with
  | none hnone =>
    have hlength : rest.1.length ≤ j := List.drop_eq_nil_iff.mp hnone
    have hcrlf : crlf.length = 2 := rfl
    rw [List.append_nil, shortChunk]
    refine .lines ?_
    rw [shortChunk, List.length_append] at hchunk
    omega
  | @lines before hlength =>
    rw [← List.append_assoc]
    refine .lines ?_
    rw [List.length_drop] at hlength
    rw [List.length_append]
    omega

theorem submits_spec (hrun : Submits S h rest h') (hheader : h.wroteHeader = true) :
    ∃ text, S.written h'.stream = S.written h.stream ++ text ∧ Framed rest.1 text ∧
      h'.status = h.status ∧ h'.wroteHeader = true := by
  induction hrun with
  | done hrest => exact ⟨[], (List.append_nil _).symm, .none hrest, rfl, hheader⟩
  | @write h h' rest hrest hframing hbehind ih =>
    obtain ⟨hreturn, hwritten, hstatus, hheader'⟩ := write_short_spec hframing
    obtain ⟨text, hwritten', hframed, hstatus', hheader''⟩ := ih hheader'
    have hk := taken_le S h rest
    have hj := toNatClampNeg_ofNat_le (hk.trans_lt rest.2)
    rw [if_pos hheader, List.nil_append] at hwritten
    rw [hreturn] at hframed
    refine ⟨shortChunk rest (h.taken S rest) ++ text, ?_, hframed.chunk hk hj,
      hstatus'.trans hstatus, hheader''⟩
    rw [hwritten', hwritten, List.append_assoc]

/-! ## Messages -/

/-- The end of a line is no digit, and one digit alone is too short. -/
theorem not_digits_behind {data before last : Text}
    (hlast : ∀ c ∈ last, Numeral.isDigit 16 c = true)
    (hlength : data.length < before.length) :
    before ++ crlf ++ [byte '0'] ≠ data ++ crlf ++ last := by
  intro hsame
  have hcrlf : crlf = [0x0D] ++ [0x0A] := rfl
  have htwo : crlf.length = 2 := rfl
  obtain rfl | ⟨first, c, rfl⟩ := List.eq_nil_or_concat' last
  · have hlengths := congrArg List.length hsame
    simp only [List.length_append, List.length_singleton, List.length_nil, htwo] at hlengths
    omega
  rw [← List.append_assoc (data ++ crlf)] at hsame
  have hbefore := (List.append_inj' hsame rfl).1
  obtain rfl | ⟨first, d, rfl⟩ := List.eq_nil_or_concat' first
  · have hlengths := congrArg List.length hbefore
    simp only [List.length_append, List.length_nil, htwo] at hlengths
    omega
  · rw [← List.append_assoc (data ++ crlf), hcrlf, ← List.append_assoc before] at hbefore
    obtain rfl : 0x0A = d := (List.cons.inj (List.append_inj' hbefore rfl).2).1
    exact absurd (hlast 0x0A (by simp)) (by decide)

/-- A body that begins with the size of all its contents has all of them behind it: what comes
from later writes is neither too short nor a line of zeros. -/
theorem whole_of_body {payload text : Text} {k j : ℕ} (hpayload : payload ≠ []) (hj : j ≤ k)
    (hframed : Framed (payload.drop j) text)
    (hbody : Chunked.Body (Numeral.write 16 payload.length ++ crlf ++
      (payload.take k ++ (crlf ++ (text ++ (Numeral.write 16 0 ++ crlf ++ crlf))))) payload) :
    payload.length ≤ j := by
  cases hframed with
  | none hrest => exact List.drop_eq_nil_iff.mp hrest
  | @lines before hlength =>
    obtain ⟨last, hlast, hsame⟩ := hbody.only_chunk (Chunked.Size.write _) hpayload
    have hzero : Numeral.write 16 0 = [byte '0'] := by decide
    -- without the bytes that were taken in front, and the ends of lines at the end
    have hcut : crlf ++ before ++ crlf ++ [byte '0'] = payload.drop k ++ crlf ++ last := by
      refine (List.append_right_inj (payload.take k)).mp ?_
      refine (List.append_left_inj (crlf ++ crlf)).mp ?_
      calc payload.take k ++ (crlf ++ before ++ crlf ++ [byte '0']) ++ (crlf ++ crlf)
        _ = payload.take k ++
            (crlf ++ (before ++ crlf ++ (Numeral.write 16 0 ++ crlf ++ crlf))) := by
          rw [hzero]
          simp only [List.append_assoc]
        _ = payload.take k ++ payload.drop k ++ crlf ++ (last ++ crlf ++ crlf) := by
          rw [hsame, List.take_append_drop]
        _ = payload.take k ++ (payload.drop k ++ crlf ++ last) ++ (crlf ++ crlf) := by
          simp only [List.append_assoc]
    refine absurd hcut (not_digits_behind hlast.digit ?_)
    have htwo : crlf.length = 2 := rfl
    rw [List.length_drop] at hlength ⊢
    rw [List.length_append, htwo]
    omega

theorem le_toNatClampNeg_ofNat_iff {k n : ℕ} (hn : 0 < n) (hk : k ≤ n) (hlt : n < 2 ^ 32) :
    n ≤ (Int32.ofNat k).toNatClampNeg ↔ k = n ∧ n < 2 ^ 31 := by
  rw [Int32.toNatClampNeg, asInt_eq (hk.trans_lt hlt), asInt]
  split_ifs <;> omega

theorem Submits.eq_of_nil (hrun : Submits S h rest h') (hrest : rest.1 = []) : h' = h := by
  cases hrun with
  | done _ => rfl
  | write hne _ _ => exact absurd hrest hne

/-- Whatever part of a payload is taken at a time, the message is the one of the payload just
when the first write has taken all of it. Any other size line announces more than is behind it. -/
theorem submits_message_iff (S : ShortStream σ) {h h' : HttpByteStream σ} {payload : Buffer}
    (hheader : h.wroteHeader = false) (hrun : Submits S h payload h')
    (hlast : FramingInFull S h' .empty) :
    (∃ body, S.written (h'.write S .empty).2.stream =
        S.written h.stream ++ (headerText h.status ++ body) ∧ Chunked.Body body payload.1) ↔
      payload.1 = [] ∨
        S.accepted (h.announced S payload) payload = payload.1.length ∧
          payload.1.length < 2 ^ 31 := by
  obtain ⟨-, hwritten, -, -⟩ := write_short_spec hlast
  have hempty : shortChunk .empty (h'.taken S .empty) = Numeral.write 16 0 ++ crlf ++ crlf := by
    simp [shortChunk, Buffer.empty]
  rw [hempty] at hwritten
  cases hrun with
  | done hpayload =>
    refine iff_of_true ⟨Numeral.write 16 0 ++ crlf ++ crlf, ?_, ?_⟩ (.inl hpayload)
    · rw [hwritten, if_neg (by simp [hheader])]
    · exact hpayload ▸ Chunked.Body.last (Chunked.Size.write 0)
  | write hpayload hframing hbehind =>
    obtain ⟨hreturn, hfirst, -, hheader'⟩ := write_short_spec hframing
    obtain ⟨text, hthen, hframed, -, hheader''⟩ := submits_spec hbehind hheader'
    have hk := taken_le S h payload
    have hpos := List.length_pos_iff.mpr hpayload
    rw [hreturn] at hframed
    -- what the run adds, from the first size line on
    have hall : S.written (h'.write S .empty).2.stream = S.written h.stream ++
        (headerText h.status ++ (shortChunk payload (h.taken S payload) ++
          (text ++ (Numeral.write 16 0 ++ crlf ++ crlf)))) := by
      rw [hwritten, if_pos hheader'', hthen, hfirst, if_neg (by simp [hheader])]
      simp only [List.append_assoc, List.nil_append]
    rw [or_iff_right hpayload, hall]
    constructor
    · rintro ⟨body, hsame, hbody⟩
      obtain rfl := List.append_cancel_left (List.append_cancel_left hsame)
      have hle := whole_of_body hpayload
        (toNatClampNeg_ofNat_le (hk.trans_lt payload.2)) hframed (by
          simpa only [shortChunk, List.append_assoc] using hbody)
      exact (le_toNatClampNeg_ofNat_iff hpos hk payload.2).mp hle
    · rintro ⟨htaken, hshort⟩
      have hle := (le_toNatClampNeg_ofNat_iff hpos hk payload.2).mpr ⟨htaken, hshort⟩
      have hnone : payload.1.drop (h.write S payload).1.toNatClampNeg = [] := by
        rw [hreturn]
        exact List.drop_eq_nil_of_le hle
      obtain rfl := hbehind.eq_of_nil hnone
      obtain rfl : text = [] := List.self_eq_append_right.mp hthen
      have hchunk : shortChunk payload (h.taken S payload) = chunkText payload := by
        rw [shortChunk, taken, htaken, List.take_length, chunkText]
      have hbody := body_chunkText [payload] (by simpa using hpayload)
      refine ⟨_, rfl, ?_⟩
      rw [hchunk]
      simpa [chunkText, Buffer.empty] using hbody

/-! ## Over a connection -/

/-- A connection that takes three bytes of data at once. -/
theorem submits_message_abc :
    let S := FileByteStream.short
    let h := new (⟨[], [100, 100, 3]⟩ : Connection)
    let payload : Buffer := ⟨ascii "abc", by decide⟩
    ∃ h', h.wroteHeader = false ∧ Submits S h payload h' ∧ FramingInFull S h' .empty ∧
      ∃ body, S.written (h'.write S .empty).2.stream =
          S.written h.stream ++ (headerText h.status ++ body) ∧ Chunked.Body body payload.1 := by
  intro S h payload
  have hrun : Submits S h payload (h.write S payload).2 :=
    .write (by decide) ⟨by decide +kernel, by decide +kernel, by decide +kernel⟩
      (.done (by decide +kernel))
  have hlast : FramingInFull S (h.write S payload).2 .empty :=
    ⟨by decide +kernel, by decide +kernel, by decide +kernel⟩
  exact ⟨_, rfl, hrun, hlast, (submits_message_iff S rfl hrun hlast).mpr
    (.inr ⟨by decide +kernel, by decide⟩)⟩

/-- A connection that takes one byte of two, and then the other. -/
theorem short_write_corrupts :
    let S := FileByteStream.short
    let h := new (⟨[], [100, 100, 1]⟩ : Connection)
    let payload : Buffer := ⟨ascii "ab", by decide⟩
    ∃ h', h.wroteHeader = false ∧ Submits S h payload h' ∧ FramingInFull S h' .empty ∧
      ¬∃ body, S.written (h'.write S .empty).2.stream =
          S.written h.stream ++ (headerText h.status ++ body) ∧ Chunked.Body body payload.1 := by
  intro S h payload
  -- the second write is for the byte that was not taken by the first one
  have hrun : Submits S h payload
      ((h.write S payload).2.write S ⟨ascii "b", by decide⟩).2 :=
    .write (by decide) ⟨by decide +kernel, by decide +kernel, by decide +kernel⟩
      (.write (by decide +kernel) ⟨by decide +kernel, by decide +kernel, by decide +kernel⟩
        (.done (by decide +kernel)))
  refine ⟨_, rfl, hrun, ⟨by decide +kernel, by decide +kernel, by decide +kernel⟩, ?_⟩
  rintro ⟨body, hsame, hbody⟩
  have hwritten : S.written (((h.write S payload).2.write S ⟨ascii "b", by decide⟩).2.write S
      .empty).2.stream =
        [] ++ (headerText 200 ++ ascii "2\r\na\r\n1\r\nb\r\n0\r\n\r\n") := by
    decide +kernel
  rw [hwritten] at hsame
  obtain rfl := List.append_cancel_left (List.append_cancel_left hsame)
  exact absurd (Chunked.read_append hbody []) (by decide +kernel)

end HttpByteStream

end Turbolib
