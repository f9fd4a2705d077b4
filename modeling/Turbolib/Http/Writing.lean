import Turbolib.Socket.FileByteStream

/-!
# A write, stage by stage

`HttpByteStream::write` over any stream: the header if it was not yet written, the size of the
buffer, as much of its data as the stream takes, and the end of the line.

## Main definitions

* `HttpByteStream.taken` — how much of the data is taken.
* `HttpByteStream.FramingInFull` — all but the data is taken in full.
-/

namespace Turbolib

namespace HttpByteStream

variable {σ : Type} (S : ShortStream σ)

/-! ## Writing -/

/-- With the header written. -/
def headed (h : HttpByteStream σ) : HttpByteStream σ :=
  if !h.wroteHeader then h.writeHeader S else h

/-- The stream that the data of a buffer are offered to, behind their size. -/
def announced (h : HttpByteStream σ) (buffer : Buffer) : σ :=
  (S.write (h.headed S).stream (sizeLine (.ofNat buffer.1.length))).2

/-- The data of a buffer, with what their write returns. -/
def dataWritten (h : HttpByteStream σ) (buffer : Buffer) : Int32 × σ :=
  if 0 < UInt32.ofNat buffer.1.length then S.write (h.announced S buffer) buffer
  else (0, h.announced S buffer)

theorem write_eq (h : HttpByteStream σ) (buffer : Buffer) :
    h.write S buffer = ((h.dataWritten S buffer).1,
      { h.headed S with stream := (S.write (h.dataWritten S buffer).2 lineEnd).2 }) := rfl

/-- How much of the data is taken. -/
def taken (h : HttpByteStream σ) (buffer : Buffer) : ℕ := S.accepted (h.announced S buffer) buffer

theorem taken_le (h : HttpByteStream σ) (b : Buffer) : h.taken S b ≤ b.1.length :=
  S.accepted_le _ b

/-- All but the data is taken in full. -/
structure FramingInFull (h : HttpByteStream σ) (buffer : Buffer) : Prop where
  header : h.wroteHeader = false →
    S.accepted h.stream (headerBuffer h.status) = (headerBuffer h.status).1.length
  size : S.accepted (h.headed S).stream (sizeLine (.ofNat buffer.1.length)) =
    (sizeLine (.ofNat buffer.1.length)).1.length
  ending : S.accepted (h.dataWritten S buffer).2 lineEnd = lineEnd.1.length

/-! ## What a write adds -/

/-- A chunk that announces a whole buffer and has the first bytes of it. -/
def shortChunk (b : Buffer) (k : ℕ) : Text :=
  Numeral.write 16 b.1.length ++ crlf ++ b.1.take k ++ crlf

/-- The line of the size and the two ends of lines. -/
theorem length_shortChunk {b : Buffer} {k : ℕ} (hk : k ≤ b.1.length) :
    k + 5 ≤ (shortChunk b k).length := by
  have hsize := List.length_pos_iff.mpr (Numeral.write_ne_nil (b := 16) (n := b.1.length))
  have hcrlf : crlf.length = 2 := rfl
  simp only [shortChunk, List.length_append, List.length_take_of_le hk, hcrlf]
  omega

theorem lineEnd_text : lineEnd.1 = crlf := by decide

theorem sizeLine_text (b : Buffer) :
    (sizeLine (.ofNat b.1.length)).1 = Numeral.write 16 b.1.length ++ crlf := by
  have hcrlf : ascii "\r\n" = crlf := by decide
  show hexStr (.ofNat b.1.length) ++ ascii "\r\n" = _
  rw [hexStr, UInt32.toNat_ofNat_of_lt' b.2, hcrlf]

/-- What a stream takes in full is written. -/
theorem written_of_full {s : σ} {b : Buffer} (hfull : S.accepted s b = b.1.length) :
    S.written (S.write s b).2 = S.written s ++ b.1 := by
  rw [S.written_write, hfull, List.take_length]

variable {S} {h : HttpByteStream σ} {b : Buffer}

theorem headed_spec (hheader : h.wroteHeader = false →
      S.accepted h.stream (headerBuffer h.status) = (headerBuffer h.status).1.length) :
    S.written (h.headed S).stream =
        S.written h.stream ++ (if h.wroteHeader then [] else headerText h.status) ∧
      (h.headed S).status = h.status ∧ (h.headed S).wroteHeader = true := by
  cases hw : h.wroteHeader with
  | true => simp [headed, hw]
  | false =>
    have hheaded : h.headed S = h.writeHeader S := by simp [headed, hw]
    rw [hheaded]
    exact ⟨written_of_full S (hheader hw), rfl, rfl⟩

theorem announced_spec (hframing : FramingInFull S h b) :
    S.written (h.announced S b) =
      S.written h.stream ++ ((if h.wroteHeader then [] else headerText h.status) ++
        (Numeral.write 16 b.1.length ++ crlf)) := by
  rw [announced, written_of_full S hframing.size, (headed_spec hframing.header).1, sizeLine_text,
    List.append_assoc]

theorem dataWritten_spec (S : ShortStream σ) (h : HttpByteStream σ) (b : Buffer) :
    S.written (h.dataWritten S b).2 =
        S.written (h.announced S b) ++ b.1.take (h.taken S b) ∧
      (h.dataWritten S b).1 = Int32.ofNat (h.taken S b) := by
  have hpos : 0 < UInt32.ofNat b.1.length ↔ b.1 ≠ [] := by
    rw [UInt32.lt_iff_toNat_lt, UInt32.toNat_ofNat_of_lt' b.2, ← List.length_pos_iff]
    rfl
  by_cases hb : b.1 = []
  · have htaken : h.taken S b = 0 := by
      have hle := taken_le S h b
      rw [hb] at hle
      exact Nat.le_zero.mp hle
    rw [dataWritten, if_neg (by rwa [hpos, not_not]), htaken, List.take_zero, List.append_nil]
    exact ⟨rfl, rfl⟩
  · rw [dataWritten, if_pos (hpos.mpr hb)]
    exact ⟨S.written_write _ _, S.write_returns _ _⟩

theorem write_short_spec (hframing : FramingInFull S h b) :
    (h.write S b).1 = Int32.ofNat (h.taken S b) ∧
      S.written (h.write S b).2.stream =
        S.written h.stream ++ ((if h.wroteHeader then [] else headerText h.status) ++
          shortChunk b (h.taken S b)) ∧
      (h.write S b).2.status = h.status ∧ (h.write S b).2.wroteHeader = true := by
  obtain ⟨-, hstatus, hheader⟩ := headed_spec hframing.header
  obtain ⟨hwritten, hreturn⟩ := dataWritten_spec S h b
  rw [write_eq]
  refine ⟨hreturn, ?_, hstatus, hheader⟩
  rw [written_of_full S hframing.ending, hwritten, announced_spec hframing, lineEnd_text,
    shortChunk]
  simp only [List.append_assoc]

end HttpByteStream

end Turbolib
