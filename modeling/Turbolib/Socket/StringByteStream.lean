import Mathlib.Data.List.SplitLengths
import Mathlib.Data.List.TakeWhile
import Turbolib.Http.HttpByteStream

/-!
# Streams over a string

`StringByteStream` is read from one string and written to another. A read copies with `strncpy`,
which stops at a zero byte and fills up with zeros, and goes on behind as many bytes as it was
asked for.

## Main definitions

* `strncpy` — the function of the standard library.
* `StringByteStream.read`, `StringByteStream.write` — the two functions.
* `StringByteStream.run` — one read after the other.
-/

namespace Turbolib

/-- The memory at `dest` after `strncpy(dest, src, n)`. -/
def strncpy (dest src : Text) (n : ℕ) : Text :=
  let copied := (src.substr 0 n).cString
  copied ++ List.replicate (n - copied.length) 0 ++ dest.drop n

structure StringByteStream where
  packetLength : UInt32
  readBuffer : Text
  writeBuffer : Text

namespace StringByteStream

def new (readBuffer : Text) (packetLength : UInt32) : StringByteStream :=
  ⟨packetLength, readBuffer, []⟩

/-- A buffer of the caller, with room for what is asked for. -/
structure Request where
  buffer : Text
  length : UInt32
  room : length.toNat ≤ buffer.length

/-- What is returned, with the buffer afterwards. -/
def read (s : StringByteStream) (r : Request) : (Int32 × Text) × StringByteStream :=
  let bytes := min (UInt32.ofNat s.readBuffer.length) r.length
  if bytes = 0 then ((0, r.buffer), s)
  else
    ((bytes.toInt32, strncpy r.buffer s.readBuffer bytes.toNat),
      { s with readBuffer := s.readBuffer.drop bytes.toNat })

def write (s : StringByteStream) (b : Buffer) : Int32 × StringByteStream :=
  (Int32.ofNat b.1.length, { s with writeBuffer := s.writeBuffer ++ b.1 })

/-- As a stream that takes every byte. -/
def toAccepting : AcceptingStream StringByteStream where
  write := write
  written := writeBuffer
  written_write _ _ := rfl
  write_returns _ _ := rfl

/-- Reads one after the other, with what each returns and its buffer. -/
def run : StringByteStream → List Request → List (Int32 × Text) × StringByteStream
  | s, [] => ([], s)
  | s, r :: requests => ((s.read r).1 :: (run (s.read r).2 requests).1, (run (s.read r).2 requests).2)

/-! ## Faithful delivery -/

/-- The smaller of what is asked for and what remains, read after read. -/
def counts : ℕ → List ℕ → List ℕ
  | _, [] => []
  | remaining, n :: lengths => min n remaining :: counts (remaining - n) lengths

/-- The bytes of a buffer that its read has returned. -/
def delivered (result : Int32 × Text) : Text := result.2.take result.1.toNatClampNeg

/-- What reads of these lengths should make of a content. -/
structure Delivers (content : Text) (lengths : List ℕ) (results : List (Int32 × Text))
    (left : Text) : Prop where
  returns : results.map (fun r => r.1.toInt) =
    (counts content.length lengths).map fun n : ℕ => (n : ℤ)
  delivered : (results.map delivered).flatten = content.take lengths.sum
  left : left = content.drop lengths.sum

/-- What a copy for strings does not change: a zero byte has only zero bytes behind it. The
number of bytes is one of an `int`. -/
structure Plain (piece : Text) : Prop where
  zeros : ∀ c ∈ piece.dropWhile (· ≠ 0), c = 0
  short : piece.length < 2 ^ 31

/-! ## One read -/

/-- The number of bytes that a read copies. -/
def count (s : StringByteStream) (r : Request) : ℕ := min r.length.toNat s.readBuffer.length

theorem toNat_bytes (s : StringByteStream) (r : Request) (hs : s.readBuffer.length < 2 ^ 32) :
    (min (UInt32.ofNat s.readBuffer.length) r.length).toNat = s.count r := by
  have hsize : (UInt32.ofNat s.readBuffer.length).toNat = s.readBuffer.length :=
    UInt32.toNat_ofNat_of_lt' hs
  have hmin : min (UInt32.ofNat s.readBuffer.length) r.length =
      if UInt32.ofNat s.readBuffer.length ≤ r.length then .ofNat s.readBuffer.length
      else r.length := rfl
  rw [hmin, count]
  split_ifs with hle
  · rw [UInt32.le_iff_toNat_le] at hle
    omega
  · rw [UInt32.le_iff_toNat_le] at hle
    omega

/-- A read for no bytes is like the others, with nothing to copy. -/
theorem read_eq (s : StringByteStream) (r : Request) (hs : s.readBuffer.length < 2 ^ 32) :
    s.read r = ((Int32.ofNat (s.count r), strncpy r.buffer s.readBuffer (s.count r)),
      { s with readBuffer := s.readBuffer.drop r.length.toNat }) := by
  have hbytes := toNat_bytes s r hs
  have hreturn : (min (UInt32.ofNat s.readBuffer.length) r.length).toInt32 =
      Int32.ofNat (s.count r) := by
    rw [← hbytes, ← UInt32.toInt32_ofNat', UInt32.ofNat_toNat]
  have hdrop : s.readBuffer.drop (s.count r) = s.readBuffer.drop r.length.toNat := by
    rw [count]
    rcases Nat.le_total r.length.toNat s.readBuffer.length with hle | hle
    · rw [Nat.min_eq_left hle]
    · rw [Nat.min_eq_right hle, List.drop_length, List.drop_eq_nil_of_le hle]
  have hzero : min (UInt32.ofNat s.readBuffer.length) r.length = 0 ↔ s.count r = 0 := by
    rw [← UInt32.toNat_inj, hbytes]
    rfl
  rw [read]
  simp only [hzero, hreturn, hbytes, hdrop]
  split_ifs with hcount
  · have hcopy : strncpy r.buffer s.readBuffer 0 = r.buffer := by simp [strncpy, Text.substr, Text.cString]
    rw [← hdrop, hcount, hcopy, List.drop_zero]
    rfl
  · rfl

/-- Zeros behind the first zero byte are what a copy fills up with. -/
theorem padded_eq_iff (piece : Text) :
    piece.cString ++ List.replicate (piece.length - piece.cString.length) 0 = piece ↔
      ∀ c ∈ piece.dropWhile (· ≠ 0), c = 0 := by
  have hsplit : piece.cString ++ piece.dropWhile (· ≠ 0) = piece :=
    List.takeWhile_append_dropWhile
  have hlength : piece.cString.length + (piece.dropWhile (· ≠ 0)).length = piece.length := by
    rw [← List.length_append, hsplit]
  calc piece.cString ++ List.replicate (piece.length - piece.cString.length) 0 = piece
    _ ↔ List.replicate (piece.length - piece.cString.length) 0 = piece.dropWhile (· ≠ 0) := by
      nth_rewrite 4 [← hsplit]
      rw [List.append_right_inj]
    _ ↔ ∀ c ∈ piece.dropWhile (· ≠ 0), c = 0 := by
      rw [eq_comm, List.eq_replicate_iff]
      exact and_iff_right (by omega)

theorem take_strncpy (dest src : Text) (n : ℕ) :
    (strncpy dest src n).take n =
      (src.substr 0 n).cString ++ List.replicate (n - (src.substr 0 n).cString.length) 0 := by
  have hcString : (src.substr 0 n).cString.length ≤ n :=
    (List.takeWhile_sublist _).length_le.trans (List.length_take_le n _)
  rw [strncpy]
  refine List.take_left' ?_
  rw [List.length_append, List.length_replicate]
  omega

theorem toInt_ofNat_eq_iff {n : ℕ} (hn : n < 2 ^ 32) :
    (Int32.ofNat n).toInt = n ↔ n < 2 ^ 31 := by
  rw [toInt_ofNat hn]
  split_ifs <;> omega

variable (s : StringByteStream) (r : Request)

/-- What is returned is the length of the piece, as far as an `int` holds it. -/
theorem read_returns_iff (hs : s.readBuffer.length < 2 ^ 32) :
    (s.read r).1.1.toInt = (s.readBuffer.take r.length.toNat).length ↔
      (s.readBuffer.take r.length.toNat).length < 2 ^ 31 := by
  have hcount : (s.readBuffer.take r.length.toNat).length = s.count r := List.length_take
  rw [read_eq s r hs, hcount, toInt_ofNat_eq_iff (by rw [count]; omega)]

/-- Cut to what is returned, the buffer is the piece as it was copied. -/
theorem delivered_read (hs : s.readBuffer.length < 2 ^ 32)
    (hshort : (s.readBuffer.take r.length.toNat).length < 2 ^ 31) :
    delivered (s.read r).1 =
      Text.cString (s.readBuffer.take r.length.toNat) ++
        List.replicate ((s.readBuffer.take r.length.toNat).length -
          (Text.cString (s.readBuffer.take r.length.toNat)).length) 0 := by
  have hcount : (s.readBuffer.take r.length.toNat).length = s.count r := List.length_take
  have hpiece : s.readBuffer.substr 0 (s.count r) = s.readBuffer.take r.length.toNat := by
    rw [Text.substr, List.drop_zero, count, ← List.take_eq_take_min]
  have hreturn := (read_returns_iff s r hs).mpr hshort
  rw [delivered, Int32.toNatClampNeg, hreturn, Int.toNat_natCast, hcount, read_eq s r hs,
    take_strncpy, hpiece]

theorem length_delivered (hs : s.readBuffer.length < 2 ^ 32)
    (hreturn : (s.read r).1.1.toInt = (s.readBuffer.take r.length.toNat).length) :
    (delivered (s.read r).1).length = (s.readBuffer.take r.length.toNat).length := by
  have hcString := (List.takeWhile_sublist (l := s.readBuffer.take r.length.toNat)
    (· ≠ (0 : UInt8))).length_le
  rw [delivered_read s r hs ((read_returns_iff s r hs).mp hreturn), List.length_append,
    List.length_replicate, Text.cString]
  omega

/-- One read delivers its piece just when the piece is plain. -/
theorem read_delivers_iff (hs : s.readBuffer.length < 2 ^ 32) :
    (s.read r).1.1.toInt = (s.readBuffer.take r.length.toNat).length ∧
        delivered (s.read r).1 = s.readBuffer.take r.length.toNat ↔
      Plain (s.readBuffer.take r.length.toNat) := by
  rw [read_returns_iff s r hs]
  constructor
  · rintro ⟨hshort, hsame⟩
    rw [delivered_read s r hs hshort, padded_eq_iff] at hsame
    exact ⟨hsame, hshort⟩
  · rintro ⟨hzeros, hshort⟩
    refine ⟨hshort, ?_⟩
    rwa [delivered_read s r hs hshort, padded_eq_iff]

/-! ## Runs -/

theorem read_writeBuffer : (s.read r).2.writeBuffer = s.writeBuffer := by
  rw [read]
  split_ifs <;> rfl

/-- What was written stays as it is. -/
theorem written_run (requests : List Request) :
    toAccepting.written (s.run requests).2 = toAccepting.written s := by
  induction requests generalizing s with
  | nil => rfl
  | cons r requests ih => exact (ih (s.read r).2).trans (read_writeBuffer s r)

/-- The first result and the others, each with its part of the content. -/
theorem delivers_cons_iff {content : Text} {n : ℕ} {lengths : List ℕ} {result : Int32 × Text}
    {results : List (Int32 × Text)} {left : Text}
    (hlength : result.1.toInt = (content.take n).length →
      (delivered result).length = (content.take n).length) :
    Delivers content (n :: lengths) (result :: results) left ↔
      (result.1.toInt = (content.take n).length ∧ delivered result = content.take n) ∧
        Delivers (content.drop n) lengths results left := by
  constructor
  · rintro ⟨hreturns, hdelivered, hleft⟩
    rw [counts, List.map_cons, List.map_cons, ← List.length_take, List.cons.injEq] at hreturns
    obtain ⟨hreturn, hreturns⟩ := hreturns
    rw [List.map_cons, List.flatten_cons, List.sum_cons, List.take_add] at hdelivered
    obtain ⟨hfirst, hrest⟩ := List.append_inj hdelivered (hlength hreturn)
    refine ⟨⟨hreturn, hfirst⟩, ?_, hrest, ?_⟩
    · rw [hreturns, List.length_drop]
    · rw [hleft, List.sum_cons, List.drop_drop]
  · rintro ⟨⟨hreturn, hfirst⟩, hreturns, hrest, hleft⟩
    constructor
    · rw [counts, List.map_cons, List.map_cons, hreturn, hreturns, List.length_take,
        List.length_drop]
    · rw [List.map_cons, List.flatten_cons, hfirst, hrest, List.sum_cons, List.take_add]
    · rw [hleft, List.sum_cons, List.drop_drop]

/-- Reads deliver the content just when each piece of it is plain. -/
theorem run_delivers_iff (hs : s.readBuffer.length < 2 ^ 32) (requests : List Request) :
    Delivers s.readBuffer (requests.map fun r => r.length.toNat) (s.run requests).1
        (s.run requests).2.readBuffer ↔
      ∀ piece ∈ (requests.map fun r => r.length.toNat).splitLengths s.readBuffer,
        Plain piece := by
  induction requests generalizing s with
  | nil => simpa [run] using ⟨rfl, rfl, rfl⟩
  | cons r requests ih =>
    have hnext : (s.read r).2.readBuffer = s.readBuffer.drop r.length.toNat := by
      rw [read_eq s r hs]
    have hdrop : (s.read r).2.readBuffer.length < 2 ^ 32 := by
      rw [hnext, List.length_drop]
      omega
    have hrest := ih (s.read r).2 hdrop
    rw [hnext] at hrest
    rw [List.map_cons, run, List.splitLengths_cons, List.forall_mem_cons,
      delivers_cons_iff (length_delivered s r hs), read_delivers_iff s r hs, hrest]

/-- Three bytes, of which the last two are zero, read in pieces of one byte and of two. -/
theorem run_delivers_zeros :
    (new [1, 0, 0] 1024).readBuffer.length < 2 ^ 32 ∧
      Delivers [1, 0, 0] [1, 2]
        ((new [1, 0, 0] 1024).run [⟨[7], 1, by decide⟩, ⟨[7, 7], 2, by decide⟩]).1
        ((new [1, 0, 0] 1024).run [⟨[7], 1, by decide⟩, ⟨[7, 7], 2, by decide⟩]).2.readBuffer := by
  refine ⟨by decide, (run_delivers_iff (new [1, 0, 0] 1024) (by decide)
    [⟨[7], 1, by decide⟩, ⟨[7, 7], 2, by decide⟩]).mpr ?_⟩
  rintro piece hpiece
  obtain rfl | rfl : piece = [1] ∨ piece = [0, 0] := by simpa [new] using hpiece
  · exact ⟨by simp, by decide⟩
  · exact ⟨by simp, by decide⟩

/-- The byte behind a zero byte is not copied. -/
theorem run_loses_byte :
    ¬Delivers [0, 1] [2] ((new [0, 1] 1024).run [⟨[7, 7], 2, by decide⟩]).1
      ((new [0, 1] 1024).run [⟨[7, 7], 2, by decide⟩]).2.readBuffer := by
  rintro ⟨-, hdelivered, -⟩
  exact absurd hdelivered (by decide)

end StringByteStream

end Turbolib
