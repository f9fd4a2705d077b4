import Turbolib.Library.Chunked
import Turbolib.Serialize.Str

/-!
# Responses in chunks

`HttpByteStream` writes a header in front of the first buffer of a response and each buffer
as a chunk. An empty buffer is the last chunk, and `reset` makes it ready for the next
response.

## Main definitions

* `AcceptingStream` — a stream that takes every byte it is offered.
* `ShortStream` — a stream that may take only a leading part.
* `HttpByteStream` — what is written to one, with `write`, `setStatus` and `reset`.
* `HttpByteStream.run` — a sequence of calls.
-/

namespace Turbolib

/-- A pointer to bytes, with their number as an `unsigned`. -/
abbrev Buffer := { b : Text // b.length < 2 ^ 32 }

def Buffer.empty : Buffer := ⟨[], by decide⟩

/-- A number of bytes as an `int`. -/
theorem toInt_ofNat {n : ℕ} (hn : n < 2 ^ 32) :
    (Int32.ofNat n).toInt = if n < 2 ^ 31 then (n : ℤ) else n - 2 ^ 32 := by
  rw [Int32.toInt_ofNat', Int.bmod_def, show Int32.size = 2 ^ 32 from rfl]
  split_ifs <;> omega

/-- An `IByteStream` that takes every byte: `write` returns how many it was offered, as an
`int`. -/
structure AcceptingStream (σ : Type) where
  write : σ → Buffer → Int32 × σ
  /-- all that was written so far -/
  written : σ → Text
  written_write : ∀ s b, written (write s b).2 = written s ++ b.1
  write_returns : ∀ s b, (write s b).1 = Int32.ofNat b.1.length

/-- An `IByteStream` that takes a leading part of each buffer: `write` returns how much, as an
`int`. -/
structure ShortStream (σ : Type) where
  write : σ → Buffer → Int32 × σ
  /-- all that was taken so far -/
  written : σ → Text
  /-- how many bytes of a buffer are taken -/
  accepted : σ → Buffer → ℕ
  accepted_le : ∀ s b, accepted s b ≤ b.1.length
  written_write : ∀ s b, written (write s b).2 = written s ++ b.1.take (accepted s b)
  write_returns : ∀ s b, (write s b).1 = Int32.ofNat (accepted s b)

/-- A stream that takes every byte, as one that may not. -/
def AcceptingStream.toShort {σ : Type} (A : AcceptingStream σ) : ShortStream σ where
  write := A.write
  written := A.written
  accepted _ b := b.1.length
  accepted_le _ _ := Nat.le_refl _
  written_write s b := by rw [A.written_write, List.take_length]
  write_returns := A.write_returns

/-- `StringByteStream`, of which only `_writeBuffer` changes. -/
def StringByteStream.accepting : AcceptingStream Text where
  write writeBuffer b := (Int32.ofNat b.1.length, writeBuffer ++ b.1)
  written writeBuffer := writeBuffer
  written_write _ _ := rfl
  write_returns _ _ := rfl

namespace StatusCode

/-- `StatusCode::str` -/
def str (code : Int32) : Text := Turbolib.str .int code

def verbose (code : Int32) : Text :=
  if code = 200 then ascii "Success"
  else if code = 201 then ascii "Created"
  else if code = 202 then ascii "Accepted"
  else if code = 203 then ascii "Partial Content"
  else if code = 400 then ascii "Bad Request"
  else if code = 404 then ascii "File Not Found"
  else if code = 406 then ascii "Not Acceptable"
  else ascii "Internal Server Error"

/-- The words stay on the line. -/
theorem verbose_line (code : Int32) : 0x0D ∉ verbose code ∧ (verbose code).length ≤ 21 := by
  rw [verbose]
  split_ifs <;> decide

theorem length_str_le (code : Int32) : (str code).length ≤ 11 := by
  have hlo := Int32.le_toInt code
  have hhi := Int32.toInt_lt code
  have hdigits := Numeral.length_write_le (b := 10) (k := 10) (n := code.toInt.natAbs) (by omega)
    (by omega) (by omega)
  show (Numeral.writeInt 10 code.toInt).length ≤ 11
  rw [Numeral.writeInt]
  split_ifs
  · rw [List.length_cons]
    omega
  · omega

end StatusCode

/-! ## The stream -/

structure HttpByteStream (σ : Type) where
  stream : σ
  status : Int32
  wroteHeader : Bool

namespace HttpByteStream

variable {σ : Type}

def new (stream : σ) : HttpByteStream σ := ⟨stream, 200, false⟩

/-- The text that `writeHeader` puts together. -/
def headerText (status : Int32) : Text :=
  ascii "HTTP/1.1 " ++ StatusCode.str status ++ ascii " " ++ StatusCode.verbose status ++
    ascii "\r\n" ++ ascii "transfer-encoding: chunked\r\n\r\n"

theorem length_headerText_lt (status : Int32) : (headerText status).length < 2 ^ 32 := by
  have hstr := StatusCode.length_str_le status
  have hverbose := (StatusCode.verbose_line status).2
  have hhttp : (ascii "HTTP/1.1 ").length = 9 := by decide
  have hblank : (ascii " ").length = 1 := by decide
  have hline : (ascii "\r\n").length = 2 := by decide
  have hencoding : (ascii "transfer-encoding: chunked\r\n\r\n").length = 30 := by decide
  simp only [headerText, List.length_append]
  omega

theorem length_hexStr_lt (n : UInt32) : (hexStr n ++ ascii "\r\n").length < 2 ^ 32 := by
  have hn := n.toNat_lt
  have hdigits := Numeral.length_write_le (b := 16) (k := 8) (n := n.toNat) (by omega) (by omega)
    (by omega)
  have hline : (ascii "\r\n").length = 2 := by decide
  rw [List.length_append, hexStr]
  omega

def headerBuffer (status : Int32) : Buffer := ⟨headerText status, length_headerText_lt status⟩

def sizeLine (length : UInt32) : Buffer := ⟨hexStr length ++ ascii "\r\n", length_hexStr_lt length⟩

theorem length_lineEnd_lt : (ascii "\r\n").length < 2 ^ 32 := by decide

def lineEnd : Buffer := ⟨ascii "\r\n", length_lineEnd_lt⟩

def writeHeader (S : ShortStream σ) (h : HttpByteStream σ) : HttpByteStream σ :=
  { h with
    wroteHeader := true
    stream := (S.write h.stream (headerBuffer h.status)).2 }

def write (S : ShortStream σ) (h : HttpByteStream σ) (buffer : Buffer) :
    Int32 × HttpByteStream σ :=
  let h := if !h.wroteHeader then h.writeHeader S else h
  let length := UInt32.ofNat buffer.1.length
  let stream := (S.write h.stream (sizeLine length)).2
  let (bytesWritten, stream) := if 0 < length then S.write stream buffer else (0, stream)
  (bytesWritten, { h with stream := (S.write stream lineEnd).2 })

def setStatus (h : HttpByteStream σ) (code : Int32) : HttpByteStream σ := { h with status := code }

def reset (h : HttpByteStream σ) : HttpByteStream σ :=
  { h with wroteHeader := false, status := 200 }

/-! ## Calls -/

inductive Call where
  | setStatus (code : Int32)
  | write (buffer : Buffer)
  | reset

/-- One call on a stream that takes every byte, with what it returns if it is a write. -/
def call (A : AcceptingStream σ) (h : HttpByteStream σ) : Call → List Int32 × HttpByteStream σ
  | .setStatus code => ([], h.setStatus code)
  | .write buffer => ([(h.write A.toShort buffer).1], (h.write A.toShort buffer).2)
  | .reset => ([], h.reset)

/-- The calls one after the other, with all that the writes return. -/
def run (A : AcceptingStream σ) : HttpByteStream σ → List Call → List Int32 × HttpByteStream σ
  | h, [] => ([], h)
  | h, c :: calls =>
    ((h.call A c).1 ++ (run A (h.call A c).2 calls).1, (run A (h.call A c).2 calls).2)

theorem run_append (A : AcceptingStream σ) (h : HttpByteStream σ) (calls calls' : List Call) :
    run A h (calls ++ calls') =
      ((run A h calls).1 ++ (run A (run A h calls).2 calls').1,
        (run A (run A h calls).2 calls').2) := by
  induction calls generalizing h with
  | nil => rfl
  | cons c calls ih =>
    rw [List.cons_append, run, run, ih, List.append_assoc]

end HttpByteStream

end Turbolib
