import Mathlib.Data.List.Forall2
import Turbolib.Http.Writing

/-!
# Chunked framing over whole sessions

What a session writes is one message for each response, a header and a chunked body. The
header ends with an empty line and the body with its last chunk, so that the messages can be
told apart whatever the buffers contain.

## Main definitions

* `HttpByteStream.Response` — the calls of one response.
* `HttpByteStream.Message` — what a response should look like on the stream.
* `HttpByteStream.readSession` — the messages of a stream.
-/

namespace Turbolib

namespace HttpByteStream

/-! ## Sessions and messages -/

/-- The status that is set, if any, and the buffers that are written before the empty one. -/
structure Response where
  status : Option Int32
  buffers : List Buffer
  nonempty : ∀ b ∈ buffers, b.1 ≠ []

namespace Response

def calls (r : Response) : List Call :=
  (r.status.map Call.setStatus).toList ++
    (r.buffers.map Call.write ++ [.write .empty, .reset])

def code (r : Response) : Int32 := r.status.getD 200

def contents (r : Response) : Text := r.buffers.flatMap fun b => b.1

end Response

/-- One status line and header block, and a well-formed body that stands for the contents. -/
def Message (r : Response) (message : Text) : Prop :=
  ∃ body, message = headerText r.code ++ body ∧ Chunked.Body body r.contents

/-- What an `int` holds of an `unsigned`. -/
def asInt (length : ℕ) : ℤ := if length < 2 ^ 31 then length else length - 2 ^ 32

/-- What the writes of a response return. -/
def Response.returns (r : Response) : List ℤ := (r.buffers.map fun b => asInt b.1.length) ++ [0]

/-- The status code of the header at the front of a text, and what is behind the header. -/
def readHeader (s : Text) : Option (ℤ × Text) := do
  let s ← Text.behind (ascii "HTTP/1.1 ") s
  let (negative, s) := Numeral.takeSign s
  let digits := Numeral.span 10 s
  let code : ℤ := Numeral.value 10 digits
  let s ← Text.behind (ascii "\r\ntransfer-encoding: chunked\r\n\r\n")
    ((s.drop digits.length).dropWhile (· ≠ 0x0D))
  some (if negative then -code else code, s)

/-- The code and the contents of each message, up to the end of the text. -/
def readFrom : ℕ → Text → Option (List (ℤ × Text))
  | 0, _ => none
  | fuel + 1, s =>
    if s = [] then some []
    else do
      let (code, s) ← readHeader s
      let (contents, s) ← Chunked.read s
      let rest ← readFrom fuel s
      some ((code, contents) :: rest)

def readSession (s : Text) : Option (List (ℤ × Text)) := readFrom (s.length + 1) s

/-! ## Reading a header -/

theorem readHeader_append (code : Int32) (s : Text) :
    readHeader (headerText code ++ s) = some (code.toInt, s) := by
  have hline : 0x0D ∉ ascii " " ++ StatusCode.verbose code := by
    rw [List.mem_append, not_or]
    exact ⟨by decide, (StatusCode.verbose_line code).1⟩
  have hend : ascii "\r\n" ++ ascii "transfer-encoding: chunked\r\n\r\n" =
      ascii "\r\ntransfer-encoding: chunked\r\n\r\n" := by decide
  have hheader : headerText code ++ s = ascii "HTTP/1.1 " ++
      (Numeral.writeInt 10 code.toInt ++ (ascii " " ++ StatusCode.verbose code ++
        (ascii "\r\ntransfer-encoding: chunked\r\n\r\n" ++ s))) := by
    rw [headerText, ← hend, StatusCode.str, Turbolib.str]
    simp only [List.append_assoc]
  have hspan := Numeral.span_write_append (b := 10) (by omega) (by omega) code.toInt.natAbs
    (ascii " " ++ StatusCode.verbose code ++
      (ascii "\r\ntransfer-encoding: chunked\r\n\r\n" ++ s)) rfl
  have hphrase : (ascii " " ++ StatusCode.verbose code ++
        (ascii "\r\ntransfer-encoding: chunked\r\n\r\n" ++ s)).dropWhile (· ≠ 0x0D) =
      ascii "\r\ntransfer-encoding: chunked\r\n\r\n" ++ s := by
    rw [List.dropWhile_append_of_pos]
    · rfl
    · intro c hc
      exact decide_eq_true fun hcr => hline (hcr ▸ hc)
  have hvalue := Numeral.value_write (b := 10) (n := code.toInt.natAbs) (by omega) (by omega)
  rw [hheader, readHeader, Text.behind_append]
  simp only [Option.bind_eq_bind, Option.bind_some,
    Numeral.takeSign_writeInt_append (show 2 ≤ 10 by omega) (show 10 ≤ 36 by omega), hspan,
    List.drop_left, hphrase, hvalue, Text.behind_append]
  by_cases hneg : code.toInt < 0
  · simp only [hneg, decide_true, if_true]
    exact congrArg some (Prod.ext (by simp only; omega) rfl)
  · simp only [hneg, decide_false, Bool.false_eq_true, if_false]
    exact congrArg some (Prod.ext (by simp only; omega) rfl)

/-! ## Writing -/

variable {σ : Type} (A : AcceptingStream σ)

/-- What a write adds behind the header: a chunk, or the last one. -/
def chunkText (b : Buffer) : Text := Numeral.write 16 b.1.length ++ crlf ++ b.1 ++ crlf

theorem asInt_eq {n : ℕ} (hn : n < 2 ^ 32) : (Int32.ofNat n).toInt = asInt n := toInt_ofNat hn

/-- A stream that takes every byte takes the framing and the data. -/
theorem write_spec (h : HttpByteStream σ) (b : Buffer) :
    (h.write A.toShort b).1.toInt = asInt b.1.length ∧
      A.written (h.write A.toShort b).2.stream =
        A.written h.stream ++ ((if h.wroteHeader then [] else headerText h.status) ++ chunkText b) ∧
      (h.write A.toShort b).2.status = h.status ∧ (h.write A.toShort b).2.wroteHeader = true := by
  have hframing : FramingInFull A.toShort h b := ⟨fun _ => rfl, rfl, rfl⟩
  have hchunk : shortChunk b (h.taken A.toShort b) = chunkText b := by
    rw [shortChunk, show h.taken A.toShort b = b.1.length from rfl, List.take_length, chunkText]
  obtain ⟨hreturn, hwritten, hstatus, hheader⟩ := write_short_spec hframing
  rw [hchunk] at hwritten
  refine ⟨?_, hwritten, hstatus, hheader⟩
  rw [hreturn]
  exact asInt_eq b.2

/-- Writes behind a header add their chunks. -/
theorem run_writes (h : HttpByteStream σ) (hheader : h.wroteHeader = true) (bs : List Buffer) :
    (run A h (bs.map Call.write)).1.map Int32.toInt = bs.map (fun b => asInt b.1.length) ∧
      A.written (run A h (bs.map Call.write)).2.stream =
        A.written h.stream ++ bs.flatMap chunkText := by
  induction bs generalizing h with
  | nil => exact ⟨rfl, (List.append_nil _).symm⟩
  | cons b bs ih =>
    obtain ⟨hreturns, hwritten, -, hheader'⟩ := write_spec A h b
    obtain ⟨ihreturns, ihwritten⟩ := ih (h.write A.toShort b).2 hheader'
    rw [if_pos hheader, List.nil_append] at hwritten
    rw [List.map_cons, run, call]
    constructor
    · simp [hreturns, ihreturns]
    · rw [ihwritten, hwritten, List.flatMap_cons, List.append_assoc]

/-- The first of some writes puts the header in front. -/
theorem run_first_writes (h : HttpByteStream σ) (hheader : h.wroteHeader = false) (bs : List Buffer)
    (hbs : bs ≠ []) :
    (run A h (bs.map Call.write)).1.map Int32.toInt = bs.map (fun b => asInt b.1.length) ∧
      A.written (run A h (bs.map Call.write)).2.stream =
        A.written h.stream ++ (headerText h.status ++ bs.flatMap chunkText) := by
  obtain ⟨b, bs, rfl⟩ := List.exists_cons_of_ne_nil hbs
  obtain ⟨hreturns, hwritten, -, hheader'⟩ := write_spec A h b
  obtain ⟨hrest, hwritten'⟩ := run_writes A (h.write A.toShort b).2 hheader' bs
  rw [if_neg (by simp [hheader])] at hwritten
  rw [List.map_cons, run, call]
  constructor
  · simp [hreturns, hrest]
  · simp only [hwritten', hwritten, List.flatMap_cons, List.append_assoc]

/-- Ready for a response. -/
structure Fresh (h : HttpByteStream σ) : Prop where
  status : h.status = 200
  wroteHeader : h.wroteHeader = false

/-- What a response adds to the stream. -/
def Response.text (r : Response) : Text :=
  headerText r.code ++ (r.buffers.flatMap chunkText ++ chunkText .empty)

/-- One response from a fresh state to the next one. -/
theorem run_response (h : HttpByteStream σ) (hfresh : Fresh h) (r : Response) :
    (run A h r.calls).1.map Int32.toInt = r.returns ∧
      A.written (run A h r.calls).2.stream = A.written h.stream ++ r.text ∧
      Fresh (run A h r.calls).2 := by
  -- the status, then the writes, then the reset
  obtain ⟨h', hset, hstream, hstatus, hheader⟩ : ∃ h',
      run A h (r.status.map Call.setStatus).toList = ([], h') ∧ h'.stream = h.stream ∧
        h'.status = r.code ∧ h'.wroteHeader = false := by
    cases hr : r.status with
    | none => exact ⟨h, rfl, rfl, by simp [Response.code, hr, hfresh.status], hfresh.wroteHeader⟩
    | some code =>
      exact ⟨h.setStatus code, rfl, rfl, by simp [Response.code, hr, setStatus],
        hfresh.wroteHeader⟩
  have hcalls : r.calls = (r.status.map Call.setStatus).toList ++
      ((r.buffers ++ [Buffer.empty]).map Call.write ++ [Call.reset]) := by
    simp [Response.calls]
  obtain ⟨hreturns, hwritten⟩ :=
    run_first_writes A h' hheader (r.buffers ++ [Buffer.empty]) (by simp)
  rw [hcalls, run_append, hset, run_append]
  refine ⟨?_, ?_, ⟨rfl, rfl⟩⟩
  · simpa [run, call, Response.returns, asInt, Buffer.empty] using hreturns
  · simpa [run, call, reset, hstream, hstatus, Response.text] using hwritten

/-- A session goes from response to response. -/
theorem run_session (h : HttpByteStream σ) (hfresh : Fresh h) (responses : List Response) :
    (run A h (responses.flatMap Response.calls)).1.map Int32.toInt =
        responses.flatMap Response.returns ∧
      A.written (run A h (responses.flatMap Response.calls)).2.stream =
        A.written h.stream ++ (responses.map Response.text).flatten := by
  induction responses generalizing h with
  | nil => exact ⟨rfl, (List.append_nil _).symm⟩
  | cons r responses ih =>
    obtain ⟨hreturns, hwritten, hfresh'⟩ := run_response A h hfresh r
    obtain ⟨ihreturns, ihwritten⟩ := ih (run A h r.calls).2 hfresh'
    rw [List.flatMap_cons, run_append]
    constructor
    · rw [List.map_append, hreturns, ihreturns, List.flatMap_cons]
    · rw [ihwritten, hwritten, List.map_cons, List.flatten_cons, List.append_assoc]

/-! ## Well-formed messages -/

/-- The chunks of buffers that are not empty and the chunk of an empty one are a body. -/
theorem body_chunkText (bs : List Buffer) (hbs : ∀ b ∈ bs, b.1 ≠ []) :
    Chunked.Body (bs.flatMap chunkText ++ chunkText .empty)
      (bs.flatMap fun b => b.1) := by
  induction bs with
  | nil => exact Chunked.Body.last (Chunked.Size.write 0)
  | cons b bs ih =>
    obtain ⟨hb, hbs⟩ := List.forall_mem_cons.mp hbs
    have hchunk := Chunked.Body.chunk (Chunked.Size.write b.1.length) hb (ih hbs)
    simpa [chunkText] using hchunk

theorem message_ne_nil {r : Response} {message : Text} (hmessage : Message r message) :
    message ≠ [] := by
  obtain ⟨body, rfl, -⟩ := hmessage
  simp [headerText, ascii]

/-- The messages of a session are told apart. -/
theorem readFrom_flatten {responses : List Response} {messages : List Text} {fuel : ℕ}
    (hmessages : List.Forall₂ Message responses messages) (hfuel : messages.flatten.length < fuel) :
    readFrom fuel messages.flatten =
      some (responses.map fun r => (r.code.toInt, r.contents)) := by
  induction hmessages generalizing fuel with
  | nil =>
    obtain ⟨fuel, rfl⟩ : ∃ k, fuel = k + 1 := ⟨fuel - 1, by omega⟩
    rfl
  | @cons r message responses messages hmessage hmessages ih =>
    obtain ⟨fuel, rfl⟩ : ∃ k, fuel = k + 1 := ⟨fuel - 1, by omega⟩
    have hpos := List.length_pos_iff.mpr (message_ne_nil hmessage)
    obtain ⟨body, rfl, hbody⟩ := hmessage
    rw [List.flatten_cons, List.length_append] at hfuel
    rw [List.flatten_cons, readFrom, if_neg (by simp [headerText, ascii]), List.append_assoc,
      readHeader_append]
    have hrest := ih (show messages.flatten.length < fuel by omega)
    simp [Chunked.read_append hbody, hrest]

theorem message_text (r : Response) : Message r r.text :=
  ⟨_, rfl, body_chunkText r.buffers r.nonempty⟩

/-- A session writes one message for each response, in order, which a reader of the stream
tells apart with their codes and contents; and each write returns the length of its buffer as
an `int` holds it. -/
theorem session_framing (s : σ) (responses : List Response) :
    ∃ messages : List Text,
      A.written (run A (new s) (responses.flatMap Response.calls)).2.stream =
          A.written s ++ messages.flatten ∧
        List.Forall₂ Message responses messages ∧
        readSession messages.flatten =
          some (responses.map fun r => (r.code.toInt, r.contents)) ∧
        (run A (new s) (responses.flatMap Response.calls)).1.map Int32.toInt =
          responses.flatMap Response.returns := by
  have hmessages : List.Forall₂ Message responses (responses.map Response.text) :=
    List.forall₂_map_right_iff.mpr (List.forall₂_same.mpr fun r _ => message_text r)
  obtain ⟨hreturns, hwritten⟩ := run_session A (new s) ⟨rfl, rfl⟩ responses
  exact ⟨responses.map Response.text, hwritten, hmessages,
    readFrom_flatten hmessages (Nat.lt_succ_self _), hreturns⟩

/-- The length of a buffer of 2 GiB is returned as a negative number. -/
theorem write_returns_negative :
    let buffer : Buffer := ⟨List.replicate (2 ^ 31) 0, by rw [List.length_replicate]; decide⟩
    ((new []).write StringByteStream.accepting.toShort buffer).1.toInt = -2 ^ 31 ∧
      (buffer.1.length : ℤ) = 2 ^ 31 := by
  intro buffer
  have hlength : buffer.1.length = 2 ^ 31 := List.length_replicate
  have hreturns := (write_spec StringByteStream.accepting (new []) buffer).1
  rw [hlength] at hreturns ⊢
  exact ⟨hreturns, rfl⟩

/-- The messages of two responses, the second of which has a chunk in its contents that
looks like the end. -/
example :
    readSession (ascii "HTTP/1.1 200 Success\r\ntransfer-encoding: chunked\r\n\r\n0\r\n\r\n" ++
      ascii "HTTP/1.1 404 File Not Found\r\ntransfer-encoding: chunked\r\n\r\n" ++
      ascii "5\r\n0\r\n\r\n\r\n0\r\n\r\n") =
        some [(200, []), (404, ascii "0\r\n\r\n")] := by
  decide +kernel

end HttpByteStream

end Turbolib
