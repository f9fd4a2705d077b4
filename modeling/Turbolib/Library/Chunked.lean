import Turbolib.Library.Numeral

/-!
# The chunked transfer coding

A body is a sequence of chunks, each with its size in hexadecimal digits on a line in front
and an end of line behind, up to one of size zero. The size says where the data ends, so the
data may be anything.

## Main definitions

* `Chunked.Body` — a well-formed body and the contents it stands for.
* `Chunked.read` — takes a body off the front of a text.
-/

namespace Turbolib

def crlf : Text := [0x0D, 0x0A]

/-- What is behind the given beginning, if a text has it. -/
def Text.behind (start s : Text) : Option Text :=
  if start.isPrefixOf s then some (s.drop start.length) else none

theorem Text.behind_append (start s : Text) : Text.behind start (start ++ s) = some s := by
  simp [Text.behind]

namespace Chunked

/-- Hexadecimal digits that say `n`. -/
structure Size (n : ℕ) (digits : Text) : Prop where
  nonempty : digits ≠ []
  digit : ∀ c ∈ digits, Numeral.isDigit 16 c = true
  value : Numeral.value 16 digits = n

/-- A well-formed body, with the contents of its chunks put together. -/
inductive Body : Text → Text → Prop where
  | last {digits : Text} (hsize : Size 0 digits) : Body (digits ++ crlf ++ crlf) []
  | chunk {digits data rest contents : Text} (hsize : Size data.length digits)
      (hdata : data ≠ []) (hrest : Body rest contents) :
      Body (digits ++ crlf ++ data ++ crlf ++ rest) (data ++ contents)

/-- The size line of a chunk, and what is behind it. -/
def readSize (s : Text) : Option (ℕ × Text) :=
  let digits := Numeral.span 16 s
  if digits = [] then none
  else (Text.behind crlf (s.drop digits.length)).map fun rest => (Numeral.value 16 digits, rest)

/-- Chunk after chunk up to the last one. -/
def readFrom : ℕ → Text → Option (Text × Text)
  | 0, _ => none
  | fuel + 1, s => do
    let (n, s) ← readSize s
    if n = 0 then
      let rest ← Text.behind crlf s
      some ([], rest)
    else
      let s' ← Text.behind crlf (s.drop n)
      let (contents, rest) ← readFrom fuel s'
      some (s.take n ++ contents, rest)

/-- The contents of the body at the front of a text, and what is behind it. -/
def read (s : Text) : Option (Text × Text) := readFrom (s.length + 1) s

theorem Size.write (n : ℕ) : Size n (Numeral.write 16 n) where
  nonempty := Numeral.write_ne_nil
  digit _ hc := Numeral.isDigit_of_mem_write (by omega) (by omega) hc
  value := Numeral.value_write (by omega) (by omega)

/-- The size ends with its line. -/
theorem readSize_append {n : ℕ} {digits : Text} (hsize : Size n digits) (s : Text) :
    readSize (digits ++ crlf ++ s) = some (n, s) := by
  have hspan : Numeral.span 16 (digits ++ crlf ++ s) = digits := by
    rw [List.append_assoc, Numeral.span, List.takeWhile_append_of_pos hsize.digit]
    have hcr : Numeral.isDigit 16 0x0D = false := by decide
    simp [crlf, hcr]
  rw [readSize, hspan, if_neg hsize.nonempty, List.append_assoc, List.drop_left,
    Text.behind_append, hsize.value]
  rfl

/-- Each chunk is read for one unit of fuel, and has at least one byte. -/
theorem readFrom_append {s contents : Text} (hbody : Body s contents) {fuel : ℕ}
    (hfuel : s.length < fuel) (rest : Text) :
    readFrom fuel (s ++ rest) = some (contents, rest) := by
  induction hbody generalizing fuel with
  | @last digits hsize =>
    obtain ⟨fuel, rfl⟩ : ∃ k, fuel = k + 1 := ⟨fuel - 1, by omega⟩
    have hline := readSize_append hsize (crlf ++ rest)
    rw [List.append_assoc, readFrom, hline]
    simp [Text.behind_append]
  | @chunk digits data after contents hsize hdata hrest ih =>
    obtain ⟨fuel, rfl⟩ : ∃ k, fuel = k + 1 := ⟨fuel - 1, by omega⟩
    have hafter : after.length < fuel := by
      simp only [List.length_append, crlf, List.length_cons] at hfuel
      omega
    have hline := readSize_append hsize (data ++ (crlf ++ (after ++ rest)))
    have hlength : data.length ≠ 0 := mt List.length_eq_zero_iff.mp hdata
    have hassoc : digits ++ crlf ++ data ++ crlf ++ after ++ rest =
        digits ++ crlf ++ (data ++ (crlf ++ (after ++ rest))) := by
      simp only [List.append_assoc]
    rw [hassoc, readFrom, hline]
    simp [hlength, Text.behind_append, ih hafter]

/-- A body is read up to its end, whatever is behind it. -/
theorem read_append {s contents : Text} (hbody : Body s contents) (rest : Text) :
    read (s ++ rest) = some (contents, rest) :=
  readFrom_append hbody (by simp) rest

/-! ## Bodies apart -/

theorem Body.eq_last {s : Text} (hbody : Body s []) :
    ∃ digits, Size 0 digits ∧ s = digits ++ crlf ++ crlf := by
  generalize hcontents : ([] : Text) = contents at hbody
  cases hbody with
  | @last digits hsize => exact ⟨digits, hsize, rfl⟩
  | chunk hsize hdata hrest => exact absurd (List.append_eq_nil_iff.mp hcontents.symm).1 hdata

/-- A body whose first size is that of all its contents has no other chunk, only the last one. -/
theorem Body.only_chunk {digits s contents : Text} (hsize : Size contents.length digits)
    (hcontents : contents ≠ []) (hbody : Body (digits ++ crlf ++ s) contents) :
    ∃ last, Size 0 last ∧ s = contents ++ crlf ++ (last ++ crlf ++ crlf) := by
  have hline := readSize_append hsize s
  generalize htext : digits ++ crlf ++ s = text at hbody hline
  cases hbody with
  | last hsize' => exact absurd rfl hcontents
  | @chunk digits' data rest contents' hsize' hdata hrest =>
    have hassoc : digits' ++ crlf ++ data ++ crlf ++ rest =
        digits' ++ crlf ++ (data ++ crlf ++ rest) := by simp only [List.append_assoc]
    rw [hassoc, readSize_append hsize'] at hline
    obtain ⟨hlength, rfl⟩ := Prod.mk.inj (Option.some.inj hline)
    rw [List.length_append] at hlength
    obtain rfl : contents' = [] := List.length_eq_zero_iff.mp (by omega)
    obtain ⟨last, hlast, rfl⟩ := hrest.eq_last
    exact ⟨last, hlast, by rw [List.append_nil]⟩

end Chunked

end Turbolib
