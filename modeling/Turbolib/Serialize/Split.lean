import Turbolib.Library.Text

/-!
# Split and join

`split` looks for one delimiter after the other and keeps what is between them. The last
token is added behind the loop, and only when there was any input: the empty text has no
token, while the join of no tokens and that of one empty token are both empty.

## Main definitions

* `split`, `join` — `turbo::str::split` and `turbo::str::join`.
-/

namespace Turbolib

variable {input : Text} {delim : UInt8} {ignoreEmpty : Bool}

/-- `tokens.push_back(tok)`, unless the token is empty and such are ignored. -/
def pushToken (ignoreEmpty : Bool) (tokens : List Text) (tok : Text) : List Text :=
  if !ignoreEmpty || !tok.isEmpty then tokens ++ [tok] else tokens

/-- The loop of `split`: one round for each delimiter. It ends at the position behind the
last one. -/
def splitLoop (input : Text) (delim : UInt8) (ignoreEmpty : Bool) (pos : ℕ)
    (tokens : List Text) : ℕ × List Text :=
  match _hfind : input.find delim pos with
  | none => (pos, tokens)
  | some nextPos =>
    splitLoop input delim ignoreEmpty (nextPos + 1)
      (pushToken ignoreEmpty tokens (input.substr pos (nextPos - pos)))
termination_by input.length - pos
decreasing_by
  have hfound := Text.find_eq_some _hfind
  omega

def split (input : Text) (delim : UInt8) (ignoreEmpty : Bool := false) : List Text :=
  let (pos, tokens) := splitLoop input delim ignoreEmpty 0 []
  if !input.isEmpty then pushToken ignoreEmpty tokens (input.drop pos) else tokens

/-- The tokens with the delimiter in front of each but the first. -/
def join : List Text → UInt8 → Text
  | [], _ => []
  | t :: ts, delim => ts.foldl (fun ss t => ss ++ delim :: t) t

/-! ## What the loop has found -/

theorem pushToken_eq (ignoreEmpty : Bool) (tokens : List Text) (tok : Text) :
    pushToken ignoreEmpty tokens tok =
      tokens ++ [tok].filter (fun t => !ignoreEmpty || !t.isEmpty) := by
  grind [pushToken]

/-- The loop and the last token are the pieces of what is left from `pos` on. -/
theorem splitLoop_eq (input : Text) (delim : UInt8) (ignoreEmpty : Bool) (pos : ℕ)
    (tokens : List Text) :
    pushToken ignoreEmpty (splitLoop input delim ignoreEmpty pos tokens).2
        (input.drop (splitLoop input delim ignoreEmpty pos tokens).1) =
      tokens ++ ((input.drop pos).splitOn delim).filter
        (fun t => !ignoreEmpty || !t.isEmpty) := by
  fun_induction splitLoop input delim ignoreEmpty pos tokens with
  | case1 pos tokens hfind =>
    rw [List.splitOn_eq_singleton (Text.find_eq_none_iff.mp hfind), pushToken_eq]
  | case2 pos tokens nextPos hfind ih =>
    obtain ⟨-, -, hnot, hpieces⟩ := Text.find_eq_some hfind
    rw [ih, hpieces, List.splitOn_append_cons_self_of_not_mem hnot, pushToken_eq,
      List.append_assoc, ← List.filter_append, List.singleton_append]

theorem split_nil : split [] delim ignoreEmpty = [] := by
  rw [split, splitLoop]
  rfl

/-- The tokens of an input that is not empty. -/
theorem split_eq (h : input ≠ []) :
    split input delim ignoreEmpty =
      (input.splitOn delim).filter (fun t => !ignoreEmpty || !t.isEmpty) := by
  have hloop := splitLoop_eq input delim ignoreEmpty 0 []
  simpa [split, h] using hloop

theorem split_eq_splitOn (h : input ≠ []) : split input delim = input.splitOn delim := by
  simp [split_eq h]

/-- The tokens of the test that keeps the empty ones. -/
example : split (ascii " blah  blah blah ") (byte ' ') =
    ["", "blah", "", "blah", "blah", ""].map ascii := by
  rw [split_eq_splitOn (by decide)]
  decide

theorem join_eq_intercalate (ts : List Text) (delim : UInt8) :
    join ts delim = [delim].intercalate ts := by
  cases ts with
  | nil => rfl
  | cons t ts =>
    rw [join]
    induction ts generalizing t with
    | nil => simp
    | cons u ts ih =>
      rw [List.foldl_cons, ih]
      cases ts <;> simp

theorem join_eq_nil_iff {ts : List Text} : join ts delim = [] ↔ ts = [] ∨ ts = [[]] := by
  rw [join_eq_intercalate]
  rcases ts with - | ⟨t, - | ⟨u, ts⟩⟩ <;> simp

theorem not_mem_of_mem_splitOn {t : Text} (ht : t ∈ input.splitOn delim) : delim ∉ t := by
  induction input generalizing t with
  | nil => simp_all
  | cons c s ih =>
    rw [List.splitOn_cons_eq_if_modifyHead] at ht
    split at ht
    · obtain rfl | ht := List.mem_cons.mp ht
      · exact List.not_mem_nil
      · exact ih ht
    · obtain ⟨t₀, ts, hts⟩ := List.exists_cons_of_ne_nil (List.splitOn_ne_nil delim s)
      rw [hts] at ht ih
      obtain rfl | ht := List.mem_cons.mp ht
      · have ht₀ := ih List.mem_cons_self
        grind
      · exact ih (List.mem_cons_of_mem _ ht)

theorem splitOn_join {ts : List Text} (hts : ∀ t ∈ ts, delim ∉ t) (hne : ts ≠ []) :
    (join ts delim).splitOn delim = ts := by
  rw [join_eq_intercalate]
  exact List.splitOn_intercalate delim hts hne

/-- The tokens that were joined. -/
theorem split_of_join {ts : List Text} (hts : ∀ t ∈ ts, delim ∉ t) (hone : ts ≠ [[]]) :
    split (join ts delim) delim = ts := by
  by_cases hnone : ts = []
  · rw [hnone, join, split_nil]
  · have hjoin : join ts delim ≠ [] := by
      rw [ne_eq, join_eq_nil_iff]
      tauto
    rw [split_eq_splitOn hjoin, splitOn_join hts hnone]

/-- Joining what was split gives the input back, no token contains the delimiter, and the
empty tokens are the ones left out on demand. Splitting what was joined gives back any
tokens without the delimiter, except for the empty token alone. -/
theorem split_join (s : Text) (delim : UInt8) :
    join (split s delim) delim = s ∧
      (∀ t ∈ split s delim, delim ∉ t) ∧
      split s delim true = (split s delim).filter (fun t => t ≠ []) ∧
      ∀ ts : List Text, (∀ t ∈ ts, delim ∉ t) → ts ≠ [[]] →
        split (join ts delim) delim = ts := by
  refine ⟨?_, ?_, ?_, fun ts hts hone => ?_⟩
  · by_cases hs : s = []
    · rw [hs, split_nil, join]
    · rw [split_eq_splitOn hs, join_eq_intercalate, List.intercalate_splitOn]
  · intro t ht
    by_cases hs : s = []
    · simp [hs, split_nil] at ht
    · exact not_mem_of_mem_splitOn (split_eq_splitOn hs ▸ ht)
  · by_cases hs : s = []
    · simp [hs, split_nil]
    · rw [split_eq hs, split_eq_splitOn hs]
      congr 1
      funext t
      cases t <;> simp
  · exact split_of_join hts hone

end Turbolib
