import Turbolib.Http.Decode
import Turbolib.Library.Assignment
import Turbolib.Serialize.Split

/-!
# Query parameters

`Url::params` splits the query string at the ampersands and each token at its first equals
sign. A token whose equals sign is its last byte is kept whole as a key, like a token without
one.

## Main definitions

* `baseUrl`, `queryString`, `params` — the parts of a URL.
* `query` — parameters as a query string.
-/

namespace Turbolib

namespace Url

variable {url path token q : Text} {m : Text → Option Text} {e : Text × Text}
  {pairs es : List (Text × Text)} {fuel : ℕ}

def baseUrl (url : Text) : Text :=
  match url.find (byte '?') with
  | none => url
  | some pos => url.substr 0 pos

/-- Without a question mark the position is `npos`, which passes the test as well. -/
def queryString (url : Text) : Text :=
  match url.find (byte '?') with
  | none => []
  | some pos => if url.length - 1 ≤ pos then [] else url.drop (pos + 1)

/-- One token: the key and the value that are assigned. -/
def param (fuel : ℕ) (token : Text) : Option (Text × Text) :=
  match token.find (byte '=') with
  | none => some (token, [])
  | some equalPos =>
    if token.length - 1 ≤ equalPos then some (token, [])
    else (decode fuel (token.drop (equalPos + 1))).map fun val =>
      (token.substr 0 equalPos, val)

/-- The loop over the tokens; `none` is a value that is still being decoded. -/
def paramsLoop (fuel : ℕ) : List Text → (Text → Option Text) → Option (Text → Option Text)
  | [], params => some params
  | token :: paramPairs, params => do
    let (key, val) ← param fuel token
    paramsLoop fuel paramPairs (Function.update params key (some val))

def params (fuel : ℕ) (url : Text) : Option (Text → Option Text) :=
  paramsLoop fuel (split (queryString url) (byte '&')) fun _ => none

/-- A parameter as it stands in a URL. -/
def pairText (e : Text × Text) : Text := e.1 ++ byte '=' :: encode e.2

/-- The parameters with an ampersand between them. -/
def query (pairs : List (Text × Text)) : Text := join (pairs.map pairText) (byte '&')

/-! ## The parts of a URL -/

theorem baseUrl_append (hpath : byte '?' ∉ path) : baseUrl (path ++ byte '?' :: q) = path := by
  simp [baseUrl, Text.find_append_cons hpath, Text.substr]

theorem queryString_append (hpath : byte '?' ∉ path) :
    queryString (path ++ byte '?' :: q) = q := by
  simp only [queryString, Text.find_append_cons hpath]
  split_ifs with hend
  · have hempty : q.length = 0 := by
      simp only [List.length_append, List.length_cons] at hend
      omega
    exact (List.length_eq_zero_iff.mp hempty).symm
  · simp

/-! ## One parameter -/

/-- A special byte other than the percent sign is not in an encoding. -/
theorem not_mem_encode {c : UInt8} (hc : Special c) (hne : c ≠ byte '%') (s : Text) :
    c ∉ encode s := by
  intro hmem
  obtain ⟨before, after, hs⟩ := List.append_of_mem hmem
  obtain ⟨h, l, rest, v, -, hv⟩ := escape_of_special hs hc
  exact hne (Percent.escaped_eq_some hv).1

theorem amp_not_mem_pairText (hamp : byte '&' ∉ e.1) : byte '&' ∉ pairText e := by
  have hencode := not_mem_encode (c := byte '&') (by decide) (by decide) e.2
  simp only [pairText, List.mem_append, List.mem_cons, not_or]
  exact ⟨hamp, by decide, hencode⟩

theorem encode_eq_nil_iff {s : Text} : encode s = [] ↔ s = [] := by
  rw [← List.length_eq_zero_iff, encode_length, ← List.length_eq_zero_iff]
  constructor
  · intro h
    omega
  · intro h
    simp [List.length_eq_zero_iff.mp h]

/-- A parameter without a value is taken for a key. -/
theorem param_of_nil (heq : byte '=' ∉ e.1) (hval : e.2 = []) :
    param fuel (pairText e) = some (pairText e, []) := by
  simp [param, pairText, hval, Text.find_append_cons heq]

theorem param_of_ne_nil (heq : byte '=' ∉ e.1) (hval : e.2 ≠ []) :
    param fuel (pairText e) = (decode fuel (encode e.2)).map fun val => (e.1, val) := by
  have hpos : 0 < (encode e.2).length :=
    List.length_pos_iff.mpr (mt encode_eq_nil_iff.mp hval)
  simp only [param, pairText, Text.find_append_cons heq, List.length_append, List.length_cons]
  rw [if_neg (by omega)]
  simp [Text.substr]

/-! ## All parameters -/

/-- The loop assigns what each token stands for. -/
theorem paramsLoop_eq_some_iff {tokens : List Text} {params : Text → Option Text} :
    paramsLoop fuel tokens params = some m ↔
      ∃ es : List (Text × Text), tokens.map (param fuel) = es.map some ∧
        m = assignAll params es := by
  induction tokens generalizing params with
  | nil =>
    constructor
    · intro h
      exact ⟨[], rfl, (Option.some.inj h).symm⟩
    · rintro ⟨es, hes, rfl⟩
      rw [List.map_eq_nil_iff.mp hes.symm]
      rfl
  | cons token tokens ih =>
    constructor
    · intro h
      obtain ⟨e, he, hrest⟩ := Option.bind_eq_some_iff.mp h
      obtain ⟨es, hes, hm⟩ := ih.mp hrest
      exact ⟨e :: es, by simp [he, hes], hm⟩
    · rintro ⟨es, hes, rfl⟩
      obtain ⟨e, es, rfl, he, hes⟩ := List.map_eq_cons_iff.mp hes.symm
      exact Option.bind_eq_some_iff.mpr ⟨e, he.symm, ih.mpr ⟨es, hes.symm, rfl⟩⟩

theorem params_eq_some_iff (hpath : byte '?' ∉ path) (hamp : ∀ e ∈ pairs, byte '&' ∉ e.1) :
    params fuel (path ++ byte '?' :: query pairs) = some m ↔
      ∃ es : List (Text × Text), pairs.map (fun e => param fuel (pairText e)) = es.map some ∧
        m = assignAll (fun _ => none) es := by
  have hsplit : split (query pairs) (byte '&') = pairs.map pairText := by
    refine split_of_join (fun t ht => ?_) fun hone => ?_
    · obtain ⟨e, he, rfl⟩ := List.mem_map.mp ht
      exact amp_not_mem_pairText (hamp e he)
    · obtain ⟨e, -, -, he, -⟩ := List.map_eq_cons_iff.mp hone
      simp [pairText] at he
  rw [params, queryString_append hpath, hsplit, paramsLoop_eq_some_iff, List.map_map]
  rfl

/-- Values that come back are not empty, and the index of the decoder can count what they
are written as. -/
theorem value_of_params (hpath : byte '?' ∉ path) (hamp : ∀ e ∈ pairs, byte '&' ∉ e.1)
    (heq : ∀ e ∈ pairs, byte '=' ∉ e.1)
    (hparams : params fuel (path ++ byte '?' :: query pairs) = some m)
    (hm : ∀ k v, m k = some v → (k, v) ∈ pairs) (he : e ∈ pairs) :
    e.2 ≠ [] ∧ e.2.length + 2 * e.2.countP (fun c => Special c) < 2 ^ 32 := by
  obtain ⟨es, hes, rfl⟩ := (params_eq_some_iff hpath hamp).mp hparams
  have hmem : param fuel (pairText e) ∈ es.map some :=
    hes ▸ List.mem_map_of_mem (f := fun e => param fuel (pairText e)) he
  obtain ⟨d, hd, hparam⟩ := List.mem_map.mp hmem
  have hval : e.2 ≠ [] := by
    intro hval
    -- the whole token has become a key, which has an equals sign in it
    rw [param_of_nil (heq e he) hval] at hparam
    obtain rfl := Option.some.inj hparam
    obtain ⟨v, hv, -⟩ :=
      assignAll_of_mem (m := fun _ => none) (List.mem_map_of_mem (f := Prod.fst) hd)
    exact heq _ (hm _ _ hv) (by simp [pairText])
  refine ⟨hval, ?_⟩
  rw [param_of_ne_nil (heq e he) hval] at hparam
  obtain ⟨val, hdecode, -⟩ := Option.map_eq_some_iff.mp hparam.symm
  rw [← encode_length]
  exact length_of_decode hdecode

/-- The parameters come back from a URL exactly when none of their values is empty and each
of them, with two more bytes for each special one, is short enough for the index of the
decoder. -/
theorem params_iff (path : Text) (pairs : List (Text × Text)) (hpath : byte '?' ∉ path)
    (hkeys : ∀ e ∈ pairs, e.1 ≠ [] ∧ byte '&' ∉ e.1 ∧ byte '=' ∉ e.1 ∧ byte '?' ∉ e.1)
    (hdistinct : (pairs.map Prod.fst).Nodup) :
    (∃ fuel m, params fuel (path ++ byte '?' :: query pairs) = some m ∧
        ∀ k v, m k = some v ↔ (k, v) ∈ pairs) ↔
      ∀ e ∈ pairs, e.2 ≠ [] ∧ e.2.length + 2 * e.2.countP (fun c => Special c) < 2 ^ 32 := by
  have hamp : ∀ e ∈ pairs, byte '&' ∉ e.1 := fun e he => (hkeys e he).2.1
  have heq : ∀ e ∈ pairs, byte '=' ∉ e.1 := fun e he => (hkeys e he).2.2.1
  constructor
  · rintro ⟨fuel, m, hparams, hm⟩ e he
    exact value_of_params hpath hamp heq hparams (fun k v => (hm k v).mp) he
  · intro hvalues
    refine ⟨2 ^ 32, assignAll (fun _ => none) pairs,
      (params_eq_some_iff hpath hamp).mpr ⟨pairs, List.map_congr_left fun e he => ?_, rfl⟩,
      fun k v => assignAll_eq_some_iff hdistinct⟩
    obtain ⟨hval, hlen⟩ := hvalues e he
    rw [← encode_length] at hlen
    rw [param_of_ne_nil (heq e he) hval, decode_of_fuel hlen hlen, resolve_decodes_encode,
      Option.map_some]

theorem params_iff_witness :
    ∃ fuel m, params fuel (ascii "/data" ++ byte '?' :: query [(ascii "a", ascii "1 & 2"),
        (ascii "b", ascii "100%=")]) = some m ∧
      ∀ k v, m k = some v ↔
        (k, v) ∈ [(ascii "a", ascii "1 & 2"), (ascii "b", ascii "100%=")] :=
  (params_iff _ _ (by decide) (by decide) (by decide)).mpr (by decide)

/-- A parameter with an empty value does not come back. -/
theorem not_params_of_empty :
    ¬∃ fuel m, params fuel (ascii "/data" ++ byte '?' :: query [(ascii "k", [])]) = some m ∧
      ∀ k v, m k = some v ↔ (k, v) ∈ [(ascii "k", ([] : Text))] := by
  rintro ⟨fuel, m, hparams, hm⟩
  have hval := value_of_params (by decide) (by decide) (by decide) hparams
    (fun k v => (hm k v).mp) List.mem_cons_self
  exact hval.1 rfl

/-- What the URL of the witness looks like. -/
example : query [(ascii "a", ascii "1 & 2"), (ascii "b", ascii "100%=")] =
    ascii "a=1%20%26%202&b=100%25%3d" := by
  decide

end Url

end Turbolib
