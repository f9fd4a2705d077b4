import Turbolib.Http.Query

/-!
# Path components

A URL that is put together with `Url::append`, a slash and an encoded segment at a time, and
`Url::components`, which splits what is in front of the question mark at the slashes and leaves
empty components out.

## Main definitions

* `append`, `components` — the two functions.
* `addSegments` — a URL with more segments in its path.
-/

namespace Turbolib

namespace Url

variable {url base segment q : Text} {segments : List Text} {fuel : ℕ}

def append (url token : Text) : Text := url ++ token

def components (url : Text) : List Text := split (baseUrl url) (byte '/') true

/-- A slash and a segment behind the path. -/
def addSegment (url segment : Text) : Text := append url (byte '/' :: encode segment)

def addSegments (url : Text) (segments : List Text) : Text := segments.foldl addSegment url

/-! ## What the components are -/

theorem baseUrl_of_not_mem (hurl : byte '?' ∉ url) : baseUrl url = url := by
  rw [baseUrl, Text.find_eq_none_iff.mpr (by simpa using hurl)]

theorem components_eq (hurl : byte '?' ∉ url) :
    components url = (url.splitOn (byte '/')).filter fun t => !t.isEmpty := by
  rw [components, baseUrl_of_not_mem hurl]
  by_cases hempty : url = []
  · rw [hempty, split_nil]
    rfl
  · simp [split_eq hempty]

/-- The components of the test, with a slash at both ends. -/
example : components (ascii "/data/[foo]/bar/barf/") =
    ["data", "[foo]", "bar", "barf"].map ascii := by
  rw [components_eq (by decide)]
  decide

theorem addSegment_mark (segment : Text) (hurl : byte '?' ∉ url) :
    byte '?' ∉ addSegment url segment := by
  have hencode := not_mem_encode (c := byte '?') (by decide) (by decide) segment
  simp only [addSegment, append, List.mem_append, List.mem_cons, not_or]
  exact ⟨hurl, by decide, hencode⟩

theorem components_addSegment (hurl : byte '?' ∉ url) :
    components (addSegment url segment) =
      components url ++ [encode segment].filter fun t => !t.isEmpty := by
  have hslash := not_mem_encode (c := byte '/') (by decide) (by decide) segment
  rw [components_eq (addSegment_mark segment hurl), components_eq hurl, addSegment, append,
    List.splitOn_append_cons_self, List.splitOn_eq_singleton hslash, List.filter_append]

theorem addSegments_mark (hurl : byte '?' ∉ url) : byte '?' ∉ addSegments url segments := by
  induction segments generalizing url with
  | nil => exact hurl
  | cons segment segments ih => exact ih (addSegment_mark segment hurl)

theorem components_addSegments (hurl : byte '?' ∉ url) :
    components (addSegments url segments) =
      components url ++ (segments.map encode).filter fun t => !t.isEmpty := by
  induction segments generalizing url with
  | nil => simp [addSegments]
  | cons segment segments ih =>
    have hrest := ih (addSegment_mark segment hurl)
    rw [components_addSegment hurl, List.append_assoc, ← List.filter_append] at hrest
    exact hrest

/-- A query has no part in the components. -/
theorem components_append_query (hurl : byte '?' ∉ url) :
    components (append url (byte '?' :: q)) = components url := by
  rw [components, append, baseUrl_append hurl, components, baseUrl_of_not_mem hurl]

/-! ## The round trip -/

theorem nonempty_of_decoded
    (h : ((segments.map encode).filter fun t => !t.isEmpty).map (decode fuel) =
      segments.map some) : (segments.map encode).filter (fun t => !t.isEmpty) =
        segments.map encode := by
  refine List.filter_sublist.eq_of_length ?_
  have hlength := congrArg List.length h
  simpa using hlength

/-- The segments come back as the components behind those of the base exactly when none of them
is empty and each of them, with two more bytes for each special one, is short enough for the
index of the decoder. -/
theorem components_iff (base q : Text) (segments : List Text) (hbase : byte '?' ∉ base) :
    (∃ fuel, (components (append (addSegments base segments) (byte '?' :: q))).map (decode fuel) =
        (components base).map (decode fuel) ++ segments.map some) ↔
      ∀ segment ∈ segments, segment ≠ [] ∧
        segment.length + 2 * segment.countP (fun c => Special c) < 2 ^ 32 := by
  have hcomponents : ∀ fuel,
      (components (append (addSegments base segments) (byte '?' :: q))).map (decode fuel) =
          (components base).map (decode fuel) ++ segments.map some ↔
        ((segments.map encode).filter fun t => !t.isEmpty).map (decode fuel) =
          segments.map some := by
    intro fuel
    rw [components_append_query (addSegments_mark hbase), components_addSegments hbase,
      List.map_append, List.append_cancel_left_eq]
  constructor
  · rintro ⟨fuel, h⟩ segment hsegment
    rw [hcomponents] at h
    have hall := nonempty_of_decoded h
    constructor
    · rintro rfl
      have hmem := List.of_mem_filter (hall ▸ List.mem_map_of_mem (f := encode) hsegment)
      simp at hmem
    · rw [hall, List.map_map] at h
      have hdecode : decode fuel (encode segment) = some segment :=
        List.map_inj_left.mp h segment hsegment
      rw [← encode_length]
      exact length_of_decode hdecode
  · intro h
    refine ⟨2 ^ 32, (hcomponents _).mpr ?_⟩
    have hall : (segments.map encode).filter (fun t => !t.isEmpty) = segments.map encode := by
      refine List.filter_eq_self.mpr fun t ht => ?_
      obtain ⟨segment, hsegment, rfl⟩ := List.mem_map.mp ht
      simpa [encode_eq_nil_iff] using (h segment hsegment).1
    rw [hall, List.map_map]
    refine List.map_congr_left fun segment hsegment => ?_
    have hlen := (h segment hsegment).2
    rw [← encode_length] at hlen
    rw [Function.comp_apply, decode_of_fuel hlen hlen, resolve_decodes_encode]

/-- A host, and segments with a slash, a blank and a question mark in them. -/
theorem components_iff_host :
    ∃ fuel, (components (append (addSegments (ascii "http://host")
        [ascii "a/b", ascii "why not?"]) (byte '?' :: ascii "k=v"))).map (decode fuel) =
      (components (ascii "http://host")).map (decode fuel) ++
        [ascii "a/b", ascii "why not?"].map some :=
  (components_iff _ _ _ (by decide)).mpr (by decide)

end Url

end Turbolib
