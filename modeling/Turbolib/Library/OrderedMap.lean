import Mathlib.Order.Lattice
import Mathlib.Data.List.Nodup
import Mathlib.Data.List.Pairwise

/-!
# Ordered maps

A map as the list of its entries in ascending order of the keys. A position is an index
into that list; the position past the last entry is the length of the list.

## Main definitions

* `OrderedMap.assign`, `OrderedMap.erase` — store under a key, take a key out.
* `OrderedMap.lowerBound`, `OrderedMap.upperBound` — the position of the first entry whose
  key is not less, or greater.
* `OrderedMap.find` — the position of the entry with a key.
* `OrderedMap.circuit` — all entries, starting with those that meet a condition.
-/

namespace Turbolib

variable {K V : Type*} [LinearOrder K]

/-- Entries with strictly ascending keys. -/
structure OrderedMap (K V : Type*) [LinearOrder K] where
  entries : List (K × V)
  ascending : entries.Pairwise (fun e e' => e.1 < e'.1)

namespace OrderedMap

/-- Put `v` under `k`, in place of what was there. -/
def assignEntry (k : K) (v : V) : List (K × V) → List (K × V)
  | [] => [(k, v)]
  | e :: es =>
    if k < e.1 then (k, v) :: e :: es
    else if e.1 < k then e :: assignEntry k v es
    else (k, v) :: es

theorem mem_assignEntry {k : K} {v : V} {e : K × V} (es : List (K × V))
    (hes : es.Pairwise (fun e e' => e.1 < e'.1)) :
    e ∈ assignEntry k v es ↔ e = (k, v) ∨ (e ∈ es ∧ e.1 ≠ k) := by
  induction es with
  | nil => simp [assignEntry]
  | cons d es ih =>
    obtain ⟨hd, hes⟩ := List.pairwise_cons.mp hes
    have ih := ih hes
    grind [assignEntry]

theorem assignEntry_ascending (k : K) (v : V) (es : List (K × V))
    (hes : es.Pairwise (fun e e' => e.1 < e'.1)) :
    (assignEntry k v es).Pairwise (fun e e' => e.1 < e'.1) := by
  induction es with
  | nil => simp [assignEntry]
  | cons d es ih =>
    obtain ⟨hd, hes⟩ := List.pairwise_cons.mp hes
    have ih := ih hes
    have hmem := fun e => mem_assignEntry (k := k) (v := v) (e := e) es hes
    grind [assignEntry, List.pairwise_cons]

def assign (m : OrderedMap K V) (k : K) (v : V) : OrderedMap K V :=
  ⟨assignEntry k v m.entries, assignEntry_ascending k v m.entries m.ascending⟩

/-- Take `k` out; the count says whether it was there. -/
def erase (m : OrderedMap K V) (k : K) : OrderedMap K V × ℕ :=
  (⟨m.entries.filter (fun e => e.1 ≠ k), m.ascending.filter _⟩,
    m.entries.countP (fun e => e.1 = k))

def lowerBound (m : OrderedMap K V) (k : K) : ℕ := m.entries.findIdx (fun e => k ≤ e.1)

def upperBound (m : OrderedMap K V) (k : K) : ℕ := m.entries.findIdx (fun e => k < e.1)

def find (m : OrderedMap K V) (k : K) : ℕ := m.entries.findIdx (fun e => e.1 = k)

variable {m : OrderedMap K V} {k : K} {v : V} {e e' : K × V}

@[simp] theorem mem_assign :
    e ∈ (m.assign k v).entries ↔ e = (k, v) ∨ (e ∈ m.entries ∧ e.1 ≠ k) :=
  mem_assignEntry m.entries m.ascending

@[simp] theorem mem_erase : e ∈ (m.erase k).1.entries ↔ e ∈ m.entries ∧ e.1 ≠ k := by
  simp [erase]

theorem nodup_keys : (m.entries.map Prod.fst).Nodup :=
  List.pairwise_map.mpr (m.ascending.imp fun hlt => hlt.ne)

theorem entry_ext (he : e ∈ m.entries) (he' : e' ∈ m.entries) (hkey : e.1 = e'.1) : e = e' :=
  List.inj_on_of_nodup_map nodup_keys he he' hkey

/-- Assigning entries with distinct keys one after the other. -/
theorem mem_foldl_assign {es : List (K × V)} (hes : (es.map Prod.fst).Nodup) :
    e ∈ (es.foldl (fun m d => m.assign d.1 d.2) m).entries ↔
      e ∈ es ∨ (e ∈ m.entries ∧ e.1 ∉ es.map Prod.fst) := by
  induction es generalizing m with
  | nil => simp
  | cons d es ih =>
    obtain ⟨hd, hes⟩ := List.nodup_cons.mp hes
    rw [List.foldl_cons, ih hes, mem_assign]
    have hkey : e ∈ es → e.1 ∈ es.map Prod.fst := fun he => List.mem_map_of_mem (f := Prod.fst) he
    grind

/-- The first entry is the one with the least key. -/
theorem first_entry_iff :
    m.entries[0]? = some e ↔ e ∈ m.entries ∧ ∀ d ∈ m.entries, e.1 ≤ d.1 := by
  obtain ⟨es, hes⟩ := m
  cases es with
  | nil => simp
  | cons d es =>
    have hd := (List.pairwise_cons.mp hes).1
    grind

theorem lowerBound_eq_end_iff : m.lowerBound k = m.entries.length ↔ ∀ d ∈ m.entries, d.1 < k := by
  simp [lowerBound, List.findIdx_eq_length]

/-- The entry at the lower bound is the least one that is not less. -/
theorem lowerBound_entry_iff :
    m.entries[m.lowerBound k]? = some e ↔
      e ∈ m.entries ∧ k ≤ e.1 ∧ ∀ d ∈ m.entries, k ≤ d.1 → e.1 ≤ d.1 := by
  obtain ⟨es, hes⟩ := m
  rw [lowerBound, ← List.find?_eq_getElem?_findIdx]
  induction es with
  | nil => simp
  | cons d es ih =>
    obtain ⟨hd, hes⟩ := List.pairwise_cons.mp hes
    have ih := ih hes
    grind

/-! ## Once round -/

/-- All entries in ascending order, those whose keys meet a condition before the others. -/
def circuit (m : OrderedMap K V) (first : K → Bool) : List (K × V) :=
  m.entries.filter (fun e => first e.1) ++ m.entries.filter (fun e => !first e.1)

theorem circuit_perm (first : K → Bool) : (m.circuit first).Perm m.entries :=
  List.filter_append_perm (fun e : K × V => first e.1) m.entries

/-- Where a condition holds from some key on, the first entry that meets it has those that
do not before it. -/
theorem drop_take_findIdx {es : List (K × V)} (first : K → Bool)
    (hes : es.Pairwise (fun e e' => e.1 < e'.1))
    (hfirst : ∀ a b, a < b → first a = true → first b = true) :
    es.drop (es.findIdx (fun e => first e.1)) = es.filter (fun e => first e.1) ∧
      es.take (es.findIdx (fun e => first e.1)) = es.filter (fun e => !first e.1) := by
  induction es with
  | nil => simp
  | cons d es ih =>
    obtain ⟨hd, hes⟩ := List.pairwise_cons.mp hes
    obtain ⟨hdrop, htake⟩ := ih hes
    cases hpd : first d.1 with
    | false => simp [List.findIdx_cons, hpd, hdrop, htake]
    | true =>
      have hall : ∀ e ∈ es, first e.1 = true := fun e he => hfirst d.1 e.1 (hd e he) hpd
      have hrest : es.filter (fun e => first e.1) = es := List.filter_eq_self.mpr hall
      have hnone : es.filter (fun e => !first e.1) = [] :=
        List.filter_eq_nil_iff.mpr fun e he => by simp [hall e he]
      simp [List.findIdx_cons, hpd, hrest, hnone]

theorem circuit_lowerBound :
    m.entries.drop (m.lowerBound k) ++ m.entries.take (m.lowerBound k) =
      m.circuit (fun a => k ≤ a) := by
  obtain ⟨hdrop, htake⟩ := drop_take_findIdx (fun a => decide (k ≤ a)) m.ascending
    (fun a b hab ha => by simpa using (of_decide_eq_true ha).trans hab.le)
  exact congrArg₂ (· ++ ·) hdrop htake

theorem circuit_upperBound :
    m.entries.drop (m.upperBound k) ++ m.entries.take (m.upperBound k) =
      m.circuit (fun a => k < a) := by
  obtain ⟨hdrop, htake⟩ := drop_take_findIdx (fun a => decide (k < a)) m.ascending
    (fun a b hab ha => by simpa using (of_decide_eq_true ha).trans hab)
  exact congrArg₂ (· ++ ·) hdrop htake

/-- A key that is there is found at its lower bound. -/
theorem find_eq_lowerBound (he : e ∈ m.entries) : m.find e.1 = m.lowerBound e.1 := by
  obtain ⟨es, hes⟩ := m
  simp only [find, lowerBound] at he ⊢
  induction es with
  | nil => simp at he
  | cons d es ih =>
    obtain ⟨hd, hes⟩ := List.pairwise_cons.mp hes
    obtain rfl | he := List.mem_cons.mp he
    · simp [List.findIdx_cons]
    · have hne : d.1 ≠ e.1 := (hd e he).ne
      have hnot : ¬e.1 ≤ d.1 := not_le.mpr (hd e he)
      simp [List.findIdx_cons, hne, hnot, ih hes he]

/-- The entry found is the one with the key that was looked for. -/
theorem find_entry_iff : m.entries[m.find k]? = some e ↔ e ∈ m.entries ∧ e.1 = k := by
  rw [find, ← List.find?_eq_getElem?_findIdx]
  constructor
  · intro h
    exact ⟨List.mem_of_find?_eq_some h, by simpa using List.find?_some h⟩
  · rintro ⟨he, rfl⟩
    have hsome : (m.entries.find? (fun d => d.1 = e.1)).isSome := by
      rw [List.find?_isSome]
      exact ⟨e, he, by simp⟩
    obtain ⟨d, hd⟩ := Option.isSome_iff_exists.mp hsome
    have hkey : d.1 = e.1 := by simpa using List.find?_some hd
    rw [hd, entry_ext (List.mem_of_find?_eq_some hd) he hkey]

theorem find_eq_end_iff : m.find k = m.entries.length ↔ ∀ e ∈ m.entries, e.1 ≠ k := by
  simp [find, List.findIdx_eq_length]

end OrderedMap

end Turbolib
