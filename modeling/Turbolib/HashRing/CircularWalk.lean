import Turbolib.HashRing.Ring

/-!
# Once round the circular map

A circular iterator keeps the place it started from. `++` goes from the last entry to the
first one, and from there on to the start, where it jumps to the end of the map.

## Main definitions

* `CircularMap.rest` — what is left of the round at each place.
* `CircularMap.Underway` — the places a round passes through.
-/

namespace Turbolib

namespace CircularMap

variable {K V : Type*} [LinearOrder K] {m : OrderedMap K V} {k : K} {i : CircularIterator}

/-- From the start or after it, the entries up to the last one and those before the start;
once past the last entry, those up to the start. -/
def rest (m : OrderedMap K V) (i : CircularIterator) : List (K × V) :=
  if i.it = m.entries.length then []
  else if i.walkEnd ≤ i.it then m.entries.drop i.it ++ m.entries.take i.walkEnd
  else (m.entries.take i.walkEnd).drop i.it

/-- A place in a round: the end, or an entry, the start of the round being an entry too. -/
structure Underway (m : OrderedMap K V) (i : CircularIterator) : Prop where
  containerBegin : i.containerBegin = 0
  containerEnd : i.containerEnd = m.entries.length
  place : i.it = m.entries.length ∨ (i.it < m.entries.length ∧ i.walkEnd < m.entries.length)

theorem rest_of_start_le (hlt : i.it < m.entries.length) (hle : i.walkEnd ≤ i.it) :
    rest m i = m.entries.drop i.it ++ m.entries.take i.walkEnd := by
  rw [rest, if_neg hlt.ne, if_pos hle]

theorem rest_of_lt_start (hlt : i.it < m.entries.length) (hbefore : i.it < i.walkEnd) :
    rest m i = (m.entries.take i.walkEnd).drop i.it := by
  rw [rest, if_neg hlt.ne, if_neg (not_le.mpr hbefore)]

theorem rest_end (hend : i.it = m.entries.length) : rest m i = [] := if_pos hend

/-- One step takes the first entry off what is left. -/
theorem rest_increment (hunderway : Underway m i) (hlt : i.it < m.entries.length) :
    ∃ i', i.increment = some i' ∧ Underway m i' ∧ rest m i = m.entries[i.it] :: rest m i' := by
  obtain ⟨it, start, containerBegin, containerEnd⟩ := i
  obtain ⟨rfl, rfl, hplace⟩ := hunderway
  have hlt : it < m.entries.length := hlt
  have hstart : start < m.entries.length := by simp only at hplace; omega
  simp only [CircularIterator.increment, if_pos hlt]
  refine ⟨_, rfl, ⟨rfl, rfl, by grind⟩, ?_⟩
  by_cases hbefore : it < start
  · -- the second part of the round, up to the start
    have htake : it < (m.entries.take start).length := by simp; omega
    rw [rest_of_lt_start hlt hbefore, List.drop_eq_getElem_cons htake, List.getElem_take,
      if_neg (show it + 1 ≠ m.entries.length by omega)]
    by_cases hnext : it + 1 = start
    · rw [if_pos hnext, rest_end rfl, List.drop_of_length_le (by simp; omega)]
    · rw [if_neg hnext, rest_of_lt_start (by simp only; omega) (by simp only; omega)]
  · -- the first part, from the start to the last entry
    rw [rest_of_start_le hlt (not_lt.mp hbefore), List.drop_eq_getElem_cons hlt, List.cons_append]
    by_cases hlast : it + 1 = m.entries.length
    · rw [if_pos hlast, hlast, List.drop_length, List.nil_append]
      by_cases hfirst : 0 = start
      · rw [if_pos hfirst, rest_end rfl, ← hfirst, List.take_zero]
      · rw [if_neg hfirst, rest_of_lt_start (by simp only; omega) (by simp only; omega),
          List.drop_zero]
    · rw [if_neg hlast, if_neg (show it + 1 ≠ start by omega),
        rest_of_start_le (by simp only; omega) (by simp only; omega)]

/-- The entries left in a round are read one after the other. -/
theorem cursor_leaves : (cursor m).Leaves (Underway m) (rest m) where
  nil i hunderway hrest := by
    obtain hend | ⟨hlt, -⟩ := hunderway.place
    · exact hend
    · obtain ⟨i', -, -, hcons⟩ := rest_increment hunderway hlt
      simp [hcons] at hrest
  cons i e es hunderway hrest := by
    obtain hend | ⟨hlt, -⟩ := hunderway.place
    · simp [rest_end hend] at hrest
    · obtain ⟨i', hincrement, hunderway', hcons⟩ := rest_increment hunderway hlt
      obtain ⟨rfl, rfl⟩ := List.cons.inj (hcons.symm.trans hrest)
      exact ⟨hlt.ne, List.getElem?_eq_getElem hlt, i', hincrement, hunderway', rfl⟩

/-- A round from an entry reads those from there on and then those before it. -/
theorem walk_of_lt {p : ℕ} (hp : p < m.entries.length) :
    (cursor m).Walk (.new p 0 m.entries.length) (m.entries.drop p ++ m.entries.take p) := by
  have hunderway : Underway m (.new p 0 m.entries.length) := ⟨rfl, rfl, Or.inr ⟨hp, hp⟩⟩
  have hwalk := cursor_leaves.walk hunderway
  rwa [rest_of_start_le hp le_rfl] at hwalk

/-- The same for a bound, which goes to the first entry when it is past the last one. -/
theorem walk_bound {p : ℕ} (hp : p ≤ m.entries.length) :
    (cursor m).Walk (.new (if p = m.entries.length then 0 else p) 0 m.entries.length)
      (m.entries.drop p ++ m.entries.take p) := by
  by_cases hend : p = m.entries.length
  · rw [if_pos hend, hend, List.drop_length, List.take_length, List.nil_append]
    by_cases hempty : m.entries.length = 0
    · rw [List.length_eq_zero_iff.mp hempty]
      exact .done hempty.symm
    · simpa using walk_of_lt (m := m) (p := 0) (by omega)
  · rw [if_neg hend]
    exact walk_of_lt (by omega)

/-- A round from a bound or from an entry found reads every entry of the map once, one for
each step: first those from the key on in ascending order and then the others in ascending
order. A round in an empty map or from a miss reads none. -/
theorem walk_once (m : OrderedMap K V) (k : K) :
    (cursor m).Walk (lowerBound m k) (m.circuit (fun a => k ≤ a)) ∧
      (cursor m).Walk (upperBound m k) (m.circuit (fun a => k < a)) ∧
      (cursor m).Walk (find m k)
        (if k ∈ m.entries.map Prod.fst then m.circuit (fun a => k ≤ a) else []) ∧
      (∀ first, (m.circuit first).Perm m.entries ∧
        (m.circuit first).length = m.entries.length) ∧
      m.entries.Pairwise (fun e e' => e.1 < e'.1) := by
  have hperm := fun first => OrderedMap.circuit_perm (m := m) first
  refine ⟨?_, ?_, ?_, fun first => ⟨hperm first, (hperm first).length_eq⟩, m.ascending⟩
  · rw [← OrderedMap.circuit_lowerBound]
    exact walk_bound List.findIdx_le_length
  · rw [← OrderedMap.circuit_upperBound]
    exact walk_bound List.findIdx_le_length
  · split_ifs with hmem
    · obtain ⟨e, he, rfl⟩ := List.mem_map.mp hmem
      have hlt : m.find e.1 < m.entries.length :=
        List.findIdx_lt_length_of_exists ⟨e, he, decide_eq_true rfl⟩
      rw [← OrderedMap.circuit_lowerBound, ← OrderedMap.find_eq_lowerBound he]
      exact walk_of_lt hlt
    · have hend : m.find k = m.entries.length :=
        OrderedMap.find_eq_end_iff.mpr fun e he heq => hmem (List.mem_map.mpr ⟨e, he, heq⟩)
      rw [find, hend]
      exact .done rfl

/-- The round of the test from the bound of 3. -/
example :
    let circle : OrderedMap ℕ String :=
      ⟨[(0, "hi"), (1, "bye"), (2, "foo"), (4, "bar")], by decide⟩
    (List.range 4).map (fun n => ((cursor circle).advance n (lowerBound circle 3)).bind
      (cursor circle).read) =
        [some (4, "bar"), some (0, "hi"), some (1, "bye"), some (2, "foo")] := by
  decide

end CircularMap

end Turbolib
