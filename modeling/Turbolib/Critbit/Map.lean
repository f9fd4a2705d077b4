import Turbolib.Critbit.ByteCounter
import Turbolib.Library.Machine
import Mathlib.Data.Finmap

/-!
# The tree is a finite map

The purpose of the tree, stated over Mathlib's finite maps: a map from key bytes
to the element inserted first. Every request to the tree is answered as the map
would answer it, as long as the keys inserted are short enough for the counters.
-/

namespace Turbolib

/-- A call on the tree. An insertion carries what was in `is_new` before the
call and how its allocations go. -/
inductive Request (E H : Type) where
  | insert (val : E) (isNew : Bool) (mem : Memory H)
  | remove (val : E)
  | find (val : E)
  | contains (val : E)
  | empty
  | clear

/-- An insertion is of a short key. -/
def Request.Short {E H : Type} [CritbitElemOps E] : Request E H → Prop
  | .insert val _ _ => Turbolib.Short val
  | _ => True

/-- What the caller sees: the elements behind the pointers returned. When memory
runs out nothing is promised about `is_new`. -/
inductive Answer (E : Type) where
  | inserted (elem : E) (isNew : Bool)
  | outOfMemory
  | removed (count : ℕ)
  | found (elem : Option E)
  | contained (yes : Bool)
  | isEmpty (yes : Bool)
  | cleared
deriving DecidableEq

section

variable {E H : Type} [CritbitElemOps E]

/-- The map from keys to elements that a tree stands for. -/
abbrev ElemMap (E : Type) := Finmap fun _ : List UInt8 => E

/-- How the map answers: the first insertion of a key wins. -/
def ElemMap.answer (m : ElemMap E) : Request E H → ElemMap E × Answer E
  | .insert val _ mem =>
    match m.lookup (keyBytes val) with
    | some e => (m, .inserted e false)
    | none =>
      if mem.suffices (decide (m.keys = ∅)) then (m.insert (keyBytes val) val, .inserted val true)
      else (m, .outOfMemory)
  | .remove val =>
    if keyBytes val ∈ m then (m.erase (keyBytes val), .removed 1) else (m, .removed 0)
  | .find val => (m, .found (m.lookup (keyBytes val)))
  | .contains val => (m, .contained (decide (keyBytes val ∈ m)))
  | .empty => (m, .isEmpty (decide (m.keys = ∅)))
  | .clear => (∅, .cleared)

variable [CritbitExt E H]

/-- The answer to an insertion, read from the pointer returned and `is_new`. -/
def Answer.ofInsert : Option (ValPtr E) × Bool → Answer E
  | (none, _) => .outOfMemory
  | (some x, isNew) => .inserted x.val isNew

namespace CritbitTree

/-- How the tree answers. -/
def answer (t : CritbitTree E H) : Request E H → Option (CritbitTree E H × Answer E)
  | .insert val isNew mem => (t.insert val isNew mem).map fun r => (r.1, .ofInsert r.2)
  | .remove val => (t.remove val).map fun r => (r.1, .removed r.2)
  | .find val => some (t, .found ((t.find val).map ValPtr.val))
  | .contains val => some (t, .contained (t.contains val))
  | .empty => some (t, .isEmpty t.isEmpty)
  | .clear => some (t.clear, .cleared)

/-- The tree stores the elements of the map, each under its own key. -/
structure Represents (t : CritbitTree E H) (m : ElemMap E) : Prop where
  valid : t.Valid
  lookup_iff : ∀ key e, m.lookup key = some e ↔ ∃ x ∈ t, keyBytes x.val = key ∧ x.val = e

theorem represents_empty : (empty : CritbitTree E H).Represents ∅ :=
  ⟨valid_empty, by simp [mem_def, empty]⟩

variable {t : CritbitTree E H} {m : ElemMap E}

theorem Represents.lookup_of_mem (h : t.Represents m) {x : ValPtr E} (hx : x ∈ t) :
    m.lookup (keyBytes x.val) = some x.val :=
  (h.lookup_iff _ _).mpr ⟨x, hx, rfl, rfl⟩

theorem Represents.lookup_eq_none_iff (h : t.Represents m) {key : List UInt8} :
    m.lookup key = none ↔ ∀ x ∈ t, keyBytes x.val ≠ key := by
  constructor
  · intro hn x hx hk
    have := h.lookup_of_mem hx
    rw [hk, hn] at this
    exact absurd this (by simp)
  · intro hall
    rw [Option.eq_none_iff_forall_not_mem]
    intro e he
    obtain ⟨x, hx, hk, -⟩ := (h.lookup_iff key e).mp he
    exact hall x hx hk

theorem Represents.isEmpty_eq (h : t.Represents m) : t.isEmpty = decide (m.keys = ∅) := by
  rw [isEmpty, Bool.eq_iff_iff, decide_eq_true_iff, Option.isNone_iff_eq_none,
    Finset.eq_empty_iff_forall_notMem]
  constructor
  · intro hr key hk
    obtain ⟨e, he⟩ := Finmap.mem_iff.mp (Finmap.mem_keys.mp hk)
    obtain ⟨x, ⟨root, hx, -⟩, -⟩ := (h.lookup_iff key e).mp he
    rw [hr] at hx
    exact absurd hx (by simp)
  · intro hk
    by_contra hr
    obtain ⟨root, hr⟩ := Option.ne_none_iff_exists'.mp hr
    have hx : root.beginLeaf ∈ t := ⟨root, hr, root.beginLeaf_mem⟩
    exact hk _ (Finmap.mem_keys.mpr (Finmap.mem_of_lookup_eq_some (h.lookup_of_mem hx)))

/-- The element found is the one the map stores. -/
theorem Represents.find_eq (h : t.Represents m) (val : E) :
    (t.find val).map ValPtr.val = m.lookup (keyBytes val) := by
  cases hf : t.find val with
  | none =>
    rw [h.valid.find_eq_none_iff] at hf
    exact (h.lookup_eq_none_iff.mpr hf).symm
  | some x =>
    obtain ⟨hx, hk⟩ := h.valid.find_eq_some_iff.mp hf
    rw [← hk, h.lookup_of_mem hx]
    rfl

theorem Represents.contains_eq (h : t.Represents m) (val : E) :
    t.contains val = decide (keyBytes val ∈ m) := by
  rw [contains, Bool.eq_iff_iff, decide_eq_true_iff, ← Finmap.lookup_isSome, ← h.find_eq,
    Option.isSome_map]

theorem Represents.insert (h : t.Represents m) (val : E) (isNew : Bool) (mem : Memory H) :
    ∃ t', t.answer (.insert val isNew mem) = some (t', (m.answer (.insert val isNew mem)).2) ∧
      t'.Represents (m.answer (.insert val isNew mem)).1 := by
  obtain ⟨t', r, hi, hv, ho⟩ := h.valid.insert val isNew mem
  refine ⟨t', ?_⟩
  simp only [answer, hi, Option.map_some, ElemMap.answer]
  cases ho with
  | present x hx hk hs =>
    have hmem : ∀ y, y ∈ t' ↔ y ∈ t := fun y => by rw [← mem_members, hs, mem_members]
    rw [← hk, h.lookup_of_mem hx]
    exact ⟨rfl, hv, by simpa only [hmem] using h.lookup_iff⟩
  | outOfMemory isNew' habs hm hs =>
    have hmem : ∀ y, y ∈ t' ↔ y ∈ t := fun y => by rw [← mem_members, hs, mem_members]
    rw [h.lookup_eq_none_iff.mpr habs]
    simp only [← h.isEmpty_eq, hm, Bool.false_eq_true, if_false]
    exact ⟨rfl, hv, by simpa only [hmem] using h.lookup_iff⟩
  | added x habs hm hx hs =>
    rw [h.lookup_eq_none_iff.mpr habs]
    simp only [← h.isEmpty_eq, hm, if_true]
    refine ⟨by rw [Answer.ofInsert, hx], hv, fun key e => ?_⟩
    by_cases hk : key = keyBytes val
    · subst hk
      rw [Finmap.lookup_insert, Option.some.injEq]
      constructor
      · rintro rfl
        exact ⟨x, (hs x).mpr (Or.inl rfl), by rw [hx], hx⟩
      · rintro ⟨y, hy, hyk, rfl⟩
        rcases (hs y).mp hy with rfl | hy
        · exact hx.symm
        · exact absurd hyk (habs y hy)
    · rw [Finmap.lookup_insert_of_ne _ hk, h.lookup_iff]
      constructor
      · rintro ⟨y, hy, hyk⟩
        exact ⟨y, (hs y).mpr (Or.inr hy), hyk⟩
      · rintro ⟨y, hy, hyk, hye⟩
        rcases (hs y).mp hy with rfl | hy
        · exact absurd (by rw [← hyk, hx]) hk
        · exact ⟨y, hy, hyk, hye⟩

theorem Represents.remove (h : t.Represents m) (val : E) :
    ∃ t', t.answer (.remove val) = some (t', (m.answer (.remove (H := H) val)).2) ∧
      t'.Represents (m.answer (.remove (H := H) val)).1 := by
  obtain ⟨t', r, hi, hv, ho⟩ := h.valid.remove val
  refine ⟨t', ?_⟩
  simp only [answer, hi, Option.map_some, ElemMap.answer]
  cases ho with
  | absent habs hs =>
    have hmem : ∀ y, y ∈ t' ↔ y ∈ t := fun y => by rw [← mem_members, hs, mem_members]
    rw [if_neg (Finmap.lookup_eq_none.mp (h.lookup_eq_none_iff.mpr habs))]
    exact ⟨rfl, hv, by simpa only [hmem] using h.lookup_iff⟩
  | removed x hx hk hs =>
    have hin : keyBytes val ∈ m :=
      hk ▸ Finmap.mem_of_lookup_eq_some (h.lookup_of_mem hx)
    rw [if_pos hin]
    refine ⟨rfl, hv, fun key e => ?_⟩
    by_cases hkey : key = keyBytes val
    · subst hkey
      rw [Finmap.lookup_erase]
      constructor
      · exact fun h => absurd h (by simp)
      · rintro ⟨y, hy, hyk, -⟩
        obtain ⟨hy, hne⟩ := (hs y).mp hy
        exact absurd (h.valid.eq_of_keyBytes hy hx (hyk.trans hk.symm)) hne
    · rw [Finmap.lookup_erase_ne hkey, h.lookup_iff]
      constructor
      · rintro ⟨y, hy, hyk, hye⟩
        refine ⟨y, (hs y).mpr ⟨hy, ?_⟩, hyk, hye⟩
        rintro rfl
        exact hkey (hyk.symm.trans hk)
      · rintro ⟨y, hy, hyk⟩
        exact ⟨y, ((hs y).mp hy).1, hyk⟩

/-- One request: the tree answers as the map does. -/
theorem answer_refines :
    Refines (Represents (E := E) (H := H)) answer (ElemMap.answer (E := E) (H := H)) := by
  intro t m request h
  cases request with
  | insert val isNew mem => exact h.insert val isNew mem
  | remove val => exact h.remove val
  | find val =>
    refine ⟨t, ?_, h⟩
    rw [answer, h.find_eq]
    rfl
  | contains val =>
    refine ⟨t, ?_, h⟩
    rw [answer, h.contains_eq]
    rfl
  | empty =>
    refine ⟨t, ?_, h⟩
    rw [answer, h.isEmpty_eq]
    rfl
  | clear => exact ⟨t.clear, rfl, h.valid.clear, by simp [ElemMap.answer, mem_def, clear]⟩

/-- How the tree answers, with the byte counters of the source. -/
def answer32 (t : CritbitTree E H) : Request E H → Option (CritbitTree E H × Answer E)
  | .insert val isNew mem => (t.insert32 val isNew mem).map fun r => (r.1, .ofInsert r.2)
  | request => t.answer request

theorem answer32_eq {request : Request E H} (hshort : request.Short) :
    t.answer32 request = t.answer request := by
  cases request with
  | insert val isNew mem => rw [answer32, insert32_eq hshort, answer]
  | _ => rfl

/-- Any requests to a newly constructed tree that insert no longer keys are answered as a map
that starts empty answers them, and the tree left at the end represents the map left there. -/
theorem run_answer_eq (requests : List (Request E H))
    (hshort : ∀ request ∈ requests, request.Short) :
    ∃ t : CritbitTree E H,
      run answer32 empty requests = some (t, (runSpec ElemMap.answer ∅ requests).2) ∧
      t.Represents (runSpec ElemMap.answer ∅ requests).1 := by
  have hrun : run answer32 (empty : CritbitTree E H) requests = run answer empty requests :=
    answer_refines.run_congr (fun request hmem _ _ _ => answer32_eq (hshort request hmem))
      represents_empty
  rw [hrun]
  exact answer_refines.run requests represents_empty

/-- A string is inserted twice. -/
theorem run_answer_eq_twice :
    let val : CString := ⟨[97], by decide⟩
    let requests : List (Request CString Unit) :=
      [.insert val false (.ample ()), .insert val false (.ample ())]
    ∃ t : CritbitTree CString Unit,
      run answer32 empty requests = some (t, (runSpec ElemMap.answer ∅ requests).2) ∧
      t.Represents (runSpec ElemMap.answer ∅ requests).1 := by
  intro val requests
  refine run_answer_eq requests fun request hmem => ?_
  obtain rfl : request = .insert val false (.ample ()) := by simpa [requests] using hmem
  exact (by decide : Short val)

/-- A key of at least `2 ^ 32` bytes is not inserted twice. -/
theorem run_insert_twice {val : E} (hlong : 2 ^ 32 ≤ (keyBytes val).length) (garbage : H) :
    run answer32 (empty : CritbitTree E H)
      [.insert val false (.ample garbage), .insert val false (.ample garbage)] = none := by
  obtain ⟨addr, hfirst⟩ : ∃ addr,
      (empty : CritbitTree E H).answer32 (.insert val false (.ample garbage)) =
      some (⟨some (.leaf ⟨addr, val⟩), noChanges⟩, .inserted val true) := ⟨_, rfl⟩
  have hsecond : (⟨some (.leaf ⟨addr, val⟩), noChanges⟩ : CritbitTree E H).answer32
      (.insert val false (.ample garbage)) = none := by
    simp only [answer32, insert32, compareBest_self hlong, Option.bind_none, Option.map_none]
  rw [run, hfirst]
  simp [run, hsecond]

/-- The second insertion of a string of `2 ^ 32` bytes never returns. -/
theorem reinsert_never_returns :
    run answer32 (empty : CritbitTree CString Unit)
      [.insert (.ones (2 ^ 32)) false (.ample ()), .insert (.ones (2 ^ 32)) false (.ample ())] =
        none :=
  run_insert_twice (CString.length_ones _).ge ()

end CritbitTree

end

end Turbolib
