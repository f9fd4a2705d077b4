import Turbolib.Library.CyclicOrder
import Turbolib.Library.OrderedMap
import Turbolib.Library.Walk

/-!
# Consistent hashing

The ring of `hash_ring.h`: an ordered map from positions to values whose `lower_bound`
wraps around past the greatest position. A node joins at the hash of its key.

## Main definitions

* `CircularIterator.increment` — `++`, which goes round once.
* `CircularMap.lowerBound`, `CircularMap.upperBound`, `CircularMap.find` — the circular
  iterators of `circular_map`.
* `HashRing.subscriptAssign`, `HashRing.remove` — `ring[key] = value` and `remove(key)`.
* `HashRing.owner` — the entry `lower_bound` points at.
-/

namespace Turbolib

/-- A circular iterator: where it stands, where the walk ends, and the two ends of the
container. Positions are those of the underlying map. -/
structure CircularIterator where
  it : ℕ
  walkEnd : ℕ
  containerBegin : ℕ
  containerEnd : ℕ
  deriving DecidableEq, Repr

def CircularIterator.new (it containerBegin containerEnd : ℕ) : CircularIterator :=
  ⟨it, it, containerBegin, containerEnd⟩

/-- `++`; `none` at the end of the container. -/
def CircularIterator.increment (i : CircularIterator) : Option CircularIterator :=
  if i.it < i.containerEnd then
    let it := i.it + 1
    let it := if it = i.containerEnd then i.containerBegin else it
    let it := if it = i.walkEnd then i.containerEnd else it
    some { i with it }
  else none

namespace CircularMap

variable {K V : Type*} [LinearOrder K]

/-- `circular_map::lower_bound`: the end of the map wraps around to its beginning. -/
def lowerBound (m : OrderedMap K V) (key : K) : CircularIterator :=
  let it := m.lowerBound key
  let it := if it = m.entries.length then 0 else it
  .new it 0 m.entries.length

/-- `circular_map::upper_bound`. -/
def upperBound (m : OrderedMap K V) (key : K) : CircularIterator :=
  let it := m.upperBound key
  let it := if it = m.entries.length then 0 else it
  .new it 0 m.entries.length

/-- `circular_map::find`. A miss is at the end. -/
def find (m : OrderedMap K V) (key : K) : CircularIterator :=
  .new (m.find key) 0 m.entries.length

/-- What an iterator points at; nothing at the end. -/
def deref (m : OrderedMap K V) (i : CircularIterator) : Option (K × V) := m.entries[i.it]?

/-- `for (; it != m.end(); ++it)`. -/
def cursor (m : OrderedMap K V) : Cursor CircularIterator (K × V) where
  AtEnd i := i.it = m.entries.length
  read := deref m
  next := CircularIterator.increment

end CircularMap

/-- `hash_ring`: a circular map over hashes, and the hash function. -/
structure HashRing (N K V : Type*) [LinearOrder K] where
  map : OrderedMap K V
  hash : N → K

namespace HashRing

variable {N K V : Type*} [LinearOrder K]

/-- `ring[key] = value`. -/
def subscriptAssign (ring : HashRing N K V) (key : N) (value : V) : HashRing N K V :=
  { ring with map := ring.map.assign (ring.hash key) value }

def remove (ring : HashRing N K V) (key : N) : HashRing N K V × ℕ :=
  let (map, count) := ring.map.erase (ring.hash key)
  ({ ring with map }, count)

/-- The entry `lower_bound(h)` points at. -/
def owner (ring : HashRing N K V) (h : K) : Option (K × V) :=
  CircularMap.deref ring.map (CircularMap.lowerBound ring.map h)

/-- The positions taken. -/
def positions (ring : HashRing N K V) : Set K := {p | ∃ e ∈ ring.map.entries, e.1 = p}

variable {ring : HashRing N K V} {n : N} {v : V} {h p : K} {e : K × V}

theorem mem_positions (he : e ∈ ring.map.entries) : e.1 ∈ ring.positions := ⟨e, he, rfl⟩

theorem firstFrom_positions (he : e ∈ ring.map.entries) :
    FirstFrom h ring.positions e.1 ↔ ∀ d ∈ ring.map.entries, CyclicLE h e.1 d.1 := by
  refine ⟨fun hfirst d hd => hfirst.2 d.1 (mem_positions hd), fun hfirst => ⟨mem_positions he, ?_⟩⟩
  rintro q ⟨d, hd, rfl⟩
  exact hfirst d hd

theorem owner_of_end (hend : ring.map.lowerBound h = ring.map.entries.length) :
    ring.owner h = ring.map.entries[0]? := by
  simp [owner, CircularMap.deref, CircularMap.lowerBound, CircularIterator.new, hend]

theorem owner_of_not_end (hend : ring.map.lowerBound h ≠ ring.map.entries.length) :
    ring.owner h = ring.map.entries[ring.map.lowerBound h]? := by
  simp [owner, CircularMap.deref, CircularMap.lowerBound, CircularIterator.new, hend]

/-- `lower_bound` finds the first position from `h` on, in cyclic order. -/
theorem owner_iff :
    ring.owner h = some e ↔ e ∈ ring.map.entries ∧ FirstFrom h ring.positions e.1 := by
  by_cases hend : ring.map.lowerBound h = ring.map.entries.length
  · have hbelow := OrderedMap.lowerBound_eq_end_iff.mp hend
    rw [owner_of_end hend, OrderedMap.first_entry_iff]
    grind [firstFrom_positions]
  · have hsome : ∃ d ∈ ring.map.entries, h ≤ d.1 := by
      simpa using mt OrderedMap.lowerBound_eq_end_iff.mpr hend
    rw [owner_of_not_end hend, OrderedMap.lowerBound_entry_iff]
    grind [firstFrom_positions]

theorem owner_eq_none_iff : ring.owner h = none ↔ ring.map.entries = [] := by
  have hle : ring.map.lowerBound h ≤ ring.map.entries.length := List.findIdx_le_length
  by_cases hend : ring.map.lowerBound h = ring.map.entries.length
  · rw [owner_of_end hend, List.getElem?_eq_none_iff, Nat.le_zero, List.length_eq_zero_iff]
  · rw [owner_of_not_end hend, List.getElem?_eq_none_iff]
    grind

/-- The owners agree when the same entries come first. -/
theorem owner_congr {ring' : HashRing N K V} {h h' : K}
    (hiff : ∀ e, (e ∈ ring.map.entries ∧ FirstFrom h ring.positions e.1) ↔
      (e ∈ ring'.map.entries ∧ FirstFrom h' ring'.positions e.1)) :
    ring.owner h = ring'.owner h' := by
  apply Option.ext
  intro e
  rw [owner_iff, owner_iff, hiff]

theorem positions_subscriptAssign :
    (ring.subscriptAssign n v).positions = insert (ring.hash n) ring.positions := by
  ext p
  simp only [positions, subscriptAssign, OrderedMap.mem_assign, Set.mem_ofPred_eq,
    Set.mem_insert_iff]
  grind

theorem positions_remove : (ring.remove n).1.positions = ring.positions \ {ring.hash n} := by
  ext p
  simp only [positions, remove, OrderedMap.mem_erase, Set.mem_ofPred_eq, Set.mem_sdiff,
    Set.mem_singleton_iff]
  grind

/-- The node `n` owns `h`. -/
def OwnedBy (ring : HashRing N K V) (n : N) (h : K) : Prop :=
  ∃ v, ring.owner h = some (ring.hash n, v)

theorem OwnedBy.first (hown : ring.OwnedBy n h) : FirstFrom h ring.positions (ring.hash n) := by
  obtain ⟨v, hv⟩ := hown
  exact (owner_iff.mp hv).2

theorem owner_subscriptAssign_iff :
    (ring.subscriptAssign n v).owner h = some (ring.hash n, v) ↔
      FirstFrom h (insert (ring.hash n) ring.positions) (ring.hash n) := by
  rw [owner_iff, positions_subscriptAssign]
  simp [subscriptAssign]

theorem owner_subscriptAssign_of_not_first (hfresh : ring.hash n ∉ ring.positions)
    (hfirst : ¬FirstFrom h (insert (ring.hash n) ring.positions) (ring.hash n)) :
    (ring.subscriptAssign n v).owner h = ring.owner h := by
  apply owner_congr
  intro e
  have hmem : e ∈ (ring.subscriptAssign n v).map.entries ↔
      e = (ring.hash n, v) ∨ (e ∈ ring.map.entries ∧ e.1 ≠ ring.hash n) := OrderedMap.mem_assign
  rw [positions_subscriptAssign, firstFrom_insert_iff hfirst, hmem]
  have hne : e ∈ ring.map.entries → e.1 ≠ ring.hash n := fun he heq =>
    hfresh (heq ▸ mem_positions he)
  have hnew : FirstFrom h ring.positions e.1 → e ≠ (ring.hash n, v) := by
    rintro hfirst rfl
    exact hfresh hfirst.1
  grind

theorem mem_remove : e ∈ (ring.remove n).1.map.entries ↔ e ∈ ring.map.entries ∧ e.1 ≠ ring.hash n :=
  OrderedMap.mem_erase

theorem positions_remove_subset : (ring.remove n).1.positions ⊆ ring.positions := by
  rw [positions_remove]
  exact fun p hp => hp.1

theorem owner_remove_of_not_owned (hown : ¬ring.OwnedBy n h) :
    (ring.remove n).1.owner h = ring.owner h := by
  cases howner : ring.owner h with
  | none =>
    have hempty := owner_eq_none_iff.mp howner
    exact owner_eq_none_iff.mpr (by simp [remove, OrderedMap.erase, hempty])
  | some e =>
    obtain ⟨he, hfirst⟩ := owner_iff.mp howner
    have hne : e.1 ≠ ring.hash n := fun heq => hown ⟨e.2, by rw [howner, ← heq]⟩
    have hmem := mem_remove.mpr ⟨he, hne⟩
    exact owner_iff.mpr ⟨hmem, hfirst.of_subset positions_remove_subset (mem_positions hmem)⟩

/-- Without `n` its hashes go to the entry that comes first from the position of `n` on. -/
theorem owner_remove_of_owned (hown : ring.OwnedBy n h) :
    (ring.remove n).1.owner h = some e ↔
      e ∈ ring.map.entries ∧ FirstFrom (ring.hash n) (ring.positions \ {ring.hash n}) e.1 := by
  rw [owner_iff, mem_remove, hown.first.next positions_remove_subset, positions_remove]
  have hne : FirstFrom (ring.hash n) (ring.positions \ {ring.hash n}) e.1 → e.1 ≠ ring.hash n :=
    fun hfirst => hfirst.1.2
  grind

theorem owner_remove_eq_none_iff :
    (ring.remove n).1.owner h = none ↔ ∀ e ∈ ring.map.entries, e.1 = ring.hash n := by
  rw [owner_eq_none_iff, List.eq_nil_iff_forall_not_mem]
  simp only [mem_remove, not_and, not_not]

/-- A node that joins takes over the hashes it comes first for and no others. A node that
leaves gives its hashes to the entry that comes next after its position, if any is left,
and no others change hands. -/
theorem moves_as_little_as_possible (ring : HashRing N K V) (n : N) (v : V) (h : K) :
    (ring.hash n ∉ ring.positions →
      ((ring.subscriptAssign n v).owner h = some (ring.hash n, v) ↔
        FirstFrom h (insert (ring.hash n) ring.positions) (ring.hash n)) ∧
      (¬FirstFrom h (insert (ring.hash n) ring.positions) (ring.hash n) →
        (ring.subscriptAssign n v).owner h = ring.owner h)) ∧
    (¬ring.OwnedBy n h → (ring.remove n).1.owner h = ring.owner h) ∧
    (ring.OwnedBy n h →
      (∀ e, (ring.remove n).1.owner h = some e ↔ e ∈ ring.map.entries ∧
        FirstFrom (ring.hash n) (ring.positions \ {ring.hash n}) e.1) ∧
      ((ring.remove n).1.owner h = none ↔ ∀ e ∈ ring.map.entries, e.1 = ring.hash n)) := by
  refine ⟨fun hfresh => ⟨owner_subscriptAssign_iff, owner_subscriptAssign_of_not_first hfresh⟩,
    owner_remove_of_not_owned, fun hown => ⟨fun e => owner_remove_of_owned hown, ?_⟩⟩
  exact owner_remove_eq_none_iff

/-- Three nodes at 1, 2 and 3, as in the test of the wrap around. -/
def threeNodes : HashRing ℕ ℕ ℕ :=
  ⟨⟨[(1, 1), (2, 2), (3, 3)], by decide⟩, id⟩

example : threeNodes.owner 3 = some (3, 3) ∧ threeNodes.owner 7 = some (1, 1) := by decide

theorem positions_threeNodes : threeNodes.positions = {1, 2, 3} := by
  ext p
  simp [positions, threeNodes, eq_comm]

/-- A fourth node at 9 takes 7 over from the first one and leaves 2 alone; the first
one's leaving passes 7 on to the second. -/
theorem moves_as_little_as_possible_three :
    (threeNodes.subscriptAssign 9 4).owner 7 = some (9, 4) ∧
      (threeNodes.subscriptAssign 9 4).owner 2 = threeNodes.owner 2 ∧
      (threeNodes.remove 1).1.owner 2 = threeNodes.owner 2 ∧
      (threeNodes.remove 1).1.owner 7 = some (2, 2) := by
  have hhash : ∀ n, threeNodes.hash n = n := fun _ => rfl
  have hfresh : threeNodes.hash 9 ∉ threeNodes.positions := by
    simp [positions_threeNodes, hhash]
  have hjoin := fun h => (moves_as_little_as_possible threeNodes 9 4 h).1 hfresh
  have hleave := fun h => (moves_as_little_as_possible threeNodes 1 4 h).2
  simp only [positions_threeNodes, hhash] at hjoin hleave
  refine ⟨(hjoin 7).1.mpr ?_, (hjoin 2).2 ?_, (hleave 2).1 ?_, ?_⟩
  · simp [FirstFrom, CyclicLE]
  · simp [FirstFrom, CyclicLE]
  · rintro ⟨v, hv⟩
    have howner : threeNodes.owner 2 = some (2, 2) := by decide
    simp [howner, hhash] at hv
  · refine ((hleave 7).2 ⟨1, by decide⟩).1 (2, 2) |>.mpr ⟨by decide, ?_⟩
    simp [FirstFrom, CyclicLE]

end HashRing

end Turbolib
