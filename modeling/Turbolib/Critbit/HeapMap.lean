import Turbolib.Critbit.HeapUpdate
import Turbolib.Critbit.Map
import Turbolib.Critbit.Representation

/-!
# The tree in memory is a finite map

Whatever is asked of a newly constructed tree, no pointer is followed that has nothing
behind it, nothing is freed twice, every loop ends while the keys inserted are short enough for
its counter, the answers are those of the finite map, and the blocks in use are two for each
element stored, less one.

## Main definitions

* `HeapTree.answer` — how the tree in memory answers a request.
* `HeapTree.Represents` — it is a tree of nodes that stores the elements of a map.
-/

namespace Turbolib

open Cell (loadElem walk)

namespace Node

variable {E H : Type}

/-- There is one branch less than there are elements. -/
theorem length_addrs (n : Node E H) : n.addrs.length + 1 = 2 * n.leaves.length := by
  induction n with
  | leaf x => rfl
  | branch q c0 c1 ih0 ih1 =>
    simp only [addrs, leaves_branch, List.length_cons, List.length_append]
    omega

theorem Stored.load_of_mem {h : Heap (Cell E H)} {n : Node E H} (hn : n.Stored h) {x : ValPtr E}
    (hx : x ∈ n) : Heap.load h x.addr = some (.elem x.val) := by
  induction n with
  | leaf y => exact mem_leaf.mp hx ▸ hn
  | branch q c0 c1 ih0 ih1 =>
    rcases mem_branch.mp hx with hx | hx
    · exact ih0 hn.2.1 hx
    · exact ih1 hn.2.2 hx

end Node

variable {E H : Type}

/-- How an allocation goes matters to the map only by whether there is memory. -/
theorem ElemMap.answer_insert_congr [CritbitElemOps E] {H' : Type} {mem : Memory H}
    {mem' : Memory H'}
    (hmem : ∀ isEmpty, mem.suffices isEmpty = mem'.suffices isEmpty) (m : ElemMap E)
    (val : E) (isNew : Bool) :
    m.answer (.insert val isNew mem) = m.answer (.insert val isNew mem') := by
  simp only [ElemMap.answer, hmem]

variable [CritbitExt E H]

namespace CritbitTree

variable [CritbitElemOps E] {s : CritbitTree E H} {m : ElemMap E} {root : Node E H}

/-- The element that `insert` returns is in the tree. -/
theorem Valid.mem_insert {s' : CritbitTree E H} (h : s.Valid)
    {val : E} {isNew isNew' : Bool} {mem : Memory H} {x : ValPtr E}
    (hi : s.insert val isNew mem = some (s', some x, isNew')) : x ∈ s' := by
  obtain ⟨s₁, r, h₁, -, ho⟩ := h.insert val isNew mem
  cases hi.symm.trans h₁
  rw [← mem_members]
  cases ho with
  | present y hy hk hs => rwa [hs]
  | added y habs hmem hy hs => exact (hs x).mpr (Or.inl rfl)

theorem Represents.nodup_keys (h : s.Represents m) (hroot : s.root = some root) :
    (root.leaves.map fun x => keyBytes x.val).Nodup := by
  have hasc := (h.valid.wellFormed root hroot).leavesAscend.ascending
  refine List.pairwise_map.mpr (hasc.imp ?_)
  intro x y hlt he
  rw [he] at hlt
  exact List.lt_irrefl _ hlt

theorem Represents.keys_eq (h : s.Represents m) (hroot : s.root = some root) :
    m.keys = (root.leaves.map fun x => keyBytes x.val).toFinset := by
  ext key
  rw [Finmap.mem_keys, Finmap.mem_iff, List.mem_toFinset, List.mem_map]
  simp only [h.lookup_iff, mem_def, hroot]
  constructor
  · rintro ⟨e, x, ⟨n, hn, hx⟩, hkey, -⟩
    cases hn
    exact ⟨x, hx, hkey⟩
  · rintro ⟨x, hx, hkey⟩
    exact ⟨x.val, x, ⟨root, rfl, hx⟩, hkey, rfl⟩

end CritbitTree

namespace HeapTree

variable {t : HeapTree E H} {s : CritbitTree E H}

theorem Refined.loadElem_of_mem (h : t.Refined s) {x : ValPtr E} (hx : x ∈ s) :
    loadElem t.heap (Word.of x.addr) = some x.val := by
  obtain ⟨root, hroot, hx⟩ := hx
  exact loadElem_of ((h.root_some root hroot).stored.load_of_mem hx)

/-- The pending `onchange` succeeds when that of the tree of nodes does. -/
theorem UpdateRefined.finish [HeapExt E H] {R S : Type} {result : S → R} {u : HeapUpdate E H R}
    {v : Update E H S} (h : UpdateRefined result u v) {s' : CritbitTree E H} {r : S}
    (hv : v.finish = some (s', r)) :
    ∃ t', u.finish = some (t', result r) ∧ t'.Refined s' := by
  cases h with
  | returns r' h =>
    cases hv
    exact ⟨_, rfl, h⟩
  | @changed t root changes freed r' h =>
    obtain ⟨⟨root', changes'⟩, hon, he⟩ := Option.map_eq_some_iff.mp hv
    cases he
    have hat := h.root_some root rfl
    have hroot : root.Stored t.heap := hat.stored
    have hnodup : root.addrs.Nodup := hat.nodup
    obtain ⟨heap, hheap, hstored, hskel, huses⟩ := HeapExt.onchange_stored hroot hnodup hon
    have haddrs : root'.addrs = root.addrs := by
      rw [← Node.addrs_skeleton, hskel, Node.addrs_skeleton]
    have hword : root'.word = root.word := by
      rw [← Node.word_skeleton, hskel, Node.word_skeleton]
    refine ⟨{ t with heap := heap, ext := changes' }, ?_, refined_some ⟨?_, hstored, ?_⟩ rfl ?_⟩
    · simp only [HeapUpdate.finish, h.ext, show HeapExt.onchange t.heap changes = _ from hheap,
        Option.map_some]
    · exact hat.root.trans hword.symm
    · exact haddrs ▸ hnodup
    · exact haddrs ▸ huses _ h.uses

variable [CritbitElemOps E]

/-- How the tree in memory answers. The caller reads the element behind the pointer. -/
def answer [HeapExt E H] (t : HeapTree E H) :
    Request E (BranchCell H) → Option (HeapTree E H × Answer E)
  | .insert val isNew mem => do
    let (t, x, isNew) ← t.insert t.rounds val isNew mem
    if x = 0 then some (t, .outOfMemory)
    else some (t, .inserted (← loadElem t.heap x) isNew)
  | .remove val => (t.remove t.rounds val).map fun r => (r.1, .removed r.2)
  | .find val => do
    let x ← t.find t.rounds val
    if x = 0 then some (t, .found none) else some (t, .found (some (← loadElem t.heap x)))
  | .contains val => (t.find t.rounds val).map fun x => (t, .contained (decide (x ≠ 0)))
  | .empty => some (t, .isEmpty (decide (t.root = 0)))
  | .clear => (t.clear t.rounds).map fun t => (t, .cleared)

/-- The comparison of `insert`, with the byte counter of the source. -/
def compareBest (t : HeapTree E H) (val : E) : Option (Option CriticalBit) :=
  if t.root = 0 then some none
  else do
    let closest ← walk t.heap (keyBytes val) t.rounds t.root
    let p := keyBytes (← loadElem t.heap closest)
    findCriticalBit32 p p.length (keyBytes val) (keyBytes val).length

/-- How the tree in memory answers, with the byte counter of the source. -/
def answer32 [HeapExt E H] (t : HeapTree E H) :
    Request E (BranchCell H) → Option (HeapTree E H × Answer E)
  | .insert val isNew mem => (t.compareBest val).bind fun _ => t.answer (.insert val isNew mem)
  | request => t.answer request

/-- The heap has a tree that the operations can lead to, with the elements of the map, each
under its own key, and nothing else. -/
def Represents (t : HeapTree E H) (m : ElemMap E) : Prop :=
  ∃ s : CritbitTree E H, t.Refined s ∧ s.Represents m ∧ s.Reachable

variable {m : ElemMap E}

theorem represents_empty : (HeapTree.empty : HeapTree E H).Represents ∅ :=
  ⟨_, refined_empty, CritbitTree.represents_empty, .empty⟩

/-- Two blocks for each element, less one. -/
theorem Represents.length_keys (h : t.Represents m) :
    t.heap.keys.length = 2 * m.keys.card - 1 := by
  obtain ⟨s, hr, hm, hs⟩ := h
  cases hroot : s.root with
  | none =>
    have huses := hr.uses
    rw [hroot] at huses
    have hkeys : t.heap.keys = [] := List.eq_nil_iff_forall_not_mem.mpr fun a ha =>
      List.not_mem_nil ((huses a).mp ha)
    have hempty : m.keys = ∅ := by
      have := hm.isEmpty_eq
      rw [CritbitTree.isEmpty, hroot, Option.isNone_none, eq_comm, decide_eq_true_iff] at this
      exact this
    rw [hkeys, hempty]
    rfl
  | some root =>
    have hat := hr.root_some root hroot
    have huses := hr.uses
    rw [hroot] at huses
    have hperm : t.heap.keys.Perm root.addrs :=
      (List.perm_ext_iff_of_nodup t.heap.keys_nodup hat.nodup).mpr huses
    have hcard : m.keys.card = root.leaves.length := by
      rw [hm.keys_eq hroot, List.toFinset_card_of_nodup (hm.nodup_keys hroot), List.length_map]
    have := root.length_addrs
    rw [hperm.length_eq, hcard]
    omega

theorem Represents.empty (h : t.Represents m) :
    decide (t.root = 0) = decide (m.keys = ∅) := by
  obtain ⟨s, hr, hm, hs⟩ := h
  rw [← hm.isEmpty_eq, CritbitTree.isEmpty, Bool.eq_iff_iff, decide_eq_true_iff,
    Option.isNone_iff_eq_none]
  exact hr.root_eq_zero

variable [HeapExt E H]

theorem Represents.insert (h : t.Represents m) (val : E) (isNew : Bool)
    (mem : Memory (BranchCell H)) :
    ∃ t', t.answer (.insert val isNew mem) = some (t', (m.answer (.insert val isNew mem)).2) ∧
      t'.Represents (m.answer (.insert val isNew mem)).1 := by
  obtain ⟨s, hr, hm, hs⟩ := h
  obtain ⟨mem', hmem, u, hu, hupdate⟩ := hr.insertUpdate val isNew mem
  rw [← ElemMap.answer_insert_congr hmem]
  obtain ⟨s', hanswer, hm'⟩ := hm.insert val isNew mem'
  obtain ⟨⟨s'', r⟩, hfinish, he⟩ := Option.map_eq_some_iff.mp hanswer
  obtain ⟨rfl, hanswer⟩ := Prod.ext_iff.mp he
  obtain ⟨t', ht, hr'⟩ := hupdate.finish hfinish
  have hinsert : t.insert t.rounds val isNew mem = some (t', pointer r.1, r.2) := by
    rw [HeapTree.insert, hu, Option.bind_some, ht]
  refine ⟨t', ?_, s'', hr', hm', hs.insert hfinish⟩
  rw [← hanswer]
  simp only [HeapTree.answer, hinsert, Option.bind_eq_bind, Option.bind_some]
  obtain ⟨x | x, isNew'⟩ := r
  · rfl
  · have hx : x ∈ s'' := hm.valid.mem_insert hfinish
    have hne : pointer (some x) ≠ 0 := Word.of_ne_zero x.addr
    rw [if_neg hne, show loadElem t'.heap (pointer (some x)) = _ from hr'.loadElem_of_mem hx]
    rfl

theorem Represents.remove (h : t.Represents m) (val : E) :
    ∃ t', t.answer (.remove val) =
        some (t', (m.answer (.remove (H := BranchCell H) val)).2) ∧
      t'.Represents (m.answer (.remove (H := BranchCell H) val)).1 := by
  obtain ⟨s, hr, hm, hs⟩ := h
  obtain ⟨u, hu, hupdate⟩ := hr.removeUpdate val
  obtain ⟨s', hanswer, hm'⟩ := hm.remove val
  obtain ⟨⟨s'', r⟩, hfinish, he⟩ := Option.map_eq_some_iff.mp hanswer
  obtain ⟨rfl, hanswer⟩ := Prod.ext_iff.mp he
  obtain ⟨t', ht, hr'⟩ := hupdate.finish hfinish
  refine ⟨t', ?_, s'', hr', hm', hs.remove hfinish⟩
  rw [HeapTree.answer, HeapTree.remove, hu, Option.bind_some, ht]
  exact congrArg some (Prod.ext rfl hanswer)

theorem Represents.find (h : t.Represents m) (val : E) :
    t.answer (.find val) = some (t, .found (m.lookup (keyBytes val))) := by
  obtain ⟨s, hr, hm, hs⟩ := h
  rw [← hm.find_eq]
  simp only [HeapTree.answer, hr.find, Option.bind_eq_bind, Option.bind_some]
  cases hfind : s.find val with
  | none => rfl
  | some x =>
    have hx : x ∈ s := (hm.valid.find_eq_some_iff.mp hfind).1
    have hne : pointer (some x) ≠ 0 := Word.of_ne_zero x.addr
    rw [if_neg hne, show loadElem t.heap (pointer (some x)) = _ from hr.loadElem_of_mem hx]
    rfl

theorem Represents.contains (h : t.Represents m) (val : E) :
    t.answer (.contains val) = some (t, .contained (decide (keyBytes val ∈ m))) := by
  obtain ⟨s, hr, hm, hs⟩ := h
  have hpointer : decide (pointer (s.find val) ≠ 0) = s.contains val := by
    rw [CritbitTree.contains]
    cases s.find val with
    | none => rfl
    | some x => exact decide_eq_true (Word.of_ne_zero x.addr)
  rw [HeapTree.answer, hr.find, Option.map_some, hpointer, hm.contains_eq]

/-- One request: the tree in memory answers as the map does. -/
theorem answer_refines :
    Refines (Represents (E := E) (H := H)) answer (ElemMap.answer (E := E)) := by
  intro t m request h
  cases request with
  | insert val isNew mem => exact h.insert val isNew mem
  | remove val => exact h.remove val
  | find val => exact ⟨t, h.find val, h⟩
  | contains val => exact ⟨t, h.contains val, h⟩
  | empty => exact ⟨t, by rw [answer, h.empty]; rfl, h⟩
  | clear =>
    obtain ⟨s, hr, hm, hs⟩ := h
    obtain ⟨t', ht, hr'⟩ := hr.clear
    have hempty : s.clear.Represents (∅ : ElemMap E) :=
      ⟨hm.valid.clear, by simp [CritbitTree.mem_def, CritbitTree.clear]⟩
    exact ⟨t', by rw [answer, ht]; rfl, s.clear, hr', hempty, hs.clear⟩

omit [HeapExt E H] in
/-- With a short key the comparison of `insert` ends, once the walk to the best match does. -/
theorem exists_compareBest {val : E} (hshort : Short val) {isNew : Bool}
    {mem : Memory (BranchCell H)} {u : HeapUpdate E H (ℕ × Bool)}
    (hu : t.insertUpdate t.rounds val isNew mem = some u) : ∃ c, t.compareBest val = some c := by
  rw [compareBest]
  rw [insertUpdate] at hu
  split_ifs with hroot
  · exact ⟨_, rfl⟩
  · rw [if_neg hroot] at hu
    obtain ⟨closest, hwalk, hu⟩ := Option.bind_eq_some_iff.mp hu
    obtain ⟨elem, helem, -⟩ := Option.bind_eq_some_iff.mp hu
    exact ⟨_, by
      simp only [hwalk, helem, Option.bind_eq_bind, Option.bind_some]
      exact findCriticalBit32_of_lt _ _ hshort⟩

theorem Represents.answer32_eq (h : t.Represents m) {request : Request E (BranchCell H)}
    (hshort : request.Short) : t.answer32 request = t.answer request := by
  cases request with
  | insert val isNew mem =>
    obtain ⟨s, hr, -⟩ := h
    obtain ⟨mem', -, u, hu, -⟩ := hr.insertUpdate val isNew mem
    obtain ⟨c, hc⟩ := exists_compareBest hshort hu
    rw [answer32, hc, Option.bind_some]
  | _ => rfl

/-- Any requests to a newly constructed tree in memory that insert no longer keys are answered as
a map that starts empty answers them, and the blocks in use at the end are two for each element,
less one. -/
theorem run_in_memory (requests : List (Request E (BranchCell H)))
    (hshort : ∀ request ∈ requests, request.Short) :
    ∃ t : HeapTree E H,
      run answer32 HeapTree.empty requests = some (t, (runSpec ElemMap.answer ∅ requests).2) ∧
      t.heap.keys.length = 2 * (runSpec ElemMap.answer ∅ requests).1.keys.card - 1 := by
  have hrun : run answer32 (HeapTree.empty : HeapTree E H) requests =
      run answer HeapTree.empty requests :=
    answer_refines.run_congr (fun request hmem _ _ h => h.answer32_eq (hshort request hmem))
      represents_empty
  rw [hrun]
  obtain ⟨t, hrun, ht⟩ := answer_refines.run requests represents_empty
  exact ⟨t, hrun, ht.length_keys⟩

/-- Two strings are inserted, and one of them is removed. -/
theorem run_in_memory_two :
    let val : CString := ⟨[97], by decide⟩
    let val' : CString := ⟨[98], by decide⟩
    let mem : Memory (BranchCell Unit) := .ample ⟨0, 0, 0, 0, ()⟩
    let requests := [.insert val false mem, .insert val' false mem, .remove val]
    ∃ t : HeapTree CString Unit,
      run answer32 HeapTree.empty requests = some (t, (runSpec ElemMap.answer ∅ requests).2) ∧
      t.heap.keys.length = 2 * (runSpec ElemMap.answer ∅ requests).1.keys.card - 1 := by
  intro val val' mem requests
  refine run_in_memory requests fun request hmem => ?_
  simp only [requests, List.mem_cons, List.not_mem_nil, or_false] at hmem
  rcases hmem with rfl | rfl | rfl
  · exact (by decide : Short val)
  · exact (by decide : Short val')
  · exact trivial

end HeapTree

end Turbolib
