import Mathlib.Data.List.AList

/-!
# Heaps

What is stored at the addresses in use. Storing to an address that is not in use, or
freeing it, is an error, and so is freeing an address twice.

## Main definitions

* `Heap.load`, `Heap.store`, `Heap.free` — with `none` for an error.
* `Heap.Agree` — two heaps have the same at some addresses.
* `Heap.Uses` — the addresses in use are those of a list.
-/

namespace Turbolib

/-- What is stored at the addresses in use. -/
abbrev Heap (α : Type*) := AList fun _ : ℕ => α

namespace Heap

variable {α : Type*} {h h' h'' : Heap α} {a b : ℕ} {x : α} {used used' : List ℕ}

def load (h : Heap α) (a : ℕ) : Option α := h.lookup a

def store (h : Heap α) (a : ℕ) (x : α) : Option (Heap α) :=
  if a ∈ h then some (h.insert a x) else none

def free (h : Heap α) (a : ℕ) : Option (Heap α) :=
  if a ∈ h then some (h.erase a) else none

theorem mem_of_load (hx : load h a = some x) : a ∈ h :=
  AList.lookup_isSome.mp (Option.isSome_of_eq_some hx)

theorem store_of_load {y : α} (hy : load h a = some y) (x : α) :
    store h a x = some (h.insert a x) :=
  if_pos (mem_of_load hy)

theorem free_of_load (hx : load h a = some x) : free h a = some (h.erase a) :=
  if_pos (mem_of_load hx)

@[simp] theorem load_insert (h : Heap α) (a : ℕ) (x : α) : load (h.insert a x) a = some x :=
  AList.lookup_insert h

theorem load_insert_ne (hne : b ≠ a) : load (h.insert a x) b = load h b :=
  AList.lookup_insert_ne hne

theorem load_erase_ne (hne : b ≠ a) : load (h.erase a) b = load h b :=
  AList.lookup_erase_ne hne

/-! ## Frames -/

/-- The heaps have the same at the addresses. -/
def Agree (h h' : Heap α) (addrs : List ℕ) : Prop :=
  ∀ a ∈ addrs, load h' a = load h a

theorem Agree.trans (hh : Agree h h' used) (hh' : Agree h' h'' used) : Agree h h'' used :=
  fun a ha => (hh' a ha).trans (hh a ha)

theorem Agree.mono (hh : Agree h h' used) (hsub : used' ⊆ used) : Agree h h' used' :=
  fun a ha => hh a (hsub ha)

theorem agree_insert (ha : a ∉ used) : Agree h (h.insert a x) used := by
  intro b hb
  refine load_insert_ne ?_
  rintro rfl
  exact ha hb

theorem agree_erase (ha : a ∉ used) : Agree h (h.erase a) used := by
  intro b hb
  refine load_erase_ne ?_
  rintro rfl
  exact ha hb

/-- The second heap is the first without the addresses. -/
def Erased (h h' : Heap α) (gone : List ℕ) : Prop :=
  ∀ a, load h' a = if a ∈ gone then none else load h a

theorem erased_erase (h : Heap α) (a : ℕ) : Erased h (h.erase a) [a] := by
  intro b
  by_cases hb : b = a
  · subst hb
    rw [if_pos (List.mem_singleton_self b)]
    exact AList.lookup_erase b h
  · rw [if_neg (List.mem_singleton.not.mpr hb), load_erase_ne hb]

theorem Erased.load (he : Erased h h' used) (ha : a ∉ used) : load h' a = load h a :=
  (he a).trans (if_neg ha)

theorem Erased.trans (he : Erased h h' used) (he' : Erased h' h'' used') :
    Erased h h'' (used ++ used') := by
  intro a
  rw [he' a, he a]
  by_cases hu : a ∈ used
  · rw [if_pos hu, if_pos (List.mem_append_left _ hu), ite_self]
  · by_cases hu' : a ∈ used'
    · rw [if_pos hu', if_pos (List.mem_append_right _ hu')]
    · rw [if_neg hu', if_neg hu, if_neg (by simp [hu, hu'])]

theorem Erased.congr (he : Erased h h' used) (hused : ∀ a, a ∈ used ↔ a ∈ used') :
    Erased h h' used' := by
  intro a
  rw [he a]
  exact if_congr (hused a) rfl rfl

/-! ## The addresses in use -/

/-- The addresses in use are those of the list. -/
def Uses (h : Heap α) (used : List ℕ) : Prop := ∀ a, a ∈ h ↔ a ∈ used

theorem uses_empty : Uses (∅ : Heap α) [] := fun a => by simp [AList.notMem_empty]

theorem Uses.insert (hu : Uses h used) : Uses (h.insert a x) (a :: used) := by
  intro b
  rw [AList.mem_insert, List.mem_cons, hu b]

theorem Uses.insert_of_mem (hu : Uses h used) (ha : a ∈ used) : Uses (h.insert a x) used := by
  intro b
  rw [AList.mem_insert, hu b]
  constructor
  · rintro (rfl | hb)
    · exact ha
    · exact hb
  · exact Or.inr

theorem Uses.erase (hu : Uses h used) (hused : used.Perm (a :: used')) (ha : a ∉ used') :
    Uses (h.erase a) used' := by
  intro b
  rw [AList.mem_erase, hu b, hused.mem_iff, List.mem_cons]
  constructor
  · rintro ⟨hne, rfl | hb⟩
    · exact absurd rfl hne
    · exact hb
  · intro hb
    refine ⟨?_, Or.inr hb⟩
    rintro rfl
    exact ha hb

/-- Nothing is left when everything in use is erased. -/
theorem Uses.erased (hu : Uses h used) (he : Erased h h' used) : Uses h' [] := by
  intro a
  have hnone : Heap.load h' a = none := by
    rw [he a]
    split_ifs with ha
    · rfl
    · exact AList.lookup_eq_none.mpr ((hu a).not.mpr ha)
  simpa using AList.lookup_eq_none.mp hnone

theorem Uses.congr (hu : Uses h used) (hused : ∀ a, a ∈ used ↔ a ∈ used') : Uses h used' :=
  fun a => (hu a).trans (hused a)

end Heap

end Turbolib
