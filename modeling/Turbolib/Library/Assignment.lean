import Mathlib.Data.List.Nodup
import Mathlib.Logic.Function.Basic

/-!
# Assignments to a map

A map without an order is the function that looks a key up. Assigning under a key replaces
what was there.

## Main definitions

* `assignAll` — the assignments of a list of entries, one after the other.
-/

namespace Turbolib

variable {K V : Type*} [DecidableEq K] {m : K → Option V} {es : List (K × V)} {k : K} {v : V}

def assignAll (m : K → Option V) (es : List (K × V)) : K → Option V :=
  es.foldl (fun m e => Function.update m e.1 (some e.2)) m

theorem assignAll_cons (m : K → Option V) (e : K × V) (es : List (K × V)) :
    assignAll m (e :: es) = assignAll (Function.update m e.1 (some e.2)) es := rfl

/-- Other keys keep what they have. -/
theorem assignAll_of_not_mem (hk : k ∉ es.map Prod.fst) : assignAll m es k = m k := by
  induction es generalizing m with
  | nil => rfl
  | cons e es ih =>
    obtain ⟨hne, hes⟩ : k ≠ e.1 ∧ k ∉ es.map Prod.fst := by simpa using hk
    rw [assignAll_cons, ih hes, Function.update_of_ne hne]

/-- A key that was assigned has one of the values it was given. -/
theorem assignAll_of_mem (hk : k ∈ es.map Prod.fst) :
    ∃ v, assignAll m es k = some v ∧ (k, v) ∈ es := by
  induction es generalizing m with
  | nil => simp at hk
  | cons e es ih =>
    by_cases hes : k ∈ es.map Prod.fst
    · obtain ⟨v, hv, hmem⟩ := ih (m := Function.update m e.1 (some e.2)) hes
      exact ⟨v, hv, List.mem_cons_of_mem e hmem⟩
    · obtain rfl : k = e.1 := (List.mem_cons.mp hk).resolve_right hes
      refine ⟨e.2, ?_, List.mem_cons_self⟩
      rw [assignAll_cons, assignAll_of_not_mem hes, Function.update_self]

/-- In an empty map distinct keys have their own values. -/
theorem assignAll_eq_some_iff (hnodup : (es.map Prod.fst).Nodup) :
    assignAll (fun _ => none) es k = some v ↔ (k, v) ∈ es := by
  constructor
  · intro hv
    by_cases hk : k ∈ es.map Prod.fst
    · obtain ⟨w, hw, hmem⟩ := assignAll_of_mem (m := fun _ => none) hk
      rwa [Option.some.inj (hv.symm.trans hw)]
    · simp [assignAll_of_not_mem hk] at hv
  · intro hmem
    obtain ⟨w, hw, hmem'⟩ :=
      assignAll_of_mem (m := fun _ => none) (List.mem_map_of_mem (f := Prod.fst) hmem)
    have hinj := List.inj_on_of_nodup_map hnodup hmem hmem' rfl
    rw [hw, (Prod.mk.inj hinj).2]

end Turbolib
