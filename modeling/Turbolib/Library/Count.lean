import Mathlib.Algebra.BigOperators.Group.Finset.Piecewise
import Mathlib.Algebra.Order.BigOperators.Group.Finset
import Mathlib.Data.List.Perm.Basic

/-!
# Counting parties

How many of `n` parties are in a state that meets a test, and how the number changes when
one of them moves; how many elements of a list do, when one is taken out or replaced.
-/

namespace Turbolib

variable {β : Type*} {n : ℕ} {test : β → Bool} {f : Fin n → β} {w : Fin n}

def countOf (test : β → Bool) (f : Fin n → β) : ℕ := ∑ v, (test (f v)).toNat

theorem countOf_update (test : β → Bool) (f : Fin n → β) (w : Fin n) (b : β) :
    countOf test (Function.update f w b) + (test (f w)).toNat =
      countOf test f + (test b).toNat := by
  have hupdate : (fun v => (test (Function.update f w b v)).toNat) =
      Function.update (fun v => (test (f v)).toNat) w (test b).toNat :=
    funext (Function.apply_update (fun _ x => (test x).toNat) f w b)
  have hsplit := Finset.sum_eq_add_sum_sdiff_singleton_of_mem (Finset.mem_univ w)
    (fun v => (test (f v)).toNat)
  rw [countOf, hupdate, Finset.sum_update_of_mem (Finset.mem_univ w), countOf, hsplit]
  omega

theorem countOf_le : countOf test f ≤ n := by
  have hle := Finset.sum_le_card_nsmul Finset.univ (fun v => (test (f v)).toNat) 1
    (fun v _ => Bool.toNat_le _)
  simpa [countOf] using hle

/-- One party that does not meet the test leaves less than all. -/
theorem countOf_lt (hw : test (f w) = false) : countOf test f < n := by
  have hlt := Finset.sum_lt_sum (s := Finset.univ) (f := fun v => (test (f v)).toNat)
    (g := fun _ => 1) (fun v _ => Bool.toNat_le _) ⟨w, Finset.mem_univ w, by simp [hw]⟩
  simpa [countOf] using hlt

theorem countP_eraseIdx {l : List β} {i : ℕ} {b : β} (h : l[i]? = some b) (test : β → Bool) :
    l.countP test = (l.eraseIdx i).countP test + (test b).toNat := by
  obtain ⟨hi, rfl⟩ := List.getElem?_eq_some_iff.mp h
  rw [← (List.getElem_cons_eraseIdx_perm hi).countP_eq, List.countP_cons]
  cases test l[i] <;> rfl

theorem countP_set {l : List β} {i : ℕ} {b : β} (h : l[i]? = some b) (test : β → Bool) (c : β) :
    (l.set i c).countP test + (test b).toNat = l.countP test + (test c).toNat := by
  obtain ⟨hi, rfl⟩ := List.getElem?_eq_some_iff.mp h
  rw [List.countP_set hi]
  have hpos : test l[i] = true → 0 < l.countP test := fun htest =>
    List.countP_pos_iff.mpr ⟨l[i], List.getElem_mem hi, htest⟩
  cases hb : test l[i] <;> cases hc : test c <;> simp
  all_goals
    have := hpos hb
    omega

end Turbolib
