import Mathlib.Data.List.Basic

/-!
# The common beginning of two lists

Two lists are what they begin with alike and two rests, one of which is empty or which begin
differently. The rests decide how the lists compare.

## Main definitions

* `common` — the elements that two lists begin with alike.
* `Diverge` — lists that do not begin alike.
-/

namespace Turbolib

variable {α : Type*}

def common [DecidableEq α] : List α → List α → List α
  | a :: l, b :: r => if a = b then a :: common l r else []
  | _, _ => []

inductive Diverge : List α → List α → Prop where
  | left (r : List α) : Diverge [] r
  | right (l : List α) : Diverge l []
  | differ {a b : α} (hne : a ≠ b) (l r : List α) : Diverge (a :: l) (b :: r)

/-- Lists are their common beginning and what diverges behind it. -/
theorem exists_common_append [DecidableEq α] (l r : List α) :
    ∃ l' r', l = common l r ++ l' ∧ r = common l r ++ r' ∧ Diverge l' r' := by
  fun_induction common l r with
  | case1 l a r ih =>
    obtain ⟨l', r', hl, hr, hdiverge⟩ := ih
    exact ⟨l', r', congrArg (a :: ·) hl, congrArg (a :: ·) hr, hdiverge⟩
  | case2 a l b r hne => exact ⟨a :: l, b :: r, rfl, rfl, .differ hne l r⟩
  | case3 l r hcons =>
    refine ⟨l, r, rfl, rfl, ?_⟩
    cases l with
    | nil => exact .left r
    | cons a l =>
      cases r with
      | nil => exact .right _
      | cons b r => exact absurd rfl (hcons a l b r rfl)

theorem common_sublist_left [DecidableEq α] (l r : List α) : (common l r).Sublist l := by
  obtain ⟨l', r', hl, -⟩ := exists_common_append l r
  have hprefix : common l r <+: l := ⟨l', hl.symm⟩
  exact hprefix.sublist

/-- What two lists begin with alike does not decide how they compare. -/
theorem append_lt_append_iff [LT α] (hirrefl : ∀ a : α, ¬a < a) (p l r : List α) :
    p ++ l < p ++ r ↔ l < r := by
  induction p with
  | nil => rfl
  | cons a p ih => simp [List.cons_lt_cons_iff, hirrefl, ih]

end Turbolib
