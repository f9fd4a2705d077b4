import Turbolib.VectorClock.Mirror

/-!
# The order below the limit

Vectors with fewer clocks than the limit are not cut, so that `compare` is the ordinary
comparison of vector clocks, and `operator<` is a strict order on them.
-/

namespace Turbolib

namespace BoundedVector

variable {C K : Type} [ClockOps C K] {a b c : List C}

/-- The clocks of one key are in a line. -/
theorem not_lessThan_trans {x y z : C} (hxy : key y = key x) (h : clockLessThan y x = false)
    (h' : clockLessThan z y = false) : clockLessThan z x = false := by
  by_contra hzx
  have hzx := Bool.eq_true_of_not_eq_false hzx
  cases hlt : clockLessThan x y with
  | true => rw [ClockOps.lessThan_trans _ _ _ hzx hlt] at h'; cases h'
  | false =>
    rw [ClockOps.eq_of_not_lessThan y x hxy h hlt, hzx] at h'
    cases h'

theorem Below.trans (hab : Below a b) (hbc : Below b c) : Below a c := by
  intro x hx
  obtain ⟨y, hy, hyk, hyx⟩ := hab x hx
  obtain ⟨z, hz, hzk, hzy⟩ := hbc y hy
  exact ⟨z, hz, hzk.trans hyk, not_lessThan_trans hyk hyx hzy⟩

variable [DecidableEq K] {limit : ℕ}

/-- A vector with distinct keys and fewer clocks than the limit. -/
structure Small (limit : ℕ) (a : List C) : Prop where
  nodup : (a.map key).Nodup
  length_lt : a.length < limit

theorem compare_of_small (ha : Small limit a) (hb : Small limit b) :
    compare limit a b = ordinary a b := by
  rcases Nat.lt_or_ge b.length a.length with hgt | hle
  · have hab : ¬Below a b := fun h => absurd (h.length_le ha.nodup) (not_le.mpr hgt)
    rw [compare_of_gt limit ha.nodup hb.nodup hgt, kept_of_lt ha.length_lt, kept_of_lt hb.length_lt,
      ordinary, if_neg hab]
  · rw [compare_of_le limit ha.nodup hb.nodup hle, kept_of_lt ha.length_lt, kept_of_lt hb.length_lt]

theorem less_of_small (ha : Small limit a) (hb : Small limit b) :
    less limit a b = true ↔ Below a b ∧ ¬Below b a := by
  rw [less, decide_eq_true_eq, compare_of_small ha hb, ordinary_eq_lessThan_iff]

/-- What `compare` answers by the pointwise definition. -/
structure PointwiseOrder (a b : List C) (result : Compare) : Prop where
  equal : result = .equal ↔ SameClocks a b
  lessThan : result = .lessThan ↔ ¬SameClocks a b ∧ Below a b
  greaterThan : result = .greaterThan ↔ ¬SameClocks a b ∧ Below b a
  conflict : result = .conflict ↔ ¬SameClocks a b ∧ ¬Below a b ∧ ¬Below b a

theorem pointwiseOrder_ordinary (ha : (a.map key).Nodup) (hb : (b.map key).Nodup) :
    PointwiseOrder a b (ordinary a b) := by
  have hsame := sameClocks_iff ha hb
  constructor
  · rw [ordinary_eq_equal_iff, hsame]
  · rw [ordinary_eq_lessThan_iff, hsame]
    tauto
  · rw [ordinary_eq_greaterThan_iff, hsame]
    tauto
  · rw [ordinary_eq_conflict_iff, hsame]
    tauto

/-- Below the limit `compare` is the order of vector clocks, and `operator<` its strict
part. -/
theorem compare_partialOrder (limit : ℕ) :
    (∀ a b : List C, Small limit a → Small limit b → PointwiseOrder a b (compare limit a b)) ∧
    (∀ a : List C, Small limit a → less limit a a = false) ∧
    ∀ a b c : List C, Small limit a → Small limit b → Small limit c →
      less limit a b = true → less limit b c = true → less limit a c = true := by
  refine ⟨fun a b ha hb => ?_, fun a ha => ?_, fun a b c ha hb hc hab hbc => ?_⟩
  · rw [compare_of_small ha hb]
    exact pointwiseOrder_ordinary ha.nodup hb.nodup
  · rw [Bool.eq_false_iff, ne_eq, less_of_small ha ha]
    exact and_not_self
  · rw [less_of_small ha hb] at hab
    rw [less_of_small hb hc] at hbc
    rw [less_of_small ha hc]
    exact ⟨hab.1.trans hbc.1, fun hca => hab.2 (hbc.1.trans hca)⟩

/-- A chain of vectors with other keys in front each time. -/
theorem compare_partialOrder_three :
    let a : List (VersionClock ℕ) := [⟨1, 1⟩]
    let b : List (VersionClock ℕ) := [⟨2, 5⟩, ⟨1, 1⟩]
    let c : List (VersionClock ℕ) := [⟨1, 3⟩, ⟨2, 5⟩, ⟨3, 1⟩]
    PointwiseOrder a b (compare 4 a b) ∧ less 4 a a = false ∧ less 4 a c = true := by
  intro a b c
  have ha : Small 4 a := ⟨by decide, by decide⟩
  have hb : Small 4 b := ⟨by decide, by decide⟩
  have hc : Small 4 c := ⟨by decide, by decide⟩
  obtain ⟨hpoint, hirrefl, htrans⟩ := compare_partialOrder (C := VersionClock ℕ) 4
  exact ⟨hpoint a b ha hb, hirrefl a ha, htrans a b c ha hb hc (by decide) (by decide)⟩

end BoundedVector

end Turbolib
