import Turbolib.VectorClock.Compare

/-!
# The comparison is antisymmetric

`compare` swaps its arguments when the first one is the longer, and then never calls it
the lesser. Both ways agree because a vector that is longer than the other is not cut.
-/

namespace Turbolib

/-- The result with the two vectors exchanged. -/
def Compare.mirror : Compare → Compare
  | .equal => .equal
  | .lessThan => .greaterThan
  | .greaterThan => .lessThan
  | .conflict => .conflict

namespace BoundedVector

variable {C K : Type} [ClockOps C K] [DecidableEq K] {a b : List C}

/-- `operator<`. -/
def less (limit : ℕ) (clocks other : List C) : Bool := compare limit clocks other = .lessThan

theorem ordinary_mirror (a b : List C) : ordinary b a = (ordinary a b).mirror := by
  rw [ordinary, ordinary]
  split_ifs <;> rfl

/-- Two lengths apart: what is kept of the shorter vector is never all there is of the
longer one. -/
theorem not_below_kept {limit : ℕ} (hb : (b.map key).Nodup) (hlb : b.length ≤ limit)
    (hlen : a.length < b.length) : ¬Below (kept limit b a) (kept limit a b) := by
  intro h
  rw [kept_of_lt (hlen.trans_le hlb)] at h
  have hle := h.length_le hb
  have hkept := (kept_sublist limit a b).length_le
  omega

theorem compare_mirror_of_lt {limit : ℕ} (ha : (a.map key).Nodup) (hb : (b.map key).Nodup)
    (hlb : b.length ≤ limit) (hlen : a.length < b.length) :
    compare limit b a = (compare limit a b).mirror := by
  rw [compare_of_gt limit hb ha hlen, compare_of_le limit ha hb hlen.le, ordinary]
  have hnot := not_below_kept hb hlb hlen
  split_ifs <;> rfl

theorem compare_mirror (limit : ℕ) (ha : (a.map key).Nodup) (hb : (b.map key).Nodup)
    (hla : a.length ≤ limit) (hlb : b.length ≤ limit) :
    compare limit b a = (compare limit a b).mirror := by
  rcases Nat.lt_trichotomy a.length b.length with hlt | heq | hgt
  · exact compare_mirror_of_lt ha hb hlb hlt
  · rw [compare_of_le limit ha hb heq.le, compare_of_le limit hb ha heq.ge, ordinary_mirror]
  · rw [compare_mirror_of_lt hb ha hla hgt]
    cases compare limit b a <;> rfl

theorem compare_self (limit : ℕ) (ha : (a.map key).Nodup) : compare limit a a = .equal := by
  rw [compare_of_le limit ha ha le_rfl, ordinary_eq_equal_iff, and_self]
  exact fun c hc => ⟨c, hc, rfl, ClockOps.lessThan_irrefl c⟩

/-- Exchanging the vectors mirrors the result; no two vectors are each less than the
other, and a vector is equal to itself. -/
theorem compare_antisymmetric (limit : ℕ) (a b : List C) (ha : (a.map key).Nodup)
    (hb : (b.map key).Nodup) (hla : a.length ≤ limit) (hlb : b.length ≤ limit) :
    compare limit b a = (compare limit a b).mirror ∧
      ¬(less limit a b = true ∧ less limit b a = true) ∧ compare limit a a = .equal := by
  have hmirror := compare_mirror limit ha hb hla hlb
  refine ⟨hmirror, ?_, compare_self limit ha⟩
  simp only [less, decide_eq_true_eq, hmirror]
  rintro ⟨hab, hba⟩
  rw [hab] at hba
  exact absurd hba (by decide)

theorem compare_antisymmetric_two :
    let a : List (VersionClock ℕ) := [⟨1, 1⟩]
    let b : List (VersionClock ℕ) := [⟨1, 2⟩, ⟨3, 5⟩]
    compare 2 b a = (compare 2 a b).mirror ∧ ¬(less 2 a b = true ∧ less 2 b a = true) ∧
      compare 2 a a = .equal := by
  intro a b
  exact compare_antisymmetric 2 a b (by decide) (by decide) (by decide) (by decide)

end BoundedVector

end Turbolib
