import Mathlib.Order.Basic
import Mathlib.Data.Set.Insert

/-!
# Positions in cyclic order

A linear order wrapped around: from a point `h` on, the positions at or after `h` come
first, in ascending order, and then those before `h`.

## Main definitions

* `CyclicLE h p q` — from `h` on, `p` comes no later than `q`.
* `FirstFrom h s p` — `p` is the first of the positions `s` from `h` on.
-/

namespace Turbolib

variable {K : Type*} [LinearOrder K] {h p q r : K} {s t : Set K}

/-- From `h` on, `p` comes no later than `q`. -/
@[grind] def CyclicLE (h p q : K) : Prop := (h ≤ p ∧ q < h) ∨ ((h ≤ p ↔ h ≤ q) ∧ p ≤ q)

theorem CyclicLE.antisymm (hpq : CyclicLE h p q) (hqp : CyclicLE h q p) : p = q := by
  grind

theorem CyclicLE.trans (hpq : CyclicLE h p q) (hqr : CyclicLE h q r) : CyclicLE h p r := by
  grind

theorem CyclicLE.total (h p q : K) : CyclicLE h p q ∨ CyclicLE h q p := by
  grind

/-- What lies behind `p` comes in the same order from `h` and from `p`. -/
theorem CyclicLE.rotate (hq : CyclicLE h p q) (hr : CyclicLE h p r) :
    CyclicLE h q r ↔ CyclicLE p q r := by
  grind

/-- The first of some positions at or after `h`, in cyclic order. -/
@[grind] def FirstFrom (h : K) (s : Set K) (p : K) : Prop := p ∈ s ∧ ∀ q ∈ s, CyclicLE h p q

theorem FirstFrom.unique (hp : FirstFrom h s p) (hq : FirstFrom h s q) : p = q :=
  (hp.2 q hq.1).antisymm (hq.2 p hp.1)

/-- A new position that is not the first one leaves the first one alone. -/
theorem firstFrom_insert_iff (hfirst : ¬FirstFrom h (insert p s) p) :
    FirstFrom h (insert p s) q ↔ FirstFrom h s q := by
  have hlater : FirstFrom h s q → CyclicLE h q p := by
    intro hq
    -- otherwise `p` would come before everything `q` comes before
    have hnot : ¬CyclicLE h p q := fun hpq =>
      hfirst ⟨Or.inl rfl, by
        rintro r (rfl | hr)
        · exact (CyclicLE.total h r r).elim id id
        · exact hpq.trans (hq.2 r hr)⟩
    exact (CyclicLE.total h p q).resolve_left hnot
  grind

/-- Taking away the first position, the next one from there on becomes the first. -/
theorem FirstFrom.next (hp : FirstFrom h s p) (ht : t ⊆ s) :
    FirstFrom h t q ↔ FirstFrom p t q := by
  have hrotate : ∀ q ∈ t, ∀ r ∈ t, CyclicLE h q r ↔ CyclicLE p q r := fun q hq r hr =>
    (hp.2 q (ht hq)).rotate (hp.2 r (ht hr))
  grind

/-- Taking away any other position leaves the first one alone. -/
theorem FirstFrom.of_subset (hp : FirstFrom h s p) (ht : t ⊆ s) (hpt : p ∈ t) :
    FirstFrom h t p :=
  ⟨hpt, fun q hq => hp.2 q (ht hq)⟩

end Turbolib
