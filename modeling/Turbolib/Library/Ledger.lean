import Turbolib.Library.Transition

/-!
# Runs with a record

A system together with a list of what its steps have done. What comes in is what is held
and what has gone out, if that is so of each step.

## Main definitions

* `Recorded` — a state and the record so far.
* `recorded step records` — the steps of the system, recorded.
* `balance_of_reachable` — the balance rule.
-/

namespace Turbolib

/-- What a record with one more entry has at a place. -/
theorem getElem?_concat_eq_some_iff {β : Type*} {log : List β} {i : ℕ} {b c : β} :
    (log ++ [b])[i]? = some c ↔ log[i]? = some c ∨ (i = log.length ∧ c = b) := by
  rcases Nat.lt_trichotomy i log.length with hlt | rfl | hgt
  · rw [List.getElem?_append_left hlt]
    simp [Nat.ne_of_lt hlt]
  · simp [eq_comm]
  · rw [List.getElem?_eq_none (by simp; omega), List.getElem?_eq_none (Nat.le_of_lt hgt)]
    simp [Nat.ne_of_gt hgt]

variable {σ α β : Type*} {step : σ → α → Option σ} {records : σ → α → List β}

structure Recorded (σ β : Type*) where
  state : σ
  log : List β

/-- The step of a system, which adds `records` to the log. -/
def recorded (step : σ → α → Option σ) (records : σ → α → List β) (s : Recorded σ β) (a : α) :
    Option (Recorded σ β) :=
  (step s.state a).map fun s' => ⟨s', s.log ++ records s.state a⟩

variable {s s' : Recorded σ β} {a : α}

theorem recorded_eq_some_iff : recorded step records s a = some s' ↔
    step s.state a = some s'.state ∧ s'.log = s.log ++ records s.state a := by
  rw [recorded, Option.map_eq_some_iff]
  constructor
  · rintro ⟨t, ht, rfl⟩
    exact ⟨ht, rfl⟩
  · rintro ⟨ht, hlog⟩
    exact ⟨s'.state, ht, by rw [← hlog]⟩

theorem balance_of_reachable (held : σ → ℕ) (into out : β → Bool)
    (hrun : Reachable (recorded step records) s s')
    (hs : s.log.countP into = held s.state + s.log.countP out)
    (hstep : ∀ s a s', step s a = some s' →
      held s + (records s a).countP into = held s' + (records s a).countP out) :
    s'.log.countP into = held s'.state + s'.log.countP out := by
  let Balanced : Recorded σ β → Prop := fun t =>
    t.log.countP into = held t.state + t.log.countP out
  have h : Balanced s' := by
    refine hrun.invariant hs fun t a t' ht _ h => ?_
    obtain ⟨hfirst, hlog⟩ := recorded_eq_some_iff.mp h
    have hone := hstep _ _ _ hfirst
    simp only [Balanced, hlog, List.countP_append] at ht ⊢
    omega
  exact h

end Turbolib
