import Mathlib.Data.List.Basic

/-!
# Runs of a system

A system takes one action at a time; an action that cannot be taken is `none`. A run is
a sequence of steps, each of which may have to meet a condition.

## Main definitions

* `Reaches step guard s s'` — a run from `s` to `s'` all of whose steps meet `guard`.
* `Reaches.invariant` — what every step preserves holds at the end of every run.
* `rank_add_countP_le` — what makes a rank less can happen no more often than that.
-/

namespace Turbolib

variable {σ α : Type*} {step : σ → α → Option σ} {guard : σ → α → Prop}
  {s s' s'' : σ} {a : α}

/-- A run all of whose steps meet `guard`, a condition on the state before the step and
the action taken. -/
inductive Reaches (step : σ → α → Option σ) (guard : σ → α → Prop) (s : σ) : σ → Prop
  | refl : Reaches step guard s s
  | tail {s' s'' : σ} {a : α} : Reaches step guard s s' → guard s' a → step s' a = some s'' →
      Reaches step guard s s''

/-- Any run. -/
def Reachable (step : σ → α → Option σ) (s s' : σ) : Prop := Reaches step (fun _ _ => True) s s'

/-- The invariant rule. -/
theorem Reaches.invariant {Inv : σ → Prop} (hrun : Reaches step guard s s') (hs : Inv s)
    (hstep : ∀ s a s', Inv s → guard s a → step s a = some s' → Inv s') : Inv s' := by
  induction hrun with
  | refl => exact hs
  | tail hrun hguard hlast ih => exact hstep _ _ _ ih hguard hlast

theorem Reaches.trans (hrun : Reaches step guard s s') (hrun' : Reaches step guard s' s'') :
    Reaches step guard s s'' := by
  induction hrun' with
  | refl => exact hrun
  | tail _ hguard hlast ih => exact ih.tail hguard hlast

theorem Reaches.mono {guard' : σ → α → Prop} (hrun : Reaches step guard s s')
    (hguard : ∀ s a, guard s a → guard' s a) : Reaches step guard' s s' := by
  induction hrun with
  | refl => exact .refl
  | tail _ hfirst hlast ih => exact ih.tail (hguard _ _ hfirst) hlast

/-- Take a list of actions in order, each where it meets the condition. -/
def takeAll (step : σ → α → Option σ) (guard : σ → α → Prop) [∀ s a, Decidable (guard s a)] :
    σ → List α → Option σ
  | s, [] => some s
  | s, a :: actions =>
    if guard s a then do
      let s' ← step s a
      takeAll step guard s' actions
    else none

theorem reaches_of_takeAll [∀ s a, Decidable (guard s a)] {actions : List α}
    (h : takeAll step guard s actions = some s') : Reaches step guard s s' := by
  induction actions generalizing s with
  | nil =>
    obtain rfl : s = s' := Option.some.inj h
    exact .refl
  | cons a actions ih =>
    rw [takeAll] at h
    split_ifs at h with hguard
    obtain ⟨s₁, hfirst, hrest⟩ := Option.bind_eq_some_iff.mp h
    exact (Reaches.refl.tail hguard hfirst).trans (ih hrest)

/-- A list of actions that leads to a state with some property. -/
theorem exists_reaches [∀ s a, Decidable (guard s a)] {P : σ → Prop} [DecidablePred P]
    (actions : List α) (h : (takeAll step guard s actions).any P = true) :
    ∃ s', Reaches step guard s s' ∧ P s' := by
  obtain ⟨s', htake, hP⟩ := (Option.any_eq_true _ _).mp h
  exact ⟨s', reaches_of_takeAll htake, of_decide_eq_true hP⟩

/-- The variant rule: where no step makes `rank` greater and each counted one makes it less, a
run has no more counted steps than `rank` was at the start. -/
theorem rank_add_countP_le {Inv : σ → Prop} (rank : σ → ℕ) (counted : α → Bool)
    {actions : List α} (h : actions.foldlM step s = some s') (hs : Inv s)
    (hstep : ∀ s a s', Inv s → step s a = some s' →
      Inv s' ∧ rank s' + (counted a).toNat ≤ rank s) :
    Inv s' ∧ rank s' + actions.countP counted ≤ rank s := by
  induction actions generalizing s with
  | nil =>
    obtain rfl : s = s' := Option.some.inj h
    exact ⟨hs, Nat.le_refl _⟩
  | cons a actions ih =>
    rw [List.foldlM_cons] at h
    obtain ⟨s₁, hfirst, hrest⟩ := Option.bind_eq_some_iff.mp h
    obtain ⟨hs₁, hle⟩ := hstep s a s₁ hs hfirst
    obtain ⟨hs', hle'⟩ := ih hrest hs₁
    refine ⟨hs', ?_⟩
    have hcount : (a :: actions).countP counted = actions.countP counted + (counted a).toNat := by
      rw [List.countP_cons]
      cases counted a <;> rfl
    omega

end Turbolib
