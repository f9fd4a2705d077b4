import Mathlib.Data.List.Basic

/-!
# Machines that answer requests

A machine takes one request at a time and answers it; a step that goes wrong is
`none`. `Refines` compares a machine with a specification that never goes wrong,
and `Refines.run` carries one step of the comparison to whole runs.
-/

namespace Turbolib

section

variable {σ τ ι ο : Type*}

/-- Answer a list of requests in order. -/
def run (step : σ → ι → Option (σ × ο)) : σ → List ι → Option (σ × List ο)
  | s, [] => some (s, [])
  | s, i :: is => do
    let (s, answer) ← step s i
    let (s, answers) ← run step s is
    return (s, answer :: answers)

/-- The same for a machine whose steps cannot go wrong. -/
def runSpec (step : τ → ι → τ × ο) : τ → List ι → τ × List ο
  | s, [] => (s, [])
  | s, i :: is =>
    let (s, answer) := step s i
    let (s, answers) := runSpec step s is
    (s, answer :: answers)

/-- From related states every step succeeds, gives the specified answer and ends
in related states. -/
def Refines (R : σ → τ → Prop) (step : σ → ι → Option (σ × ο)) (spec : τ → ι → τ × ο) : Prop :=
  ∀ s t i, R s t → ∃ s', step s i = some (s', (spec t i).2) ∧ R s' (spec t i).1

theorem Refines.run {R : σ → τ → Prop} {step : σ → ι → Option (σ × ο)}
    {spec : τ → ι → τ × ο} (h : Refines R step spec) (is : List ι) {s : σ} {t : τ} (hR : R s t) :
    ∃ s', run step s is = some (s', (runSpec spec t is).2) ∧ R s' (runSpec spec t is).1 := by
  induction is generalizing s t with
  | nil => exact ⟨s, rfl, hR⟩
  | cons i is ih =>
    obtain ⟨s₁, hs, hR₁⟩ := h s t i hR
    obtain ⟨s₂, hr, hR₂⟩ := ih hR₁
    refine ⟨s₂, ?_, hR₂⟩
    simp [Turbolib.run, hs, hr, runSpec]

/-- A machine that does the same in states that are related runs alike. -/
theorem Refines.run_congr {R : σ → τ → Prop} {step step' : σ → ι → Option (σ × ο)}
    {spec : τ → ι → τ × ο} (h : Refines R step spec) {is : List ι}
    (hsame : ∀ i ∈ is, ∀ s t, R s t → step' s i = step s i) {s : σ} {t : τ} (hR : R s t) :
    Turbolib.run step' s is = Turbolib.run step s is := by
  induction is generalizing s t with
  | nil => rfl
  | cons i is ih =>
    obtain ⟨s₁, hs, hR₁⟩ := h s t i hR
    have hrest := ih (fun i' hi' => hsame i' (List.mem_cons_of_mem i hi')) hR₁
    simp [Turbolib.run, hsame i List.mem_cons_self s t hR, hs, hrest]

end

end Turbolib
