import Mathlib.Data.List.Basic

/-!
# Walks over a container

A place in a container holds an element or is the end. A walk reads the element it stands
at and steps on, and stops at the end.

## Main definitions

* `Cursor` — the end, the element at a place, and the place after it.
* `Cursor.Walk c it vs` — the walk from `it` reads `vs`, one step for each, to the end.
* `Cursor.advance` — a number of steps.
* `Cursor.Leaves` — what is left at each place; `Leaves.walk` is the rule for walks.
-/

namespace Turbolib

variable {I α : Type*}

/-- How to go through a container. Reading and stepping on are `none` where the place
holds no element. -/
structure Cursor (I α : Type*) where
  AtEnd : I → Prop
  read : I → Option α
  next : I → Option I

namespace Cursor

/-- The walk from a place to the end, with the elements read on the way. -/
inductive Walk (c : Cursor I α) : I → List α → Prop
  | done {it : I} (hend : c.AtEnd it) : Walk c it []
  | step {it it' : I} {v : α} {vs : List α} (hnot : ¬c.AtEnd it) (hread : c.read it = some v)
      (hnext : c.next it = some it') (hrest : Walk c it' vs) : Walk c it (v :: vs)

/-- Step on `n` times. -/
def advance (c : Cursor I α) : ℕ → I → Option I
  | 0, it => some it
  | n + 1, it => do
    let it' ← c.next it
    c.advance n it'

/-- At the places where `Inv` holds, `rest` is what is left: nothing at the end, and
elsewhere the element there and then what is left at the next place. -/
structure Leaves (c : Cursor I α) (Inv : I → Prop) (rest : I → List α) : Prop where
  nil : ∀ it, Inv it → rest it = [] → c.AtEnd it
  cons : ∀ it v vs, Inv it → rest it = v :: vs →
    ¬c.AtEnd it ∧ c.read it = some v ∧ ∃ it', c.next it = some it' ∧ Inv it' ∧ rest it' = vs

variable {c : Cursor I α} {it : I} {v : α} {vs vs' : List α}

/-- The rule for walks. -/
theorem Leaves.walk {Inv : I → Prop} {rest : I → List α} (h : c.Leaves Inv rest)
    (hit : Inv it) : c.Walk it (rest it) := by
  induction hrest : rest it generalizing it with
  | nil => exact .done (h.nil it hit hrest)
  | cons v vs ih =>
    obtain ⟨hnot, hread, it', hnext, hit', hrest'⟩ := h.cons it v vs hit hrest
    exact .step hnot hread hnext (ih hit' hrest')

/-- There is only one walk from a place. -/
theorem Walk.unique (h : c.Walk it vs) (h' : c.Walk it vs') : vs = vs' := by
  induction h generalizing vs' with
  | done hend =>
    cases h' with
    | done => rfl
    | step hnot => exact absurd hend hnot
  | step hnot hread hnext _ ih =>
    cases h' with
    | done hend => exact absurd hend hnot
    | step _ hread' hnext' hrest' =>
      obtain rfl := Option.some.inj (hread.symm.trans hread')
      obtain rfl := Option.some.inj (hnext.symm.trans hnext')
      rw [ih hrest']

theorem Walk.atEnd_iff (h : c.Walk it vs) : c.AtEnd it ↔ vs = [] := by
  cases h with
  | done hend => simpa using hend
  | step hnot => simpa using hnot

/-- No more steps than there are elements left lead to the walk over the rest of them. -/
theorem Walk.drop (h : c.Walk it vs) {n : ℕ} (hn : n ≤ vs.length) :
    ∃ it', c.advance n it = some it' ∧ c.Walk it' (vs.drop n) := by
  induction n generalizing it vs with
  | zero => exact ⟨it, rfl, h⟩
  | succ n ih =>
    cases h with
    | done => simp at hn
    | step hnot hread hnext hrest =>
      obtain ⟨it'', hadvance, hwalk⟩ := ih hrest (by simpa using hn)
      exact ⟨it'', by simpa [advance, hnext] using hadvance, hwalk⟩

/-- Where elements are left the first of them is read. -/
theorem Walk.read (h : c.Walk it vs) (hvs : vs ≠ []) : ∃ v ∈ vs, c.read it = some v := by
  cases h with
  | done => exact absurd rfl hvs
  | step _ hread => exact ⟨_, List.mem_cons_self, hread⟩

end Cursor

end Turbolib
