import Mathlib.Data.List.Basic
import Mathlib.Data.List.Perm.Basic

/-!
# Deques with checked positions

`std::deque` as a list. An insertion or a removal through an iterator is `none`
when the position is not one of the deque's, where the C++ operation is
undefined.

## Main definitions

* `insertAt`, `eraseAt`, `moveUp` — the operations at a position.
* `interlace` — two lists in turn.
-/

namespace Turbolib

namespace Deque

variable {α : Type*}

/-- `d.insert(d.begin() + i, a)`. -/
def insertAt (d : List α) (i : ℕ) (a : α) : Option (List α) :=
  if i ≤ d.length then some (d.take i ++ a :: d.drop i) else none

/-- `d.erase(d.begin() + i)`. -/
def eraseAt (d : List α) (i : ℕ) : Option (List α) :=
  if i < d.length then some (d.take i ++ d.drop (i + 1)) else none

@[simp] theorem insertAt_length (x r : List α) (a : α) :
    insertAt (x ++ r) x.length a = some (x ++ a :: r) := by
  simp [insertAt]

@[simp] theorem eraseAt_length (x r : List α) (a : α) :
    eraseAt (x ++ a :: r) x.length = some (x ++ r) := by
  simp [eraseAt]

theorem insertAt_eq_none {d : List α} {i : ℕ} {a : α} (h : d.length < i) :
    insertAt d i a = none := by
  rw [insertAt, if_neg (by omega)]

/-- Take the element at `i` out and put it back in front of position `j`. -/
def moveUp (d : List α) (i j : ℕ) : Option (List α) :=
  match d[i]? with
  | none => none
  | some a =>
    match eraseAt d i with
    | none => none
    | some d => insertAt d j a

theorem moveUp_length (x y r : List α) (a : α) :
    moveUp (x ++ (y ++ a :: r)) (x.length + y.length) x.length = some (x ++ a :: (y ++ r)) := by
  have hlen : x.length + y.length = (x ++ y).length := by simp
  have hget : (x ++ y ++ a :: r)[(x ++ y).length]? = some a := by simp
  have herase : eraseAt (x ++ y ++ a :: r) (x ++ y).length = some (x ++ (y ++ r)) := by
    rw [eraseAt_length, List.append_assoc]
  rw [← List.append_assoc, moveUp, hlen, hget]
  simp only [herase, insertAt_length]

/-- Elements of two lists in turn, beginning with the first list. -/
def interlace : List α → List α → List α
  | [], ys => ys
  | x :: xs, [] => x :: xs
  | x :: xs, y :: ys => x :: y :: interlace xs ys

@[simp] theorem interlace_nil (xs : List α) : interlace xs [] = xs := by
  cases xs <;> rfl

theorem interlace_perm (xs ys : List α) : (interlace xs ys).Perm (xs ++ ys) := by
  fun_induction interlace xs ys with
  | case1 ys => exact .refl ys
  | case2 x xs => simp
  | case3 x xs y ys ih => exact ((ih.cons y).trans List.perm_middle.symm).cons x

end Deque

end Turbolib
