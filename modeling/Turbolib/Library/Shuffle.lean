import Turbolib.Library.Deque
import Mathlib.Data.List.Count

/-!
# Shuffles of two lists

Two lists are shuffled when each keeps its order. A shuffle is known from its slots: how many
elements of the first list are in front of each element of the second.

## Main definitions

* `Shuffle` — a list is made of two others, with these slots.
-/

namespace Turbolib

/-- `d` is made of `a` and `b`, where `slots` says of each element of `b` how many elements of `a`
are in front of it. -/
inductive Shuffle {α : Type*} : (slots : List ℕ) → (a b d : List α) → Prop
  | nil : Shuffle [] [] [] []
  | left {slots : List ℕ} {a b d : List α} (x : α) : Shuffle slots a b d →
      Shuffle (slots.map (· + 1)) (x :: a) b (x :: d)
  | right {slots : List ℕ} {a b d : List α} (y : α) : Shuffle slots a b d →
      Shuffle (0 :: slots) a (y :: b) (y :: d)

namespace Shuffle

variable {α : Type*} {slots slots' : List ℕ} {a b d a' b' d' : List α} {i slot : ℕ} {x y : α}

/-! ## Putting shuffles together -/

theorem lefts (a : List α) : Shuffle [] a [] a := by
  induction a with
  | nil => exact .nil
  | cons x a ih => exact ih.left x

theorem rights (b : List α) : Shuffle (List.replicate b.length 0) [] b b := by
  induction b with
  | nil => exact .nil
  | cons y b ih => exact ih.right y

theorem append (h : Shuffle slots a b d) (h' : Shuffle slots' a' b' d') :
    Shuffle (slots ++ slots'.map (· + a.length)) (a ++ a') (b ++ b') (d ++ d') := by
  induction h with
  | nil => simpa using h'
  | left x _ ih =>
    have hslots := ih.left x
    simp only [List.map_append, List.map_map] at hslots
    exact hslots
  | right y _ ih => exact ih.right y

/-- Two lists in turn. -/
theorem interlace (a b : List α) :
    Shuffle ((List.range b.length).map fun i => min (i + 1) a.length) a b
      (Deque.interlace a b) := by
  fun_induction Deque.interlace a b with
  | case1 b => simpa using rights b
  | case2 x a => exact lefts (x :: a)
  | case3 x a y b ih =>
    have hslots := (ih.right y).left x
    rw [List.length_cons, List.length_cons, List.range_succ_eq_map]
    simpa [Function.comp_def, Nat.add_min_add_right] using hslots

/-- Elements of the first list are left out. -/
theorem filter (p : α → Bool) (h : Shuffle slots a b d) (hb : ∀ y ∈ b, p y = true) :
    Shuffle (slots.map fun slot => (a.take slot).countP p) (a.filter p) b (d.filter p) := by
  induction h with
  | nil => exact .nil
  | left x _ ih =>
    have hslots := ih hb
    rw [List.map_map]
    cases hx : p x with
    | true =>
      rw [List.filter_cons_of_pos hx, List.filter_cons_of_pos hx]
      have hleft := hslots.left x
      rw [List.map_map] at hleft
      simpa [Function.comp_def, List.countP_cons, hx] using hleft
    | false =>
      rw [List.filter_cons_of_neg (by simp [hx]), List.filter_cons_of_neg (by simp [hx])]
      simpa [Function.comp_def, List.countP_cons, hx] using hslots
  | right y _ ih =>
    rw [List.filter_cons_of_pos (hb y (by simp))]
    exact (ih fun z hz => hb z (by simp [hz])).right y

theorem length_eq (h : Shuffle slots a b d) : d.length = a.length + b.length := by
  induction h with
  | nil => rfl
  | left x _ ih => rw [List.length_cons, ih, List.length_cons, Nat.add_right_comm]
  | right y _ ih => rw [List.length_cons, ih, List.length_cons, Nat.add_assoc]

/-! ## Where an element is -/

theorem getElem_left (h : Shuffle slots a b d) (hx : a[i]? = some x) :
    d[i + slots.countP (· ≤ i)]? = some x := by
  induction h generalizing i with
  | nil => simp at hx
  | left x' _ ih =>
    cases i with
    | zero => simpa [List.countP_map, Function.comp_def] using hx
    | succ i =>
      have hd := ih (by simpa using hx)
      simpa [List.countP_map, Function.comp_def, Nat.add_right_comm i 1] using hd
  | right y _ ih => simpa [List.countP_cons, ← Nat.add_assoc] using ih hx

theorem getElem_right (h : Shuffle slots a b d) (hy : b[i]? = some y)
    (hslot : slots[i]? = some slot) : d[i + slot]? = some y := by
  induction h generalizing i slot with
  | nil => simp at hy
  | left x _ ih =>
    rw [List.getElem?_map, Option.map_eq_some_iff] at hslot
    obtain ⟨slot, hslot, rfl⟩ := hslot
    simpa [← Nat.add_assoc] using ih hy hslot
  | right y' _ ih =>
    cases i with
    | zero =>
      obtain rfl : 0 = slot := by simpa using hslot
      simpa using hy
    | succ i =>
      have hd := ih (by simpa using hy) (by simpa using hslot)
      rwa [Nat.add_right_comm, List.getElem?_cons_succ]

end Shuffle

end Turbolib
