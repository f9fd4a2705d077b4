import Mathlib.Data.List.Basic
import Mathlib.Data.Nat.Bitwise
import Mathlib.Tactic.Ring

/-!
# Groups of bits

A number of `w` bits as the list of them, the most significant one first, and a list of bits
cut into groups of `w`. Numbers of one width written one after the other keep their
lexicographic order.

## Main definitions

* `BitGroups.bits`, `BitGroups.ofBits` — a number as bits and back.
* `BitGroups.groups` — the numbers that the full groups of a list of bits stand for.
-/

namespace Turbolib

namespace BitGroups

variable {w m k n x y : ℕ}

/-- The lowest `w` bits, from the highest of them on. -/
def bits : ℕ → ℕ → List Bool
  | 0, _ => []
  | w + 1, n => n.testBit w :: bits w n

def ofBits (bs : List Bool) : ℕ := bs.foldl (fun n b => 2 * n + b.toNat) 0

/-- Groups of `w` bits, without what is left over at the end. -/
def groups (w : ℕ) (bs : List Bool) : List ℕ :=
  (List.range (bs.length / w)).map fun i => ofBits ((bs.drop (i * w)).take w)

@[simp] theorem length_bits (w n : ℕ) : (bits w n).length = w := by
  induction w with
  | zero => rfl
  | succ w ih => rw [bits, List.length_cons, ih]

theorem length_flatMap_bits (w : ℕ) (xs : List ℕ) :
    (xs.flatMap (bits w)).length = xs.length * w := by
  induction xs with
  | nil => simp
  | cons x xs ih => simp [ih, Nat.add_mul, Nat.add_comm]

/-- The high bits and the low bits. -/
theorem bits_add (m k n : ℕ) : bits (m + k) n = bits m (n / 2 ^ k) ++ bits k n := by
  induction m with
  | zero => rw [Nat.zero_add, bits, List.nil_append]
  | succ m ih =>
    rw [Nat.succ_add, bits, bits, ih, Nat.testBit_div_two_pow, List.cons_append]

/-- Higher bits do not matter. -/
theorem bits_mod (hw : w ≤ k) (n : ℕ) : bits w (n % 2 ^ k) = bits w n := by
  induction w with
  | zero => rfl
  | succ w ih =>
    have hbit : (n % 2 ^ k).testBit w = n.testBit w := by
      simp [Nat.testBit_mod_two_pow, show w < k by omega]
    rw [bits, bits, hbit, ih (by omega)]

theorem bits_mul_add (m : ℕ) (hy : y < 2 ^ k) (x : ℕ) :
    bits (m + k) (x * 2 ^ k + y) = bits m x ++ bits k y := by
  have hdiv : (x * 2 ^ k + y) / 2 ^ k = x := by
    rw [Nat.mul_comm, Nat.mul_add_div (Nat.two_pow_pos k), Nat.div_eq_of_lt hy, Nat.add_zero]
  have hmod : (x * 2 ^ k + y) % 2 ^ k = y := by
    rw [Nat.mul_comm, Nat.mul_add_mod, Nat.mod_eq_of_lt hy]
  rw [bits_add, hdiv, ← bits_mod le_rfl (x * 2 ^ k + y), hmod]

/-- The highest bit of a number of `w + 1` bits, and the rest. -/
theorem eq_testBit_add (hn : n < 2 ^ (w + 1)) :
    n = (n.testBit w).toNat * 2 ^ w + n % 2 ^ w := by
  have hdiv : n / 2 ^ w < 2 := by
    rw [Nat.div_lt_iff_lt_mul (Nat.two_pow_pos w)]
    rwa [pow_succ, Nat.mul_comm] at hn
  have hbit : (n.testBit w).toNat = n / 2 ^ w := by
    have hcases : ∀ q < 2, (decide (q % 2 = 1)).toNat = q := by decide
    rw [Nat.testBit_eq_decide_div_mod_eq, hcases _ hdiv]
  rw [hbit]
  exact (Nat.div_add_mod' n (2 ^ w)).symm

theorem foldl_bits (acc : ℕ) (hn : n < 2 ^ w) :
    (bits w n).foldl (fun n b => 2 * n + b.toNat) acc = acc * 2 ^ w + n := by
  induction w generalizing acc n with
  | zero => simp_all [bits]
  | succ w ih =>
    have hlow : n % 2 ^ w < 2 ^ w := Nat.mod_lt _ (Nat.two_pow_pos w)
    have hsplit := eq_testBit_add hn
    rw [bits, List.foldl_cons, ← bits_mod le_rfl n, ih _ hlow]
    calc (2 * acc + (n.testBit w).toNat) * 2 ^ w + n % 2 ^ w
        = acc * 2 ^ (w + 1) + ((n.testBit w).toNat * 2 ^ w + n % 2 ^ w) := by ring
      _ = acc * 2 ^ (w + 1) + n := by rw [← hsplit]

theorem ofBits_bits (hn : n < 2 ^ w) : ofBits (bits w n) = n := by
  rw [ofBits, foldl_bits 0 hn, Nat.zero_mul, Nat.zero_add]

/-! ## Groups -/

theorem groups_append {a bs : List Bool} (hw : 0 < w) (ha : a.length = w) :
    groups w (a ++ bs) = ofBits a :: groups w bs := by
  have hlength : (a ++ bs).length / w = bs.length / w + 1 := by
    rw [List.length_append, ha, Nat.add_div_left _ hw]
  rw [groups, hlength, List.range_succ_eq_map, List.map_cons, List.map_map, groups]
  congr 1
  · simp [← ha]
  · refine List.map_congr_left fun i _ => ?_
    have hdrop : (i + 1) * w = a.length + i * w := by rw [ha, Nat.succ_mul, Nat.add_comm]
    simp only [Function.comp, Nat.succ_eq_add_one, hdrop, List.drop_length_add_append]

/-- Numbers of `w` bits are read back from their bits. -/
theorem groups_flatMap (hw : 0 < w) {xs : List ℕ} (hxs : ∀ x ∈ xs, x < 2 ^ w) (bs : List Bool) :
    groups w (xs.flatMap (bits w) ++ bs) = xs ++ groups w bs := by
  induction xs with
  | nil => rfl
  | cons x xs ih =>
    obtain ⟨hx, hxs⟩ := List.forall_mem_cons.mp hxs
    rw [List.flatMap_cons, List.append_assoc, groups_append hw (length_bits w x), ofBits_bits hx,
      ih hxs, List.cons_append]

theorem groups_of_lt {bs : List Bool} (hbs : bs.length < w) : groups w bs = [] := by
  rw [groups, Nat.div_eq_of_lt hbs]
  rfl

/-! ## Order -/

/-- The order of two bits. -/
def Below (a b : Bool) : Prop := a = false ∧ b = true

/-- Lists of one length in front decide first. -/
theorem append_lex_append_iff {α : Type*} {r : α → α → Prop} {a b c d : List α}
    (h : a.length = b.length) :
    List.Lex r (a ++ c) (b ++ d) ↔ List.Lex r a b ∨ a = b ∧ List.Lex r c d := by
  induction a generalizing b with
  | nil =>
    obtain rfl := List.length_eq_zero_iff.mp h.symm
    simp
  | cons x a ih =>
    obtain ⟨y, b, rfl⟩ := List.exists_cons_of_length_eq_add_one h.symm
    have ih := ih (b := b) (by simpa using h)
    simp only [List.cons_append, List.cons_lex_cons_iff, ih, List.cons.injEq]
    tauto

/-- What follows on both sides alike does not decide. -/
theorem append_lex_append_same_iff {α : Type*} {r : α → α → Prop} (hr : ∀ x, ¬ r x x)
    {a b : List α} (h : a.length = b.length) (c : List α) :
    List.Lex r (a ++ c) (b ++ c) ↔ List.Lex r a b := by
  rw [append_lex_append_iff h]
  exact or_iff_left fun hlast => List.lex_irrefl hr c hlast.2

/-- A map that keeps an order keeps the order of lists. -/
theorem map_lex_map_iff {α β : Type*} {r : α → α → Prop} {q : β → β → Prop} {f : α → β}
    {p : α → Prop} (hf : ∀ a b, p a → p b → (q (f a) (f b) ↔ r a b) ∧ (f a = f b → a = b))
    {xs ys : List α} (hxs : ∀ a ∈ xs, p a) (hys : ∀ b ∈ ys, p b) :
    List.Lex q (xs.map f) (ys.map f) ↔ List.Lex r xs ys := by
  induction xs generalizing ys with
  | nil => cases ys <;> simp
  | cons a xs ih =>
    cases ys with
    | nil => simp
    | cons b ys =>
      obtain ⟨ha, hxs⟩ := List.forall_mem_cons.mp hxs
      obtain ⟨hb, hys⟩ := List.forall_mem_cons.mp hys
      obtain ⟨hlex, hinj⟩ := hf a b ha hb
      have heq : f a = f b ↔ a = b := ⟨hinj, congrArg f⟩
      rw [List.map_cons, List.map_cons, List.cons_lex_cons_iff, List.cons_lex_cons_iff, hlex, heq,
        ih hxs hys]

theorem bits_lex_iff (hm : m < 2 ^ w) (hn : n < 2 ^ w) :
    List.Lex Below (bits w m) (bits w n) ↔ m < n := by
  induction w generalizing m n with
  | zero =>
    simp only [pow_zero, Nat.lt_one_iff] at hm hn
    simp [hm, hn, bits]
  | succ w ih =>
    have hlow : ∀ n, n % 2 ^ w < 2 ^ w := fun n => Nat.mod_lt _ (Nat.two_pow_pos w)
    have hm' := eq_testBit_add hm
    have hn' := eq_testBit_add hn
    have ih := ih (hlow m) (hlow n)
    rw [bits_mod le_rfl, bits_mod le_rfl] at ih
    have hlow' := hlow m
    have hlow'' := hlow n
    rw [bits, bits, List.cons_lex_cons_iff, ih, Below]
    cases hbm : m.testBit w <;> cases hbn : n.testBit w <;>
      simp only [hbm, hbn, Bool.toNat_true, Bool.toNat_false] at hm' hn' <;> simp <;> omega

/-- Numbers of one width are ordered as their bits are, one after the other. -/
theorem flatMap_bits_lex_iff {xs ys : List ℕ} (hlen : xs.length = ys.length)
    (hxs : ∀ x ∈ xs, x < 2 ^ w) (hys : ∀ y ∈ ys, y < 2 ^ w) :
    List.Lex Below (xs.flatMap (bits w)) (ys.flatMap (bits w)) ↔ List.Lex (· < ·) xs ys := by
  induction xs generalizing ys with
  | nil =>
    obtain rfl := List.length_eq_zero_iff.mp hlen.symm
    exact iff_of_false List.not_lex_nil List.not_lex_nil
  | cons x xs ih =>
    obtain ⟨y, ys, rfl⟩ := List.exists_cons_of_length_eq_add_one hlen.symm
    obtain ⟨hx, hxs⟩ := List.forall_mem_cons.mp hxs
    obtain ⟨hy, hys⟩ := List.forall_mem_cons.mp hys
    have heq : bits w x = bits w y ↔ x = y :=
      ⟨fun h => by rw [← ofBits_bits hx, h, ofBits_bits hy], fun h => h ▸ rfl⟩
    rw [List.flatMap_cons, List.flatMap_cons,
      append_lex_append_iff (by simp), bits_lex_iff hx hy, heq, ih (by simpa using hlen) hxs hys,
      List.cons_lex_cons_iff]

end BitGroups

end Turbolib
