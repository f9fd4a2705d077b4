import Mathlib.Data.Nat.Find
import Mathlib.Order.PiLex

/-!
# Infinite bit strings

A bit string is a function `ℕ → Bool` under Mathlib's lexicographic order;
position `0` is the most significant bit. `Agree n a b` says that two strings
share their first `n` bits and `SplitAt n a b` that position `n` is where they
first differ. An order between two strings is decided by any common reading
long enough to contain the split.
-/

namespace Turbolib

/-- Bits from the most significant one on; a finite key is padded with zeros. -/
def BitString := Lex (ℕ → Bool)

namespace BitString

instance : CoeFun BitString fun _ => ℕ → Bool := ⟨fun a => ofLex a⟩

noncomputable instance : LinearOrder BitString :=
  inferInstanceAs (LinearOrder (Lex (ℕ → Bool)))

variable {a b c : BitString} {m n : ℕ}

/-- The string with the given bits. -/
def ofBits (f : ℕ → Bool) : BitString := toLex f

@[simp] theorem ofBits_apply (f : ℕ → Bool) (i : ℕ) : ofBits f i = f i := rfl

@[ext] theorem ext (h : ∀ i, a i = b i) : a = b := funext h

/-- The first `n` bits of the two strings are the same. -/
def Agree (n : ℕ) (a b : BitString) : Prop := ∀ i < n, a i = b i

instance (n : ℕ) (a b : BitString) : Decidable (Agree n a b) :=
  @Nat.decidableBallLT n (fun i _ => a i = b i) fun i _ => instDecidableEqBool (a i) (b i)

@[simp] theorem agree_zero : Agree 0 a b := fun i hi => absurd hi (by omega)

@[refl, simp] theorem Agree.refl (n : ℕ) (a : BitString) : Agree n a a := fun _ _ => rfl

@[symm] theorem Agree.symm (h : Agree n a b) : Agree n b a := fun i hi => (h i hi).symm

theorem Agree.trans (h : Agree n a b) (g : Agree n b c) : Agree n a c :=
  fun i hi => (h i hi).trans (g i hi)

theorem Agree.mono (h : Agree n a b) (hmn : m ≤ n) : Agree m a b :=
  fun i hi => h i (hi.trans_le hmn)

theorem agree_succ : Agree (n + 1) a b ↔ Agree n a b ∧ a n = b n := by
  constructor
  · intro h
    exact ⟨h.mono (by omega), h n (by omega)⟩
  · rintro ⟨h, hn⟩ i hi
    rcases Nat.lt_succ_iff_lt_or_eq.mp hi with hlt | rfl
    · exact h i hlt
    · exact hn

/-- Position `n` is the first one at which the two strings differ. -/
def SplitAt (n : ℕ) (a b : BitString) : Prop := Agree n a b ∧ a n ≠ b n

theorem SplitAt.symm (h : SplitAt n a b) : SplitAt n b a := ⟨h.1.symm, h.2.symm⟩

theorem SplitAt.ne (h : SplitAt n a b) : a ≠ b := by
  rintro rfl
  exact h.2 rfl

theorem exists_splitAt (h : a ≠ b) : ∃ n, SplitAt n a b := by
  have hex : ∃ n, a n ≠ b n := by
    by_contra hall
    push Not at hall
    exact h (ext hall)
  classical
  refine ⟨Nat.find hex, fun i hi => ?_, Nat.find_spec hex⟩
  by_contra hne
  exact Nat.find_min hex hi hne

/-- Two strings that agree on `n` bits split at `n` or later. -/
theorem SplitAt.le_of_agree (h : SplitAt m a b) (g : Agree n a b) : n ≤ m := by
  by_contra hlt
  exact h.2 (g m (by omega))

theorem SplitAt.unique (h : SplitAt m a b) (g : SplitAt n a b) : m = n :=
  le_antisymm (g.le_of_agree h.1) (h.le_of_agree g.1)

theorem SplitAt.not_agree (h : SplitAt m a b) (hmn : m < n) : ¬ Agree n a b :=
  fun g => h.2 (g m hmn)

theorem SplitAt.not_eq (h : SplitAt n a b) : b n = !a n := by
  have := h.2
  cases ha : a n <;> cases hb : b n <;> simp_all

/-- A string that shares more than the split with the first one splits there too. -/
theorem SplitAt.congr_left (h : SplitAt m a b) (g : Agree n a c) (hmn : m < n) :
    SplitAt m c b := by
  refine ⟨(g.mono hmn.le).symm.trans h.1, ?_⟩
  rw [← g m hmn]
  exact h.2

theorem lt_iff : a < b ↔ ∃ n, Agree n a b ∧ a n = false ∧ b n = true := by
  have hdef : a < b ↔ ∃ n, (∀ j < n, a j = b j) ∧ a n < b n := Iff.rfl
  simp only [hdef, Bool.lt_iff, Agree]

/-- At the split the order can be read from either string's bit. -/
theorem SplitAt.lt_iff (h : SplitAt n a b) : a < b ↔ a n = false := by
  rw [BitString.lt_iff]
  constructor
  · rintro ⟨m, hm, hm0, hm1⟩
    have hs : SplitAt m a b := ⟨hm, by simp [hm0, hm1]⟩
    rw [h.unique hs]
    exact hm0
  · intro h0
    exact ⟨n, h.1, h0, by rw [h.not_eq, h0]; rfl⟩

theorem SplitAt.gt_iff (h : SplitAt n a b) : b < a ↔ a n = true := by
  rw [h.symm.lt_iff, h.not_eq]
  cases a n <;> simp

/-- Two strings apart inside the first `n` bits keep their order when the first
one is replaced by a string with the same first `n` bits. -/
theorem lt_congr_left (hab : ¬ Agree n a b) (g : Agree n a c) : a < b ↔ c < b := by
  have hne : a ≠ b := by
    rintro rfl
    exact hab (Agree.refl n a)
  obtain ⟨m, hm⟩ := exists_splitAt hne
  have hmn : m < n := by
    by_contra hge
    exact hab (hm.1.mono (by omega))
  rw [hm.lt_iff, (hm.congr_left g hmn).lt_iff, g m hmn]

theorem gt_congr_left (hab : ¬ Agree n a b) (g : Agree n a c) : b < a ↔ b < c := by
  have hcb : ¬ Agree n c b := fun h => hab (g.trans h)
  have hne : b ≠ a := fun e => hab (e ▸ Agree.refl n a)
  have hne' : b ≠ c := fun e => hcb (e ▸ Agree.refl n c)
  rw [← not_iff_not, not_lt, not_lt, hne.symm.le_iff_lt, hne'.symm.le_iff_lt]
  exact lt_congr_left hab g

end BitString

end Turbolib
