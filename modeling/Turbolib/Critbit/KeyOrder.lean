import Turbolib.Critbit.Enumerate
import Turbolib.Library.CommonPrefix
import Mathlib.Data.Nat.Bitwise

/-!
# The order of keys

Bit strings are ordered as the bytes of the keys are, lexicographically and each byte
unsigned. `strnncmp` is that order where the keys do not begin alike with a zero byte;
behind such a byte it compares their lengths only.
-/

namespace Turbolib

open BitString

theorem byteAt_cons_succ (c : UInt8) (p : List UInt8) (i : ℕ) :
    byteAt (c :: p) (i + 1) = byteAt p i := by
  simp [byteAt]

theorem byteAt_cons_zero (c : UInt8) (p : List UInt8) : byteAt (c :: p) 0 = c := rfl

theorem Padded.tail {c d : UInt8} {p q : List UInt8} (h : Padded (c :: p) (d :: q)) :
    Padded p q := by
  intro i hi hi'
  have := h (i + 1) (by simpa using hi) (by simpa using hi')
  rwa [byteAt_cons_succ] at this

/-- The first byte that two keys differ in decides their lexicographic order. -/
theorem lt_iff_byteAt {p q : List UInt8} {b : ℕ} (hpq : Padded p q) (hqp : Padded q p)
    (hsame : ∀ i < b, byteAt p i = byteAt q i) (hne : byteAt p b ≠ byteAt q b) :
    p < q ↔ byteAt p b < byteAt q b := by
  induction p generalizing q b with
  | nil =>
    cases q with
    | nil => exact absurd rfl hne
    | cons d q =>
      have hd : d ≠ 0 := hpq 0 le_rfl (by simp)
      cases b with
      | zero => simpa [byteAt] using UInt8.pos_iff_ne_zero.mpr hd
      | succ b => exact absurd (hsame 0 (by omega)).symm hd
  | cons c p ih =>
    cases q with
    | nil =>
      have hc : c ≠ 0 := hqp 0 le_rfl (by simp)
      cases b with
      | zero => simp [byteAt]
      | succ b => exact absurd (hsame 0 (by omega)) hc
    | cons d q =>
      cases b with
      | zero =>
        rw [byteAt_cons_zero, byteAt_cons_zero] at hne ⊢
        rw [List.cons_lt_cons_iff]
        simp [hne]
      | succ b =>
        have hcd : c = d := hsame 0 (by omega)
        subst hcd
        simp only [byteAt_cons_succ] at hne ⊢
        rw [List.cons_lt_cons_iff, ← ih hpq.tail hqp.tail ?_ hne]
        · simp
        · intro i hi
          have := hsame (i + 1) (by omega)
          rwa [byteAt_cons_succ, byteAt_cons_succ] at this

/-- The highest bit that two bytes differ in decides their order. -/
theorem msb_lt_iff {c d : UInt8} {j : ℕ} (hj : j < 8) (hsame : ∀ i < j, msb c i = msb d i)
    (hne : msb c j ≠ msb d j) : c < d ↔ msb c j = false := by
  have key : ∀ {c d : UInt8}, (∀ i < j, msb c i = msb d i) → msb c j = false →
      msb d j = true → c < d := by
    intro c d hsame hc hd
    rw [UInt8.lt_iff_toNat_lt]
    refine Nat.lt_of_testBit (7 - j) hc hd fun i hi => ?_
    rcases Nat.lt_or_ge i 8 with hi8 | hi8
    · have := hsame (7 - i) (by omega)
      simpa [msb, show 7 - (7 - i) = i by omega] using this
    · have hp : 2 ^ 8 ≤ 2 ^ i := Nat.pow_le_pow_right (by omega) hi8
      have hc := c.toNat_lt
      have hd := d.toNat_lt
      rw [Nat.testBit_lt_two_pow (by omega), Nat.testBit_lt_two_pow (by omega)]
  constructor
  · intro hlt
    by_contra hc
    have hc : msb c j = true := by simpa using hc
    have hd : msb d j = false := by
      cases hd : msb d j with
      | false => rfl
      | true => exact absurd (hc.trans hd.symm) hne
    exact UInt8.lt_asymm hlt (key (fun i hi => (hsame i hi).symm) hd hc)
  · intro hc
    refine key hsame hc ?_
    cases hd : msb d j with
    | true => rfl
    | false => exact absurd (hc.trans hd.symm) hne

/-- Keys are ordered as their bit strings are. -/
theorem bitsOf_lt_iff {p q : List UInt8} (hpq : Padded p q) (hqp : Padded q p) :
    bitsOf p < bitsOf q ↔ p < q := by
  by_cases he : bitsOf p = bitsOf q
  · rw [eq_of_bitsOf hpq hqp he]
    exact iff_of_false (lt_irrefl _) (List.lt_irrefl _)
  · obtain ⟨n, hn⟩ := exists_splitAt he
    have hj : n % 8 < 8 := Nat.mod_lt _ (by omega)
    have hbits : ∀ r : List UInt8, bitsOf r n = msb (byteAt r (n / 8)) (n % 8) := fun r => rfl
    have hsame := agree_bytes.mp (hn.1.mono (show 8 * (n / 8) ≤ n by omega))
    have hlow : ∀ i < n % 8, msb (byteAt p (n / 8)) i = msb (byteAt q (n / 8)) i := by
      intro i hi
      have := hn.1 (8 * (n / 8) + i) (by omega)
      rwa [bitsOf_apply _ _ _ (by omega), bitsOf_apply _ _ _ (by omega)] at this
    have hne := hn.2
    rw [hbits, hbits] at hne
    rw [hn.lt_iff, hbits, ← msb_lt_iff hj hlow hne,
      lt_iff_byteAt hpq hqp hsame fun he => hne (by rw [he])]

section

variable {E : Type} [CritbitElemOps E]

theorem elemBits_lt_iff {a b : E} : elemBits a < elemBits b ↔ keyBytes a < keyBytes b :=
  bitsOf_lt_iff (CritbitElemOps.padded a b) (CritbitElemOps.padded b a)

theorem elemBits_le_iff {a b : E} : elemBits a ≤ elemBits b ↔ keyBytes a ≤ keyBytes b := by
  rw [← not_lt, elemBits_lt_iff, List.not_lt]

end

/-! ## strnncmp -/

section

variable {p l r : List UInt8} {o : Ordering}

/-- The order that the tie-break takes of the lengths. -/
def lengthOrder (leftLen rightLen : ℕ) : Ordering :=
  if leftLen = rightLen then .eq else if leftLen < rightLen then .lt else .gt

theorem strncmpFrom_cons (c d : UInt8) (l r : List UInt8) (n i : ℕ) :
    strncmpFrom (c :: l) (d :: r) n (i + 1) = strncmpFrom l r n i := by
  induction n generalizing i with
  | zero => rfl
  | succ n ih =>
    simp only [strncmpFrom, byteAt_cons_succ, ih]

theorem strnncmp_cons_cons (c d : UInt8) (l r : List UInt8) :
    strnncmp (c :: l) (c :: l).length (d :: r) (d :: r).length =
      if c < d then .lt else if d < c then .gt
      else if c = 0 then lengthOrder l.length r.length else strnncmp l l.length r r.length := by
  have hmin : min (l.length + 1) (r.length + 1) = min l.length r.length + 1 := by omega
  simp only [strnncmp, List.length_cons, hmin, strncmpFrom, byteAt_cons_zero, strncmpFrom_cons,
    Nat.add_right_cancel_iff, Nat.add_lt_add_iff_right]
  split_ifs <;> simp_all [lengthOrder]

/-- Without a zero byte a common beginning is skipped. -/
theorem strnncmp_append (hp : 0 ∉ p) (l r : List UInt8) :
    strnncmp (p ++ l) (p ++ l).length (p ++ r) (p ++ r).length =
      strnncmp l l.length r r.length := by
  induction p with
  | nil => rfl
  | cons c p ih =>
    obtain ⟨hc, hp⟩ := not_or.mp (mt List.mem_cons.mpr hp)
    rw [List.cons_append, List.cons_append, strnncmp_cons_cons, if_neg (UInt8.lt_irrefl c),
      if_neg (UInt8.lt_irrefl c), if_neg (Ne.symm hc), ih hp]

/-- At a zero byte in a common beginning the comparison ends, and the lengths decide. -/
theorem strnncmp_append_of_mem (hp : 0 ∈ p) (l r : List UInt8) :
    strnncmp (p ++ l) (p ++ l).length (p ++ r) (p ++ r).length =
      lengthOrder (p ++ l).length (p ++ r).length := by
  induction p with
  | nil => simp at hp
  | cons c p ih =>
    have hlength : lengthOrder (c :: p ++ l).length (c :: p ++ r).length =
        lengthOrder (p ++ l).length (p ++ r).length := by
      simp [lengthOrder]
    rw [hlength, List.cons_append, List.cons_append, strnncmp_cons_cons,
      if_neg (UInt8.lt_irrefl c), if_neg (UInt8.lt_irrefl c)]
    split_ifs with hc
    · rfl
    · exact ih ((List.mem_cons.mp hp).resolve_left (Ne.symm hc))

/-- The sign of a comparison tells how two texts are ordered, byte by byte and with a
proper prefix before the longer text. -/
structure SignOf (o : Ordering) (l r : List UInt8) : Prop where
  lt : o = .lt ↔ l < r
  eq : o = .eq ↔ l = r
  gt : o = .gt ↔ r < l

theorem signOf_append : SignOf o (p ++ l) (p ++ r) ↔ SignOf o l r := by
  have hlt : ∀ l r : List UInt8, p ++ l < p ++ r ↔ l < r :=
    append_lt_append_iff UInt8.lt_irrefl p
  constructor
  · rintro ⟨h1, h2, h3⟩
    exact ⟨h1.trans (hlt l r), h2.trans (List.append_right_inj p), h3.trans (hlt r l)⟩
  · rintro ⟨h1, h2, h3⟩
    exact ⟨h1.trans (hlt l r).symm, h2.trans (List.append_right_inj p).symm, h3.trans (hlt r l).symm⟩

theorem signOf_of_diverge (h : Diverge l r) : SignOf (strnncmp l l.length r r.length) l r := by
  cases h with
  | left r => cases r <;> constructor <;> simp [strnncmp, strncmpFrom]
  | right l => cases l <;> constructor <;> simp [strnncmp, strncmpFrom]
  | @differ c d hne l r =>
    rw [strnncmp_cons_cons]
    have hcd : c < d ∨ d < c := by
      have := UInt8.toNat_inj.not.mpr hne
      simp only [UInt8.lt_iff_toNat_lt]
      omega
    constructor <;> grind [List.cons_lt_cons_iff, UInt8.lt_asymm]

/-- The comparison is right where no zero byte is in the common beginning. -/
theorem signOf_strnncmp (h : 0 ∉ common l r) : SignOf (strnncmp l l.length r r.length) l r := by
  obtain ⟨l', r', hl, hr, hdiverge⟩ := exists_common_append l r
  have hrest := signOf_append (p := common l r).mpr (signOf_of_diverge hdiverge)
  rwa [← strnncmp_append h, ← hl, ← hr] at hrest

/-- Otherwise it is the comparison of the lengths. -/
theorem strnncmp_eq_lengthOrder (h : 0 ∈ common l r) :
    strnncmp l l.length r r.length = lengthOrder l.length r.length := by
  obtain ⟨l', r', hl, hr, -⟩ := exists_common_append l r
  have hrest := strnncmp_append_of_mem h l' r'
  rwa [← hl, ← hr] at hrest

/-- On keys of one size `strnncmp` only tells what is above. -/
theorem lt_of_strnncmp {p q : List UInt8} (hlen : p.length = q.length)
    (h : strnncmp p p.length q q.length = .gt) : q < p := by
  by_cases hnul : 0 ∈ common p q
  · rw [strnncmp_eq_lengthOrder hnul, lengthOrder, if_pos hlen] at h
    exact absurd h (by decide)
  · exact (signOf_strnncmp hnul).gt.mp h

/-- On strings `strnncmp` is the order of `strcmp`. -/
theorem strnncmp_eq_gt_iff (a b : CString) :
    strnncmp a.bytes a.bytes.length b.bytes b.bytes.length = .gt ↔ b.bytes < a.bytes := by
  have hnul : 0 ∉ common a.bytes b.bytes :=
    fun hmem => a.nul_free ((common_sublist_left _ _).subset hmem)
  exact (signOf_strnncmp hnul).gt

end

end Turbolib
