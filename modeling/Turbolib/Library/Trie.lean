import Turbolib.Library.BitString
import Mathlib.Data.List.Basic

/-!
# Crit-bit tries

A binary trie that stores at every node only the position of the bit its two
subtrees differ in; the bits in between are skipped on the way down. The module
is generic in the stored type `α` and in the reading `bits : α → BitString`.

`Ordered` is the crit-bit invariant: below a node all members agree on every
bit before its position, the left ones have a zero there and the right ones a
one. Everything else follows from it: positions increase downwards, a walk ends
at a member sharing as many bits with the key as any member does, and the shape
is a function of the set of members alone.
-/

namespace Turbolib

open BitString

/-- A trie is never empty; a missing trie is `none` at the place of use. -/
inductive Trie (α : Type*) where
  | leaf (a : α)
  | node (pos : ℕ) (left right : Trie α)

namespace Trie

variable {α β : Type*}

/-- The members from left to right. -/
def leaves : Trie α → List α
  | leaf a => [a]
  | node _ l r => l.leaves ++ r.leaves

instance : Membership α (Trie α) := ⟨fun t a => a ∈ t.leaves⟩

theorem mem_def {t : Trie α} {a : α} : a ∈ t ↔ a ∈ t.leaves := Iff.rfl

@[simp] theorem mem_leaf {a b : α} : b ∈ leaf a ↔ b = a := by simp [mem_def, leaves]

@[simp] theorem mem_node {p : ℕ} {l r : Trie α} {a : α} :
    a ∈ node p l r ↔ a ∈ l ∨ a ∈ r := by simp [mem_def, leaves]

theorem leaves_ne_nil (t : Trie α) : t.leaves ≠ [] := by
  cases t with
  | leaf a => simp [leaves]
  | node p l r => simp [leaves, leaves_ne_nil l]

def map (f : α → β) : Trie α → Trie β
  | leaf a => leaf (f a)
  | node p l r => node p (l.map f) (r.map f)

@[simp] theorem leaves_map (f : α → β) (t : Trie α) : (t.map f).leaves = t.leaves.map f := by
  induction t with
  | leaf a => rfl
  | node p l r ihl ihr => simp [map, leaves, ihl, ihr]

theorem mem_map {f : α → β} {t : Trie α} {b : β} : b ∈ t.map f ↔ ∃ a ∈ t, f a = b := by
  simp [mem_def]

/-- Follow the bits of `k` down to a member. -/
def walk (k : BitString) : Trie α → α
  | leaf a => a
  | node p l r => if k p then r.walk k else l.walk k

theorem walk_mem (k : BitString) (t : Trie α) : t.walk k ∈ t := by
  induction t with
  | leaf a => simp [walk]
  | node p l r ihl ihr =>
    simp only [walk, mem_node]
    split
    · exact Or.inr ihr
    · exact Or.inl ihl

/-- Follow the bits of `k` down to the first node at position `n` or later. -/
def descend (k : BitString) (n : ℕ) : Trie α → Trie α
  | leaf a => leaf a
  | node p l r => if n ≤ p then node p l r else if k p then r.descend k n else l.descend k n

/-- The leftmost and the rightmost member. -/
def first : Trie α → α
  | leaf a => a
  | node _ l _ => l.first

def last : Trie α → α
  | leaf a => a
  | node _ _ r => r.last

theorem first_mem (t : Trie α) : t.first ∈ t := by
  induction t with
  | leaf a => simp [first]
  | node p l r ihl _ => simp [first, ihl]

theorem leaves_eq_first_cons (t : Trie α) : ∃ rest, t.leaves = t.first :: rest := by
  induction t with
  | leaf a => exact ⟨[], rfl⟩
  | node p l r ihl _ =>
    obtain ⟨rest, hrest⟩ := ihl
    exact ⟨rest ++ r.leaves, by rw [leaves, hrest, first, List.cons_append]⟩

@[simp] theorem first_map (f : α → β) (t : Trie α) : (t.map f).first = f t.first := by
  induction t with
  | leaf a => rfl
  | node p l r ihl _ => exact ihl

/-- A key of zeros leads to the leftmost member. -/
theorem walk_zero {k : BitString} (hk : ∀ i, k i = false) (t : Trie α) : t.walk k = t.first := by
  induction t with
  | leaf a => rfl
  | node p l r ihl _ => rw [walk, if_neg (by simp [hk]), first, ihl]

theorem last_mem (t : Trie α) : t.last ∈ t := by
  induction t with
  | leaf a => simp [last]
  | node p l r _ ihr => simp [last, ihr]

/-- A new member beside a whole trie, split at position `c`. -/
def join (k : BitString) (c : ℕ) (a : α) (t : Trie α) : Trie α :=
  if k c then node c t (leaf a) else node c (leaf a) t

/-- Insert `a`, with bits `k`, at the critical position `c`. -/
def insertAt (k : BitString) (c : ℕ) (a : α) : Trie α → Trie α
  | leaf b => join k c a (leaf b)
  | node p l r =>
    if c < p then join k c a (node p l r)
    else if k p then node p l (r.insertAt k c a) else node p (l.insertAt k c a) r

/-- Remove the member a walk along `k` ends at; its sibling takes the parent's place. -/
def eraseWalk (k : BitString) : Trie α → Option (Trie α)
  | leaf _ => none
  | node p l r =>
    if k p then
      match r.eraseWalk k with
      | none => some l
      | some r' => some (node p l r')
    else
      match l.eraseWalk k with
      | none => some r
      | some l' => some (node p l' r)

/-! ## The crit-bit invariant -/

section Invariant

variable (bits : α → BitString)

/-- All members of the trie agree on the first `n` bits. -/
def AgreeOn (n : ℕ) (t : Trie α) : Prop := ∀ a ∈ t, ∀ b ∈ t, Agree n (bits a) (bits b)

def Ordered : Trie α → Prop
  | leaf _ => True
  | node p l r =>
    AgreeOn bits p (node p l r) ∧ (∀ a ∈ l, bits a p = false) ∧ (∀ a ∈ r, bits a p = true) ∧
      Ordered l ∧ Ordered r

end Invariant

variable {bits : α → BitString} {k : BitString} {t u : Trie α}

theorem AgreeOn.mono {m n : ℕ} (h : AgreeOn bits n t) (hmn : m ≤ n) : AgreeOn bits m t :=
  fun a ha b hb => (h a ha b hb).mono hmn

/-- If one member agrees with `k` on `n` bits and all members agree, every member does. -/
theorem AgreeOn.of_mem {n : ℕ} (h : AgreeOn bits n t) {a : α} (ha : a ∈ t)
    (hk : Agree n k (bits a)) : ∀ b ∈ t, Agree n k (bits b) :=
  fun b hb => hk.trans (h a ha b hb)

/-- The members below a child agree on one bit more. -/
theorem Ordered.agreeOn_left {p : ℕ} {l r : Trie α} (h : Ordered bits (node p l r)) :
    AgreeOn bits (p + 1) l := by
  obtain ⟨hp, hl, -, -, -⟩ := h
  intro a ha b hb
  refine agree_succ.mpr ⟨hp a (by simp [ha]) b (by simp [hb]), ?_⟩
  rw [hl a ha, hl b hb]

theorem Ordered.agreeOn_right {p : ℕ} {l r : Trie α} (h : Ordered bits (node p l r)) :
    AgreeOn bits (p + 1) r := by
  obtain ⟨hp, -, hr, -, -⟩ := h
  intro a ha b hb
  refine agree_succ.mpr ⟨hp a (by simp [ha]) b (by simp [hb]), ?_⟩
  rw [hr a ha, hr b hb]

/-- A member on the left and one on the right split at the node's position. -/
theorem Ordered.splitAt {p : ℕ} {l r : Trie α} (h : Ordered bits (node p l r)) {a b : α}
    (ha : a ∈ l) (hb : b ∈ r) : SplitAt p (bits a) (bits b) := by
  obtain ⟨hp, hl, hr, -, -⟩ := h
  refine ⟨hp a (by simp [ha]) b (by simp [hb]), ?_⟩
  simp [hl a ha, hr b hb]

theorem Ordered.lt {p : ℕ} {l r : Trie α} (h : Ordered bits (node p l r)) {a b : α}
    (ha : a ∈ l) (hb : b ∈ r) : bits a < bits b :=
  (h.splitAt ha hb).lt_iff.mpr (h.2.1 a ha)

/-- A node's members agree on no more bits than its position. -/
theorem Ordered.le_pos {p n : ℕ} {l r : Trie α} (h : Ordered bits (node p l r))
    (hn : AgreeOn bits n (node p l r)) : n ≤ p :=
  (h.splitAt l.first_mem r.first_mem).le_of_agree
    (hn _ (by simp [first_mem]) _ (by simp [first_mem]))

/-- Positions strictly increase downwards. -/
theorem Ordered.pos_lt_left {p q : ℕ} {l r l' r' : Trie α}
    (h : Ordered bits (node p l r)) (hl : l = node q l' r') : p < q := by
  subst hl
  exact h.2.2.2.1.le_pos h.agreeOn_left

theorem Ordered.pos_lt_right {p q : ℕ} {l r l' r' : Trie α}
    (h : Ordered bits (node p l r)) (hr : r = node q l' r') : p < q := by
  subst hr
  exact h.2.2.2.2.le_pos h.agreeOn_right

/-- From left to right the members are strictly ascending. -/
theorem Ordered.sorted (h : Ordered bits t) :
    t.leaves.Pairwise fun a b => bits a < bits b := by
  induction t with
  | leaf a => simp [leaves]
  | node p l r ihl ihr =>
    refine List.pairwise_append.mpr ⟨ihl h.2.2.2.1, ihr h.2.2.2.2, ?_⟩
    intro a ha b hb
    exact h.lt ha hb

theorem Ordered.first_le (h : Ordered bits t) : ∀ a ∈ t, bits t.first ≤ bits a := by
  induction t with
  | leaf a => simp [first]
  | node p l r ihl _ =>
    intro a ha
    rcases mem_node.mp ha with hl | hr
    · exact ihl h.2.2.2.1 a hl
    · exact (h.lt l.first_mem hr).le

theorem Ordered.le_last (h : Ordered bits t) : ∀ a ∈ t, bits a ≤ bits t.last := by
  induction t with
  | leaf a => simp [last]
  | node p l r _ ihr =>
    intro a ha
    rcases mem_node.mp ha with hl | hr
    · exact (h.lt hl r.last_mem).le
    · exact ihr h.2.2.2.2 a hr

/-- Members are told apart by their bits. -/
theorem Ordered.eq_of_bits (h : Ordered bits t) {a b : α} (ha : a ∈ t) (hb : b ∈ t)
    (hab : bits a = bits b) : a = b := by
  induction t with
  | leaf c => rw [mem_leaf.mp ha, mem_leaf.mp hb]
  | node p l r ihl ihr =>
    rcases mem_node.mp ha with ha | ha <;> rcases mem_node.mp hb with hb | hb
    · exact ihl h.2.2.2.1 ha hb
    · exact absurd hab (h.lt ha hb).ne
    · exact absurd hab (h.lt hb ha).ne'
    · exact ihr h.2.2.2.2 ha hb

theorem ordered_map {f : β → α} {t : Trie β} :
    Ordered bits (t.map f) ↔ Ordered (fun b => bits (f b)) t := by
  induction t with
  | leaf a => rfl
  | node p l r ihl ihr =>
    have hag : AgreeOn bits p (map f (node p l r)) ↔
        AgreeOn (fun b => bits (f b)) p (node p l r) := by
      simp only [AgreeOn, mem_map, forall_exists_index, and_imp, forall_apply_eq_imp_iff₂]
    simp only [map] at hag ⊢
    simp only [Ordered, hag, ihl, ihr, mem_map, forall_exists_index, and_imp,
      forall_apply_eq_imp_iff₂]

/-! ## Walks -/

/-- The member a walk ends at shares with the key as many bits as any member. -/
theorem Ordered.agree_walk (h : Ordered bits t) {n : ℕ} {a : α} (ha : a ∈ t)
    (hk : Agree n k (bits a)) : Agree n k (bits (t.walk k)) := by
  induction t with
  | leaf b => rwa [walk, ← mem_leaf.mp ha]
  | node p l r ihl ihr =>
    have hw : (node p l r).walk k ∈ node p l r := walk_mem k _
    by_cases hn : n ≤ p
    · exact (h.1.mono hn).of_mem ha hk _ hw
    have hkp : k p = bits a p := hk p (by omega)
    simp only [walk]
    rcases mem_node.mp ha with ha | ha
    · rw [if_neg (by simp [hkp, h.2.1 a ha])]
      exact ihl h.2.2.2.1 ha
    · rw [if_pos (by simp [hkp, h.2.2.1 a ha])]
      exact ihr h.2.2.2.2 ha

/-- A key with a member's bits is found. -/
theorem Ordered.walk_eq (h : Ordered bits t) {a : α} (ha : a ∈ t) (hk : bits a = k) :
    t.walk k = a := by
  refine h.eq_of_bits (walk_mem k t) ha ?_
  subst hk
  ext i
  exact (h.agree_walk ha (Agree.refl (i + 1) (bits a)) i (by omega)).symm

/-- The members of the subtree reached by `n` bits of the key are those that
share `n` bits with the member the whole walk ends at. -/
theorem Ordered.mem_descend (h : Ordered bits t) {n : ℕ} {a : α} :
    a ∈ t.descend k n ↔ a ∈ t ∧ Agree n (bits (t.walk k)) (bits a) := by
  induction t with
  | leaf b =>
    simp only [descend, mem_leaf, walk]
    constructor
    · rintro rfl
      exact ⟨rfl, Agree.refl _ _⟩
    · exact fun h => h.1
  | node p l r ihl ihr =>
    simp only [descend, walk]
    split_ifs with hn hk
    · constructor
      · intro ha
        refine ⟨ha, (h.1.mono hn) _ ?_ _ ha⟩
        have := walk_mem k (node p l r)
        simpa only [walk, if_pos hk] using this
      · exact fun ha => ha.1
    · constructor
      · intro ha
        refine ⟨ha, (h.1.mono hn) _ ?_ _ ha⟩
        have := walk_mem k (node p l r)
        simpa only [walk, if_neg hk] using this
      · exact fun ha => ha.1
    · rw [ihr h.2.2.2.2, mem_node]
      constructor
      · exact fun ha => ⟨Or.inr ha.1, ha.2⟩
      · rintro ⟨ha | ha, hag⟩
        · exact absurd hag.symm ((h.splitAt ha (walk_mem k r)).not_agree (by omega))
        · exact ⟨ha, hag⟩
    · rw [ihl h.2.2.2.1, mem_node]
      constructor
      · exact fun ha => ⟨Or.inl ha.1, ha.2⟩
      · rintro ⟨ha | ha, hag⟩
        · exact ⟨ha, hag⟩
        · exact absurd hag ((h.splitAt (walk_mem k l) ha).not_agree (by omega))

theorem Ordered.descend (h : Ordered bits t) (k : BitString) (n : ℕ) :
    Ordered bits (t.descend k n) := by
  induction t with
  | leaf a => exact h
  | node p l r ihl ihr =>
    simp only [Trie.descend]
    split_ifs
    · exact h
    · exact ihr h.2.2.2.2
    · exact ihl h.2.2.2.1

/-! ## Insertion -/

theorem mem_join {c : ℕ} {a b : α} : b ∈ join k c a t ↔ b = a ∨ b ∈ t := by
  unfold join
  split <;> simp [or_comm]

theorem mem_insertAt {c : ℕ} {a b : α} : b ∈ t.insertAt k c a ↔ b = a ∨ b ∈ t := by
  induction t with
  | leaf d => exact mem_join
  | node p l r ihl ihr =>
    simp only [insertAt]
    split_ifs
    · exact mem_join
    · rw [mem_node, ihr, mem_node]
      tauto
    · rw [mem_node, ihl, mem_node]
      tauto

/-- If all members share `c` bits with `a` and the opposite bit `c`, joining them is sound. -/
theorem ordered_join {c : ℕ} {a : α} (h : Ordered bits t) (hk : bits a = k)
    (hs : ∀ b ∈ t, SplitAt c k (bits b)) : Ordered bits (join k c a t) := by
  have hag : AgreeOn bits c (join k c a t) := by
    intro x hx y hy
    have hx' : Agree c (bits x) k := by
      rcases mem_join.mp hx with rfl | hx
      · exact hk ▸ Agree.refl _ _
      · exact (hs x hx).1.symm
    have hy' : Agree c k (bits y) := by
      rcases mem_join.mp hy with rfl | hy
      · exact hk ▸ Agree.refl _ _
      · exact (hs y hy).1
    exact hx'.trans hy'
  unfold join at hag ⊢
  split_ifs at hag ⊢ with hc
  · refine ⟨hag, ?_, ?_, h, trivial⟩
    · intro b hb
      simp [(hs b hb).not_eq, hc]
    · intro b hb
      simpa [mem_leaf.mp hb, hk] using hc
  · refine ⟨hag, ?_, ?_, trivial, h⟩
    · intro b hb
      simpa [mem_leaf.mp hb, hk] using hc
    · intro b hb
      simp [(hs b hb).not_eq, hc]

/-- Insertion at the position where the key splits from the walk's member keeps the invariant. -/
theorem Ordered.insertAt {c : ℕ} {a : α} (h : Ordered bits t) (hk : bits a = k)
    (hs : SplitAt c k (bits (t.walk k))) : Ordered bits (t.insertAt k c a) := by
  induction t with
  | leaf b =>
    refine ordered_join h hk fun x hx => ?_
    rwa [mem_leaf.mp hx]
  | node p l r ihl ihr =>
    have hw := walk_mem k (node p l r)
    -- the members afterwards, which share the bits above the branch as long as it stays
    have hmem : ∀ x ∈ (node p l r).insertAt k c a, x = a ∨ x ∈ node p l r :=
      fun x hx => mem_insertAt.mp hx
    have hall (hp : p ≤ c) : ∀ x, x = a ∨ x ∈ node p l r → Agree p k (bits x) := by
      rintro x (rfl | hx)
      · exact hk ▸ Agree.refl _ _
      · exact h.1.of_mem hw (hs.1.mono hp) x hx
    simp only [Trie.insertAt] at hmem ⊢
    split_ifs at hmem ⊢ with hc hkp
    · -- every member shares the walk's bits up to and including `c`
      refine ordered_join h hk fun x hx => ?_
      exact (hs.symm.congr_left (h.1 _ hw x hx) hc).symm
    · have hs' : SplitAt c k (bits (r.walk k)) := by simpa only [walk, if_pos hkp] using hs
      refine ⟨?_, h.2.1, ?_, h.2.2.2.1, ihr h.2.2.2.2 hs'⟩
      · have hagree := hall (by omega)
        exact fun x hx y hy =>
          (hagree x (hmem x hx)).symm.trans (hagree y (hmem y hy))
      · intro x hx
        rcases mem_insertAt.mp hx with rfl | hx
        · rwa [hk]
        · exact h.2.2.1 x hx
    · have hs' : SplitAt c k (bits (l.walk k)) := by simpa only [walk, if_neg hkp] using hs
      refine ⟨?_, ?_, h.2.2.1, ihl h.2.2.2.1 hs', h.2.2.2.2⟩
      · have hagree := hall (by omega)
        exact fun x hx y hy =>
          (hagree x (hmem x hx)).symm.trans (hagree y (hmem y hy))
      · intro x hx
        rcases mem_insertAt.mp hx with rfl | hx
        · simpa [hk] using hkp
        · exact h.2.1 x hx

/-! ## Removal -/

@[simp] theorem eraseWalk_leaf (a : α) : (leaf a).eraseWalk k = none := rfl

theorem eraseWalk_node_isSome (p : ℕ) (l r : Trie α) :
    ∃ t', (node p l r).eraseWalk k = some t' := by
  simp only [eraseWalk]
  split <;> split <;> exact ⟨_, rfl⟩

theorem eraseWalk_eq_none (h : t.eraseWalk k = none) : t = leaf (t.walk k) := by
  cases t with
  | leaf a => rfl
  | node p l r =>
    obtain ⟨t', ht⟩ := eraseWalk_node_isSome (k := k) p l r
    simp [ht] at h

/-- The trie after a removal holds every other member. -/
theorem Ordered.mem_eraseWalk (h : Ordered bits t) {t' : Trie α} (ht : t.eraseWalk k = some t')
    {a : α} : a ∈ t' ↔ a ∈ t ∧ a ≠ t.walk k := by
  induction t generalizing t' with
  | leaf b => simp at ht
  | node p l r ihl ihr =>
    simp only [eraseWalk] at ht
    split at ht
    next hk =>
      have hne : ∀ x ∈ l, x ≠ r.walk k := fun x hx e =>
        (h.lt hx (walk_mem k r)).ne (congrArg bits e)
      rw [walk, if_pos hk]
      split at ht
      next hr =>
        cases ht
        rw [mem_node, eraseWalk_eq_none hr, walk]
        constructor
        · intro ha
          exact ⟨Or.inl ha, eraseWalk_eq_none hr ▸ hne a ha⟩
        · rintro ⟨ha | ha, hna⟩
          · exact ha
          · exact absurd (mem_leaf.mp ha) hna
      next r' hr =>
        cases ht
        rw [mem_node, mem_node, ihr h.2.2.2.2 hr]
        have := hne a
        tauto
    next hk =>
      have hne : ∀ x ∈ r, x ≠ l.walk k := fun x hx e =>
        (h.lt (walk_mem k l) hx).ne' (congrArg bits e)
      rw [walk, if_neg hk]
      split at ht
      next hl =>
        cases ht
        rw [mem_node, eraseWalk_eq_none hl, walk]
        constructor
        · intro ha
          exact ⟨Or.inr ha, eraseWalk_eq_none hl ▸ hne a ha⟩
        · rintro ⟨ha | ha, hna⟩
          · exact absurd (mem_leaf.mp ha) hna
          · exact ha
      next l' hl =>
        cases ht
        rw [mem_node, mem_node, ihl h.2.2.2.1 hl]
        have := hne a
        tauto

theorem Ordered.eraseWalk (h : Ordered bits t) {t' : Trie α} (ht : t.eraseWalk k = some t') :
    Ordered bits t' := by
  induction t generalizing t' with
  | leaf b => simp at ht
  | node p l r ihl ihr =>
    have hmem : ∀ x ∈ t', x ∈ node p l r := fun x hx => ((h.mem_eraseWalk ht).mp hx).1
    simp only [Trie.eraseWalk] at ht
    split at ht
    · split at ht
      · cases ht
        exact h.2.2.2.1
      next r' hr =>
        cases ht
        refine ⟨fun x hx y hy => h.1 x (hmem x hx) y (hmem y hy), h.2.1, ?_, h.2.2.2.1,
          ihr h.2.2.2.2 hr⟩
        exact fun x hx => h.2.2.1 x ((h.2.2.2.2.mem_eraseWalk hr).mp hx).1
    · split at ht
      · cases ht
        exact h.2.2.2.2
      next l' hl =>
        cases ht
        refine ⟨fun x hx y hy => h.1 x (hmem x hx) y (hmem y hy), ?_, h.2.2.1,
          ihl h.2.2.2.1 hl, h.2.2.2.2⟩
        exact fun x hx => h.2.1 x ((h.2.2.2.1.mem_eraseWalk hl).mp hx).1

/-! ## The shape is determined by the members -/

theorem Ordered.eq_of_mem_iff (ht : Ordered bits t) (hu : Ordered bits u)
    (h : ∀ a, a ∈ t ↔ a ∈ u) : t = u := by
  induction t generalizing u with
  | leaf a =>
    cases u with
    | leaf b => rw [mem_leaf.mp ((h b).mpr (by simp))]
    | node q l' r' =>
      have hl : l'.first = a := mem_leaf.mp ((h _).mpr (by simp [first_mem]))
      have hr : r'.first = a := mem_leaf.mp ((h _).mpr (by simp [first_mem]))
      exact absurd (hl.trans hr.symm) fun e =>
        (hu.lt l'.first_mem r'.first_mem).ne (congrArg bits e)
  | node p l r ihl ihr =>
    cases u with
    | leaf b =>
      have hl : l.first = b := mem_leaf.mp ((h _).mp (by simp [first_mem]))
      have hr : r.first = b := mem_leaf.mp ((h _).mp (by simp [first_mem]))
      exact absurd (hl.trans hr.symm) fun e =>
        (ht.lt l.first_mem r.first_mem).ne (congrArg bits e)
    | node q l' r' =>
      have hpq : p = q := by
        refine le_antisymm (hu.le_pos fun a ha b hb => ?_) (ht.le_pos fun a ha b hb => ?_)
        · exact ht.1 a ((h a).mpr ha) b ((h b).mpr hb)
        · exact hu.1 a ((h a).mp ha) b ((h b).mp hb)
      subst hpq
      have hl : ∀ a, a ∈ l ↔ a ∈ l' := by
        intro a
        have ha := h a
        rw [mem_node, mem_node] at ha
        have h1 := ht.2.1 a
        have h2 := ht.2.2.1 a
        have h3 := hu.2.1 a
        have h4 := hu.2.2.1 a
        constructor <;> intro hm <;> grind
      have hr : ∀ a, a ∈ r ↔ a ∈ r' := by
        intro a
        have ha := h a
        rw [mem_node, mem_node] at ha
        have h1 := ht.2.1 a
        have h2 := ht.2.2.1 a
        have h3 := hu.2.1 a
        have h4 := hu.2.2.1 a
        constructor <;> intro hm <;> grind
      rw [ihl ht.2.2.2.1 hu.2.2.2.1 hl, ihr ht.2.2.2.2 hu.2.2.2.2 hr]

end Trie

end Turbolib
