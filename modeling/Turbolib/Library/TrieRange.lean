import Turbolib.Library.Scan
import Turbolib.Library.Trie
import Mathlib.Data.Set.Finite.Lemmas

/-!
# The place of a key in a trie

A key that is no member would hang at the edge above `near`, the subtree of the
members that share the most bits with it. They all lie on one side of the key.
Which member comes next on the other side depends on the last branch above that
place and on the turn taken there.
-/

namespace Turbolib

open BitString

namespace Trie

variable {α : Type*}

section

variable (bits : α → BitString) (k : BitString)

/-- The members that share as many bits with the key as any member does. -/
def near : Trie α → Trie α
  | leaf a => leaf a
  | node p l r =>
    if Agree (p + 1) k (bits (walk k (node p l r))) then (if k p then near r else near l)
    else node p l r

/-- The turn to the right or to the left at the last branch above `near`, if there is one. -/
def turn : Trie α → Option Bool
  | leaf _ => none
  | node p l r =>
    if Agree (p + 1) k (bits (walk k (node p l r))) then
      some ((if k p then turn r else turn l).getD (k p))
    else none

end

/-- What `g` makes of the children of the last branch the key passes up to position
`n`, and `d` if there is none. -/
def atParent (g : Trie α → Trie α → α) (k : BitString) (n : ℕ) : α → Trie α → α
  | d, leaf _ => d
  | d, node p l r =>
    if n < p then d
    else if k p then atParent g k n (g l r) r
    else atParent g k n (g l r) l

/-- The rightmost member of the left half. -/
def lowerLast : Trie α → α
  | leaf a => a
  | node _ l _ => l.last

variable {bits : α → BitString} {k : BitString} {t : Trie α} {n : ℕ}

/-- The side of the key that the members of a split lie on. -/
theorem splitAt_lt {a : α} (h : SplitAt n k (bits a)) (hk : k n = true) : bits a < k :=
  h.gt_iff.mpr hk

theorem splitAt_gt {a : α} (h : SplitAt n k (bits a)) (hk : k n = false) : k < bits a :=
  h.lt_iff.mpr hk

/-! ## near -/

theorem mem_of_mem_near {a : α} (ha : a ∈ t.near bits k) : a ∈ t := by
  induction t with
  | leaf b => exact ha
  | node p l r ihl ihr =>
    rw [near] at ha
    split_ifs at ha
    · exact mem_node.mpr (Or.inr (ihr ha))
    · exact mem_node.mpr (Or.inl (ihl ha))
    · exact ha

theorem Ordered.near (h : Ordered bits t) : Ordered bits (t.near bits k) := by
  induction t with
  | leaf b => exact h
  | node p l r ihl ihr =>
    rw [Trie.near]
    split_ifs
    · exact ihr h.2.2.2.2
    · exact ihl h.2.2.2.1
    · exact h

/-- A node whose position the walk's member shares with the key is passed. -/
theorem not_agree_of_le {p : ℕ} {l r : Trie α}
    (hs : SplitAt n k (bits (walk k (node p l r)))) : n ≤ p ↔
      ¬Agree (p + 1) k (bits (walk k (node p l r))) := by
  constructor
  · exact fun hn => hs.not_agree (by omega)
  · intro hag
    by_contra hn
    exact hag (hs.1.mono (by omega))

/-- At the position of a node the walk follows the key. -/
theorem Ordered.pos_ne {p : ℕ} {l r : Trie α} (h : Ordered bits (node p l r))
    (hs : SplitAt n k (bits (walk k (node p l r)))) : n ≠ p := by
  rintro rfl
  refine hs.2 ?_
  rw [walk]
  split_ifs with hk
  · rw [hk, h.2.2.1 _ (walk_mem k r)]
  · rw [h.2.1 _ (walk_mem k l)]
    simpa using hk

/-- The members of `near` split from the key where the walk's member does. -/
theorem Ordered.splitAt_near (h : Ordered bits t) (hs : SplitAt n k (bits (t.walk k))) {a : α}
    (ha : a ∈ t.near bits k) : SplitAt n k (bits a) := by
  induction t with
  | leaf b => rwa [mem_leaf.mp ha]
  | node p l r ihl ihr =>
    rw [Trie.near] at ha
    split_ifs at ha with hag hk
    · rw [walk, if_pos hk] at hs
      exact ihr h.2.2.2.2 hs ha
    · rw [walk, if_neg hk] at hs
      exact ihl h.2.2.2.1 hs ha
    · have hn := (not_agree_of_le hs).mpr hag
      have hnp := h.pos_ne hs
      exact (hs.symm.congr_left (h.1 _ (walk_mem k _) a ha) (by omega)).symm

/-- Outside `near` a member splits from the key earlier. -/
theorem Ordered.splitAt_of_not_mem_near (h : Ordered bits t)
    (hs : SplitAt n k (bits (t.walk k))) {a : α} (ha : a ∈ t) (hna : a ∉ t.near bits k) :
    ¬Agree n k (bits a) := by
  induction t with
  | leaf b => exact absurd ha hna
  | node p l r ihl ihr =>
    rw [Trie.near] at hna
    split_ifs at hna with hag hk
    · have hp : p < n := by
        by_contra hle
        exact (not_agree_of_le hs).mp (not_lt.mp hle) hag
      rw [walk, if_pos hk] at hs
      rcases mem_node.mp ha with ha | ha
      · intro hka
        have := hka p hp
        rw [hk, h.2.1 a ha] at this
        exact absurd this (by simp)
      · exact ihr h.2.2.2.2 hs ha hna
    · have hp : p < n := by
        by_contra hle
        exact (not_agree_of_le hs).mp (not_lt.mp hle) hag
      rw [walk, if_neg hk] at hs
      rcases mem_node.mp ha with ha | ha
      · exact ihl h.2.2.2.1 hs ha hna
      · intro hka
        have := hka p hp
        rw [h.2.2.1 a ha] at this
        exact hk this
    · exact absurd ha hna

/-- A member's own place is its leaf. -/
theorem near_of_walk_eq (hk : bits (t.walk k) = k) : t.near bits k = leaf (t.walk k) := by
  induction t with
  | leaf b => rfl
  | node p l r ihl ihr =>
    rw [near, if_pos (by rw [hk])]
    rw [walk] at hk ⊢
    split_ifs at hk ⊢
    · exact ihr hk
    · exact ihl hk

/-- With the members nearest to the key above it, the first of them is the next member. -/
theorem Ordered.isLeast_near (h : Ordered bits t) (hk : k ≤ bits (t.walk k)) :
    IsLeast {x | ∃ a ∈ t, bits a = x ∧ k ≤ x} (bits (t.near bits k).first) := by
  have hmem := mem_of_mem_near (t.near bits k).first_mem
  rcases hk.eq_or_lt with heq | hlt
  · have hfirst : bits (t.near bits k).first = k := by
      rw [near_of_walk_eq heq.symm]
      exact heq.symm
    refine ⟨⟨_, hmem, rfl, hfirst.ge⟩, ?_⟩
    rintro x ⟨a, -, -, hx⟩
    exact hfirst.le.trans hx
  · obtain ⟨n, hs⟩ := exists_splitAt hlt.ne
    have hbit := hs.lt_iff.mp hlt
    have hsf := h.splitAt_near hs (t.near bits k).first_mem
    refine ⟨⟨_, hmem, rfl, (splitAt_gt hsf hbit).le⟩, ?_⟩
    rintro x ⟨a, ha, rfl, hx⟩
    by_cases hna : a ∈ t.near bits k
    · exact h.near.first_le a hna
    · have hag := h.splitAt_of_not_mem_near hs ha hna
      have hne : k ≠ bits a := fun e => hag (e ▸ Agree.refl n k)
      exact ((lt_congr_left hag hsf.1).mp (lt_of_le_of_ne hx hne)).le

/-- With the members nearest to the key below it, the last of them is the one before. -/
theorem Ordered.isGreatest_near (h : Ordered bits t) (hk : bits (t.walk k) ≤ k) :
    IsGreatest {x | ∃ a ∈ t, bits a = x ∧ x ≤ k} (bits (t.near bits k).last) := by
  have hmem := mem_of_mem_near (t.near bits k).last_mem
  rcases hk.eq_or_lt with heq | hlt
  · have hlast : bits (t.near bits k).last = k := by
      rw [near_of_walk_eq heq]
      exact heq
    refine ⟨⟨_, hmem, rfl, hlast.le⟩, ?_⟩
    rintro x ⟨a, -, -, hx⟩
    exact hx.trans hlast.ge
  · obtain ⟨n, hs⟩ := exists_splitAt hlt.ne'
    have hbit := hs.gt_iff.mp hlt
    have hsl := h.splitAt_near hs (t.near bits k).last_mem
    refine ⟨⟨_, hmem, rfl, (splitAt_lt hsl hbit).le⟩, ?_⟩
    rintro x ⟨a, ha, rfl, hx⟩
    by_cases hna : a ∈ t.near bits k
    · exact h.near.le_last a hna
    · have hag := h.splitAt_of_not_mem_near hs ha hna
      have hne : bits a ≠ k := fun e => hag (e ▸ Agree.refl n k)
      exact ((gt_congr_left hag hsl.1).mp (lt_of_le_of_ne hx hne)).le

/-! ## The next member on the other side -/

section

variable {p : ℕ} {l r : Trie α}

theorem Ordered.lt_of_right (h : Ordered bits (node p l r))
    (hs : SplitAt n k (bits (walk k (node p l r)))) (hp : p < n) (hk : k p = true) :
    ∀ a ∈ l, bits a < k := by
  intro a ha
  have hag := h.1.of_mem (walk_mem k _) (hs.1.mono hp.le) a (mem_node.mpr (Or.inl ha))
  exact splitAt_lt ⟨hag, by rw [hk, h.2.1 a ha]; simp⟩ hk

theorem Ordered.gt_of_left (h : Ordered bits (node p l r))
    (hs : SplitAt n k (bits (walk k (node p l r)))) (hp : p < n) (hk : k p = false) :
    ∀ a ∈ r, k < bits a := by
  intro a ha
  have hag := h.1.of_mem (walk_mem k _) (hs.1.mono hp.le) a (mem_node.mpr (Or.inr ha))
  exact splitAt_gt ⟨hag, by rw [hk, h.2.2.1 a ha]; simp⟩ hk

theorem turn_node_of_lt (hs : SplitAt n k (bits (walk k (node p l r)))) (hp : p < n) :
    turn bits k (node p l r) =
      some ((if k p then turn bits k r else turn bits k l).getD (k p)) := by
  rw [turn, if_pos]
  by_contra hag
  exact absurd ((not_agree_of_le hs).mpr hag) (by omega)

theorem turn_node_of_le (hs : SplitAt n k (bits (walk k (node p l r)))) (hp : n ≤ p) :
    turn bits k (node p l r) = none := by
  rw [turn, if_neg ((not_agree_of_le hs).mp hp)]

end

/-- The members nearest to the key are below it. The leftmost member of the right
child of the last branch above them is the next one, if the turn there was to the
left; otherwise it is one of them. -/
theorem Ordered.atParent_right (h : Ordered bits t) (hs : SplitAt n k (bits (t.walk k)))
    (hk : k n = true) (d : α) :
    (turn bits k t = none → (∀ a ∈ t, bits a < k) ∧
      atParent (fun _ r => r.first) k n d t = d) ∧
    (turn bits k t = some false → atParent (fun _ r => r.first) k n d t ∈ t ∧
      IsLeast {x | ∃ a ∈ t, bits a = x ∧ k ≤ x}
        (bits (atParent (fun _ r => r.first) k n d t))) ∧
    (turn bits k t = some true → atParent (fun _ r => r.first) k n d t ∈ t ∧
      bits (atParent (fun _ r => r.first) k n d t) < k) := by
  induction t generalizing d with
  | leaf b =>
    refine ⟨fun _ => ⟨fun a ha => ?_, rfl⟩, by simp [turn], by simp [turn]⟩
    rw [mem_leaf.mp ha]
    exact splitAt_lt hs hk
  | node p l r ihl ihr =>
    rcases Nat.lt_or_ge p n with hp | hp
    · have hnp : ¬n < p := by omega
      rw [turn_node_of_lt hs hp, atParent, if_neg hnp]
      cases hkp : k p with
      | true =>
        have hlow := h.lt_of_right hs hp hkp
        rw [walk, if_pos hkp] at hs
        obtain ⟨h0, h1, h2⟩ := ihr h.2.2.2.2 hs r.first
        simp only [if_true]
        cases hturn : turn bits k r with
        | none =>
          obtain ⟨hall, heq⟩ := h0 hturn
          refine ⟨by simp, by simp, fun _ => ?_⟩
          rw [heq]
          exact ⟨mem_node.mpr (Or.inr r.first_mem), hall _ r.first_mem⟩
        | some b =>
          refine ⟨by simp, fun hb => ?_, fun hb => ?_⟩
          · obtain ⟨hmem, ⟨a, ha, hax, hkx⟩, hleast⟩ := h1 (hturn.trans (by simpa using hb))
            refine ⟨mem_node.mpr (Or.inr hmem), ⟨a, mem_node.mpr (Or.inr ha), hax, hkx⟩, ?_⟩
            rintro x ⟨a, ha, rfl, hkx⟩
            rcases mem_node.mp ha with ha | ha
            · exact absurd hkx (hlow a ha).not_ge
            · exact hleast ⟨a, ha, rfl, hkx⟩
          · obtain ⟨hmem, hlt⟩ := h2 (hturn.trans (by simpa using hb))
            exact ⟨mem_node.mpr (Or.inr hmem), hlt⟩
      | false =>
        have hhigh := h.gt_of_left hs hp hkp
        rw [walk, if_neg (by simp [hkp])] at hs
        obtain ⟨h0, h1, h2⟩ := ihl h.2.2.2.1 hs r.first
        simp only [Bool.false_eq_true, if_false]
        cases hturn : turn bits k l with
        | none =>
          obtain ⟨hall, heq⟩ := h0 hturn
          refine ⟨by simp, fun _ => ?_, by simp⟩
          rw [heq]
          refine ⟨mem_node.mpr (Or.inr r.first_mem),
            ⟨_, mem_node.mpr (Or.inr r.first_mem), rfl, (hhigh _ r.first_mem).le⟩, ?_⟩
          rintro x ⟨a, ha, rfl, hkx⟩
          rcases mem_node.mp ha with ha | ha
          · exact absurd hkx (hall a ha).not_ge
          · exact h.2.2.2.2.first_le a ha
        | some b =>
          refine ⟨by simp, fun hb => ?_, fun hb => ?_⟩
          · obtain ⟨hmem, ⟨a, ha, hax, hkx⟩, hleast⟩ := h1 (hturn.trans (by simpa using hb))
            refine ⟨mem_node.mpr (Or.inl hmem), ⟨a, mem_node.mpr (Or.inl ha), hax, hkx⟩, ?_⟩
            rintro x ⟨c, hc, rfl, hkx⟩
            rcases mem_node.mp hc with hc | hc
            · exact hleast ⟨c, hc, rfl, hkx⟩
            · exact (h.lt hmem hc).le
          · obtain ⟨hmem, hlt⟩ := h2 (hturn.trans (by simpa using hb))
            exact ⟨mem_node.mpr (Or.inl hmem), hlt⟩
    · rw [turn_node_of_le hs hp, atParent, if_pos (lt_of_le_of_ne hp (h.pos_ne hs))]
      refine ⟨fun _ => ⟨fun a ha => ?_, rfl⟩, by simp, by simp⟩
      refine splitAt_lt (h.splitAt_near hs ?_) hk
      rwa [Trie.near, if_neg ((not_agree_of_le hs).mp hp)]

/-- The members nearest to the key are above it. The rightmost member of the left
child of the last branch above them is the one before, if the turn there was to the
right; otherwise it is the last of them. -/
theorem Ordered.atParent_left (h : Ordered bits t) (hs : SplitAt n k (bits (t.walk k)))
    (hk : k n = false) (d : α) :
    (turn bits k t = none → (∀ a ∈ t, k < bits a) ∧
      atParent (fun l _ => l.last) k n d t = d) ∧
    (turn bits k t = some true → atParent (fun l _ => l.last) k n d t ∈ t ∧
      IsGreatest {x | ∃ a ∈ t, bits a = x ∧ x ≤ k}
        (bits (atParent (fun l _ => l.last) k n d t))) ∧
    (turn bits k t = some false →
      atParent (fun l _ => l.last) k n d t = (t.near bits k).last) := by
  induction t generalizing d with
  | leaf b =>
    refine ⟨fun _ => ⟨fun a ha => ?_, rfl⟩, by simp [turn], by simp [turn]⟩
    rw [mem_leaf.mp ha]
    exact splitAt_gt hs hk
  | node p l r ihl ihr =>
    rcases Nat.lt_or_ge p n with hp | hp
    · have hnp : ¬n < p := by omega
      have hnear : (node p l r).near bits k =
          if k p then r.near bits k else l.near bits k := by
        rw [Trie.near, if_pos]
        by_contra hag
        exact absurd ((not_agree_of_le hs).mpr hag) (by omega)
      rw [turn_node_of_lt hs hp, atParent, if_neg hnp, hnear]
      cases hkp : k p with
      | false =>
        have hhigh := h.gt_of_left hs hp hkp
        rw [walk, if_neg (by simp [hkp])] at hs
        obtain ⟨h0, h1, h2⟩ := ihl h.2.2.2.1 hs l.last
        simp only [Bool.false_eq_true, if_false]
        cases hturn : turn bits k l with
        | none =>
          obtain ⟨hall, heq⟩ := h0 hturn
          refine ⟨by simp, by simp, fun _ => ?_⟩
          rw [heq]
          -- no branch of the left child is above `near`, so it is the left child
          cases l with
          | leaf b => rfl
          | node p' l' r' =>
            have hp' : n ≤ p' := by
              by_contra hlt
              rw [turn_node_of_lt hs (by omega)] at hturn
              exact absurd hturn (by simp)
            rw [Trie.near, if_neg ((not_agree_of_le hs).mp hp')]
        | some b =>
          refine ⟨by simp, fun hb => ?_, fun hb => h2 (hturn.trans (by simpa using hb))⟩
          obtain ⟨hmem, ⟨a, ha, hax, hkx⟩, hgreatest⟩ := h1 (hturn.trans (by simpa using hb))
          refine ⟨mem_node.mpr (Or.inl hmem), ⟨a, mem_node.mpr (Or.inl ha), hax, hkx⟩, ?_⟩
          rintro x ⟨c, hc, rfl, hkx⟩
          rcases mem_node.mp hc with hc | hc
          · exact hgreatest ⟨c, hc, rfl, hkx⟩
          · exact absurd hkx (hhigh c hc).not_ge
      | true =>
        have hlow := h.lt_of_right hs hp hkp
        rw [walk, if_pos hkp] at hs
        obtain ⟨h0, h1, h2⟩ := ihr h.2.2.2.2 hs l.last
        simp only [if_true]
        cases hturn : turn bits k r with
        | none =>
          obtain ⟨hall, heq⟩ := h0 hturn
          refine ⟨by simp, fun _ => ?_, by simp⟩
          rw [heq]
          refine ⟨mem_node.mpr (Or.inl l.last_mem),
            ⟨_, mem_node.mpr (Or.inl l.last_mem), rfl, (hlow _ l.last_mem).le⟩, ?_⟩
          rintro x ⟨a, ha, rfl, hkx⟩
          rcases mem_node.mp ha with ha | ha
          · exact h.2.2.2.1.le_last a ha
          · exact absurd hkx (hall a ha).not_ge
        | some b =>
          refine ⟨by simp, fun hb => ?_, fun hb => h2 (hturn.trans (by simpa using hb))⟩
          obtain ⟨hmem, ⟨a, ha, hax, hkx⟩, hgreatest⟩ := h1 (hturn.trans (by simpa using hb))
          refine ⟨mem_node.mpr (Or.inr hmem), ⟨a, mem_node.mpr (Or.inr ha), hax, hkx⟩, ?_⟩
          rintro x ⟨c, hc, rfl, hkx⟩
          rcases mem_node.mp hc with hc | hc
          · exact (h.lt hc hmem).le
          · exact hgreatest ⟨c, hc, rfl, hkx⟩
    · rw [turn_node_of_le hs hp, atParent, if_pos (lt_of_le_of_ne hp (h.pos_ne hs))]
      refine ⟨fun _ => ⟨fun a ha => ?_, rfl⟩, by simp, by simp⟩
      refine splitAt_gt (h.splitAt_near hs ?_) hk
      rwa [Trie.near, if_neg ((not_agree_of_le hs).mp hp)]

/-! ## Range scans

A scan of the members from `first` to `last` starts at the member a walk along
`first` ends at, or at the one `atParent` gives when that member is below `first`,
and stops likewise. `StartMark` and `StopMark` are the ways this can go, and
`RangeExact` says when the scan is exact. -/

section range

variable (bits)

/-- Where a scan from `first` on begins; `none` visits nothing. -/
inductive StartMark (first : BitString) (t : Trie α) : Option α → Prop where
  | found (h : first ≤ bits (t.walk first)) : StartMark first t (some (t.walk first))
  | nothing (h : bits (t.walk first) < first) (hturn : t.turn bits first = none) (a : α)
      (ht : t = leaf a) : StartMark first t none
  | whole (h : bits (t.walk first) < first) (hturn : t.turn bits first = none)
      (hall : ∀ a ∈ t, bits a < first) (ht : ∀ a, t ≠ leaf a) (s : α) (hs : s ∈ t) :
      StartMark first t (some s)
  | next (h : bits (t.walk first) < first) (hturn : t.turn bits first = some false) (s : α)
      (hs : s ∈ t) (hleast : IsLeast {x | ∃ a ∈ t, bits a = x ∧ first ≤ x} (bits s)) :
      StartMark first t (some s)
  | back (h : bits (t.walk first) < first) (hturn : t.turn bits first = some true) (s : α)
      (hs : s ∈ t) (hlt : bits s < first) : StartMark first t (some s)

/-- Where a scan up to `last` ends. -/
inductive StopMark (last : BitString) (t : Trie α) : α → Prop where
  | found (h : bits (t.walk last) ≤ last) : StopMark last t (t.walk last)
  | whole (h : last < bits (t.walk last)) (hturn : t.turn bits last = none)
      (hall : ∀ a ∈ t, last < bits a) : StopMark last t t.lowerLast
  | prev (h : last < bits (t.walk last)) (hturn : t.turn bits last = some true) (s : α)
      (hs : s ∈ t) (hgreatest : IsGreatest {x | ∃ a ∈ t, bits a = x ∧ x ≤ last} (bits s)) :
      StopMark last t s
  | back (h : last < bits (t.walk last)) (hturn : t.turn bits last = some false) :
      StopMark last t (t.near bits last).last

/-- The scan starts at the least member of the range. -/
def StartsRight (first : BitString) (t : Trie α) : Prop :=
  (first ≤ bits (t.walk first) ∧ t.walk first = (t.near bits first).first) ∨
    (bits (t.walk first) < first ∧ t.turn bits first = some false)

/-- The scan stops after the greatest member of the range. -/
def StopsRight (first last : BitString) (excl : α → Prop) (t : Trie α) : Prop :=
  (bits (t.walk last) ≤ last ∧ (t.walk last = (t.near bits last).last ∨
      (bits (t.walk last) < first ∧ ∀ a ∈ t, bits a ≤ last))) ∨
    (last < bits (t.walk last) ∧ (t.turn bits last = some true ∨
      ((t.near bits last).first = (t.near bits last).last ∧ excl (t.near bits last).last)))

/-- The scan visits nothing. -/
def SkipsAll (first last : BitString) (excl : α → Prop) (t : Trie α) : Prop :=
  (bits (t.walk first) < first ∧ ((∃ a, t = leaf a) ∨
      (t.turn bits first = some false ∧ last < bits (t.walk last) ∧
        t.turn bits last = some false ∧
          (t.near bits last).first = (t.near bits last).last ∧ excl (t.near bits last).last))) ∨
    (first ≤ bits (t.walk first) ∧ last < bits (t.walk last) ∧ excl (t.walk first) ∧
      ((t.turn bits last = none ∧ t.walk first = t.lowerLast) ∨
        (t.turn bits last = some false ∧ t.walk first = (t.near bits last).last)))

/-- When a scan from `first` to `last` is exact; `excl` tells whether a mark above the
range is left out. -/
def RangeExact (first last : BitString) (excl : α → Prop) (t : Trie α) : Prop :=
  ((∃ a ∈ t, first ≤ bits a ∧ bits a ≤ last) →
      StartsRight bits first t ∧ StopsRight bits first last excl t) ∧
    ((¬∃ a ∈ t, first ≤ bits a ∧ bits a ≤ last) → SkipsAll bits first last excl t)

variable {bits} {first last : BitString} {start : Option α} {stop : α} {excl : α → Prop}

theorem lowerLast_mem (t : Trie α) : t.lowerLast ∈ t := by
  cases t with
  | leaf a => simp [lowerLast]
  | node p l r => exact mem_node.mpr (Or.inl l.last_mem)

theorem StartMark.mem {s : α} (h : StartMark bits first t (some s)) : s ∈ t := by
  cases h with
  | found h => exact walk_mem first t
  | whole h hturn hall ht s hs => exact hs
  | next h hturn s hs hleast => exact hs
  | back h hturn s hs hlt => exact hs

theorem StopMark.mem (h : StopMark bits last t stop) : stop ∈ t := by
  cases h with
  | found h => exact walk_mem last t
  | whole h hturn hall => exact t.lowerLast_mem
  | prev h hturn s hs hgreatest => exact hs
  | back h hturn => exact mem_of_mem_near (t.near bits last).last_mem

/-- The members' bits. -/
def bitSet (bits : α → BitString) (t : Trie α) : Set BitString := {x | ∃ a ∈ t, bits a = x}

theorem finite_bitSet (t : Trie α) : (t.bitSet bits).Finite :=
  (List.finite_toSet t.leaves).image bits

theorem mem_bitSet {a : α} (ha : a ∈ t) : bits a ∈ t.bitSet bits := ⟨a, ha, rfl⟩

/-- A range that holds a member has a least and a greatest one. -/
theorem exists_bounds (hne : ∃ a ∈ t, first ≤ bits a ∧ bits a ≤ last) :
    (∃ m, IsLeast {x ∈ t.bitSet bits | first ≤ x ∧ x ≤ last} m) ∧
      ∃ n, IsGreatest {x ∈ t.bitSet bits | first ≤ x ∧ x ≤ last} n := by
  obtain ⟨a, ha, hrange⟩ := hne
  have hfin : {x ∈ t.bitSet bits | first ≤ x ∧ x ≤ last}.Finite :=
    t.finite_bitSet.subset fun x hx => hx.1
  have hmem : {x ∈ t.bitSet bits | first ≤ x ∧ x ≤ last}.Nonempty :=
    ⟨bits a, mem_bitSet ha, hrange⟩
  obtain ⟨m, hm, hmin⟩ := Set.exists_min_image _ id hfin hmem
  obtain ⟨n, hn, hmax⟩ := Set.exists_max_image _ id hfin hmem
  exact ⟨⟨m, hm, hmin⟩, ⟨n, hn, hmax⟩⟩

/-- With a member in the range, the scan starts at the least one exactly when
`StartsRight` says so. -/
theorem StartMark.eq_least_iff (h : Ordered bits t) (hstart : StartMark bits first t start)
    {m : BitString} (hm : IsLeast {x ∈ t.bitSet bits | first ≤ x ∧ x ≤ last} m) :
    start.map bits = some m ↔ StartsRight bits first t := by
  obtain ⟨⟨⟨c, hc, hcm⟩, hfm, hml⟩, hleast⟩ := hm
  -- the least member from `first` on is the least of the range
  have hbound : ∀ {y : BitString}, IsLeast {x | ∃ a ∈ t, bits a = x ∧ first ≤ x} y → y = m := by
    rintro y ⟨⟨a, ha, hay, hfy⟩, hy⟩
    have hym : y ≤ m := hy ⟨c, hc, hcm, hfm⟩
    exact le_antisymm hym (hleast ⟨⟨a, ha, hay⟩, hfy, hym.trans hml⟩)
  cases hstart with
  | found hf =>
    have hnear := hbound (h.isLeast_near hf)
    simp only [Option.map_some, Option.some.injEq, StartsRight, hf, hf.not_gt, true_and,
      false_and, or_false]
    rw [← hnear]
    exact ⟨fun he => h.eq_of_bits (walk_mem first t) (mem_of_mem_near (first_mem _)) he,
      fun he => congrArg bits he⟩
  | nothing hf hturn a ht =>
    subst ht
    rw [mem_leaf.mp hc] at hcm
    exact absurd (hcm ▸ hfm) hf.not_ge
  | whole hf hturn hall ht s hs => exact absurd (hcm ▸ hfm) (hall c hc).not_ge
  | next hf hturn s hs hl => exact iff_of_true (by simp [hbound hl]) (Or.inr ⟨hf, hturn⟩)
  | back hf hturn s hs hlt =>
    refine iff_of_false (fun he => ?_) ?_
    · exact hlt.not_ge (hfm.trans (Option.some.inj he).ge)
    · simp [StartsRight, hf.not_ge, hturn]

/-- With a member in the range, the scan stops right exactly when `StopsRight` says so. -/
theorem StopMark.stops_iff (h : Ordered bits t) (hstop : StopMark bits last t stop)
    (hexcl : ∀ a ∈ t, excl a → last < bits a) {m n : BitString}
    (hm : IsLeast {x ∈ t.bitSet bits | first ≤ x ∧ x ≤ last} m)
    (hn : IsGreatest {x ∈ t.bitSet bits | first ≤ x ∧ x ≤ last} n) :
    (bits stop = n ∨ (bits stop < m ∧ ∀ x ∈ t.bitSet bits, x ≤ last) ∨
      (excl stop ∧ ∀ x ∈ t.bitSet bits, last < x → bits stop ≤ x)) ↔
        StopsRight bits first last excl t := by
  obtain ⟨⟨hms, hfm, hml⟩, hleast⟩ := hm
  obtain ⟨⟨⟨c, hc, hcn⟩, hfn, hnl⟩, hgreatest⟩ := hn
  have hbound : ∀ {y : BitString}, IsGreatest {x | ∃ a ∈ t, bits a = x ∧ x ≤ last} y → y = n := by
    rintro y ⟨⟨a, ha, hay, hyl⟩, hy⟩
    have hny : n ≤ y := hy ⟨c, hc, hcn, hnl⟩
    exact le_antisymm (hgreatest ⟨⟨a, ha, hay⟩, hfn.trans hny, hyl⟩) hny
  have hall : (∀ x ∈ t.bitSet bits, x ≤ last) ↔ ∀ a ∈ t, bits a ≤ last := by
    simp [bitSet]
  cases hstop with
  | found hl =>
    have hnear := hbound (h.isGreatest_near hl)
    have hnex : ¬excl (t.walk last) := fun hex => hl.not_gt (hexcl _ (walk_mem last t) hex)
    have hlow : bits (t.walk last) < m ↔ bits (t.walk last) < first := by
      refine ⟨fun hlt => ?_, fun hlt => hlt.trans_le hfm⟩
      by_contra hge
      exact hlt.not_ge (hleast ⟨mem_bitSet (walk_mem last t), not_lt.mp hge, hl⟩)
    have heq : bits (t.walk last) = n ↔ t.walk last = (t.near bits last).last := by
      rw [← hnear]
      exact ⟨fun he => h.eq_of_bits (walk_mem last t) (mem_of_mem_near (last_mem _)) he,
        fun he => congrArg bits he⟩
    simp only [StopsRight, hl, hl.not_gt, hnex, hlow, heq, hall, true_and, false_and, or_false]
  | whole hl hturn hab => exact absurd (hcn ▸ hnl) (hab c hc).not_ge
  | prev hl hturn s hs hg =>
    exact iff_of_true (Or.inl (hbound hg)) (Or.inr ⟨hl, Or.inl hturn⟩)
  | back hl hturn =>
    have hmem := mem_of_mem_near (t.near bits last).last_mem
    have hfirst := h.isLeast_near hl.le
    have hlf : last < bits (t.near bits last).first := by
      refine lt_of_le_of_ne ?_ ?_
      · obtain ⟨a, ha, hax, hle⟩ := hfirst.1
        exact hle
      · intro he
        have hw := h.walk_eq (mem_of_mem_near (t.near bits last).first_mem) he.symm
        rw [hw, ← he] at hl
        exact lt_irrefl _ hl
    have hlast : last < bits (t.near bits last).last :=
      hlf.trans_le (h.near.first_le _ (last_mem _))
    have hne : bits (t.near bits last).last ≠ n := fun he => (he ▸ hlast).not_ge hnl
    have hnm : ¬bits (t.near bits last).last < m := (hml.trans hlast.le).not_gt
    have honly : (∀ x ∈ t.bitSet bits, last < x → bits (t.near bits last).last ≤ x) ↔
        (t.near bits last).first = (t.near bits last).last := by
      constructor
      · intro hx
        refine h.near.eq_of_bits (first_mem _) (last_mem _) (le_antisymm ?_ ?_)
        · exact h.near.first_le _ (last_mem _)
        · exact hx _ (mem_bitSet (mem_of_mem_near (first_mem _))) hlf
      · rintro he x ⟨a, ha, rfl⟩ hx
        rw [← he]
        exact hfirst.2 ⟨a, ha, rfl, hx.le⟩
    simp only [StopsRight, hl, hl.not_ge, hturn, hne, hnm, honly, true_and, false_and, false_or,
      Option.some.injEq, Bool.false_eq_true]
    exact and_comm

/-- Without a member in the range, the scan visits nothing exactly when `SkipsAll`
says so. -/
theorem StartMark.skips_iff (h : Ordered bits t) (hfl : first ≤ last)
    (hstart : StartMark bits first t start) (hstop : StopMark bits last t stop)
    (hexcl : ∀ a ∈ t, excl a → last < bits a)
    (hempty : ¬∃ a ∈ t, first ≤ bits a ∧ bits a ≤ last) :
    (∀ s, start = some s → bits s = bits stop ∧ excl stop) ↔
      SkipsAll bits first last excl t := by
  have hleaf : ∀ {b : Bool}, t.turn bits first = some b → ¬∃ a, t = leaf a := by
    rintro b hb ⟨a, rfl⟩
    simp [turn] at hb
  have hsome : ∀ {s : α} {p : α → Prop}, (∀ s', some s = some s' → p s') ↔ p s := by simp
  cases hstart with
  | nothing hf hturn a ht =>
    exact iff_of_true (by simp) (Or.inl ⟨hf, Or.inl ⟨a, ht⟩⟩)
  | found hf =>
    rw [hsome, SkipsAll]
    simp only [hf, hf.not_gt, false_and, false_or, true_and]
    have heq : ∀ {s : α}, s ∈ t → ((bits (t.walk first) = bits s ∧ excl s) ↔
        (excl (t.walk first) ∧ t.walk first = s)) := by
      intro s hs
      constructor
      · rintro ⟨he, hex⟩
        have he := h.eq_of_bits (walk_mem first t) hs he
        exact ⟨he ▸ hex, he⟩
      · rintro ⟨hex, he⟩
        exact ⟨congrArg bits he, he ▸ hex⟩
    cases hstop with
    | found hl =>
      refine iff_of_false (fun hx => ?_) fun hx => hl.not_gt hx.1
      exact hl.not_gt (hexcl _ (walk_mem last t) hx.2)
    | whole hl hturn hall =>
      rw [heq t.lowerLast_mem]
      simp [hl, hturn]
    | prev hl hturn s hs hg =>
      obtain ⟨a, -, -, hle⟩ := hg.1
      exact iff_of_false (fun hx => hle.not_gt (hexcl _ hs hx.2)) (by simp [hturn])
    | back hl hturn =>
      rw [heq (mem_of_mem_near (last_mem _))]
      simp [hl, hturn]
  | whole hf hturn hall ht s hs =>
    rw [hsome, SkipsAll]
    refine iff_of_false (fun hx => ?_) ?_
    · exact ((hall _ hstop.mem).trans_le hfl).not_gt (hexcl _ hstop.mem hx.2)
    · simp [hf.not_ge, hturn, ht]
  | next hf hturn s hs hleast =>
    rw [hsome, SkipsAll]
    simp only [hf, hf.not_ge, hleaf hturn, hturn, true_and, false_and, false_or, or_false]
    cases hstop with
    | found hl =>
      refine iff_of_false (fun hx => ?_) fun hx => hl.not_gt hx.1
      exact hl.not_gt (hexcl _ (walk_mem last t) hx.2)
    | whole hl hturn' hall =>
      exact absurd (hall _ (walk_mem first t)) (hf.trans_le hfl).not_gt
    | prev hl hturn' s' hs' hg =>
      obtain ⟨a, -, -, hle⟩ := hg.1
      exact iff_of_false (fun hx => hle.not_gt (hexcl _ hs' hx.2)) (by simp [hturn'])
    | back hl hturn' =>
      -- nothing is in the range, so the next member is the least one above it
      have hnear := h.isLeast_near hl.le
      have hsf : bits s = bits (t.near bits last).first := by
        obtain ⟨a, ha, hax, hla⟩ := hnear.1
        obtain ⟨b, hb, hbx, hfb⟩ := hleast.1
        refine le_antisymm (hleast.2 ⟨a, ha, hax, hfl.trans hla⟩) (hnear.2 ⟨b, hb, hbx, ?_⟩)
        by_contra hlb
        exact hempty ⟨b, hb, hbx ▸ hfb, hbx ▸ (not_le.mp hlb).le⟩
      have heq : bits s = bits (t.near bits last).last ↔
          (t.near bits last).first = (t.near bits last).last := by
        rw [hsf]
        exact ⟨h.near.eq_of_bits (first_mem _) (last_mem _), fun he => congrArg bits he⟩
      simp only [hl, hturn', heq, true_and]
  | back hf hturn s hs hlt =>
    rw [hsome, SkipsAll]
    refine iff_of_false (fun hx => ?_) ?_
    · have := hexcl _ hstop.mem hx.2
      rw [← hx.1] at this
      exact (hlt.trans_le hfl).not_gt this
    · simp [hf.not_ge, hturn, hleaf hturn]

/-- A scan is exact when `RangeExact` says so. -/
theorem StartMark.exact_iff (h : Ordered bits t) (hfl : first ≤ last)
    (hstart : StartMark bits first t start) (hstop : StopMark bits last t stop)
    (hexcl : ∀ a ∈ t, excl a → last < bits a) :
    (∀ a ∈ t, (∃ s, start = some s ∧
        Scan.Between (bits s) (bits stop) (excl stop) (bits a)) ↔
      first ≤ bits a ∧ bits a ≤ last) ↔ RangeExact bits first last excl t := by
  have hbits : ∀ p q : BitString → Prop,
      (∀ a ∈ t, p (bits a) ↔ q (bits a)) ↔ ∀ x ∈ t.bitSet bits, p x ↔ q x := by
    simp [bitSet]
  have hstopmem : bits stop ∈ t.bitSet bits := mem_bitSet hstop.mem
  by_cases hE : ∃ a ∈ t, first ≤ bits a ∧ bits a ≤ last
  · obtain ⟨⟨m, hm⟩, ⟨n, hn⟩⟩ := exists_bounds hE
    have hright : RangeExact bits first last excl t ↔
        StartsRight bits first t ∧ StopsRight bits first last excl t := by
      simp [RangeExact, hE]
    rw [hright, ← hstart.eq_least_iff h hm, ← hstop.stops_iff h hexcl hm hn]
    cases start with
    | none =>
      obtain ⟨a, ha, hr⟩ := hE
      refine iff_of_false (fun hx => ?_) (by simp)
      obtain ⟨s, hs, -⟩ := (hx a ha).mpr hr
      exact absurd hs (by simp)
    | some s =>
      simp only [Option.some.injEq, exists_eq_left', Option.map_some]
      rw [hbits (fun x => Scan.Between (bits s) (bits stop) (excl stop) x)
        (fun x => first ≤ x ∧ x ≤ last)]
      exact Scan.between_iff hm hn (mem_bitSet hstart.mem) hstopmem (hexcl _ hstop.mem)
  · have hskip : RangeExact bits first last excl t ↔ SkipsAll bits first last excl t := by
      simp [RangeExact, hE]
    rw [hskip, ← hstart.skips_iff h hfl hstop hexcl hE]
    have hnone : ∀ x ∈ t.bitSet bits, ¬(first ≤ x ∧ x ≤ last) := by
      rintro x ⟨a, ha, rfl⟩ hr
      exact hE ⟨a, ha, hr⟩
    cases start with
    | none =>
      refine iff_of_true (fun a ha => ?_) (by simp)
      exact iff_of_false (by simp) (hnone _ (mem_bitSet ha))
    | some s =>
      simp only [Option.some.injEq, exists_eq_left', forall_eq']
      rw [hbits (fun x => Scan.Between (bits s) (bits stop) (excl stop) x)
        (fun x => first ≤ x ∧ x ≤ last)]
      exact Scan.between_iff_of_empty (mem_bitSet hstart.mem) hnone

end range

end Trie

end Turbolib
