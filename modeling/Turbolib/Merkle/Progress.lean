import Turbolib.Merkle.Verdict

/-!
# Progress of a traversal

Every location, also one that no tree has made, gets exactly one of four answers from a
tree that is not empty. An answer that sends the asker on to the children names locations
with more bits than it was asked about, so that peers cannot be sent round in circles.
-/

namespace Turbolib

open BitString

/-- The walk stops at a branch only when the bits asked for are all in front of it. -/
theorem Node.le_critPos_of_descend {E H : Type} {m : Node E H} {k : BitString} {i : ℕ}
    {q : Branch H} {c0 c1 : Node E H} (hd : m.descend k i = branch q c0 c1) :
    i ≤ critPos q.byte q.otherbits := by
  induction m with
  | leaf x => simp [descend] at hd
  | branch b d0 d1 ih0 ih1 =>
    simp only [descend] at hd
    split_ifs at hd with hi hk
    · cases hd
      exact hi
    · exact ih1 hd
    · exact ih0 hd

section

variable {n : ℕ} {H V : Type} [HashType H] [DecidableEq H]

/-- An answer about the location `p` after the walk has ended at the node `m`. -/
structure AnswerAt (p : Location n H) (m : Node (Record n H V) H) (r : DiffResult n H) : Prop where
  one : [r.noDifference, r.traverse, r.needPartialRange, r.needExchange].count true = 1
  not_range : r.needRange = false
  traverse : r.traverse = true → ∃ b c0 c1 p0 p1 p2, m = .branch b c0 c1 ∧
    critPos b.byte b.otherbits = p.keybits.toNat ∧ r.points = [p0, p1, p2] ∧
    p.keybits < p0.keybits ∧ p.keybits < p1.keybits ∧ p0.hash ^^^ p1.hash = p2.hash
  partial_range : r.needPartialRange = true → ∀ b c0 c1, m = .branch b c0 c1 →
    ∃ q, r.points = [q] ∧ p.keybits < q.keybits

variable {p q : Location n H} {m : Node (Record n H V) H} {r : DiffResult n H}

theorem answerAt_none : AnswerAt p m ⟨[], false⟩ where
  one := rfl
  not_range := rfl
  traverse h := absurd h Bool.false_ne_true
  partial_range h := absurd h Bool.false_ne_true

/-- One point that is not the null one asks for a partial range or for an exchange. -/
theorem answerAt_single (hq : q ≠ .null) (missing : Bool)
    (hbits : ∀ b c0 c1, m = .branch b c0 c1 → p.keybits < q.keybits) :
    AnswerAt p m ⟨[q], missing⟩ where
  one := by
    cases missing <;> simp [DiffResult.noDifference, DiffResult.traverse,
      DiffResult.needPartialRange, DiffResult.needExchange, DiffResult.leaf, hq]
  not_range := by simp [DiffResult.needRange, hq]
  traverse h := absurd h Bool.false_ne_true
  partial_range _ b c0 c1 hm := ⟨q, rfl, hbits b c0 c1 hm⟩

/-- Two children with more bits than the location, and their hashes. -/
theorem answerAt_children {b : Branch H} {c0 c1 : Node (Record n H V) H} {p0 p1 p2 : Location n H}
    (hbits : critPos b.byte b.otherbits = p.keybits.toNat) (h0 : p.keybits < p0.keybits)
    (h1 : p.keybits < p1.keybits) (hxor : p0.hash ^^^ p1.hash = p2.hash) :
    AnswerAt p (.branch b c0 c1) ⟨[p0, p1, p2], false⟩ where
  one := rfl
  not_range := rfl
  traverse _ := ⟨b, c0, c1, p0, p1, p2, rfl, hbits, rfl, h0, h1, hxor⟩
  partial_range h := absurd h Bool.false_ne_true

omit [DecidableEq H] in
/-- A location made of a node is not the null one: no key has as many bits. -/
theorem ne_null_of_keybits (hn : n < 8192) (hq : q.keybits.toNat ≤ 8 * n) : q ≠ .null := by
  intro h
  have hbits : q.keybits.toNat = 65535 := by rw [h]; rfl
  omega

theorem answerAt_of_case (hn : n < 8192) (hw : m.WellFormed) (hh : m.Hashed)
    (hstop : ∀ b c0 c1, m = .branch b c0 c1 → p.keybits.toNat ≤ critPos b.byte b.otherbits)
    (hcase : Node.DiffCase p m r) : AnswerAt p m r := by
  have hsize : ∀ key, (m.getPoint key).keybits.toNat ≤ 8 * n := fun key => by
    rw [hw.getPoint_keybits hn]
    exact hw.sharedBits_le
  cases hcase with
  | same hhash => exact answerAt_none
  | leaf x hm hhash =>
    subst hm
    exact answerAt_single (ne_null_of_keybits hn (hsize x.val.first)) _ fun _ _ _ hm => by cases hm
  | missing b c0 c1 hm hhash hlt =>
    subst hm
    exact answerAt_single (ne_null_of_keybits hn (hsize _)) true fun _ _ _ _ => hlt
  | children b c0 c1 hm hhash hle =>
    subst hm
    have hbits : b.keybits.toNat = critPos b.byte b.otherbits :=
      hw.getPoint_keybits hn (.zero n)
    have heq : critPos b.byte b.otherbits = p.keybits.toNat :=
      le_antisymm (hbits ▸ UInt16.le_iff_toNat_le.mp hle) (hstop b c0 c1 rfl)
    have hchild : ∀ c key, c = c0 ∨ c = c1 → c.WellFormed →
        p.keybits < (c.getPoint key).keybits := by
      intro c key hc hcw
      rw [UInt16.lt_iff_toNat_lt, hcw.getPoint_keybits hn, ← heq]
      exact hw.lt_sharedBits_child hc
    refine answerAt_children heq (hchild _ _ (Or.inl rfl) hw.child0)
      (hchild _ _ (Or.inr rfl) hw.child1) ?_
    have hsum : (Node.branch b c0 c1).getHash = c0.getHash ^^^ c1.getHash := by
      rw [hh.getHash_eq, Node.hashBelow_branch, Node.Hashed.getHash_eq hh.2.1,
        Node.Hashed.getHash_eq hh.2.2]
    rw [Node.getPoint_hash, Node.getPoint_hash, ← hsum]
    rfl

end

namespace MerkleTree

variable {n : ℕ} {H V : Type} [HashType H] [Inhabited V] [DecidableEq H]

theorem diff_answerAt (hn : n < 8192) {t : MerkleTree n H V} (h : t.Reachable)
    (hne : t.isEmpty = false) (p : Location n H) :
    ∃ m, t.nearestSubtree p.key p.keybits = some m ∧ m.WellFormed ∧ AnswerAt p m (t.diff p) := by
  obtain ⟨root, hr⟩ : ∃ root, t.root = some root := by
    simpa [CritbitTree.isEmpty, Option.isSome_iff_exists] using hne
  have hw := (h.valid.wellFormed root hr).descend (bitsOf p.key.bytes) p.keybits.toNat
  have hh := (hashed_of_reachable h root hr).descend (bitsOf p.key.bytes) p.keybits.toNat
  refine ⟨_, by rw [nearestSubtree_eq h.valid, hr, Option.map_some], hw, ?_⟩
  rw [diff_eq h.valid hr]
  exact answerAt_of_case hn hw hh (fun b c0 c1 hm => Node.le_critPos_of_descend hm)
    (Node.diff_cases p _)

/-- A chain of `traverse()` answers: any trees, one after the other, each asked about one of
the first two points of the answer before, with whatever hash. -/
inductive TraverseChain : Location n H → ℕ → Prop where
  | done (p : Location n H) : TraverseChain p 0
  | next {t : MerkleTree n H V} {p q : Location n H} {i k : ℕ} (h : H) (ht : t.Reachable)
      (hne : t.isEmpty = false) (htr : (t.diff p).traverse = true) (hi : i < 2)
      (hq : (t.diff p).points[i]? = some q) (hk : TraverseChain (q.copy h) k) :
      TraverseChain p (k + 1)

/-- Each answer uses up at least one of the bits of the keys. -/
theorem TraverseChain.bound (hn : n < 8192) {p : Location n H} {k : ℕ}
    (h : TraverseChain (V := V) p k) : k = 0 ∨ p.keybits.toNat + k ≤ 8 * n := by
  induction h with
  | done p => exact Or.inl rfl
  | @next t p q i k h ht hne htr hi hq _ ih =>
    obtain ⟨m, -, hw, hans⟩ := diff_answerAt hn ht hne p
    obtain ⟨b, c0, c1, p0, p1, p2, rfl, hbits, hpts, h0, h1, -⟩ := hans.traverse htr
    have hlt := hw.critPos_lt
    have hnext : p.keybits.toNat < q.keybits.toNat := by
      rw [hpts] at hq
      obtain rfl | rfl := Nat.le_one_iff_eq_zero_or_eq_one.mp (Nat.le_of_lt_succ hi)
      · cases hq
        exact UInt16.lt_iff_toNat_lt.mp h0
      · cases hq
        exact UInt16.lt_iff_toNat_lt.mp h1
    have hcopy : (q.copy h).keybits = q.keybits := rfl
    rw [hcopy] at ih
    omega

/-- `diff` gives one of four answers about any location, and a chain of answers that send
the asker on to the children is no longer than a key has bits. -/
theorem diff_progress (hn : n < 8192) :
    (∀ t : MerkleTree n H V, t.Reachable → t.isEmpty = false → ∀ p, ∃ m,
      t.nearestSubtree p.key p.keybits = some m ∧ AnswerAt p m (t.diff p)) ∧
    ∀ (p : Location n H) (k : ℕ), TraverseChain (V := V) p k → k ≤ 8 * n := by
  refine ⟨fun t h hne p => ?_, fun p k hk => ?_⟩
  · obtain ⟨m, hfound, -, hans⟩ := diff_answerAt hn h hne p
    exact ⟨m, hfound, hans⟩
  · have hbound := hk.bound hn
    omega

theorem diff_progress_byte :
    (∀ t : MerkleTree 1 (BitVec 8) Unit, t.Reachable → t.isEmpty = false → ∀ p, ∃ m,
      t.nearestSubtree p.key p.keybits = some m ∧ AnswerAt p m (t.diff p)) ∧
    ∀ (p : Location 1 (BitVec 8)) (k : ℕ), TraverseChain (V := Unit) p k → k ≤ 8 * 1 :=
  diff_progress (by decide)

end MerkleTree

end Turbolib
