import Turbolib.Merkle.Tree

/-!
# Branch hashes

Every branch of a Merkle tree keeps the XOR of the leaf hashes below it. An
update leaves a chain of branches with stale hashes, from the deepest one up to
the root, and `onchange` walks up that chain. `HashesExcept s` is the invariant
with the branches named in `s` left out, and `Pending` says that a change list is
such a chain.
-/

namespace Turbolib

/-- The XOR of a list of hashes. -/
def xorAll {H : Type} [HashType H] (hashes : List H) : H := hashes.foldr (· ^^^ ·) 0

section

variable {H : Type} [HashType H]

@[simp] theorem xorAll_nil : xorAll ([] : List H) = 0 := rfl

@[simp] theorem xorAll_cons (a : H) (l : List H) : xorAll (a :: l) = a ^^^ xorAll l := rfl

theorem HashType.zero_xor (a : H) : 0 ^^^ a = a := by
  rw [HashType.xor_comm, HashType.xor_zero]

theorem xorAll_append (l l' : List H) : xorAll (l ++ l') = xorAll l ^^^ xorAll l' := by
  induction l with
  | nil => rw [List.nil_append, xorAll_nil, HashType.zero_xor]
  | cons a l ih => rw [List.cons_append, xorAll_cons, xorAll_cons, ih, HashType.xor_assoc]

end

namespace Node

/-! ## Where a branch lies -/

section Below

variable {E H : Type}

/-- Branch `a` lies strictly below branch `b`. -/
def Below (a b : Addr) : Node E H → Prop
  | leaf _ => False
  | branch q c0 c1 =>
    (q.addr = b ∧ (a ∈ c0.branchAddrs ∨ a ∈ c1.branchAddrs)) ∨ c0.Below a b ∨ c1.Below a b

theorem Below.mem {n : Node E H} {a b : Addr} (h : n.Below a b) :
    a ∈ n.branchAddrs ∧ b ∈ n.branchAddrs := by
  induction n with
  | leaf x => exact h.elim
  | branch q c0 c1 ih0 ih1 =>
    simp only [branchAddrs, List.mem_cons, List.mem_append]
    rcases h with ⟨rfl, h⟩ | h | h
    · exact ⟨Or.inr h, Or.inl rfl⟩
    · exact ⟨Or.inr (Or.inl (ih0 h).1), Or.inr (Or.inl (ih0 h).2)⟩
    · exact ⟨Or.inr (Or.inr (ih1 h).1), Or.inr (Or.inr (ih1 h).2)⟩

@[simp] theorem below_skeleton {n : Node E H} {a b : Addr} :
    n.skeleton.Below a b ↔ n.Below a b := by
  induction n with
  | leaf x => rfl
  | branch q c0 c1 ih0 ih1 => simp [skeleton, Below, ih0, ih1]

/-- The branches waiting for `onchange` are branches of the tree, deepest first. -/
structure Pending (changes : List Addr) (n : Node E H) : Prop where
  stored : ∀ a ∈ changes, a ∈ n.branchAddrs
  deepestFirst : changes.Pairwise fun a b => n.Below a b

theorem Pending.of_skeleton {H' : Type} {n : Node E H} {n' : Node E H'} {changes : List Addr}
    (h : n.Pending changes) (hs : n'.skeleton = n.skeleton) : n'.Pending changes where
  stored a ha := by
    rw [← branchAddrs_skeleton, hs, branchAddrs_skeleton]
    exact h.stored a ha
  deepestFirst := h.deepestFirst.imp fun hb => by rwa [← below_skeleton, hs, below_skeleton]

theorem Pending.tail {n : Node E H} {a : Addr} {changes : List Addr}
    (h : n.Pending (a :: changes)) : n.Pending changes where
  stored b hb := h.stored b (List.mem_cons_of_mem a hb)
  deepestFirst := h.deepestFirst.tail

theorem pending_nil (n : Node E H) : n.Pending [] := ⟨by simp, List.Pairwise.nil⟩

/-- The chain goes on to the branch above. -/
theorem Pending.snoc_left {c0 c1 : Node E H} {changes : List Addr} (h : c0.Pending changes)
    (q : Branch H) : (branch q c0 c1).Pending (changes ++ [q.addr]) where
  stored a ha := by
    simp only [branchAddrs, List.mem_cons, List.mem_append]
    rcases List.mem_append.mp ha with ha | ha
    · exact Or.inr (Or.inl (h.stored a ha))
    · exact Or.inl (List.mem_singleton.mp ha)
  deepestFirst := by
    refine List.pairwise_append.mpr ⟨h.deepestFirst.imp fun hb => Or.inr (Or.inl hb),
      List.pairwise_singleton _ _, ?_⟩
    intro a ha b hb
    rw [List.mem_singleton.mp hb]
    exact Or.inl ⟨rfl, Or.inl (h.stored a ha)⟩

theorem Pending.snoc_right {c0 c1 : Node E H} {changes : List Addr} (h : c1.Pending changes)
    (q : Branch H) : (branch q c0 c1).Pending (changes ++ [q.addr]) where
  stored a ha := by
    simp only [branchAddrs, List.mem_cons, List.mem_append]
    rcases List.mem_append.mp ha with ha | ha
    · exact Or.inr (Or.inr (h.stored a ha))
    · exact Or.inl (List.mem_singleton.mp ha)
  deepestFirst := by
    refine List.pairwise_append.mpr ⟨h.deepestFirst.imp fun hb => Or.inr (Or.inr hb),
      List.pairwise_singleton _ _, ?_⟩
    intro a ha b hb
    rw [List.mem_singleton.mp hb]
    exact Or.inl ⟨rfl, Or.inr (h.stored a ha)⟩

end Below

/-! ## The hashes -/

section Hashes

variable {n : ℕ} {H V : Type} [HashType H]

/-- The XOR of the leaf hashes below a node. -/
def hashBelow (m : Node (Record n H V) H) : H := xorAll (m.leaves.map leafHash)

/-- Every branch not named in `s` keeps the XOR of the leaf hashes below it. -/
def HashesExcept (s : List Addr) : Node (Record n H V) H → Prop
  | leaf _ => True
  | branch q c0 c1 =>
    (q.addr ∉ s → q.hash = (branch q c0 c1).hashBelow) ∧ c0.HashesExcept s ∧ c1.HashesExcept s

/-- Every branch keeps the XOR of the leaf hashes below it. -/
def Hashed (m : Node (Record n H V) H) : Prop := m.HashesExcept []

variable {m m' c0 c1 : Node (Record n H V) H} {s s' : List Addr}

@[simp] theorem hashBelow_leaf (x : ValPtr (Record n H V)) :
    (leaf x : Node (Record n H V) H).hashBelow = leafHash x := by
  simp [hashBelow, HashType.xor_zero]

theorem hashBelow_branch (q : Branch H) :
    (branch q c0 c1).hashBelow = c0.hashBelow ^^^ c1.hashBelow := by
  rw [hashBelow, leaves_branch, List.map_append, xorAll_append]
  rfl

theorem hashBelow_of_skeleton (h : m'.skeleton = m.skeleton) : m'.hashBelow = m.hashBelow := by
  rw [hashBelow, hashBelow, leaves, leaves, ← toTrie_skeleton, h, toTrie_skeleton]

theorem HashesExcept.mono (h : m.HashesExcept s)
    (hs : ∀ a ∈ m.branchAddrs, a ∈ s → a ∈ s') : m.HashesExcept s' := by
  induction m with
  | leaf x => trivial
  | branch q c0 c1 ih0 ih1 =>
    refine ⟨fun ha => h.1 fun ha' => ha (hs q.addr (by simp [branchAddrs]) ha'), ih0 h.2.1 ?_,
      ih1 h.2.2 ?_⟩
    · exact fun a ha => hs a (by simp [branchAddrs, ha])
    · exact fun a ha => hs a (by simp [branchAddrs, ha])

theorem Hashed.except (h : m.Hashed) (s : List Addr) : m.HashesExcept s :=
  HashesExcept.mono h (by simp)

/-- The hash read from a node is the one it should have. -/
theorem HashesExcept.getHash_eq (h : m.HashesExcept s)
    (hs : ∀ q c0 c1, m = branch q c0 c1 → q.addr ∉ s) : m.getHash = m.hashBelow := by
  cases m with
  | leaf x => simp [getHash]
  | branch q c0 c1 => exact h.1 (hs q c0 c1 rfl)

theorem Hashed.getHash_eq (h : m.Hashed) : m.getHash = m.hashBelow :=
  HashesExcept.getHash_eq h (by simp)

/-- One round of `onchange`: a branch without stale branches below it is put right. -/
theorem recompute_hashes {a : Addr} (hr : m.recompute a = some m')
    (hn : m.addrs.Nodup) (hh : m.HashesExcept (a :: s))
    (hb : ∀ b ∈ s, b ∈ m.branchAddrs → m.Below a b) : m'.HashesExcept s := by
  induction m generalizing m' with
  | leaf x => simp [recompute] at hr
  | branch q c0 c1 ih0 ih1 =>
    have hq : q.addr ∉ c0.branchAddrs ∧ q.addr ∉ c1.branchAddrs := by
      rw [addrs, List.nodup_cons, List.mem_append, not_or] at hn
      exact ⟨fun h => hn.1.1 (c0.branchAddrs_subset h), fun h => hn.1.2 (c1.branchAddrs_subset h)⟩
    have hdisj : ∀ b ∈ c0.branchAddrs, b ∉ c1.branchAddrs := by
      intro b h0 h1
      have hd := (List.nodup_append.mp hn.of_cons).2.2
      exact hd b (c0.branchAddrs_subset h0) b (c1.branchAddrs_subset h1) rfl
    have hn0 : c0.addrs.Nodup := (List.nodup_append.mp hn.of_cons).1
    have hn1 : c1.addrs.Nodup := (List.nodup_append.mp hn.of_cons).2.1
    simp only [recompute] at hr
    split_ifs at hr with ha
    · -- nothing is above the root, so no other branch is stale
      subst ha
      cases hr
      have hs : ∀ b ∈ (branch q c0 c1).branchAddrs, b ∉ s := by
        intro b hbm hbs
        rcases hb b hbs hbm with ⟨-, h | h⟩ | h | h
        · exact hq.1 h
        · exact hq.2 h
        · exact hq.1 h.mem.1
        · exact hq.2 h.mem.1
      have h0 : c0.HashesExcept s := hh.2.1.mono fun b hb0 hbs =>
        (List.mem_cons.mp hbs).resolve_left fun e => hq.1 (e ▸ hb0)
      have h1 : c1.HashesExcept s := hh.2.2.mono fun b hb1 hbs =>
        (List.mem_cons.mp hbs).resolve_left fun e => hq.2 (e ▸ hb1)
      refine ⟨fun _ => ?_, h0, h1⟩
      rw [hashBelow_branch, h0.getHash_eq, h1.getHash_eq]
      · rintro r d0 d1 rfl
        exact hs _ (by simp [branchAddrs])
      · rintro r d0 d1 rfl
        exact hs _ (by simp [branchAddrs])
    · have hroot : ∀ {c0' c1' : Node (Record n H V) H},
          (branch q c0' c1').skeleton = (branch q c0 c1).skeleton →
          q.addr ∉ s → q.hash = (branch q c0' c1').hashBelow := by
        intro c0' c1' hsk hqs
        rw [hashBelow_of_skeleton hsk]
        exact hh.1 (by simp [ha, hqs])
      split at hr
      next c0' h0 =>
        cases hr
        have hmem : a ∈ c0.branchAddrs := recompute_mem h0
        refine ⟨hroot (by simp [skeleton, recompute_skeleton h0]), ih0 h0 hn0 hh.2.1 ?_,
          hh.2.2.mono ?_⟩
        · intro b hbs hb0
          rcases hb b hbs (by simp [branchAddrs, hb0]) with ⟨rfl, -⟩ | h | h
          · exact absurd hb0 hq.1
          · exact h
          · exact absurd h.mem.1 (hdisj a hmem)
        · intro b hb1 hbs
          exact (List.mem_cons.mp hbs).resolve_left fun e => hdisj a hmem (e ▸ hb1)
      next h0 =>
        obtain ⟨c1', h1, rfl⟩ := Option.map_eq_some_iff.mp hr
        have hmem : a ∈ c1.branchAddrs := recompute_mem h1
        refine ⟨hroot (by simp [skeleton, recompute_skeleton h1]), hh.2.1.mono ?_,
          ih1 h1 hn1 hh.2.2 ?_⟩
        · intro b hb0 hbs
          exact (List.mem_cons.mp hbs).resolve_left fun e => hdisj b hb0 (e ▸ hmem)
        · intro b hbs hb1
          rcases hb b hbs (by simp [branchAddrs, hb1]) with ⟨rfl, -⟩ | h | h
          · exact absurd hb1 hq.2
          · exact absurd hmem (hdisj a h.mem.1)
          · exact h

/-- The whole of `onchange`, on a chain that covers the stale branches. -/
theorem recomputeAll_hashes (changes : List Addr) (hr : m.recomputeAll changes = some m')
    (hn : m.addrs.Nodup) (hp : m.Pending changes) (hh : m.HashesExcept changes) : m'.Hashed := by
  induction changes generalizing m with
  | nil =>
    cases hr
    exact hh
  | cons a changes ih =>
    obtain ⟨m₁, h₁⟩ := recompute_isSome (hp.stored a (by simp))
    have hs := recompute_skeleton h₁
    rw [recomputeAll, h₁] at hr
    refine ih hr ?_ (hp.tail.of_skeleton hs) ?_
    · rwa [← addrs_skeleton, hs, addrs_skeleton]
    · exact recompute_hashes h₁ hn hh fun b hb _ => List.rel_of_pairwise_cons hp.deepestFirst hb

/-! ## The change lists of insert and remove -/

/-- `insert` lists the branches it has passed and the new one below them. -/
theorem spliceAt_pending (key : List UInt8) {q : Branch H} {x : ValPtr (Record n H V)} {d : Bool}
    (hm : m.Masks) (hq : CritMask q.otherbits) (hh : m.Hashed)
    (changes : Changes (Record n H V) H) :
    ∃ path, CritbitExt.names (m.spliceAt key q.byte q.otherbits (newBranch q d x) changes).2 =
        path ++ CritbitExt.names changes ∧
      (m.spliceAt key q.byte q.otherbits (newBranch q d x) changes).1.Pending (q.addr :: path) ∧
      (m.spliceAt key q.byte q.otherbits (newBranch q d x) changes).1.HashesExcept
        (q.addr :: path) := by
  have hnew : ∀ m : Node (Record n H V) H, m.Hashed →
      (newBranch q d x m).Pending [q.addr] ∧ (newBranch q d x m).HashesExcept [q.addr] := by
    intro m hh
    refine ⟨⟨by simp [newBranch_branchAddrs], List.pairwise_singleton _ _⟩, ?_⟩
    unfold newBranch
    split
    · exact ⟨by simp, trivial, hh.except _⟩
    · exact ⟨by simp, hh.except _, trivial⟩
  induction m generalizing changes with
  | leaf y => exact ⟨[], rfl, hnew _ hh⟩
  | branch b c0 c1 ih0 ih1 =>
    rw [spliceAt_branch hm.1 hq]
    split_ifs
    · exact ⟨[], rfl, hnew _ hh⟩
    · obtain ⟨path, hpath, hp, hs⟩ := ih1 hm.2.2 hh.2.2 (pushChange b.addr changes)
      refine ⟨path ++ [b.addr], by rw [List.append_assoc]; exact hpath, hp.snoc_right b, ?_⟩
      refine ⟨by simp, Hashed.except hh.2.1 _, hs.mono fun a _ ha => ?_⟩
      simpa using ((List.mem_append_left [b.addr] ha))
    · obtain ⟨path, hpath, hp, hs⟩ := ih0 hm.2.1 hh.2.1 (pushChange b.addr changes)
      refine ⟨path ++ [b.addr], by rw [List.append_assoc]; exact hpath, hp.snoc_left b, ?_⟩
      refine ⟨by simp, hs.mono fun a _ ha => ?_, Hashed.except hh.2.2 _⟩
      simpa using ((List.mem_append_left [b.addr] ha))

/-- `remove` lists the branches above the one it takes out. -/
theorem findBestMatch_pending {key : List UInt8} (hm : m.Masks) (hh : m.Hashed)
    (changes : Changes (Record n H V) H) {r : Node (Record n H V) H}
    (hr : (m.findBestMatch key key.length changes).rest = some r) :
    ∃ path, CritbitExt.names (m.findBestMatch key key.length changes).changes =
        path ++ CritbitExt.names changes ∧ r.Pending path ∧ r.HashesExcept path := by
  induction m generalizing changes r with
  | leaf x => simp [findBestMatch] at hr
  | branch q c0 c1 ih0 ih1 =>
    rw [findBestMatch_branch hm.1] at hr ⊢
    dsimp only at hr ⊢
    cases hk : bitsOf key (critPos q.byte q.otherbits) <;> simp only [hk, if_true, if_false,
      Bool.false_eq_true] at hr ⊢
    · split_ifs at hr ⊢ with hb
      · obtain ⟨r', hr', rfl⟩ := Option.map_eq_some_iff.mp hr
        obtain ⟨path, hpath, hp, hs⟩ := ih0 hm.2.1 hh.2.1 _ hr'
        refine ⟨path ++ [q.addr], by rw [List.append_assoc]; exact hpath, hp.snoc_left q, by simp,
          hs.mono fun a _ ha => List.mem_append_left _ ha, Hashed.except hh.2.2 _⟩
      · cases hr
        exact ⟨[], rfl, pending_nil _, hh.2.2⟩
    · split_ifs at hr ⊢ with hb
      · obtain ⟨r', hr', rfl⟩ := Option.map_eq_some_iff.mp hr
        obtain ⟨path, hpath, hp, hs⟩ := ih1 hm.2.2 hh.2.2 _ hr'
        refine ⟨path ++ [q.addr], by rw [List.append_assoc]; exact hpath, hp.snoc_right q, by simp,
          Hashed.except hh.2.1 _, hs.mono fun a _ ha => List.mem_append_left _ ha⟩
      · cases hr
        exact ⟨[], rfl, pending_nil _, hh.2.1⟩

end Hashes

end Node

/-! ## Every reachable tree -/

namespace MerkleTree

open CritbitTree

variable {n : ℕ} {H V R : Type} [HashType H]

/-- All branches of the tree keep the right hash. -/
def Hashed (t : MerkleTree n H V) : Prop := ∀ root, t.root = some root → root.Hashed

/-- When an update calls `onchange`, the changes are branches that are still in
the tree, deepest first and none of them just freed, and every round of the loop
finds its branch. An update that returns without calling it leaves no changes. -/
def NamesLiveBranches : Update (Record n H V) H R → Prop
  | .returns t _ => CritbitExt.names t.ext = []
  | .changed root changes freed _ =>
    root.Pending (CritbitExt.names changes) ∧ (∀ a ∈ freed, a ∉ CritbitExt.names changes) ∧
      (root.recomputeAll (CritbitExt.names changes)).isSome

/-- An update with the branches right that the pending `onchange` will not visit. -/
def UpdateHashed : Update (Record n H V) H R → Prop
  | .returns t _ => t.Valid ∧ Hashed t
  | .changed root changes freed _ => root.WellFormed ∧ root.Pending (CritbitExt.names changes) ∧
      (∀ a ∈ freed, a ∉ CritbitExt.names changes) ∧ root.HashesExcept (CritbitExt.names changes)

theorem UpdateHashed.namesLiveBranches {u : Update (Record n H V) H R} (h : UpdateHashed u) :
    NamesLiveBranches u := by
  cases u with
  | returns t r => exact congrArg CritbitExt.names h.1.idle
  | changed root changes freed r =>
    obtain ⟨-, hp, hf, -⟩ := h
    obtain ⟨root', hr, -⟩ := Node.recomputeAll_isSome _ hp.stored
    exact ⟨hp, hf, by simp [hr]⟩

theorem UpdateHashed.finish {u : Update (Record n H V) H R} (h : UpdateHashed u)
    {t : MerkleTree n H V} {r : R} (hu : u.finish = some (t, r)) : Hashed t := by
  cases u with
  | returns t' r' =>
    cases hu
    exact h.2
  | changed root changes freed r' =>
    obtain ⟨hw, hp, -, hh⟩ := h
    obtain ⟨root', hr, -⟩ := Node.recomputeAll_isSome _ hp.stored
    have hon : CritbitExt.onchange root changes = some (root', noChanges) :=
      congrArg (Option.map fun root => (root, [])) hr
    simp only [Update.finish, hon, Option.map_some, Option.some.injEq, Prod.mk.injEq] at hu
    obtain ⟨rfl, -⟩ := hu
    intro root₁ h₁
    cases h₁
    exact Node.recomputeAll_hashes _ hr hw.nodup hp hh

variable {t : MerkleTree n H V}

theorem insertUpdate_hashed (h : t.Valid) (hh : Hashed t) (val : Record n H V) (isNew : Bool)
    (mem : Memory H) : UpdateHashed (t.insertUpdate val isNew mem) := by
  have hcase := h.insertUpdate_cases val isNew mem
  generalize t.insertUpdate val isNew mem = u at hcase ⊢
  cases hcase with
  | present x hx hk => exact ⟨h, hh⟩
  | outOfMemory isNew' habs hmem => exact ⟨h, hh⟩
  | first x hx hr hmem =>
    refine ⟨⟨h.idle, ?_⟩, ?_⟩
    · intro root hroot
      cases hroot
      exact Node.wellFormed_leaf _
    · intro root hroot
      cases hroot
      trivial
  | spliced root q x d hr hx hs habs hmem r heq =>
    subst heq
    have hw := h.wellFormed root hr
    obtain ⟨path, hpath, hp, hhash⟩ := Node.spliceAt_pending (keyBytes x.val) (x := x)
      (d := d) hw.masks hs.mask (hh root hr) t.ext
    rw [h.idle, CritbitExt.names_noChanges, List.append_nil] at hpath
    rw [← hpath, ← h.idle] at hp hhash
    exact ⟨hw.spliceAt hs.mask hs.direction hs.splits hs.branch_fresh hs.elem_fresh hs.addr_ne _,
      hp, by simp, hhash⟩

theorem removeUpdate_hashed (h : t.Valid) (hh : Hashed t) (val : Record n H V) :
    UpdateHashed (t.removeUpdate val) := by
  have hcase := h.removeUpdate_cases val
  generalize t.removeUpdate val = u at hcase ⊢
  cases hcase with
  | empty hr => exact ⟨h, hh⟩
  | absent habs => exact ⟨⟨rfl, h.wellFormed⟩, hh⟩
  | last x hr hk => exact ⟨⟨h.idle, by simp⟩, by simp [Hashed]⟩
  | collapsed root rest m hr heq hbest hk hrest =>
    subst heq
    have hw := h.wellFormed root hr
    obtain ⟨path, hpath, hp, hhash⟩ :=
      Node.findBestMatch_pending hw.masks (hh root hr) t.ext hrest
    obtain ⟨a, ha, hperm⟩ := Node.findBestMatch_addrs hw.masks _ hrest
    rw [congrArg CritbitExt.names h.idle, CritbitExt.names_noChanges, List.append_nil] at hpath
    rw [← hpath] at hp hhash
    refine ⟨hw.findBestMatch _ hrest, hp, fun b hb hbp => ?_, hhash⟩
    -- what is freed and what is left are disjoint parts of the old allocations
    have hnodup := hperm.nodup_iff.mp hw.nodup
    have hlive := rest.branchAddrs_subset (hp.stored b hbp)
    rw [ha, Option.toList_some, List.mem_cons, List.mem_singleton] at hb
    rw [List.nodup_cons, List.nodup_cons, List.mem_cons, not_or] at hnodup
    rcases hb with rfl | rfl
    · exact hnodup.1.2 hlive
    · exact hnodup.2.1 hlive

theorem hashed_of_reachable (h : t.Reachable) : Hashed t := by
  induction h with
  | empty => simp [Hashed, CritbitTree.empty]
  | insert h hi ih => exact (insertUpdate_hashed h.valid ih _ _ _).finish hi
  | remove h hr ih => exact (removeUpdate_hashed h.valid ih _).finish hr
  | clear _ ih => simp [Hashed, CritbitTree.clear]

/-- In every reachable tree all branch hashes are right and no changes are left
over, and whatever update comes next, its `onchange` sees live branches only,
deepest first. -/
theorem reachable_hashes (h : t.Reachable) :
    CritbitExt.names t.ext = [] ∧ Hashed t ∧
      (∀ val isNew mem, NamesLiveBranches (t.insertUpdate val isNew mem)) ∧
      ∀ val, NamesLiveBranches (t.removeUpdate val) := by
  have hh := hashed_of_reachable h
  exact ⟨congrArg CritbitExt.names h.valid.idle, hh,
    fun val isNew mem => (insertUpdate_hashed h.valid hh val isNew mem).namesLiveBranches,
    fun val => (removeUpdate_hashed h.valid hh val).namesLiveBranches⟩

/-- A tree of three one-byte keys. -/
theorem reachable_hashes_three :
    let t : MerkleTree 1 (BitVec 8) Unit :=
      CritbitTree.ofList 0 [⟨⟨[0x10], rfl⟩, (1, ())⟩, ⟨⟨[0x11], rfl⟩, (2, ())⟩,
        ⟨⟨[0x80], rfl⟩, (4, ())⟩]
    CritbitExt.names t.ext = [] ∧ Hashed t ∧
      (∀ val isNew mem, NamesLiveBranches (t.insertUpdate val isNew mem)) ∧
      ∀ val, NamesLiveBranches (t.removeUpdate val) :=
  reachable_hashes (reachable_ofList _ _)

end MerkleTree

end Turbolib
