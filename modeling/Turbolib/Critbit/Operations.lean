import Turbolib.Critbit.Invariant

/-!
# What the operations of the tree do

`Valid` is the state between two operations: nothing is waiting in the change
list and the nodes are well formed. `insert` and `remove` keep it, never follow
a dangling branch pointer, and change the members by at most the element named.
-/

namespace Turbolib

open BitString

namespace CritbitTree

variable {E H : Type} [CritbitExt E H]

instance : Membership (ValPtr E) (CritbitTree E H) :=
  ⟨fun t x => ∃ root, t.root = some root ∧ x ∈ root⟩

theorem mem_def {t : CritbitTree E H} {x : ValPtr E} :
    x ∈ t ↔ ∃ root, t.root = some root ∧ x ∈ root := Iff.rfl

theorem mem_some {root : Node E H} {c : Changes E H} {x : ValPtr E} :
    x ∈ (⟨some root, c⟩ : CritbitTree E H) ↔ x ∈ root := by
  simp [mem_def]

/-- The elements stored in the tree. -/
def members (t : CritbitTree E H) : Set (ValPtr E) := {x | x ∈ t}

@[simp] theorem mem_members {t : CritbitTree E H} {x : ValPtr E} : x ∈ t.members ↔ x ∈ t :=
  Iff.rfl

variable [CritbitElemOps E]

/-- The invariant between two operations. -/
structure Valid (t : CritbitTree E H) : Prop where
  idle : t.ext = noChanges
  wellFormed : ∀ root, t.root = some root → root.WellFormed

theorem valid_empty : (empty : CritbitTree E H).Valid := ⟨rfl, by simp [empty]⟩

theorem Valid.clear {t : CritbitTree E H} (h : t.Valid) : t.clear.Valid :=
  ⟨h.idle, by simp [CritbitTree.clear]⟩

/-- A key is stored at most once. -/
theorem Valid.eq_of_keyBytes {t : CritbitTree E H} (h : t.Valid) {x y : ValPtr E} (hx : x ∈ t)
    (hy : y ∈ t) (hk : keyBytes x.val = keyBytes y.val) : x = y := by
  obtain ⟨root, hr, hx⟩ := hx
  obtain ⟨root', hr', hy⟩ := hy
  cases hr.symm.trans hr'
  exact (h.wellFormed root hr).eq_of_keyBytes hx hy hk

/-! ## Lookups -/

theorem Valid.find_eq_some_iff {t : CritbitTree E H} (h : t.Valid) {val : E} {x : ValPtr E} :
    t.find val = some x ↔ x ∈ t ∧ keyBytes x.val = keyBytes val := by
  unfold find lowerBound
  cases hr : t.root with
  | none => simp [mem_def, hr]
  | some root =>
    have hw := h.wellFormed root hr
    simp only [Option.map_some, mem_def, hr, Option.some.injEq, exists_eq_left']
    constructor
    · intro hx
      split_ifs at hx with he
      cases hx
      exact ⟨hw.walk_mem _, ((CritbitElemOps.equals_iff _ _).mp he).symm⟩
    · rintro ⟨hx, hk⟩
      rw [hw.walk_eq hx hk, if_pos ((CritbitElemOps.equals_iff _ _).mpr hk.symm)]

theorem Valid.find_eq_none_iff {t : CritbitTree E H} (h : t.Valid) {val : E} :
    t.find val = none ↔ ∀ x ∈ t, keyBytes x.val ≠ keyBytes val := by
  rw [Option.eq_none_iff_forall_not_mem]
  simp only [Option.mem_def, h.find_eq_some_iff, not_and, ne_eq]

/-! ## Updates -/

/-- When it calls `onchange`, an update has rebuilt a well-formed tree and only
branches of that tree are waiting. -/
def UpdateSound {R : Type} (outcome : Set (ValPtr E) → R → Prop) : Update E H R → Prop
  | .returns t r => t.Valid ∧ outcome t.members r
  | .changed root changes _ r => root.WellFormed ∧
      (∀ a ∈ CritbitExt.names changes, a ∈ root.branchAddrs) ∧ outcome {x | x ∈ root} r

/-- Running `onchange` then succeeds and leaves the members alone. -/
theorem UpdateSound.finish {R : Type} {outcome : Set (ValPtr E) → R → Prop}
    {u : Update E H R} (h : UpdateSound outcome u) :
    ∃ t' r, u.finish = some (t', r) ∧ t'.Valid ∧ outcome t'.members r := by
  cases u with
  | returns t r => exact ⟨t, r, rfl, h.1, h.2⟩
  | changed root changes freed r =>
    obtain ⟨hw, hn, ho⟩ := h
    obtain ⟨root', he, hs⟩ := CritbitExt.onchange_ok root changes hn
    have hmem : (⟨some root', noChanges⟩ : CritbitTree E H).members = {x | x ∈ root} := by
      ext y
      rw [mem_members, mem_some, Node.mem_def, ← Node.toTrie_skeleton, hs, Node.toTrie_skeleton]
      rfl
    refine ⟨⟨some root', noChanges⟩, r, by simp [Update.finish, he], ⟨rfl, ?_⟩, hmem ▸ ho⟩
    intro n hn
    cases hn
    exact hw.of_skeleton hs

/-! ## What the updates can do -/

/-- A new branch and a new element that `insert` may splice into a tree. -/
structure Splice (root : Node E H) (q : Branch H) (x : ValPtr E) (d : Bool) : Prop where
  mask : CritMask q.otherbits
  splits : SplitAt (critPos q.byte q.otherbits) (ptrBits x)
    (ptrBits (root.toTrie.walk (ptrBits x)))
  direction : d = !bitsOf (keyBytes x.val) (critPos q.byte q.otherbits)
  branch_fresh : q.addr ∉ root.addrs
  elem_fresh : x.addr ∉ root.addrs
  addr_ne : x.addr ≠ q.addr

/-- The four ways through `insert`. -/
inductive InsertCase (t : CritbitTree E H) (val : E) (mem : Memory H) :
    Update E H (Option (ValPtr E) × Bool) → Prop where
  | present (x : ValPtr E) (hx : x ∈ t) (hk : keyBytes x.val = keyBytes val) :
      InsertCase t val mem (.returns t (some x, false))
  | outOfMemory (isNew : Bool) (habs : ∀ x ∈ t, keyBytes x.val ≠ keyBytes val)
      (hmem : mem.suffices t.isEmpty = false) : InsertCase t val mem (.returns t (none, isNew))
  | first (x : ValPtr E) (hx : x.val = val) (hr : t.root = none)
      (hmem : mem.suffices t.isEmpty = true) :
      InsertCase t val mem (.returns ⟨some (.leaf x), t.ext⟩ (some x, true))
  | spliced (root : Node E H) (q : Branch H) (x : ValPtr E) (d : Bool) (hr : t.root = some root)
      (hx : x.val = val) (hs : Splice root q x d)
      (habs : ∀ x ∈ t, keyBytes x.val ≠ keyBytes val)
      (hmem : mem.suffices t.isEmpty = true) (r : Node E H × Changes E H)
      (heq : root.spliceAt (keyBytes x.val) q.byte q.otherbits (Node.newBranch q d x) t.ext = r) :
      InsertCase t val mem (.changed r.1 (pushChange q.addr r.2) [] (some x, true))

theorem Valid.insertUpdate_cases {t : CritbitTree E H} (h : t.Valid) (val : E) (isNew : Bool)
    (mem : Memory H) : InsertCase t val mem (t.insertUpdate val isNew mem) := by
  unfold insertUpdate
  split
  next hr =>
    -- the empty tree: one allocation, no branch
    unfold insertIntoEmptyTree
    cases hm : mem.elem with
    | none =>
      exact .outOfMemory _ (by simp [mem_def, hr]) (by simp [Memory.suffices, hm])
    | some elem => exact .first _ rfl hr (by simp [Memory.suffices, hm, isEmpty, hr])
  next root hr =>
    have hw := h.wellFormed root hr
    have hmem : ∀ y, y ∈ t ↔ y ∈ root := by simp [mem_def, hr]
    have hempty : t.isEmpty = false := by simp [isEmpty, hr]
    have hwalk := hw.walk_mem (keyBytes val)
    have hpk := CritbitElemOps.padded
      (root.walkTreeForBestMember (keyBytes val) (keyBytes val).length).val val
    have hkp := CritbitElemOps.padded val
      (root.walkTreeForBestMember (keyBytes val) (keyBytes val).length).val
    dsimp only
    split
    next hc =>
      exact .present _ ((hmem _).mpr hwalk) ((findCriticalBit_none_iff hpk hkp).mp hc)
    next c hc =>
      obtain ⟨hmask, hsplit, hdir⟩ := findCriticalBit_some hpk hkp hc
      have habs : ∀ x ∈ t, keyBytes x.val ≠ keyBytes val := by
        intro x hx hk
        rw [hw.walk_eq ((hmem x).mp hx) hk, hk] at hsplit
        exact hsplit.ne rfl
      rw [Node.walkTreeForBestMember_eq hw.masks] at hsplit hdir
      cases hn : mem.newnode with
      | none => exact .outOfMemory _ habs (by simp [Memory.suffices, hn, hempty])
      | some newnode =>
        cases hm : mem.elem with
        | none => exact .outOfMemory _ habs (by simp [Memory.suffices, hm])
        | some elem =>
          have hfresh := elem.fresh (newnode.pick root.addrs :: root.addrs)
          rw [List.mem_cons, not_or] at hfresh
          exact .spliced root ⟨newnode.pick root.addrs, c.newbyte, c.newotherbits, mem.garbage⟩
            ⟨elem.pick (newnode.pick root.addrs :: root.addrs), val⟩ c.newdirection hr rfl
            ⟨hmask, hsplit.symm, hdir.trans hsplit.symm.not_eq, newnode.fresh _, hfresh.2,
              hfresh.1⟩ habs (by simp [Memory.suffices, hn, hm]) _ rfl

/-- The four ways through `remove`. A miss clears the changes the walk has pushed. -/
inductive RemoveCase (t : CritbitTree E H) (val : E) : Update E H ℕ → Prop where
  | empty (hr : t.root = none) : RemoveCase t val (.returns t 0)
  | absent (habs : ∀ x ∈ t, keyBytes x.val ≠ keyBytes val) :
      RemoveCase t val (.returns ⟨t.root, noChanges⟩ 0)
  | last (x : ValPtr E) (hr : t.root = some (.leaf x)) (hk : keyBytes x.val = keyBytes val) :
      RemoveCase t val (.returns ⟨none, t.ext⟩ 1)
  | collapsed (root rest : Node E H) (m : BestMatch E H) (hr : t.root = some root)
      (heq : root.findBestMatch (keyBytes val) (keyBytes val).length t.ext = m)
      (hbest : m.best ∈ root) (hk : keyBytes m.best.val = keyBytes val)
      (hrest : m.rest = some rest) :
      RemoveCase t val (.changed rest m.changes (m.best.addr :: m.parent.toList) 1)

theorem Valid.removeUpdate_cases {t : CritbitTree E H} (h : t.Valid) (val : E) :
    RemoveCase t val (t.removeUpdate val) := by
  unfold removeUpdate
  split
  next hr => exact .empty hr
  next root hr =>
    have hw := h.wellFormed root hr
    have hmem : ∀ y, y ∈ t ↔ y ∈ root := by simp [mem_def, hr]
    have hbest := Node.findBestMatch_best (keyBytes val) hw.masks t.ext
    dsimp only
    split_ifs with he
    · rw [CritbitExt.clearChanges_eq]
      refine .absent fun x hx hk => ?_
      have hwalk := hw.ordered.walk_eq ((hmem x).mp hx) (keyBytes_eq_iff.mp hk)
      rw [Bool.not_eq_true', Bool.eq_false_iff] at he
      refine he ((CritbitElemOps.equals_iff _ _).mpr ?_)
      rw [hbest]
      exact hk.symm.trans (congrArg (fun y : ValPtr E => keyBytes y.val) hwalk.symm)
    · have hk := (CritbitElemOps.equals_iff _ _).mp (by simpa using he)
      split
      next hrest =>
        have hroot := Node.findBestMatch_rest_none hrest
        rw [hroot]
        exact .last _ (hr.trans (congrArg some hroot)) hk.symm
      next rest hrest =>
        exact .collapsed root rest _ hr rfl (hbest ▸ root.toTrie.walk_mem _) hk.symm hrest

/-! ## insert -/

/-- What `insert` may do to the members, with its return value and `is_new`. -/
inductive InsertOutcome (t : CritbitTree E H) (val : E) (mem : Memory H) (s : Set (ValPtr E)) :
    Option (ValPtr E) × Bool → Prop where
  | present (x : ValPtr E) (hx : x ∈ t) (hk : keyBytes x.val = keyBytes val)
      (hs : s = t.members) : InsertOutcome t val mem s (some x, false)
  | outOfMemory (isNew : Bool) (habs : ∀ x ∈ t, keyBytes x.val ≠ keyBytes val)
      (hmem : mem.suffices t.isEmpty = false) (hs : s = t.members) :
      InsertOutcome t val mem s (none, isNew)
  | added (x : ValPtr E) (habs : ∀ x ∈ t, keyBytes x.val ≠ keyBytes val)
      (hmem : mem.suffices t.isEmpty = true) (hx : x.val = val)
      (hs : ∀ y, y ∈ s ↔ y = x ∨ y ∈ t) : InsertOutcome t val mem s (some x, true)

theorem Valid.insertUpdate_sound {t : CritbitTree E H} (h : t.Valid) (val : E) (isNew : Bool)
    (mem : Memory H) :
    UpdateSound (InsertOutcome t val mem) (t.insertUpdate val isNew mem) := by
  have hcase := h.insertUpdate_cases val isNew mem
  generalize t.insertUpdate val isNew mem = u at hcase ⊢
  cases hcase with
  | present x hx hk => exact ⟨h, .present x hx hk rfl⟩
  | outOfMemory isNew' habs hmem => exact ⟨h, .outOfMemory _ habs hmem rfl⟩
  | first x hx hr hmem =>
    refine ⟨⟨h.idle, ?_⟩, .added x (by simp [mem_def, hr]) hmem hx fun y => ?_⟩
    · intro root hroot
      cases hroot
      exact Node.wellFormed_leaf _
    · rw [mem_members, mem_some, Node.mem_leaf]
      simp [mem_def, hr]
  | spliced root q x d hr hx hs habs hmem r heq =>
    subst heq
    have hw := h.wellFormed root hr
    refine ⟨hw.spliceAt hs.mask hs.direction hs.splits hs.branch_fresh hs.elem_fresh hs.addr_ne
      t.ext, ?_, .added x habs hmem hx fun y => ?_⟩
    · intro a ha
      rw [Node.spliceAt_branchAddrs hw.masks hs.mask]
      rcases List.mem_cons.mp (CritbitExt.names_pushChange _ _ ha) with rfl | ha
      · exact Or.inl rfl
      · right
        simpa [h.idle, CritbitExt.names_noChanges] using
          Node.spliceAt_names hw.masks hs.mask _ _ a ha
    · rw [Set.mem_ofPred_eq, Node.mem_spliceAt hw.masks hs.mask hs.direction t.ext]
      simp [mem_def, hr]

/-- `insert` always returns, and keeps the invariant. -/
theorem Valid.insert {t : CritbitTree E H} (h : t.Valid) (val : E) (isNew : Bool)
    (mem : Memory H) :
    ∃ t' r, t.insert val isNew mem = some (t', r) ∧ t'.Valid ∧
      InsertOutcome t val mem t'.members r :=
  (h.insertUpdate_sound val isNew mem).finish

/-- An insertion drops no element. -/
theorem Valid.mem_of_insert {t t' : CritbitTree E H} (h : t.Valid) {val : E} {isNew : Bool}
    {mem : Memory H} {r : Option (ValPtr E) × Bool} (hi : t.insert val isNew mem = some (t', r))
    {x : ValPtr E} (hx : x ∈ t) : x ∈ t' := by
  obtain ⟨t₁, r₁, h₁, -, ho⟩ := h.insert val isNew mem
  cases hi.symm.trans h₁
  rw [← mem_members]
  cases ho with
  | present y hy hk hs => rwa [hs]
  | outOfMemory isNew' habs hmem hs => rwa [hs]
  | added y habs hmem hy hs => exact (hs x).mpr (Or.inr hx)

/-! ## remove -/

/-- What `remove` may do to the members, with its return value. -/
inductive RemoveOutcome (t : CritbitTree E H) (val : E) (s : Set (ValPtr E)) : ℕ → Prop where
  | absent (habs : ∀ x ∈ t, keyBytes x.val ≠ keyBytes val) (hs : s = t.members) :
      RemoveOutcome t val s 0
  | removed (x : ValPtr E) (hx : x ∈ t) (hk : keyBytes x.val = keyBytes val)
      (hs : ∀ y, y ∈ s ↔ y ∈ t ∧ y ≠ x) : RemoveOutcome t val s 1

theorem Valid.removeUpdate_sound {t : CritbitTree E H} (h : t.Valid) (val : E) :
    UpdateSound (RemoveOutcome t val) (t.removeUpdate val) := by
  have hcase := h.removeUpdate_cases val
  generalize t.removeUpdate val = u at hcase ⊢
  cases hcase with
  | empty hr => exact ⟨h, .absent (by simp [mem_def, hr]) rfl⟩
  | absent habs => exact ⟨⟨rfl, h.wellFormed⟩, .absent habs rfl⟩
  | last x hr hk =>
    have hx : x ∈ t := by simp [mem_def, hr]
    refine ⟨⟨h.idle, by simp⟩, .removed x hx hk fun y => ?_⟩
    simp [mem_def, hr]
  | collapsed root rest m hr heq hbest hk hrest =>
    subst heq
    have hw := h.wellFormed root hr
    have hmem : ∀ y, y ∈ t ↔ y ∈ root := by simp [mem_def, hr]
    refine ⟨hw.findBestMatch t.ext hrest, ?_, .removed _ ((hmem _).mpr hbest) hk fun y => ?_⟩
    · intro a ha
      simpa [h.idle, CritbitExt.names_noChanges] using
        Node.findBestMatch_names hw.masks t.ext hrest a ha
    · rw [hmem]
      exact Node.mem_findBestMatch hw t.ext hrest

/-- `remove` always returns, and keeps the invariant. -/
theorem Valid.remove {t : CritbitTree E H} (h : t.Valid) (val : E) :
    ∃ t' r, t.remove val = some (t', r) ∧ t'.Valid ∧ RemoveOutcome t val t'.members r :=
  (h.removeUpdate_sound val).finish

/-- Every tree the operations can lead to satisfies the invariant. -/
theorem Reachable.valid {t : CritbitTree E H} (h : Reachable t) : t.Valid := by
  induction h with
  | empty => exact valid_empty
  | @insert t t' val isNew mem r _ hi ih =>
    obtain ⟨t₁, r₁, h₁, hv, -⟩ := ih.insert val isNew mem
    cases hi.symm.trans h₁
    exact hv
  | @remove t t' val r _ hr ih =>
    obtain ⟨t₁, r₁, h₁, hv, -⟩ := ih.remove val
    cases hr.symm.trans h₁
    exact hv
  | clear _ ih => exact ih.clear

/-! ## Trees made by insertion alone -/

/-- The tree after the elements have been inserted in order, with memory to spare. -/
def ofList (garbage : H) (vals : List E) : CritbitTree E H :=
  vals.foldl (fun t val => ((t.insert val false (.ample garbage)).map Prod.fst).getD t) empty

theorem ofList_concat (garbage : H) (vals : List E) (val : E) :
    (ofList garbage (vals ++ [val]) : CritbitTree E H) =
      (((ofList garbage vals).insert val false (.ample garbage)).map Prod.fst).getD
        (ofList garbage vals) := by
  simp [ofList]

theorem reachable_ofList (garbage : H) (vals : List E) :
    (ofList garbage vals : CritbitTree E H).Reachable := by
  suffices h : ∀ t : CritbitTree E H, t.Reachable → (vals.foldl
      (fun t val => ((t.insert val false (.ample garbage)).map Prod.fst).getD t) t).Reachable from
    h _ .empty
  induction vals with
  | nil => exact fun t ht => ht
  | cons val vals ih =>
    intro t ht
    refine ih _ ?_
    change (((t.insert val false (.ample garbage)).map Prod.fst).getD t).Reachable
    cases hi : t.insert val false (.ample garbage) with
    | none => exact ht
    | some r => exact ht.insert hi

theorem mem_ofList_concat {garbage : H} {vals : List E} {val : E} {x : ValPtr E}
    (hx : x ∈ (ofList garbage vals : CritbitTree E H)) :
    x ∈ (ofList garbage (vals ++ [val]) : CritbitTree E H) := by
  rw [ofList_concat]
  cases hi : (ofList garbage vals : CritbitTree E H).insert val false (.ample garbage) with
  | none => exact hx
  | some r => exact (reachable_ofList garbage vals).valid.mem_of_insert hi hx

/-- Only what was inserted is in the tree. -/
theorem val_mem_of_mem_ofList {garbage : H} {vals : List E} {x : ValPtr E}
    (hx : x ∈ (ofList garbage vals : CritbitTree E H)) : x.val ∈ vals := by
  induction vals using List.reverseRecOn with
  | nil =>
    obtain ⟨root, hr, -⟩ := hx
    cases hr
  | append_singleton vals val ih =>
    obtain ⟨t, r, hi, -, ho⟩ :=
      (reachable_ofList (E := E) garbage vals).valid.insert val false (.ample garbage)
    rw [ofList_concat, hi, Option.map_some, Option.getD_some, ← mem_members] at hx
    cases ho with
    | present y hy hk hs | outOfMemory isNew habs hmem hs =>
      rw [hs, mem_members] at hx
      exact List.mem_append_left _ (ih hx)
    | added y habs hmem hy hs =>
      rcases (hs x).mp hx with rfl | hx
      · simp [hy]
      · exact List.mem_append_left _ (ih hx)

end CritbitTree

end Turbolib
