import Turbolib.Critbit.HeapPlace
import Turbolib.Critbit.Operations

/-!
# The updates in memory

An update of the tree in memory does what the same update does to the tree of nodes: it
follows no dangling pointer, frees nothing twice, and afterwards the blocks in use are those
of the tree.

## Main definitions

* `HeapExt` — what an extension does in memory.
* `HeapTree.Refined` — the heap has a tree, and nothing else.
-/

namespace Turbolib

open Cell (loadElem loadBranch freeElem walk clearFrom)
open Context (plug slot)

variable {E H : Type}

/-- A `posix_memalign` that has given an address. -/
def Fresh.choosing (a : Addr) : Fresh where
  pick live := if a ∈ live then Fresh.next.pick live else a
  fresh live := by
    split_ifs with ha
    · exact Fresh.next.fresh live
    · exact ha

theorem Fresh.choosing_pick {a : Addr} {live : List Addr} (ha : a ∉ live) :
    (Fresh.choosing a).pick live = a := if_neg ha

namespace Node

theorem word_skeleton (n : Node E H) : n.skeleton.word = n.word := by
  cases n <;> rfl

theorem depth_lt (n : Node E H) : n.depth < n.addrs.length := by
  induction n with
  | leaf x => exact Nat.zero_lt_one
  | branch q c0 c1 ih0 ih1 =>
    simp only [depth, addrs, List.length_cons, List.length_append]
    omega

end Node

/-! ## onchange -/

/-- What `critbit_ext` does in memory when `onchange` is called. The law is that it follows
the pointers to the branches that are waiting, and changes only its own data there. -/
class HeapExt (E H : Type) [CritbitExt E H] where
  onchange : Heap (Cell E H) → Changes E H → Option (Heap (Cell E H) × Changes E H)
  onchange_stored : ∀ {h : Heap (Cell E H)} {n n' : Node E H} {changes changes' : Changes E H},
    n.Stored h → n.addrs.Nodup → CritbitExt.onchange n changes = some (n', changes') →
    ∃ h', onchange h changes = some (h', changes') ∧ n'.Stored h' ∧ n'.skeleton = n.skeleton ∧
      ∀ used, Heap.Uses h used → Heap.Uses h' used

/-- The unspecialised `critbit_ext`, whose functions are empty. -/
instance unitHeapExt : HeapExt E Unit where
  onchange h changes := some (h, changes)
  onchange_stored hn _ hon := by
    cases hon
    exact ⟨_, rfl, hn, rfl, fun _ hu => hu⟩

/-- Run the pending `onchange`, if there is one. -/
def HeapUpdate.finish {R : Type} [CritbitExt E H] [HeapExt E H] :
    HeapUpdate E H R → Option (HeapTree E H × R)
  | returns t result => some (t, result)
  | changed t result =>
    (HeapExt.onchange t.heap t.ext).map fun next =>
      ({ t with heap := next.1, ext := next.2 }, result)

namespace HeapTree

variable [CritbitExt E H]

section operations

variable [HeapExt E H] [CritbitElemOps E]

/-- `insert(val, is_new)`. -/
def insert (t : HeapTree E H) (rounds : ℕ) (val : E) (isNew : Bool)
    (mem : Memory (BranchCell H)) : Option (HeapTree E H × Word × Bool) :=
  (t.insertUpdate rounds val isNew mem).bind HeapUpdate.finish

/-- `remove`. -/
def remove (t : HeapTree E H) (rounds : ℕ) (val : E) : Option (HeapTree E H × ℕ) :=
  (t.removeUpdate rounds val).bind HeapUpdate.finish

end operations

/-! ## The tree of nodes -/

/-- The heap stores the tree of nodes, and nothing else. -/
structure Refined (t : HeapTree E H) (s : CritbitTree E H) : Prop where
  root_none : s.root = none → t.root = 0
  root_some : ∀ n, s.root = some n → t.At [] n
  ext : t.ext = s.ext
  uses : Heap.Uses t.heap (s.root.elim [] Node.addrs)

variable {t : HeapTree E H} {s : CritbitTree E H}

theorem refined_empty : (empty : HeapTree E H).Refined CritbitTree.empty where
  root_none _ := rfl
  root_some n hn := absurd hn (Option.some_ne_none n).symm
  ext := rfl
  uses := Heap.uses_empty

theorem At.congr {t' : HeapTree E H} {ctx : Context E H} {n : Node E H} (h : t.At ctx n)
    (hroot : t'.root = t.root) (hheap : Heap.Agree t.heap t'.heap (plug ctx n).addrs) :
    t'.At ctx n :=
  ⟨hroot.trans h.root, h.stored.congr hheap, h.nodup⟩

theorem refined_some {n : Node E H} {changes : Changes E H} (hat : t.At [] n)
    (hext : t.ext = changes) (huses : Heap.Uses t.heap n.addrs) : t.Refined ⟨some n, changes⟩ where
  root_none h := absurd h (Option.some_ne_none n)
  root_some _ hm := Option.some.inj hm ▸ hat
  ext := hext
  uses := huses

theorem Refined.root_eq_zero (h : t.Refined s) : t.root = 0 ↔ s.root = none := by
  constructor
  · intro hzero
    by_contra hsome
    obtain ⟨n, hn⟩ := Option.ne_none_iff_exists'.mp hsome
    exact n.word_ne_zero ((h.root_some n hn).root.symm.trans hzero)
  · exact h.root_none

/-- A loop that goes down the tree has at most as many rounds as there are blocks. -/
def rounds (t : HeapTree E H) : ℕ := t.heap.keys.length + 1

theorem Refined.depth_lt (h : t.Refined s) {n : Node E H} (hn : s.root = some n) :
    n.depth < t.rounds := by
  have huses := h.uses
  rw [hn] at huses
  have hle : n.addrs.length ≤ t.heap.keys.length :=
    ((h.root_some n hn).nodup.subperm fun a ha => (huses a).mpr ha).length_le
  have := n.depth_lt
  unfold rounds
  omega

/-! ## insert -/

/-- The pointer that is returned. -/
def pointer : Option (ValPtr E) → ℕ
  | none => 0
  | some x => Word.of x.addr

/-- The update in memory stands where the update of the tree of nodes stands. -/
inductive UpdateRefined {R S : Type} (result : S → R) : HeapUpdate E H R → Update E H S → Prop where
  | returns {t : HeapTree E H} {s : CritbitTree E H} (r : S) (h : t.Refined s) :
      UpdateRefined result (.returns t (result r)) (.returns s r)
  | changed {t : HeapTree E H} {root : Node E H} {changes : Changes E H} (freed : List Addr) (r : S)
      (h : t.Refined ⟨some root, changes⟩) :
      UpdateRefined result (.changed t (result r)) (.changed root changes freed r)

/-- What a new branch, whose memory is `b`, and a new element are before they are linked. -/
structure Unlinked (t : HeapTree E H) (root : Node E H) (f : Frame E H) (x : ValPtr E)
    (b : BranchCell H) : Prop where
  other : f.other = .leaf x
  cell : ∀ w, b.setChild f.d w = f.cell w
  branch : Heap.load t.heap f.q.addr = some (.branch b)
  elem : Heap.load t.heap x.addr = some (.elem x.val)
  branch_fresh : f.q.addr ∉ root.addrs
  elem_fresh : x.addr ∉ root.addrs
  addr_ne : x.addr ≠ f.q.addr
  uses : Heap.Uses t.heap (x.addr :: f.q.addr :: root.addrs)

theorem Unlinked.link {root : Node E H} {f : Frame E H} {x : ValPtr E} {b : BranchCell H}
    (hnew : t.Unlinked root f x b) (hroot : t.At [] root) {rounds : ℕ}
    (hrounds : root.depth < rounds) (keybytes : List UInt8) {c : CriticalBit}
    (hc : c.newdirection = f.d) :
    ∃ t', t.link rounds keybytes c f.q.addr = some t' ∧
      t'.Refined ⟨some (root.spliceAt keybytes c.newbyte c.newotherbits f.plug t.ext).1,
        pushChange f.q.addr (root.spliceAt keybytes c.newbyte c.newotherbits f.plug t.ext).2⟩ := by
  have hplace := findPlace_eq keybytes c.newbyte c.newotherbits hroot hrounds t.ext
  have hplug := root.plug_placeFrom keybytes c.newbyte c.newotherbits [] t.ext
  have hsplice := root.plug_spliceAt keybytes c.newbyte c.newotherbits f.plug [] t.ext
  generalize root.placeFrom keybytes c.newbyte c.newotherbits [] t.ext = r at hplace hplug hsplice
  generalize root.spliceAt keybytes c.newbyte c.newotherbits f.plug t.ext = s at hsplice ⊢
  obtain ⟨ctx, n, changes⟩ := r
  obtain ⟨root', changes'⟩ := s
  obtain ⟨hroot', hchanges⟩ : root' = plug ctx (f.plug n) ∧ changes' = changes := hsplice
  subst hroot' hchanges
  change plug ctx n = root at hplug
  subst hplug
  have hat : t.At ctx n := ⟨hroot.root, hroot.stored, hroot.nodup⟩
  obtain ⟨hctx, hn⟩ := Context.stored_plug.mp hat.stored
  have haddrs : (plug ctx (f.plug n)).addrs.Perm (f.q.addr :: x.addr :: (plug ctx n).addrs) := by
    have h := Context.addrs_plug_framePlug ctx f n
    rw [hnew.other] at h
    exact h
  have hsub := Context.addrs_plug ctx n
  have hfresh : f.q.addr ∉ Context.addrs ctx ∧ f.q.addr ∉ n.addrs := by
    have := hsub.mem_iff.not.mp hnew.branch_fresh
    rwa [List.mem_append, not_or] at this
  let t₁ : HeapTree E H := { t with heap := t.heap.insert f.q.addr (.branch (f.cell n.word)) }
  have hstore : t.store (.child f.q.addr c.newdirection) n.word = some t₁ := by
    simp only [HeapTree.store, hnew.branch, hc, hnew.cell, Heap.store_of_load hnew.branch,
      Option.map_some, t₁]
  have hother : f.other.Stored t₁.heap := by
    rw [hnew.other]
    exact (Heap.load_insert_ne hnew.addr_ne).trans hnew.elem
  obtain ⟨t₂, hlink, hdone⟩ := store_slot (t := t₁) (m := f.plug n) hat.root
    (hctx.congr (Heap.agree_insert hfresh.1))
    (Context.stored_framePlug.mpr
      ⟨Heap.load_insert _ _ _, hother, hn.congr (Heap.agree_insert hfresh.2)⟩)
    (haddrs.nodup_iff.mpr (by
      simp only [List.nodup_cons, List.mem_cons, not_or]
      exact ⟨⟨hnew.addr_ne.symm, hnew.branch_fresh⟩, hnew.elem_fresh, hroot.nodup⟩))
  refine ⟨{ t₂ with ext := pushChange f.q.addr changes' }, ?_, refined_some ?_ rfl ?_⟩
  · rw [Context.word_framePlug] at hlink
    simp only [HeapTree.link, show t.findPlace _ _ _ _ .root _ = _ from hplace, hat.load, hstore,
      hlink, Option.bind_eq_bind, Option.bind_some]
  · exact ⟨hdone.at'.root, hdone.at'.stored, hdone.at'.nodup⟩
  · refine (hdone.uses _ (hnew.uses.insert_of_mem (by simp))).congr fun a => ?_
    rw [haddrs.mem_iff]
    simp only [List.mem_cons]
    tauto

/-- The blocks of a new branch and a new element beside those of a tree. -/
def withNew (t : HeapTree E H) (f : Frame E H) (x : ValPtr E) (garbage b : BranchCell H) :
    HeapTree E H :=
  { t with heap := ((t.heap.insert f.q.addr (.branch garbage)).insert x.addr
      (.elem x.val)).insert f.q.addr (.branch b) }

theorem Refined.unlinked (h : t.Refined s) {root : Node E H} (hroot : s.root = some root)
    {f : Frame E H} {x : ValPtr E} {g b : BranchCell H} (hother : f.other = .leaf x)
    (hcell : ∀ w, b.setChild f.d w = f.cell w) (hq : f.q.addr ∉ root.addrs)
    (hx : x.addr ∉ root.addrs) (hne : x.addr ≠ f.q.addr) :
    (t.withNew f x g b).At [] root ∧ (t.withNew f x g b).Unlinked root f x b := by
  have huses := h.uses
  rw [hroot] at huses
  refine ⟨(h.root_some root hroot).congr rfl ?_, hother, hcell, ?_, ?_, hq, hx, hne, ?_⟩
  · exact ((Heap.agree_insert hq).trans (Heap.agree_insert hx)).trans (Heap.agree_insert hq)
  · exact Heap.load_insert _ _ _
  · exact (Heap.load_insert_ne hne).trans (Heap.load_insert _ _ _)
  · exact (huses.insert.insert).insert_of_mem (by simp)

variable [CritbitElemOps E]

/-- What `insert` does to a tree that is not empty. -/
theorem insertUpdate_of_walk {rounds : ℕ} {closest : ValPtr E} (val : E) (isNew : Bool)
    (mem : Memory (BranchCell H)) (hroot : t.root ≠ 0)
    (hwalk : walk t.heap (keyBytes val) rounds t.root = some (Word.of closest.addr))
    (hload : Heap.load t.heap closest.addr = some (.elem closest.val)) :
    t.insertUpdate rounds val isNew mem =
      match findCriticalBit (keyBytes closest.val) (keyBytes closest.val).length (keyBytes val)
        (keyBytes val).length with
      | none => some (.returns t (Word.of closest.addr, false))
      | some c => t.insertNew rounds val isNew mem c := by
  cases hc : findCriticalBit (keyBytes closest.val) (keyBytes closest.val).length (keyBytes val)
    (keyBytes val).length <;>
    simp [HeapTree.insertUpdate, hroot, hwalk, loadElem_of hload, hc]

/-- The update in memory has an outcome of the tree of nodes, for the addresses that were
given. -/
def InsertRefined (s : CritbitTree E H) (val : E) (isNew : Bool) (mem : Memory (BranchCell H))
    (u : Option (HeapUpdate E H (ℕ × Bool))) : Prop :=
  ∃ mem' : Memory H, (∀ isEmpty, mem'.suffices isEmpty = mem.suffices isEmpty) ∧
    ∃ u', u = some u' ∧
      UpdateRefined (fun r => (pointer r.1, r.2)) u' (s.insertUpdate val isNew mem')

theorem Refined.insertIntoEmptyTree (h : t.Refined s) (hroot : s.root = none) (val : E)
    (isNew : Bool) (mem : Memory (BranchCell H)) :
    InsertRefined s val isNew mem
      (some (.returns (t.insertIntoEmptyTree val mem.elem).1
        ((t.insertIntoEmptyTree val mem.elem).2, true))) := by
  cases hmem : mem.elem with
  | none =>
    refine ⟨⟨mem.newnode, mem.garbage.hash, none⟩, by simp [Memory.suffices, hmem], _, rfl, ?_⟩
    simp only [CritbitTree.insertUpdate, hroot]
    exact .returns (none, true) h
  | some elem =>
    have huses := h.uses
    rw [hroot] at huses
    let x : ValPtr E := ⟨elem.pick t.heap.keys, val⟩
    refine ⟨⟨mem.newnode, mem.garbage.hash, some (.choosing x.addr)⟩,
      by simp [Memory.suffices, hmem], _, rfl, ?_⟩
    simp only [CritbitTree.insertUpdate, hroot]
    have hat : HeapTree.At ⟨Word.of x.addr, t.ext, t.heap.insert x.addr (.elem val)⟩ []
        (.leaf x : Node E H) :=
      ⟨rfl, Heap.load_insert _ _ _, List.nodup_singleton x.addr⟩
    exact .returns (some x, true) (refined_some hat h.ext huses.insert)

/-- `insert` of a new key into a tree that is not empty. -/
theorem Refined.insertNew (h : t.Refined s) {root : Node E H} (hroot : s.root = some root)
    (val : E) (isNew : Bool) (mem : Memory (BranchCell H)) {c : CriticalBit}
    (hc : let p := keyBytes (root.walkTreeForBestMember (keyBytes val) (keyBytes val).length).val
      findCriticalBit p p.length (keyBytes val) (keyBytes val).length = some c) :
    InsertRefined s val isNew mem (t.insertNew t.rounds val isNew mem c) := by
  have hat := h.root_some root hroot
  have huses := h.uses
  rw [hroot] at huses
  unfold HeapTree.insertNew
  cases hnew : mem.newnode with
  | none =>
    refine ⟨⟨none, mem.garbage.hash, mem.elem⟩, by simp [Memory.suffices, hnew], _, rfl, ?_⟩
    simp only [CritbitTree.insertUpdate, hroot, hc]
    exact .returns (none, isNew) h
  | some newnode =>
    have hfresh : newnode.pick t.heap.keys ∉ root.addrs := fun ha =>
      newnode.fresh t.heap.keys ((huses _).mpr ha)
    dsimp only
    generalize newnode.pick t.heap.keys = q at hfresh ⊢
    cases helem : mem.elem with
    | none =>
      have hfree := Heap.free_of_load (Heap.load_insert t.heap q (Cell.branch (E := E) mem.garbage))
      refine ⟨⟨some (.choosing q), mem.garbage.hash, none⟩, by simp [Memory.suffices, helem], _,
        by rw [hfree]; rfl, ?_⟩
      simp only [CritbitTree.insertUpdate, hroot, hc]
      refine .returns (none, isNew) ⟨fun hn => ?_, fun n hn => ?_, h.ext, ?_⟩
      · exact absurd hn (by simp [hroot])
      · cases hroot.symm.trans hn
        exact hat.congr rfl ((Heap.agree_insert hfresh).trans (Heap.agree_erase hfresh))
      · rw [hroot]
        exact huses.insert.erase (List.Perm.refl _) hfresh
    | some elem =>
      let heap := t.heap.insert q (Cell.branch mem.garbage)
      have hx : elem.pick heap.keys ≠ q ∧ elem.pick heap.keys ∉ root.addrs := by
        have hx := (huses.insert (a := q) (x := Cell.branch mem.garbage) _).not.mp
          (elem.fresh heap.keys)
        rwa [List.mem_cons, not_or] at hx
      let x : ValPtr E := ⟨elem.pick heap.keys, val⟩
      have hlive : x.addr ∉ q :: root.addrs := List.not_mem_cons_of_ne_of_not_mem hx.1 hx.2
      let f : Frame E H :=
        ⟨⟨q, c.newbyte, c.newotherbits, mem.garbage.hash⟩, c.newdirection, .leaf x⟩
      let b := { mem.garbage with byte := c.newbyte, otherbits := c.newotherbits }.setChild
        (!c.newdirection) (Word.of x.addr)
      have hcell : ∀ w, b.setChild f.d w = f.cell w := by
        intro w
        cases hd : c.newdirection <;>
          simp [b, f, hd, Frame.cell, BranchCell.setChild, Node.cell, Node.word_leaf]
      obtain ⟨hat', hnew'⟩ := h.unlinked (g := mem.garbage) hroot rfl hcell hfresh hx.2 hx.1
      obtain ⟨t', hlink, hdone⟩ := hnew'.link hat' (h.depth_lt hroot) (keyBytes val) (c := c) rfl
      have hstore : Heap.store (heap.insert x.addr (.elem val)) q (.branch b) =
          some (t.withNew f x mem.garbage b).heap :=
        Heap.store_of_load ((Heap.load_insert_ne hx.1.symm).trans (Heap.load_insert _ _ _)) _
      refine ⟨⟨some (.choosing q), mem.garbage.hash, some (.choosing x.addr)⟩,
        by simp [Memory.suffices, hnew, helem], .changed t' (Word.of x.addr, true), ?_, ?_⟩
      · change (Heap.store (heap.insert x.addr (.elem val)) q (.branch b)).bind _ = _
        rw [hstore, Option.bind_some]
        change ((t.withNew f x mem.garbage b).link t.rounds (keyBytes val) c q).bind _ = _
        rw [show (t.withNew f x mem.garbage b).link _ _ _ q = _ from hlink]
        rfl
      · simp only [CritbitTree.insertUpdate, hroot, hc, Fresh.choosing_pick hfresh,
          Fresh.choosing_pick hlive]
        rw [← h.ext]
        exact .changed [] (some x, true) hdone

/-- `insert` in memory, and `insert` with the addresses that were given. -/
theorem Refined.insertUpdate (h : t.Refined s) (val : E) (isNew : Bool)
    (mem : Memory (BranchCell H)) :
    InsertRefined s val isNew mem (t.insertUpdate t.rounds val isNew mem) := by
  cases hroot : s.root with
  | none =>
    rw [HeapTree.insertUpdate, if_pos (h.root_none hroot)]
    exact h.insertIntoEmptyTree hroot val isNew mem
  | some root =>
    have hat := h.root_some root hroot
    have hstored : root.Stored t.heap := hat.stored
    have hnonzero : t.root ≠ 0 := h.root_eq_zero.not.mpr (by simp [hroot])
    have hwalk := walk_word hstored (keyBytes val) (h.depth_lt hroot)
    rw [← show t.root = root.word from hat.root] at hwalk
    rw [insertUpdate_of_walk val isNew mem hnonzero hwalk (loadElem_mem hstored (keyBytes val))]
    cases hc : findCriticalBit _ _ _ _ with
    | none =>
      refine ⟨⟨mem.newnode, mem.garbage.hash, mem.elem⟩, fun _ => rfl, _, rfl, ?_⟩
      simp only [CritbitTree.insertUpdate, hroot, hc]
      exact .returns (some _, false) h
    | some c => exact h.insertNew hroot val isNew mem hc

/-! ## remove -/

omit [CritbitElemOps E] in
/-- The other child of the branch above an element takes its place, and both are freed. -/
theorem At.unlink {ctx : Context E H} {f : Frame E H} {x : ValPtr E}
    (h : t.At (f :: ctx) (.leaf x)) (huses : Heap.Uses t.heap (plug (f :: ctx) (.leaf x)).addrs)
    (changes : Changes E H) :
    let t₁ : HeapTree E H := { t with ext := changes, heap := t.heap.erase x.addr }
    t₁.load (.child f.q.addr (!f.d)) = some f.other.word ∧
      ∃ t₂, t₁.store (slot ctx) f.other.word = some t₂ ∧
        Heap.free t₂.heap f.q.addr = some (t₂.heap.erase f.q.addr) ∧
        Refined { t₂ with heap := t₂.heap.erase f.q.addr } ⟨some (plug ctx f.other), changes⟩ := by
  intro t₁
  obtain ⟨⟨hcell, hother, hctx⟩, -⟩ := Context.stored_plug.mp h.stored
  have haddrs := Context.addrs_plug_other ctx f x
  have hnodup := haddrs.nodup_iff.mp h.nodup
  simp only [List.nodup_cons, List.mem_cons, not_or] at hnodup
  obtain ⟨⟨hxq, hx⟩, hq, hrest⟩ := hnodup
  have hsub := Context.addrs_plug ctx f.other
  rw [hsub.mem_iff, List.mem_append, not_or] at hx
  have hcell₁ : Heap.load t₁.heap f.q.addr = some (.branch (f.cell (Word.of x.addr))) :=
    (Heap.load_erase_ne fun he => hxq he.symm).trans hcell
  refine ⟨?_, ?_⟩
  · rw [load_child _ hcell₁, Frame.cell_child_not]
  obtain ⟨t₂, hstore, hdone⟩ := store_slot (t := t₁) (n := f.plug (.leaf x)) (m := f.other) h.root
    (by rw [Context.word_framePlug]; exact hctx.congr (Heap.agree_erase hx.1))
    (hother.congr (Heap.agree_erase hx.2)) hrest
  have hq₂ : f.q.addr ∉ Context.addrs ctx := fun hmem =>
    hq (hsub.mem_iff.mpr (List.mem_append_left _ hmem))
  have hcell₂ := (hdone.frame f.q.addr hq₂).trans hcell₁
  refine ⟨t₂, hstore, Heap.free_of_load hcell₂, refined_some ?_ hdone.ext ?_⟩
  · have hat : t₂.At [] (plug ctx f.other) := ⟨hdone.at'.root, hdone.at'.stored, hdone.at'.nodup⟩
    exact hat.congr rfl (Heap.agree_erase hq)
  · have huses₁ : Heap.Uses t₁.heap (f.q.addr :: (plug ctx f.other).addrs) :=
      huses.erase haddrs (by
        rw [List.mem_cons, not_or, hsub.mem_iff, List.mem_append, not_or]
        exact ⟨hxq, hx⟩)
    exact (hdone.uses _ huses₁).erase (List.Perm.refl _) hq

/-- `remove` in memory, and `remove`. -/
theorem Refined.removeUpdate (h : t.Refined s) (val : E) :
    ∃ u, t.removeUpdate t.rounds val = some u ∧ UpdateRefined id u (s.removeUpdate val) := by
  cases hroot : s.root with
  | none =>
    refine ⟨.returns t 0, by rw [HeapTree.removeUpdate, if_pos (h.root_none hroot)], ?_⟩
    simp only [CritbitTree.removeUpdate, hroot]
    exact .returns 0 h
  | some root =>
    have hat := h.root_some root hroot
    have huses := h.uses
    rw [hroot] at huses
    have hnonzero : t.root ≠ 0 := h.root_eq_zero.not.mpr (by simp [hroot])
    have hbest := findBest_eq (keyBytes val) hat (h.depth_lt hroot) t.ext
    have hmatch := root.matchAt_bestFrom (keyBytes val) [] t.ext
    have hplug := root.plug_bestFrom (keyBytes val) [] t.ext
    rw [← show t.root = root.word from hat.root] at hbest
    simp only [CritbitTree.removeUpdate, hroot, ← h.ext]
    generalize root.findBestMatch (keyBytes val) (keyBytes val).length t.ext = m at hmatch ⊢
    generalize root.bestFrom (keyBytes val) [] t.ext = r at hbest hmatch hplug
    obtain ⟨ctx, x, changes⟩ := r
    obtain ⟨hx, hchanges, hrest⟩ := hmatch
    change m.best = x at hx
    change m.changes = changes at hchanges
    change plug ctx (.leaf x) = root at hplug
    subst hplug
    have hplace : t.At ctx (.leaf x) := ⟨hat.root, hat.stored, hat.nodup⟩
    have hleaf : Heap.load t.heap x.addr = some (.elem x.val) :=
      (Context.stored_plug.mp hplace.stored).2
    have hbest : t.findBest (keyBytes val) t.rounds ⟨t.root, .root, none, none, false, t.ext⟩ =
      some (.atPlace ctx (Word.of x.addr) changes) := hbest
    unfold HeapTree.removeUpdate
    rw [if_neg hnonzero, hbest, hx, hchanges]
    simp only [Removal.atPlace, Option.bind_eq_bind, Option.bind_some, loadElem_of hleaf,
      freeElem_of hleaf]
    by_cases heq : (!equals val x.val) = true
    · rw [if_pos heq, if_pos heq]
      refine ⟨_, rfl, .returns 0 ⟨fun hn => ?_, fun n hn => ?_, rfl, ?_⟩⟩
      · exact absurd hn (by simp)
      · cases hn
        exact ⟨hat.root, hat.stored, hat.nodup⟩
      · exact huses
    rw [if_neg heq, if_neg heq]
    rcases hrest with ⟨rfl, hrest⟩ | ⟨f, above, rest, rfl, hrest, hother⟩
    · rw [hrest]
      refine ⟨_, rfl, .returns 1 ⟨fun _ => rfl, fun n hn => ?_, rfl, ?_⟩⟩
      · exact absurd hn (Option.some_ne_none n).symm
      · exact huses.erase (List.Perm.refl _) (List.not_mem_nil)
    · rw [hrest, ← show plug above f.other = rest from hother]
      obtain ⟨hload, t₂, hstore, hfree, hdone⟩ := hplace.unlink huses changes
      refine ⟨.changed { t₂ with heap := t₂.heap.erase f.q.addr } 1, ?_, .changed _ 1 hdone⟩
      simp only [List.head?_cons, Option.map_some, hload, hstore, hfree, Option.bind_some]

/-! ## clear and find -/

omit [CritbitElemOps E] in
theorem Refined.clear (h : t.Refined s) :
    ∃ t', t.clear t.rounds = some t' ∧ t'.Refined s.clear := by
  cases hroot : s.root with
  | none =>
    refine ⟨t, if_pos (h.root_none hroot), fun _ => h.root_none hroot, fun n hn => ?_, h.ext, ?_⟩
    · exact absurd hn (Option.some_ne_none n).symm
    · have huses := h.uses
      rwa [hroot] at huses
  | some root =>
    have hat := h.root_some root hroot
    have huses := h.uses
    rw [hroot] at huses
    have hnonzero : t.root ≠ 0 := h.root_eq_zero.not.mpr (by simp [hroot])
    obtain ⟨heap, hclear, herased⟩ := clearFrom_word hat.stored hat.nodup (h.depth_lt hroot)
    rw [← hat.root] at hclear
    refine ⟨{ t with root := 0, heap := heap }, ?_, fun _ => rfl, fun n hn => ?_, h.ext, ?_⟩
    · rw [HeapTree.clear, if_neg hnonzero, hclear]
      rfl
    · exact absurd hn (Option.some_ne_none n).symm
    · exact huses.erased herased

theorem Refined.find (h : t.Refined s) (val : E) :
    t.find t.rounds val = some (pointer (s.find val)) := by
  cases hroot : s.root with
  | none =>
    simp [HeapTree.find, lowerBound, h.root_none hroot, CritbitTree.find, CritbitTree.lowerBound,
      hroot, pointer]
  | some root =>
    have hat := h.root_some root hroot
    have hstored : root.Stored t.heap := hat.stored
    have hnonzero : t.root ≠ 0 := h.root_eq_zero.not.mpr (by simp [hroot])
    have hwalk := walk_word hstored (keyBytes val) (h.depth_lt hroot)
    have hload := loadElem_of (loadElem_mem hstored (keyBytes val))
    rw [← show t.root = root.word from hat.root] at hwalk
    simp only [HeapTree.find, lowerBound, if_neg hnonzero, hwalk, Option.bind_eq_bind,
      Option.bind_some, if_neg (Word.of_ne_zero _), hload, CritbitTree.find,
      CritbitTree.lowerBound, hroot, Option.map_some]
    split_ifs <;> rfl

end HeapTree

end Turbolib
