import Turbolib.Critbit.HeapTree

/-!
# Trees in memory and places in them

A heap stores a tree when the cells at its addresses have its elements and branches. A walk
through a slot goes down to a place of the tree: what is above it, and the node there.

## Main definitions

* `Node.Stored` — the heap stores a node and what is below it.
* `Context` — the branches above a place, the nearest first.
* `Context.plug` — the tree with a node at the place.
-/

namespace Turbolib

open Cell (loadElem loadBranch freeElem walk clearFrom)

variable {E H : Type}

/-! ## Pointers -/

namespace Word

theorem of_ne_zero (a : ℕ) : Word.of a ≠ 0 := by
  unfold Word.of
  omega

theorem of_succ_ne_zero (a : ℕ) : Word.of a + 1 ≠ 0 := Nat.succ_ne_zero _

@[simp] theorem addr_of (a : ℕ) : Word.addr (Word.of a) = some a := by
  have hmod : Word.of a % 8 = 0 := by
    unfold Word.of
    omega
  have hdiv : Word.of a / 8 - 1 = a := by
    unfold Word.of
    omega
  rw [Word.addr, if_pos ⟨hmod, of_ne_zero a⟩, hdiv]

@[simp] theorem isBranch_of (a : ℕ) : Word.isBranch (Word.of a) = false := by
  have hmod : Word.of a % 2 = 0 := by
    unfold Word.of
    omega
  simp [Word.isBranch, hmod]

@[simp] theorem isBranch_of_succ (a : ℕ) : Word.isBranch (Word.of a + 1) = true := by
  have hmod : (Word.of a + 1) % 2 = 1 := by
    unfold Word.of
    omega
  simp [Word.isBranch, hmod]

end Word

namespace Node

/-- The pointer to a node. -/
def word : Node E H → ℕ
  | leaf x => Word.of x.addr
  | branch q _ _ => Word.of q.addr + 1

theorem word_leaf (x : ValPtr E) : (leaf x : Node E H).word = Word.of x.addr := rfl

theorem word_branch (q : Branch H) (c0 c1 : Node E H) :
    (branch q c0 c1).word = Word.of q.addr + 1 := rfl

theorem word_ne_zero (n : Node E H) : n.word ≠ 0 := by
  cases n
  · exact Word.of_ne_zero _
  · exact Word.of_succ_ne_zero _

/-- What is in the memory of a branch. -/
def cell (q : Branch H) (p0 p1 : ℕ) : BranchCell H := ⟨p0, p1, q.byte, q.otherbits, q.hash⟩

theorem cell_byte (q : Branch H) (p0 p1 : ℕ) : (cell q p0 p1).byte = q.byte := rfl

theorem cell_otherbits (q : Branch H) (p0 p1 : ℕ) : (cell q p0 p1).otherbits = q.otherbits := rfl

theorem cell_direction (q : Branch H) (p0 p1 : ℕ) (keybytes : List UInt8) :
    (cell q p0 p1).direction keybytes =
      calculateDirection q.byte q.otherbits keybytes keybytes.length := rfl

theorem cell_child (q : Branch H) (p0 p1 : ℕ) (d : Bool) :
    (cell q p0 p1).child d = if d then p1 else p0 := rfl

/-- The heap stores the node and what is below it. -/
def Stored (h : Heap (Cell E H)) : Node E H → Prop
  | leaf x => Heap.load h x.addr = some (.elem x.val)
  | branch q c0 c1 =>
    Heap.load h q.addr = some (.branch (cell q c0.word c1.word)) ∧ c0.Stored h ∧ c1.Stored h

/-- How many branches there are above a leaf at most. -/
def depth : Node E H → ℕ
  | leaf _ => 0
  | branch _ c0 c1 => max c0.depth c1.depth + 1

theorem Stored.congr {h h' : Heap (Cell E H)} {n : Node E H} (hn : n.Stored h)
    (hh : Heap.Agree h h' n.addrs) : n.Stored h' := by
  induction n with
  | leaf x => exact (hh _ (by simp [addrs])).trans hn
  | branch q c0 c1 ih0 ih1 =>
    refine ⟨(hh _ (by simp [addrs])).trans hn.1, ih0 hn.2.1 (hh.mono ?_), ih1 hn.2.2 (hh.mono ?_)⟩
    · intro a ha
      simp [addrs, ha]
    · intro a ha
      simp [addrs, ha]

end Node

open Node (cell)

section load

variable {h : Heap (Cell E H)} {a : Addr}

theorem loadElem_of {val : E} (ha : Heap.load h a = some (.elem val)) :
    loadElem h (Word.of a) = some val := by
  simp [loadElem, ha]

theorem loadBranch_of {q : BranchCell H} (ha : Heap.load h a = some (.branch q)) :
    loadBranch h (Word.of a + 1) = some (a, q) := by
  simp [loadBranch, ha]

theorem freeElem_of {val : E} (ha : Heap.load h a = some (.elem val)) :
    freeElem h (Word.of a) = some (h.erase a) := by
  simp [freeElem, loadElem_of ha, Heap.free_of_load ha]

/-- `walkTreeForBestMember` finds the leaf that the recursion on the tree finds. -/
theorem walk_word {n : Node E H} (hn : n.Stored h) (keybytes : List UInt8) {rounds : ℕ}
    (hrounds : n.depth < rounds) :
    walk h keybytes rounds n.word =
      some (Word.of (n.walkTreeForBestMember keybytes keybytes.length).addr) := by
  induction n generalizing rounds with
  | leaf x =>
    obtain ⟨rounds, rfl⟩ : ∃ r, rounds = r + 1 := ⟨rounds - 1, by omega⟩
    simp [walk, Node.word, Node.walkTreeForBestMember]
  | branch q c0 c1 ih0 ih1 =>
    obtain ⟨rounds, rfl⟩ : ∃ r, rounds = r + 1 := ⟨rounds - 1, by omega⟩
    obtain ⟨hq, h0, h1⟩ := hn
    rw [Node.depth] at hrounds
    rw [Node.word, walk, Word.isBranch_of_succ, if_pos rfl, loadBranch_of hq, Option.bind_eq_bind,
      Option.bind_some]
    simp only [Node.cell_direction, Node.cell_child, Node.walkTreeForBestMember]
    have h0 := ih0 h0 (show c0.depth < rounds by omega)
    have h1 := ih1 h1 (show c1.depth < rounds by omega)
    by_cases hd : calculateDirection q.byte q.otherbits keybytes keybytes.length = true
    · rw [if_pos hd, if_pos hd, h1]
    · rw [if_neg hd, if_neg hd, h0]

theorem loadElem_mem {n : Node E H} (hn : n.Stored h) (keybytes : List UInt8) :
    Heap.load h (n.walkTreeForBestMember keybytes keybytes.length).addr =
      some (.elem (n.walkTreeForBestMember keybytes keybytes.length).val) := by
  induction n with
  | leaf x => exact hn
  | branch q c0 c1 ih0 ih1 =>
    simp only [Node.walkTreeForBestMember]
    split_ifs
    · exact ih1 hn.2.2
    · exact ih0 hn.2.1

end load

/-! ## Places -/

/-- A branch above a place, the direction that leads there, and the other child. -/
structure Frame (E H : Type) where
  q : Branch H
  d : Bool
  other : Node E H

def Frame.plug (f : Frame E H) (n : Node E H) : Node E H :=
  if f.d then .branch f.q f.other n else .branch f.q n f.other

/-- What is in the memory of the branch, with `w` at the place. -/
def Frame.cell (f : Frame E H) (w : ℕ) : BranchCell H :=
  if f.d then Node.cell f.q f.other.word w else Node.cell f.q w f.other.word

/-- The branches above a place, the nearest first. -/
abbrev Context (E H : Type) := List (Frame E H)

namespace Context

/-- The tree with a node at the place. -/
def plug : Context E H → Node E H → Node E H
  | [], n => n
  | f :: ctx, n => plug ctx (f.plug n)

/-- The slot of the place. -/
def slot : Context E H → Slot
  | [] => .root
  | f :: _ => .child f.q.addr f.d

/-- The addresses of the branches above, and of what hangs off them. -/
def addrs : Context E H → List Addr
  | [] => []
  | f :: ctx => f.q.addr :: (f.other.addrs ++ addrs ctx)

/-- The heap stores the branches above, with `w` at the place. -/
def Stored (h : Heap (Cell E H)) : Context E H → ℕ → Prop
  | [], _ => True
  | f :: ctx, w => Heap.load h f.q.addr = some (.branch (f.cell w)) ∧ f.other.Stored h ∧
      Stored h ctx (Word.of f.q.addr + 1)

variable {h h' : Heap (Cell E H)} {ctx : Context E H} {n n' : Node E H} {f : Frame E H} {w : ℕ}

theorem word_framePlug (f : Frame E H) (n : Node E H) : (f.plug n).word = Word.of f.q.addr + 1 := by
  unfold Frame.plug
  split_ifs <;> rfl

theorem stored_framePlug : (f.plug n).Stored h ↔
    Heap.load h f.q.addr = some (.branch (f.cell n.word)) ∧ f.other.Stored h ∧ n.Stored h := by
  unfold Frame.plug Frame.cell
  cases f.d
  · simp only [Bool.false_eq_true, if_false, Node.Stored, and_comm (a := n.Stored h)]
  · simp only [if_true, Node.Stored]

theorem stored_plug : (plug ctx n).Stored h ↔ Stored h ctx n.word ∧ n.Stored h := by
  induction ctx generalizing n with
  | nil => simp [plug, Stored]
  | cons f ctx ih =>
    rw [plug, ih, word_framePlug, stored_framePlug, Stored]
    tauto

theorem addrs_framePlug (f : Frame E H) (n : Node E H) :
    (f.plug n).addrs.Perm (f.q.addr :: (f.other.addrs ++ n.addrs)) := by
  unfold Frame.plug
  split_ifs
  · exact List.Perm.refl _
  · exact List.perm_append_comm.cons _

theorem addrs_plug (ctx : Context E H) (n : Node E H) :
    (plug ctx n).addrs.Perm (addrs ctx ++ n.addrs) := by
  induction ctx generalizing n with
  | nil => exact List.Perm.refl _
  | cons f ctx ih =>
    refine (ih (f.plug n)).trans ?_
    refine ((addrs_framePlug f n).append_left (addrs ctx)).trans ?_
    simp only [addrs, List.cons_append, List.append_assoc]
    refine List.perm_middle.trans (List.Perm.cons _ ?_)
    rw [← List.append_assoc, ← List.append_assoc]
    exact List.perm_append_comm.append_right _

theorem addrs_plug_framePlug (ctx : Context E H) (f : Frame E H) (n : Node E H) :
    (plug ctx (f.plug n)).addrs.Perm (f.q.addr :: (f.other.addrs ++ (plug ctx n).addrs)) := by
  refine List.perm_iff_count.mpr fun a => ?_
  have hplug := (addrs_plug ctx n).count_eq a
  have hframe := (addrs_framePlug f n).count_eq a
  have hboth := (addrs_plug ctx (f.plug n)).count_eq a
  simp only [List.count_cons, List.count_append] at hplug hframe hboth ⊢
  omega

/-- Without an element and the branch above it, its sibling is in the place of the branch. -/
theorem addrs_plug_other (ctx : Context E H) (f : Frame E H) (x : ValPtr E) :
    (plug (f :: ctx) (.leaf x)).addrs.Perm (x.addr :: f.q.addr :: (plug ctx f.other).addrs) := by
  refine List.perm_iff_count.mpr fun a => ?_
  have hleaf := (addrs_plug (f :: ctx) (.leaf x)).count_eq a
  have hother := (addrs_plug ctx f.other).count_eq a
  simp only [addrs, Node.addrs, List.count_cons, List.count_append, List.count_nil]
    at hleaf hother ⊢
  omega

/-- Below a branch the root of the tree does not depend on the place. -/
theorem word_plug (ctx : Context E H) (f : Frame E H) (n n' : Node E H) :
    (plug (f :: ctx) n).word = (plug (f :: ctx) n').word := by
  induction ctx generalizing f n n' with
  | nil => simp only [plug, word_framePlug]
  | cons g ctx ih => exact ih g (f.plug n) (f.plug n')

theorem Stored.congr (hctx : Stored h ctx w) (hh : Heap.Agree h h' (addrs ctx)) :
    Stored h' ctx w := by
  induction ctx generalizing w with
  | nil => trivial
  | cons f ctx ih =>
    refine ⟨(hh _ (by simp [addrs])).trans hctx.1, hctx.2.1.congr (hh.mono ?_),
      ih hctx.2.2 (hh.mono ?_)⟩
    · intro a ha
      simp [addrs, ha]
    · intro a ha
      simp [addrs, ha]

end Context

/-! ## Slots -/

namespace Frame

variable (f : Frame E H) (w : ℕ)

theorem cell_child : (f.cell w).child f.d = w := by
  unfold cell
  cases f.d <;> rfl

theorem cell_child_not : (f.cell w).child (!f.d) = f.other.word := by
  unfold cell
  cases f.d <;> rfl

theorem cell_setChild (w' : ℕ) : (f.cell w).setChild f.d w' = f.cell w' := by
  unfold cell
  cases f.d <;> rfl

end Frame

namespace HeapTree

open Context (plug slot)

variable [CritbitExt E H] {t : HeapTree E H} {ctx : Context E H} {n m : Node E H}

/-- The heap stores the tree that has `n` at the place, and nothing twice. -/
structure At (t : HeapTree E H) (ctx : Context E H) (n : Node E H) : Prop where
  root : t.root = (plug ctx n).word
  stored : (plug ctx n).Stored t.heap
  nodup : (plug ctx n).addrs.Nodup

theorem load_child {a : Addr} {q : BranchCell H} (d : Bool)
    (ha : Heap.load t.heap a = some (.branch q)) : t.load (.child a d) = some (q.child d) := by
  simp [load, ha]

theorem At.load (h : t.At ctx n) : t.load (slot ctx) = some n.word := by
  cases ctx with
  | nil => exact congrArg some h.root
  | cons f ctx =>
    have hcell := (Context.stored_plug.mp h.stored).1.1
    rw [slot, load_child f.d hcell, Frame.cell_child]

/-- What a store through the slot of a place does: the tree has another node there. -/
structure Stored (t : HeapTree E H) (ctx : Context E H) (m : Node E H) (t' : HeapTree E H) :
    Prop where
  at' : t'.At ctx m
  ext : t'.ext = t.ext
  uses : ∀ used, Heap.Uses t.heap used → Heap.Uses t'.heap used
  frame : ∀ a ∉ Context.addrs ctx, Heap.load t'.heap a = Heap.load t.heap a

/-- The node that was at the place need not be there any more. -/
theorem store_slot (hroot : t.root = (plug ctx n).word) (hctx : Context.Stored t.heap ctx n.word)
    (hm : m.Stored t.heap) (hnodup : (plug ctx m).addrs.Nodup) :
    ∃ t', t.store (slot ctx) m.word = some t' ∧ Stored t ctx m t' := by
  cases ctx with
  | nil =>
    exact ⟨{ t with root := m.word }, rfl, ⟨rfl, hm, hnodup⟩, rfl, fun _ hu => hu, fun _ _ => rfl⟩
  | cons f ctx =>
    obtain ⟨hcell, hother, hctx⟩ := hctx
    have hsplit := (Context.addrs_plug (f :: ctx) m).nodup_iff.mp hnodup
    simp only [Context.addrs, List.cons_append, List.nodup_cons, List.mem_append, not_or] at hsplit
    obtain ⟨⟨⟨hnother, hnctx⟩, hfm⟩, -⟩ := hsplit
    let heap := t.heap.insert f.q.addr (.branch (f.cell m.word))
    have hstore : t.store (slot (f :: ctx)) m.word = some { t with heap := heap } := by
      rw [slot, HeapTree.store]
      simp only [hcell, Frame.cell_setChild, Heap.store_of_load hcell, Option.map_some, heap]
    refine ⟨{ t with heap := heap }, hstore, ⟨?_, ?_, hnodup⟩, rfl, fun used hu => ?_,
      fun a ha => ?_⟩
    · exact hroot.trans (Context.word_plug ctx f n m)
    · refine Context.stored_plug.mpr ⟨⟨?_, ?_, ?_⟩, ?_⟩
      · exact Heap.load_insert _ _ _
      · exact hother.congr (Heap.agree_insert hnother)
      · exact hctx.congr (Heap.agree_insert hnctx)
      · exact hm.congr (Heap.agree_insert hfm)
    · exact hu.insert_of_mem ((hu _).mp (Heap.mem_of_load hcell))
    · refine Heap.load_insert_ne ?_
      rintro rfl
      exact ha (by simp [Context.addrs])

end HeapTree

end Turbolib
