import Turbolib.Critbit.HeapWalk

/-!
# The walks of the updates

The loops of `insert` and `remove` end at the places where the recursions of the tree
change it, and `clear` frees every block of a tree once.

## Main definitions

* `Node.placeFrom` — the place for a new branch.
* `Node.bestFrom` — the place of the best match.
-/

namespace Turbolib

open Cell (loadElem loadBranch freeElem walk clearFrom)
open Context (plug slot)

variable {E H : Type}

theorem Node.isBranch_word (n : Node E H) : Word.isBranch n.word = n.isBranch := by
  cases n
  · exact Word.isBranch_of _
  · exact Word.isBranch_of_succ _

section clear

/-- What is below a node is not in the heap any more. -/
theorem clearFrom_word {n : Node E H} {h : Heap (Cell E H)} (hn : n.Stored h)
    (hnodup : n.addrs.Nodup) {rounds : ℕ} (hrounds : n.depth < rounds) :
    ∃ h', clearFrom rounds n.word h = some h' ∧ Heap.Erased h h' n.addrs := by
  induction n generalizing h rounds with
  | leaf x =>
    obtain ⟨rounds, rfl⟩ : ∃ r, rounds = r + 1 := ⟨rounds - 1, by omega⟩
    refine ⟨h.erase x.addr, ?_, Heap.erased_erase h x.addr⟩
    rw [Node.word, clearFrom, Word.isBranch_of, if_neg Bool.false_ne_true, freeElem_of hn]
  | branch q c0 c1 ih0 ih1 =>
    obtain ⟨rounds, rfl⟩ : ∃ r, rounds = r + 1 := ⟨rounds - 1, by omega⟩
    rw [Node.depth] at hrounds
    obtain ⟨hq, h0, h1⟩ := hn
    simp only [Node.addrs, List.nodup_cons, List.mem_append, not_or, List.nodup_append'] at hnodup
    obtain ⟨⟨hq0, hq1⟩, hnodup0, hnodup1, hdisj⟩ := hnodup
    obtain ⟨h', hc0, he0⟩ := ih0 h0 hnodup0 (show c0.depth < rounds by omega)
    -- the first child is gone, the branch and the second child are still there
    have hq' : Heap.load h' q.addr = some (.branch (Node.cell q c0.word c1.word)) :=
      (he0.load hq0).trans hq
    obtain ⟨h'', hc1, he1⟩ := ih1 (h1.congr fun a ha => he0.load fun ha0 => hdisj ha0 ha) hnodup1
      (show c1.depth < rounds by omega)
    have hq'' : Heap.load h'' q.addr = some (.branch (Node.cell q c0.word c1.word)) :=
      (he1.load hq1).trans hq'
    refine ⟨h''.erase q.addr, ?_, ?_⟩
    · change clearFrom (rounds + 1) (Word.of q.addr + 1) h = _
      simp only [clearFrom, Word.isBranch_of_succ, if_true, loadBranch_of hq, Option.bind_eq_bind,
        Option.bind_some, Node.cell, hc0, loadBranch_of hq', hc1, Heap.free_of_load hq'']
    · refine ((he0.trans he1).trans (Heap.erased_erase h'' q.addr)).congr fun a => ?_
      simp only [Node.addrs, List.mem_append, List.mem_cons, List.not_mem_nil,
        or_false]
      tauto

end clear

variable [CritbitExt E H]

namespace Node

/-- The loop over `where_at`: the place it ends at, the node there, and the changes. -/
def placeFrom (keybytes : List UInt8) (newbyte : ℕ) (newotherbits : UInt8) :
    Node E H → Context E H → Changes E H → Context E H × Node E H × Changes E H
  | leaf x, ctx, changes => (ctx, leaf x, changes)
  | branch q c0 c1, ctx, changes =>
    if q.byte > newbyte then (ctx, branch q c0 c1, changes)
    else if q.byte = newbyte ∧ q.otherbits > newotherbits then (ctx, branch q c0 c1, changes)
    else if calculateDirection q.byte q.otherbits keybytes keybytes.length then
      c1.placeFrom keybytes newbyte newotherbits (⟨q, true, c0⟩ :: ctx) (pushChange q.addr changes)
    else
      c0.placeFrom keybytes newbyte newotherbits (⟨q, false, c1⟩ :: ctx) (pushChange q.addr changes)

/-- The loop of `remove` does not push the branch above the best match. -/
def pushParent (q : Branch H) (child : Node E H) (changes : Changes E H) : Changes E H :=
  if child.isBranch then pushChange q.addr changes else changes

/-- The loop of `remove`: the place of the best match, the best match, and the changes. -/
def bestFrom (keybytes : List UInt8) :
    Node E H → Context E H → Changes E H → Context E H × ValPtr E × Changes E H
  | leaf x, ctx, changes => (ctx, x, changes)
  | branch q c0 c1, ctx, changes =>
    if calculateDirection q.byte q.otherbits keybytes keybytes.length then
      c1.bestFrom keybytes (⟨q, true, c0⟩ :: ctx) (pushParent q c1 changes)
    else c0.bestFrom keybytes (⟨q, false, c1⟩ :: ctx) (pushParent q c0 changes)

section place

variable (keybytes : List UInt8) (newbyte : ℕ) (newotherbits : UInt8)

theorem plug_placeFrom (n : Node E H) (ctx : Context E H) (changes : Changes E H) :
    plug (n.placeFrom keybytes newbyte newotherbits ctx changes).1
      (n.placeFrom keybytes newbyte newotherbits ctx changes).2.1 = plug ctx n := by
  induction n generalizing ctx changes with
  | leaf x => rfl
  | branch q c0 c1 ih0 ih1 =>
    rw [placeFrom]
    split_ifs
    · rfl
    · rfl
    · exact ih1 _ _
    · exact ih0 _ _

/-- The recursion puts the new branch where the loop ends. -/
theorem plug_spliceAt (newnode : Node E H → Node E H) (n : Node E H) (ctx : Context E H)
    (changes : Changes E H) :
    plug ctx (n.spliceAt keybytes newbyte newotherbits newnode changes).1 =
        plug (n.placeFrom keybytes newbyte newotherbits ctx changes).1
          (newnode (n.placeFrom keybytes newbyte newotherbits ctx changes).2.1) ∧
      (n.spliceAt keybytes newbyte newotherbits newnode changes).2 =
        (n.placeFrom keybytes newbyte newotherbits ctx changes).2.2 := by
  induction n generalizing ctx changes with
  | leaf x => exact ⟨rfl, rfl⟩
  | branch q c0 c1 ih0 ih1 =>
    simp only [placeFrom, spliceAt]
    split_ifs
    · exact ⟨rfl, rfl⟩
    · exact ⟨rfl, rfl⟩
    · exact ih1 (⟨q, true, c0⟩ :: ctx) (pushChange q.addr changes)
    · exact ih0 (⟨q, false, c1⟩ :: ctx) (pushChange q.addr changes)

end place

section best

variable (keybytes : List UInt8)

theorem plug_bestFrom (n : Node E H) (ctx : Context E H) (changes : Changes E H) :
    plug (n.bestFrom keybytes ctx changes).1 (leaf (n.bestFrom keybytes ctx changes).2.1) =
      plug ctx n := by
  induction n generalizing ctx changes with
  | leaf x => rfl
  | branch q c0 c1 ih0 ih1 =>
    rw [bestFrom]
    split_ifs
    · exact ih1 _ _
    · exact ih0 _ _

/-- The recursion and the loop of `remove` find the same best match, and when there is a
branch above it the recursion leaves its other child there. -/
structure MatchAt (ctx : Context E H) (m : BestMatch E H)
    (r : Context E H × ValPtr E × Changes E H) : Prop where
  best : m.best = r.2.1
  changes : m.changes = r.2.2
  rest : (r.1 = ctx ∧ m.rest = none) ∨
    ∃ f above rest, r.1 = f :: above ∧ m.rest = some rest ∧ plug above f.other = plug ctx rest

theorem MatchAt.up {f : Frame E H} {ctx : Context E H} {m : BestMatch E H}
    {r : Context E H × ValPtr E × Changes E H} (h : MatchAt (f :: ctx) m r) :
    MatchAt ctx (match m.rest with
      | none => { m with parent := some f.q.addr, rest := some f.other }
      | some child => { m with rest := some (f.plug child) }) r := by
  rcases h.rest with ⟨hr, hrest⟩ | ⟨g, above, rest, hr, hrest, hplug⟩
  · rw [hrest]
    exact ⟨h.best, h.changes, Or.inr ⟨f, ctx, f.other, hr, rfl, rfl⟩⟩
  · rw [hrest]
    exact ⟨h.best, h.changes, Or.inr ⟨g, above, f.plug rest, hr, rfl, hplug⟩⟩

theorem matchAt_bestFrom (n : Node E H) (ctx : Context E H) (changes : Changes E H) :
    MatchAt ctx (n.findBestMatch keybytes keybytes.length changes)
      (n.bestFrom keybytes ctx changes) := by
  induction n generalizing ctx changes with
  | leaf x => exact ⟨rfl, rfl, Or.inl ⟨rfl, rfl⟩⟩
  | branch q c0 c1 ih0 ih1 =>
    rw [findBestMatch, bestFrom]
    by_cases hd : calculateDirection q.byte q.otherbits keybytes keybytes.length = true
    · rw [if_pos hd, if_pos hd]
      exact (ih1 (⟨q, true, c0⟩ :: ctx) (pushParent q c1 changes)).up
    · rw [if_neg hd, if_neg hd]
      exact (ih0 (⟨q, false, c1⟩ :: ctx) (pushParent q c0 changes)).up

end best

end Node

/-! ## The loops -/

namespace HeapTree

open Node (placeFrom bestFrom pushParent)

variable {t : HeapTree E H} {ctx : Context E H} {n : Node E H}

theorem At.loadBranch {q : Branch H} {c0 c1 : Node E H} (h : t.At ctx (.branch q c0 c1)) :
    loadBranch t.heap (Word.of q.addr + 1) = some (q.addr, Node.cell q c0.word c1.word) :=
  loadBranch_of (Context.stored_plug.mp h.stored).2.1

theorem findPlace_eq (keybytes : List UInt8) (newbyte : ℕ) (newotherbits : UInt8) {rounds : ℕ}
    (h : t.At ctx n) (hrounds : n.depth < rounds) (changes : Changes E H) :
    t.findPlace keybytes newbyte newotherbits rounds (slot ctx) changes =
      let r := n.placeFrom keybytes newbyte newotherbits ctx changes
      some (slot r.1, r.2.2) := by
  induction n generalizing ctx rounds changes with
  | leaf x =>
    obtain ⟨rounds, rfl⟩ : ∃ r, rounds = r + 1 := ⟨rounds - 1, by omega⟩
    rw [findPlace, h.load, Option.bind_eq_bind, Option.bind_some, Node.isBranch_word]
    rfl
  | branch q c0 c1 ih0 ih1 =>
    obtain ⟨rounds, rfl⟩ : ∃ r, rounds = r + 1 := ⟨rounds - 1, by omega⟩
    rw [Node.depth] at hrounds
    have h0 : t.At (⟨q, false, c1⟩ :: ctx) c0 := ⟨h.root, h.stored, h.nodup⟩
    have h1 : t.At (⟨q, true, c0⟩ :: ctx) c1 := ⟨h.root, h.stored, h.nodup⟩
    have ih0 := ih0 h0 (show c0.depth < rounds by omega) (pushChange q.addr changes)
    have ih1 := ih1 h1 (show c1.depth < rounds by omega) (pushChange q.addr changes)
    rw [findPlace, h.load, Option.bind_eq_bind, Option.bind_some, Node.isBranch_word]
    simp only [Node.isBranch, Node.word_branch, if_true, h.loadBranch, Option.bind_eq_bind,
      Option.bind_some, placeFrom, Node.cell_byte, Node.cell_otherbits, Node.cell_direction]
    by_cases hbyte : q.byte > newbyte
    · simp only [hbyte, if_true]
    by_cases hbits : q.byte = newbyte ∧ q.otherbits > newotherbits
    · simp only [hbyte, if_false, eq_true hbits, if_true]
    simp only [hbyte, if_false, hbits]
    cases hd : calculateDirection q.byte q.otherbits keybytes keybytes.length with
    | true => exact ih1
    | false => exact ih0

/-- The locals of `remove` at a place. -/
def Removal.atPlace (ctx : Context E H) (best : ℕ) (changes : Changes E H) : Removal E H where
  best := best
  whereBest := slot ctx
  parent := ctx.head?.map (·.q.addr)
  whereParent := match ctx with
    | [] => none
    | _ :: above => some (slot above)
  direction := match ctx with
    | [] => false
    | f :: _ => f.d
  changes := changes

theorem findBest_eq (keybytes : List UInt8) {rounds : ℕ} (h : t.At ctx n)
    (hrounds : n.depth < rounds) (changes : Changes E H) :
    t.findBest keybytes rounds (.atPlace ctx n.word changes) =
      let r := n.bestFrom keybytes ctx changes
      some (.atPlace r.1 (Word.of r.2.1.addr) r.2.2) := by
  induction n generalizing ctx rounds changes with
  | leaf x =>
    obtain ⟨rounds, rfl⟩ : ∃ r, rounds = r + 1 := ⟨rounds - 1, by omega⟩
    refine if_neg ?_
    change ¬ Word.isBranch (Word.of x.addr) = true
    simp
  | branch q c0 c1 ih0 ih1 =>
    obtain ⟨rounds, rfl⟩ : ∃ r, rounds = r + 1 := ⟨rounds - 1, by omega⟩
    rw [Node.depth] at hrounds
    have h0 : t.At (⟨q, false, c1⟩ :: ctx) c0 := ⟨h.root, h.stored, h.nodup⟩
    have h1 : t.At (⟨q, true, c0⟩ :: ctx) c1 := ⟨h.root, h.stored, h.nodup⟩
    have ih0 := ih0 h0 (show c0.depth < rounds by omega) (pushParent q c0 changes)
    have ih1 := ih1 h1 (show c1.depth < rounds by omega) (pushParent q c1 changes)
    have hload0 : t.load (.child q.addr false) = some c0.word := h0.load
    have hload1 : t.load (.child q.addr true) = some c1.word := h1.load
    rw [findBest, bestFrom]
    simp only [Removal.atPlace, Node.word_branch, Word.isBranch_of_succ, if_true, h.loadBranch,
      Option.bind_eq_bind, Option.bind_some, Node.cell_direction]
    cases hd : calculateDirection q.byte q.otherbits keybytes keybytes.length with
    | true =>
      simp only [hload1, Option.bind_some, if_true, Node.isBranch_word]
      exact ih1
    | false =>
      simp only [hload0, Option.bind_some, Bool.false_eq_true, if_false, Node.isBranch_word]
      exact ih0

end HeapTree

end Turbolib
