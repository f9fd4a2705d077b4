import Turbolib.Critbit.Operations
import Turbolib.Library.Scan

/-!
# Enumeration

`enumerate` of `critbit_tree.h`, with `strnncmp` of `cstrfun.h`. A callback may
change anything it can reach, so it is a function on the states `σ` of the rest of
the program, with the answer whether to go on.
-/

namespace Turbolib

open BitString

/-! ## The code -/

/-- The loop of `strncmp`, of whose result only the sign is specified. -/
def strncmpFrom (left right : List UInt8) : (n i : ℕ) → Ordering
  | 0, _ => .eq
  | n + 1, i =>
    if byteAt left i < byteAt right i then .lt
    else if byteAt right i < byteAt left i then .gt
    else if byteAt left i = 0 then .eq
    else strncmpFrom left right n (i + 1)

/-- `strnncmp`. -/
def strnncmp (left : List UInt8) (leftLen : ℕ) (right : List UInt8) (rightLen : ℕ) : Ordering :=
  match strncmpFrom left right (min leftLen rightLen) 0 with
  | .eq => if leftLen = rightLen then .eq else if leftLen < rightLen then .lt else .gt
  | res => res

/-- The states of the traversal. -/
inductive EnumerateState where
  | stop
  | searching
  | found
deriving DecidableEq

namespace Node

variable {E H : Type}

/-- The loop that looks for the parent of the branch a missing key would hang at:
the last branch on the key's way that is not past the critical bit. -/
def hypotheticalParent (keybytes : List UInt8) (newbyte : ℕ) (newotherbits : UInt8) :
    (parent node : Node E H) → Node E H
  | parent, leaf _ => parent
  | parent, branch q c0 c1 =>
    if q.byte > newbyte then parent
    else if q.byte = newbyte ∧ q.otherbits > newotherbits then parent
    else if calculateDirection q.byte q.otherbits keybytes keybytes.length then
      hypotheticalParent keybytes newbyte newotherbits (branch q c0 c1) c1
    else hypotheticalParent keybytes newbyte newotherbits (branch q c0 c1) c0

/-- Visit a leaf. -/
def enumerateFound {σ : Type} (visit : E → σ → σ × Bool) (stop : ValPtr E) (excludeStop : Bool)
    (x : ValPtr E) (s : σ) : σ × EnumerateState :=
  if excludeStop && x.addr == stop.addr then (s, .stop)
  else
    let (s, go) := visit x.val s
    if !go then (s, .stop)
    else if x.addr == stop.addr then (s, .stop)
    else (s, .found)

/-- The `switch` at a leaf. -/
def enumerateLeaf {σ : Type} (visit : E → σ → σ × Bool) (start stop : ValPtr E)
    (excludeStop : Bool) (x : ValPtr E) : EnumerateState → σ → σ × EnumerateState
  | .searching, s =>
    if x.addr != start.addr then (s, .searching) else enumerateFound visit stop excludeStop x s
  | .found, s => enumerateFound visit stop excludeStop x s
  | .stop, s => (s, .stop)

/-- `enumerate(fun, top, start, stop, excludeStop, state)`. -/
def enumerate {σ : Type} (visit : E → σ → σ × Bool) (start stop : ValPtr E)
    (excludeStop : Bool) : Node E H → EnumerateState → σ → σ × EnumerateState
  | leaf x, state, s => enumerateLeaf visit start stop excludeStop x state s
  | branch _ c0 c1, state, s =>
    let (s, state) := c0.enumerate visit start stop excludeStop state s
    if state ≠ .stop then c1.enumerate visit start stop excludeStop state s else (s, .stop)

/-- `enumerate(fun, top)`. -/
def enumerateAll {σ : Type} (visit : E → σ → σ × Bool) : Node E H → σ → σ × Bool
  | leaf x, s => visit x.val s
  | branch _ c0 c1, s =>
    let (s, go) := c0.enumerateAll visit s
    if go then c1.enumerateAll visit s else (s, false)

variable [CritbitElemOps E]

/-- The leaf that the enumeration starts at, from `walkTreeForBestMember(top, firstkey,
firstlen)` on; `none` where it returns. -/
def rangeStart (firstkey : List UInt8) (top : Node E H) : Option (ValPtr E) :=
  let start := top.walkTreeForBestMember firstkey firstkey.length
  let startKey := keyBytes start.val
  match findCriticalBit startKey startKey.length firstkey firstkey.length with
  | none => some start
  | some c =>
    if c.newdirection then some start
    else
      match hypotheticalParent firstkey c.newbyte c.newotherbits top top with
      | leaf _ => none
      | branch _ _ c1 => some c1.beginLeaf

/-- The leaf that the enumeration stops at, from `walkTreeForBestMember(top, lastkey,
lastlen)` on. -/
def rangeStop (lastkey : List UInt8) (top : Node E H) : ValPtr E :=
  let stop := top.walkTreeForBestMember lastkey lastkey.length
  let stopKey := keyBytes stop.val
  match findCriticalBit stopKey stopKey.length lastkey lastkey.length with
  | none => stop
  | some c =>
    if c.newdirection then
      match hypotheticalParent lastkey c.newbyte c.newotherbits top top with
      | leaf _ => stop
      | branch _ c0 _ => c0.endLeaf
    else stop

end Node

namespace CritbitTree

variable {E H : Type} [CritbitExt E H] [CritbitElemOps E]

/-- The subtree that `enumerate(fun, first, last)` looks at. `diffbyte+1` is a
`uint32_t`, so it is never the default length. -/
def rangeTop (t : CritbitTree E H) (first last : E) : Option (Node E H) :=
  match findCriticalBit (keyBytes first) (keyBytes first).length
      (keyBytes last) (keyBytes last).length with
  | none => t.subtree first 0 defaultKeylen
  | some c => t.subtreeOf first (smear (c.newotherbits ^^^ 0xFF)) (c.newbyte + 1)

/-- `enumerate(fun, first, last)`. -/
def enumerate {σ : Type} (t : CritbitTree E H) (visit : E → σ → σ × Bool) (first last : E)
    (s : σ) : σ :=
  match t.rangeTop first last with
  | none => s
  | some top =>
    match top.rangeStart (keyBytes first) with
    | none => s
    | some start =>
      let stop := top.rangeStop (keyBytes last)
      let excludeStop := strnncmp (keyBytes stop.val) (keyBytes stop.val).length
        (keyBytes last) (keyBytes last).length == .gt
      (top.enumerate visit start stop excludeStop .searching s).1

end CritbitTree

/-! ## The traversal is a scan of the leaves -/

/-- Call `visit` on the elements in turn, up to the first call that returns false. -/
def feed {E σ : Type} (visit : E → σ → σ × Bool) : List E → σ → σ
  | [], s => s
  | x :: xs, s =>
    let (s, go) := visit x s
    if go then feed visit xs s else s

/-- Calls that record their arguments tell two lists apart. -/
theorem eq_of_feed {E : Type} {xs ys : List E}
    (h : ∀ (σ : Type) (visit : E → σ → σ × Bool) (s : σ), feed visit xs s = feed visit ys s) :
    xs = ys := by
  have hlog : ∀ zs log : List E, feed (fun x log => (log ++ [x], true)) zs log = log ++ zs := by
    intro zs
    induction zs with
    | nil => simp [feed]
    | cons z zs ih => simp [feed, ih]
  simpa [hlog] using h (List E) (fun x log => (log ++ [x], true)) []

namespace Node

variable {E H σ : Type} (visit : E → σ → σ × Bool) (start stop : ValPtr E) (excludeStop : Bool)

/-- The traversal over the list of the leaves. -/
def enumerateLeaves : List (ValPtr E) → EnumerateState → σ → σ × EnumerateState
  | [], state, s => (s, state)
  | x :: xs, state, s =>
    let (s, state) := enumerateLeaf visit start stop excludeStop x state s
    if state ≠ .stop then enumerateLeaves xs state s else (s, .stop)

variable {visit start stop excludeStop}

theorem enumerateLeaves_stop (xs : List (ValPtr E)) (s : σ) :
    enumerateLeaves visit start stop excludeStop xs .stop s = (s, .stop) := by
  cases xs with
  | nil => rfl
  | cons x xs => simp [enumerateLeaves, enumerateLeaf]

theorem enumerateLeaves_append (xs ys : List (ValPtr E)) (state : EnumerateState) (s : σ) :
    enumerateLeaves visit start stop excludeStop (xs ++ ys) state s =
      let r := enumerateLeaves visit start stop excludeStop xs state s
      enumerateLeaves visit start stop excludeStop ys r.2 r.1 := by
  induction xs generalizing state s with
  | nil => rfl
  | cons x xs ih =>
    simp only [List.cons_append, enumerateLeaves]
    split_ifs
    · exact ih _ _
    · rw [enumerateLeaves_stop]

theorem enumerate_eq_leaves (n : Node E H) (state : EnumerateState) (s : σ) :
    n.enumerate visit start stop excludeStop state s =
      enumerateLeaves visit start stop excludeStop n.leaves state s := by
  induction n generalizing state s with
  | leaf x =>
    simp only [enumerate, leaves_leaf, enumerateLeaves]
    split_ifs with h
    · rfl
    · rw [not_not] at h
      rw [← h]
  | branch q c0 c1 ih0 ih1 =>
    simp only [enumerate, leaves_branch, enumerateLeaves_append, ih0, ih1]
    split_ifs with h
    · rfl
    · rw [not_not] at h
      rw [h, enumerateLeaves_stop]

variable (visit start stop excludeStop) in
theorem enumerateLeaves_found (xs : List (ValPtr E)) (s : σ) :
    (enumerateLeaves visit start stop excludeStop xs .found s).1 =
      feed visit ((Scan.upTo (fun x => x.addr == stop.addr) excludeStop xs).map ValPtr.val) s := by
  induction xs generalizing s with
  | nil => rfl
  | cons x xs ih =>
    by_cases hx : x.addr = stop.addr
    · cases excludeStop with
      | true => simp [enumerateLeaves, enumerateLeaf, enumerateFound, Scan.upTo, feed, hx]
      | false =>
        cases hgo : (visit x.val s).2 <;>
          simp [enumerateLeaves, enumerateLeaf, enumerateFound, Scan.upTo, feed, hx, hgo]
    · cases hgo : (visit x.val s).2 with
      | false => simp [enumerateLeaves, enumerateLeaf, enumerateFound, Scan.upTo, feed, hx, hgo]
      | true => simp [enumerateLeaves, enumerateLeaf, enumerateFound, Scan.upTo, feed, hx, hgo, ih]

theorem enumerateLeaves_searching (xs : List (ValPtr E)) (s : σ) :
    (enumerateLeaves visit start stop excludeStop xs .searching s).1 =
      feed visit ((Scan.scan (fun x => x.addr == start.addr) (fun x => x.addr == stop.addr)
        excludeStop xs).map ValPtr.val) s := by
  induction xs generalizing s with
  | nil => rfl
  | cons x xs ih =>
    rw [Scan.scan]
    by_cases hx : x.addr = start.addr
    · -- from here on the traversal goes on as if it had been in the range before
      have hleaf : enumerateLeaf visit start stop excludeStop x .searching s =
          enumerateLeaf visit start stop excludeStop x .found s := by
        simp [enumerateLeaf, hx]
      have hfound := enumerateLeaves_found visit start stop excludeStop (x :: xs) s
      rw [if_pos (by simp [hx]), ← hfound, enumerateLeaves, enumerateLeaves, hleaf]
    · rw [if_neg (by simp [hx]), ← ih]
      simp [enumerateLeaves, enumerateLeaf, hx]

/-- The calls that the traversal makes. -/
theorem enumerate_eq_feed (n : Node E H) (s : σ) :
    (n.enumerate visit start stop excludeStop .searching s).1 =
      feed visit ((Scan.scan (fun x => x.addr == start.addr) (fun x => x.addr == stop.addr)
        excludeStop n.leaves).map ValPtr.val) s := by
  rw [enumerate_eq_leaves, enumerateLeaves_searching]

end Node

end Turbolib
