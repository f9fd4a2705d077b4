import Turbolib.Library.Deque
import Mathlib.Data.UInt

/-!
# Bounded vector clocks

`bounded_version_vector` and `bounded_time_vector` differ in what a clock holds
beside its key and in how two clocks of a key compare; the rest of the code is
the same text. `ClockOps` is that difference, and the functions below are
written once over it. A vector is its deque `_clocks`, the most recent first.

Positions in the deque are natural numbers here and `unsigned` in the source,
which is the same for fewer than `2 ^ 32` clocks.
-/

namespace Turbolib

/-- A clock as the containers and the comparisons see it. -/
class ClockOps (C : Type) (K : outParam Type) where
  key : C → K
  clockLessThan : C → C → Bool
  clockLessThanEquals : C → C → Bool
  lessThan_irrefl : ∀ a, clockLessThan a a = false
  lessThan_trans : ∀ a b c, clockLessThan a b = true → clockLessThan b c = true →
    clockLessThan a c = true
  lessThanEquals_eq : ∀ a b, clockLessThanEquals a b = !clockLessThan b a
  eq_of_not_lessThan : ∀ a b, key a = key b → clockLessThan a b = false →
    clockLessThan b a = false → a = b

export ClockOps (key clockLessThan clockLessThanEquals)

/-- `bounded_version_vector::clock`, compared by `count`. -/
structure VersionClock (K : Type) where
  key : K
  count : UInt32
deriving DecidableEq

instance {K : Type} : ClockOps (VersionClock K) K where
  key c := c.key
  clockLessThan a b := a.count < b.count
  clockLessThanEquals a b := a.count ≤ b.count
  lessThan_irrefl a := by simp
  lessThan_trans a b c hab hbc := by
    simp only [decide_eq_true_eq] at hab hbc ⊢
    exact UInt32.lt_trans hab hbc
  lessThanEquals_eq a b := by
    rw [← decide_not, decide_eq_decide, UInt32.not_lt]
  eq_of_not_lessThan a b hk hab hba := by
    simp only [decide_eq_false_iff_not, UInt32.not_lt] at hab hba
    cases a
    cases b
    simp only [VersionClock.mk.injEq]
    exact ⟨hk, UInt32.le_antisymm hba hab⟩

/-- `bounded_time_vector::clock`. -/
structure TimeClock (K : Type) where
  key : K
  time : UInt64
  count : UInt16
deriving DecidableEq

namespace TimeClock

variable {K : Type}

/-- `clockLessThan`. -/
def lessThan (a b : TimeClock K) : Bool :=
  a.time < b.time || (a.time == b.time && a.count < b.count)

/-- `clockLessThanEquals`. -/
def lessThanEquals (a b : TimeClock K) : Bool :=
  a.time < b.time || (a.time == b.time && a.count ≤ b.count)

theorem lessThan_iff {a b : TimeClock K} : a.lessThan b = true ↔
    a.time.toNat < b.time.toNat ∨ a.time.toNat = b.time.toNat ∧ a.count.toNat < b.count.toNat := by
  simp [lessThan, UInt64.lt_iff_toNat_lt, UInt16.lt_iff_toNat_lt, UInt64.toNat_inj]

theorem lessThanEquals_iff {a b : TimeClock K} : a.lessThanEquals b = true ↔
    a.time.toNat < b.time.toNat ∨ a.time.toNat = b.time.toNat ∧ a.count.toNat ≤ b.count.toNat := by
  simp [lessThanEquals, UInt64.lt_iff_toNat_lt, UInt16.le_iff_toNat_le, UInt64.toNat_inj]

end TimeClock

instance {K : Type} : ClockOps (TimeClock K) K where
  key c := c.key
  clockLessThan := TimeClock.lessThan
  clockLessThanEquals := TimeClock.lessThanEquals
  lessThan_irrefl a := by simp [TimeClock.lessThan]
  lessThan_trans a b c hab hbc := by
    rw [TimeClock.lessThan_iff] at hab hbc ⊢
    omega
  lessThanEquals_eq a b := by
    rw [Bool.eq_iff_iff, Bool.not_eq_true', Bool.eq_false_iff, ne_eq, TimeClock.lessThanEquals_iff,
      TimeClock.lessThan_iff]
    omega
  eq_of_not_lessThan a b hk hab hba := by
    rw [Bool.eq_false_iff, ne_eq, TimeClock.lessThan_iff] at hab hba
    have ht : a.time = b.time := UInt64.toNat_inj.mp (by omega)
    have hc : a.count = b.count := UInt16.toNat_inj.mp (by omega)
    cases a
    cases b
    simp only [TimeClock.mk.injEq]
    exact ⟨hk, ht, hc⟩

/-- `enum COMPARE`. -/
inductive Compare where
  | equal
  | lessThan
  | greaterThan
  | conflict
deriving DecidableEq

namespace Compare

/-- The enumeration's values, on which `compare` works bit by bit. -/
def EQUAL : ℕ := 0
def LESS_THAN : ℕ := 1
def GREATER_THAN : ℕ := 2

/-- `(COMPARE)result`. -/
def ofBits (result : ℕ) : Compare :=
  if result = EQUAL then equal
  else if result = LESS_THAN then lessThan
  else if result = GREATER_THAN then greaterThan
  else conflict

end Compare

namespace BoundedVector

variable {C K : Type} [ClockOps C K] [DecidableEq K]

/-- `std::find`: clocks are equal when their keys are. The position comes with the clock there. -/
def find : List C → C → Option (ℕ × C)
  | [], _ => none
  | c :: clocks, elem =>
    if key c = key elem then some (0, c)
    else (find clocks elem).map fun it => (it.1 + 1, it.2)

/-! ## merge -/

/-- The loop of `reorient`, from round `i` with `left` rounds to go. -/
def reorientFrom (additions : ℕ) : (left i : ℕ) → List C → Option (List C)
  | 0, _, clocks => some clocks
  | left + 1, i, clocks =>
    match Deque.moveUp clocks (additions + i) (2 * i) with
    | none => none
    | some clocks => reorientFrom additions left (i + 1) clocks

/-- `total-additions`, where it is used: an `unsigned` difference. -/
def remaining (additions total : ℕ) : ℕ :=
  if additions ≤ total then total - additions else 2 ^ 32 + total - additions

/-- `reorient`. -/
def reorient (additions total : ℕ) (clocks : List C) : Option (List C) :=
  reorientFrom additions (min additions (remaining additions total)) 0 clocks

/-- The locals of `merge`. -/
structure MergeState (C : Type) where
  clocks : List C
  noMatch : Bool
  prevIndex : ℕ
deriving DecidableEq

/-- One round of the loop of `merge`. -/
def mergeStep (s : MergeState C) (it : C) : Option (MergeState C) :=
  match find s.clocks it with
  | none =>
    (Deque.insertAt s.clocks s.prevIndex it).map fun clocks =>
      { s with clocks := clocks, prevIndex := s.prevIndex + 1 }
  | some (currentIndex, current) =>
    if clockLessThan current it then
      (Deque.eraseAt s.clocks currentIndex).bind fun clocks =>
        (Deque.insertAt clocks s.prevIndex it).map fun clocks =>
          { s with clocks := clocks, prevIndex := s.prevIndex + 1 }
    else
      (if s.noMatch then reorient s.prevIndex currentIndex s.clocks else some s.clocks).map
        fun clocks =>
          { clocks := clocks
            noMatch := false
            prevIndex := if s.prevIndex ≤ currentIndex then currentIndex + 1 else s.prevIndex }

/-- The loop of `merge`. -/
def mergeLoop : MergeState C → List C → Option (MergeState C)
  | s, [] => some s
  | s, it :: other => (mergeStep s it).bind fun s => mergeLoop s other

/-- `merge` up to the truncation to `_limit`. -/
def mergeAll (clocks other : List C) : Option (List C) :=
  (mergeLoop ⟨clocks, true, 0⟩ other).bind fun s =>
    if s.noMatch then reorient other.length s.clocks.length s.clocks else some s.clocks

/-- `while (_clocks.size() > _limit) _clocks.pop_back();` -/
def truncate (limit : ℕ) (clocks : List C) : List C :=
  List.dropLast^[clocks.length - limit] clocks

/-- `merge`. -/
def merge (limit : ℕ) (clocks other : List C) : Option (List C) :=
  (mergeAll clocks other).map (truncate limit)

/-! ## compare -/

/-- `findElem`. -/
def findElem (clocks : List C) (elem : C) : Option ℕ :=
  match find clocks elem with
  | none => none
  | some (i, it) => if clockLessThanEquals it elem then some i else none

/-- The loop of `findEnd` over the rest of the candidates. -/
def findEndFrom (clocks : List C) : List C → ℕ
  | [] => clocks.length
  | next :: candidates =>
    match findElem clocks next with
    | some i => i
    | none => findEndFrom clocks candidates

/-- `findEnd`: the position that `clocks` is cut at. -/
def findEnd (limit : ℕ) (clocks candidates : List C) : ℕ :=
  if candidates.length ≥ limit then
    findEndFrom clocks (candidates.drop (candidates.length - limit / 2))
  else clocks.length

/-- `std::set<clock>` filled from a range: a key that is there already is not
inserted again. The order of the elements plays no role in `compare`. -/
def toSet (clocks : List C) : List C :=
  clocks.foldl (fun s c => if s.any (fun d => key d = key c) then s else s ++ [c]) []

/-- The loop of `compare` over `first`, with the rest of `second` and the result so far. -/
def compareLoop : List C → List C → ℕ → ℕ
  | [], second, result => if second.isEmpty then result else result ||| Compare.LESS_THAN
  | it :: first, second, result =>
    match find second it with
    | none => compareLoop first second (result ||| Compare.GREATER_THAN)
    | some (i, other) =>
      compareLoop first (second.eraseIdx i)
        (if clockLessThan it other then result ||| Compare.LESS_THAN
        else if clockLessThan other it then result ||| Compare.GREATER_THAN
        else result)

/-- `compare(lesser, greater)`. -/
def compareBits (limit : ℕ) (lesser greater : List C) : ℕ :=
  let lesserEnd := findEnd limit lesser greater
  let greaterEnd := findEnd limit greater lesser
  compareLoop (toSet (lesser.take lesserEnd)) (toSet (greater.take greaterEnd)) Compare.EQUAL

/-- `compare(other)`. -/
def compare (limit : ℕ) (clocks other : List C) : Compare :=
  if clocks.length > other.length then
    let result := compareBits limit other clocks
    let result :=
      if result = Compare.GREATER_THAN then Compare.LESS_THAN
      else if result = Compare.LESS_THAN then Compare.GREATER_THAN
      else result
    .ofBits (result ||| Compare.GREATER_THAN)
  else .ofBits (compareBits limit clocks other)

end BoundedVector

end Turbolib
