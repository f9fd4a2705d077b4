import Turbolib.HashRing.Ring
import Mathlib.Data.Set.Insert

/-!
# Joining and leaving

A hash ring under any requests. What it has at a position is what the last request for that
position left there, and a hash changes its owner only for a reason: the old owner was removed,
or the new one has joined. A subscript that is only read joins as well, with a default value.

## Main definitions

* `HashRing.subscript` — `ring[key]`.
* `HashRing.run` — any requests, in order.
* `members` — what the requests leave at each position.
* `HashRing.Joins`, `HashRing.Leaves` — a request that brings a node, or takes one away.
-/

namespace Turbolib

/-! ## The entries of a ring as a map -/

section

variable {N K V : Type*} [LinearOrder K] {ring : HashRing N K V} {m : K → Option V}

/-- The ring has at each position what the map has there. -/
def HashRing.Represents (ring : HashRing N K V) (m : K → Option V) : Prop :=
  ∀ e, e ∈ ring.map.entries ↔ m e.1 = some e.2

namespace HashRing

theorem mem_subscriptAssign {n : N} {v : V} {e : K × V} :
    e ∈ (ring.subscriptAssign n v).map.entries ↔
      e = (ring.hash n, v) ∨ (e ∈ ring.map.entries ∧ e.1 ≠ ring.hash n) :=
  OrderedMap.mem_assign

theorem Represents.assign (hm : ring.Represents m) (n : N) (v : V) :
    (ring.subscriptAssign n v).Represents (Function.update m (ring.hash n) (some v)) := by
  intro e
  rw [mem_subscriptAssign, hm e, Function.update_apply, Prod.ext_iff]
  grind

theorem Represents.remove (hm : ring.Represents m) (n : N) :
    (ring.remove n).1.Represents (Function.update m (ring.hash n) none) := by
  intro e
  rw [mem_remove, hm e, Function.update_apply]
  grind

theorem Represents.positions_eq (hm : ring.Represents m) :
    ring.positions = {p | m p ≠ none} := by
  ext p
  simp only [positions, Set.mem_ofPred_eq, Option.ne_none_iff_exists']
  constructor
  · rintro ⟨e, he, rfl⟩
    exact ⟨e.2, (hm e).mp he⟩
  · rintro ⟨v, hv⟩
    exact ⟨(p, v), (hm (p, v)).mpr hv, rfl⟩

end HashRing

end

/-! ## Requests -/

variable {N K V : Type*} [LinearOrder K] [Inhabited V]

/-- `ring[key]`: a key that is not there gets a default value. -/
def HashRing.subscript (ring : HashRing N K V) (key : N) : V × HashRing N K V :=
  match ring.map.entries[ring.map.find (ring.hash key)]? with
  | some e => (e.2, ring)
  | none => (default, ring.subscriptAssign key default)

inductive RingRequest (N V : Type*) where
  /-- `ring[n] = v` -/
  | assign (n : N) (v : V)
  /-- `ring[n]` -/
  | subscript (n : N)
  | remove (n : N)
  deriving DecidableEq, Repr

namespace RingRequest

def node : RingRequest N V → N
  | .assign n _ | .subscript n | .remove n => n

/-- The node is in the ring behind the request. -/
def joins : RingRequest N V → Bool
  | .assign .. | .subscript _ => true
  | .remove _ => false

/-- What the request leaves where `m` was at its position. -/
def leaves (m : Option V) : RingRequest N V → Option V
  | .assign _ v => some v
  | .subscript _ => some (m.getD default)
  | .remove _ => none

end RingRequest

/-- What the requests leave at each position, with `m` before them. -/
def members (hash : N → K) (m : K → Option V) (requests : List (RingRequest N V)) : K → Option V :=
  requests.foldl (fun m r => Function.update m (hash r.node) (r.leaves (m (hash r.node)))) m

namespace HashRing

variable {ring ring' : HashRing N K V} {m : K → Option V} {h : K} {e e' : K × V}
  {requests : List (RingRequest N V)}

def handle (ring : HashRing N K V) : RingRequest N V → HashRing N K V
  | .assign n v => ring.subscriptAssign n v
  | .subscript n => (ring.subscript n).2
  | .remove n => (ring.remove n).1

def run (ring : HashRing N K V) (requests : List (RingRequest N V)) : HashRing N K V :=
  requests.foldl handle ring

/-- A ring without a node. -/
def empty (hash : N → K) : HashRing N K V := ⟨⟨[], .nil⟩, hash⟩

/-! ## What the requests leave -/

theorem Represents.subscript (hm : ring.Represents m) (n : N) :
    (ring.subscript n).2.Represents
      (Function.update m (ring.hash n) (some ((m (ring.hash n)).getD default))) := by
  rw [HashRing.subscript]
  cases hfind : ring.map.entries[ring.map.find (ring.hash n)]? with
  | some e =>
    obtain ⟨he, hkey⟩ := OrderedMap.find_entry_iff.mp hfind
    rw [← hkey, (hm e).mp he, Option.getD_some, ← (hm e).mp he, Function.update_eq_self]
    exact hm
  | none =>
    have hnone : m (ring.hash n) = none := by
      by_contra hsome
      obtain ⟨v, hv⟩ := Option.ne_none_iff_exists'.mp hsome
      have hmem := (hm (ring.hash n, v)).mpr hv
      rw [OrderedMap.find_entry_iff.mpr ⟨hmem, rfl⟩] at hfind
      cases hfind
    rw [hnone]
    exact hm.assign n default

theorem hash_handle (ring : HashRing N K V) (r : RingRequest N V) :
    (ring.handle r).hash = ring.hash := by
  cases r with
  | subscript n =>
    simp only [handle, HashRing.subscript]
    split <;> rfl
  | _ => rfl

theorem Represents.handle (hm : ring.Represents m) (r : RingRequest N V) :
    (ring.handle r).Represents
      (Function.update m (ring.hash r.node) (r.leaves (m (ring.hash r.node)))) := by
  cases r with
  | assign n v => exact hm.assign n v
  | subscript n => exact hm.subscript n
  | remove n => exact hm.remove n

theorem Represents.run (hm : ring.Represents m) (requests : List (RingRequest N V)) :
    (ring.run requests).Represents (members ring.hash m requests) := by
  induction requests generalizing ring m with
  | nil => exact hm
  | cons r requests ih =>
    have hrest := ih (hm.handle r)
    rw [hash_handle] at hrest
    exact hrest

/-- After any requests to a new ring, the owner of a hash is the member that comes first from
it on, with the value it was left. -/
theorem owner_run_iff (hash : N → K) (requests : List (RingRequest N V)) (h : K) (e : K × V) :
    ((empty hash).run requests).owner h = some e ↔
      members hash (fun _ => none) requests e.1 = some e.2 ∧
        FirstFrom h {p | members hash (fun _ : K => (none : Option V)) requests p ≠ none} e.1 := by
  have hempty : (empty hash : HashRing N K V).Represents fun _ => none := by
    intro e
    simp [empty]
  have hrun : ((empty hash).run requests).Represents (members hash (fun _ => none) requests) :=
    hempty.run requests
  rw [owner_iff, hrun e, hrun.positions_eq]

/-! ## Why a hash changes its owner -/

theorem subscript_eq (ring : HashRing N K V) (n : N) :
    (ring.subscript n).2 = ring ∨ (ring.subscript n).2 = ring.subscriptAssign n default := by
  rw [HashRing.subscript]
  split
  · exact .inl rfl
  · exact .inr rfl

/-- An entry that was not there before has joined. -/
theorem mem_handle {r : RingRequest N V} (he : e ∈ (ring.handle r).map.entries) :
    e ∈ ring.map.entries ∨ (r.joins = true ∧ ring.hash r.node = e.1) := by
  have hassign : ∀ n v, e ∈ (ring.subscriptAssign n v).map.entries →
      e ∈ ring.map.entries ∨ ring.hash n = e.1 := by
    intro n v he
    obtain rfl | he := mem_subscriptAssign.mp he
    · exact .inr rfl
    · exact .inl he.1
  cases r with
  | assign n v => exact (hassign n v he).imp_right fun hkey => ⟨rfl, hkey⟩
  | subscript n =>
    rw [handle] at he
    obtain heq | heq := ring.subscript_eq n <;> rw [heq] at he
    · exact .inl he
    · exact (hassign n default he).imp_right fun hkey => ⟨rfl, hkey⟩
  | remove n => exact .inl (mem_remove.mp he).1

/-- A position that is not there any more was removed. -/
theorem positions_handle {r : RingRequest N V} {p : K} (hp : p ∈ ring.positions) :
    p ∈ (ring.handle r).positions ∨ (r.joins = false ∧ ring.hash r.node = p) := by
  cases r with
  | assign n v =>
    left
    rw [handle, positions_subscriptAssign]
    exact Set.mem_insert_of_mem _ hp
  | subscript n =>
    left
    rw [handle]
    obtain heq | heq := ring.subscript_eq n <;> rw [heq]
    · exact hp
    · rw [positions_subscriptAssign]
      exact Set.mem_insert_of_mem _ hp
  | remove n =>
    by_cases hkey : ring.hash n = p
    · exact .inr ⟨rfl, hkey⟩
    · left
      rw [handle, positions_remove]
      exact ⟨hp, fun heq => hkey heq.symm⟩

theorem position_of_handle {r : RingRequest N V} {p : K} (hp : p ∈ (ring.handle r).positions) :
    p ∈ ring.positions ∨ (r.joins = true ∧ ring.hash r.node = p) := by
  obtain ⟨e, he, rfl⟩ := hp
  exact (mem_handle he).imp_left mem_positions

/-- The request `r` behind `before` brings a node to `p`, where none was. -/
def Joins (ring : HashRing N K V) (before : List (RingRequest N V)) (r : RingRequest N V) (p : K) :
    Prop :=
  p ∉ (ring.run before).positions ∧ r.joins = true ∧ ring.hash r.node = p

/-- The request `r` behind `before` removes the node that is at `p`. -/
def Leaves (ring : HashRing N K V) (before : List (RingRequest N V)) (r : RingRequest N V)
    (p : K) : Prop :=
  p ∈ (ring.run before).positions ∧ r.joins = false ∧ ring.hash r.node = p

theorem joins_of_positions_run {p : K} (hp : p ∉ ring.positions)
    (hrun : p ∈ (ring.run requests).positions) :
    ∃ before r after, requests = before ++ r :: after ∧ ring.Joins before r p := by
  induction requests generalizing ring with
  | nil => exact absurd hrun hp
  | cons r requests ih =>
    by_cases hnext : p ∈ (ring.handle r).positions
    · have hjoins := (position_of_handle hnext).resolve_left hp
      exact ⟨[], r, requests, rfl, hp, hjoins⟩
    · obtain ⟨before, r', after, rfl, habsent, hjoins, hkey⟩ := ih hnext hrun
      rw [hash_handle] at hkey
      exact ⟨r :: before, r', after, rfl, habsent, hjoins, hkey⟩

theorem leaves_of_positions_run {p : K} (hp : p ∈ ring.positions)
    (hrun : p ∉ (ring.run requests).positions) :
    ∃ before r after, requests = before ++ r :: after ∧ ring.Leaves before r p := by
  induction requests generalizing ring with
  | nil => exact absurd hp hrun
  | cons r requests ih =>
    by_cases hnext : p ∈ (ring.handle r).positions
    · obtain ⟨before, r', after, rfl, hpresent, hleaves, hkey⟩ := ih hnext hrun
      rw [hash_handle] at hkey
      exact ⟨r :: before, r', after, rfl, hpresent, hleaves, hkey⟩
    · have hleaves := (positions_handle hp).resolve_left hnext
      exact ⟨[], r, requests, rfl, hp, hleaves⟩

/-- Over any requests, a hash passes to another position only if the node it belonged to was
removed in between, or a node came to the other position, where none was. -/
theorem moves_for_a_reason (ring : HashRing N K V) (requests : List (RingRequest N V)) (h : K)
    (e e' : K × V) (he : ring.owner h = some e) (he' : (ring.run requests).owner h = some e')
    (hne : e.1 ≠ e'.1) :
    ∃ before r after, requests = before ++ r :: after ∧
      (ring.Leaves before r e.1 ∨ ring.Joins before r e'.1) := by
  obtain ⟨hmem, hfirst⟩ := owner_iff.mp he
  obtain ⟨hmem', hfirst'⟩ := owner_iff.mp he'
  by_cases hstays : e.1 ∈ (ring.run requests).positions
  · by_cases hbefore : e'.1 ∈ ring.positions
    · -- both were there at both ends, and the same one comes first
      exact absurd ((hfirst.2 _ hbefore).antisymm (hfirst'.2 _ hstays)) hne
    · obtain ⟨before, r, after, hrequests, hjoins⟩ :=
        joins_of_positions_run hbefore (mem_positions hmem')
      exact ⟨before, r, after, hrequests, .inr hjoins⟩
  · obtain ⟨before, r, after, hrequests, hleaves⟩ :=
      leaves_of_positions_run (mem_positions hmem) hstays
    exact ⟨before, r, after, hrequests, .inl hleaves⟩

/-- The first of three nodes is removed, after a fourth one has joined. -/
theorem moves_for_a_reason_three :
    ∃ before r after, [RingRequest.assign 9 4, .remove 1] = before ++ r :: after ∧
      (threeNodes.Leaves before r 1 ∨ threeNodes.Joins before r 9) :=
  moves_for_a_reason threeNodes [.assign 9 4, .remove 1] 7 (1, 1) (9, 4) (by decide) (by decide)
    (by decide)

end HashRing

end Turbolib
