import Turbolib.VectorClock.Increment

/-!
# Clocks that only move forward

When the time given to `increment` is no later than the stored one, the stored time is
kept and the count goes on. The count is an `unsigned short`, so that a clock at the
largest count goes back to 0, and below all the clocks of the key with that time.
-/

namespace Turbolib

open BoundedVector

/-- A new front is popped again only if the limit leaves no room for any clock. -/
theorem BoundedVector.trim_front {C : Type} (limit : ℕ) (c : C) (r : List C) :
    let trimmed := if (c :: r).length > limit then (c :: r).dropLast else c :: r
    ((0 < limit ∨ r ≠ []) ∧ ∃ r', trimmed = c :: r' ∧ r' <+: r) ∨
      (limit = 0 ∧ r = []) ∧ trimmed = [] := by
  intro trimmed
  by_cases hroom : limit = 0 ∧ r = []
  · obtain ⟨rfl, rfl⟩ := hroom
    exact Or.inr ⟨⟨rfl, rfl⟩, rfl⟩
  refine Or.inl ⟨by grind, ?_⟩
  by_cases hgt : (c :: r).length > limit
  · have hr : r ≠ [] := by grind
    refine ⟨r.dropLast, ?_, List.dropLast_prefix r⟩
    rw [← List.dropLast_cons_of_ne_nil hr]
    exact if_pos hgt
  · exact ⟨r, if_neg hgt, List.prefix_rfl⟩

namespace TimeClock

/-- The clock that follows `it` at the time given. -/
theorem lessThan_next_iff {K : Type} (k : K) (it : TimeClock K) (time : UInt64) :
    it.lessThan (if time ≤ it.time then ⟨k, it.time, it.count + 1⟩ else ⟨k, time, 0⟩) = true ↔
      it.time < time ∨ it.count.toNat < 2 ^ 16 - 1 := by
  have hcount := it.count.toNat_lt
  rw [UInt64.lt_iff_toNat_lt]
  split_ifs with hle
  · rw [UInt64.le_iff_toNat_le] at hle
    have hnext : (it.count + 1).toNat = (it.count.toNat + 1) % 2 ^ 16 := by
      rw [UInt16.toNat_add]
      rfl
    simp only [lessThan_iff, hnext, lt_irrefl, true_and, false_or]
    omega
  · rw [UInt64.le_iff_toNat_le] at hle
    simp only [lessThan_iff]
    omega

variable {K : Type} [DecidableEq K] {limit : ℕ} {k : K} {c : TimeClock K}
  {v v' : List (TimeClock K)} {stays : Bool} {time : UInt64}

/-- `increment` has replaced the clock `c` of its key by a greater one in front; behind it
are the other clocks as they were, down to the oldest one kept. -/
def MovesForward (c : TimeClock K) (v : List (TimeClock K))
    (result : Option (List (TimeClock K))) : Prop :=
  ∃ c' rest, result = some (c' :: rest) ∧ c'.key = c.key ∧ rest <+: others c.key v ∧
    c.lessThan c' = true

/-- What `increment` leaves, and that nothing else happens to the other clocks. -/
theorem increment_cases (hv : (v.map key).Nodup)
    (hv' : increment stays limit k time v = some v') :
    ∃ c, v' <+: c :: others k v ∧ c.key = k ∧
      (((0 < limit ∨ others k v ≠ []) ∧ ∃ r, v' = c :: r ∧ r <+: others k v) ∨
        (limit = 0 ∧ others k v = []) ∧ v' = []) ∧
      ∀ it ∈ v, it.key = k →
        c = if time ≤ it.time then ⟨k, it.time, it.count + 1⟩ else ⟨k, time, 0⟩ := by
  obtain ⟨c, hc, hk, hnew⟩ := incrementWith_cases hv' (fun it => by split_ifs <;> rfl) hv
  refine ⟨c, ?_, hk, ?_, fun it hit hitk => ?_⟩
  · rw [hc]
    split_ifs
    · exact List.dropLast_prefix _
    · exact List.prefix_rfl
  · rw [hc]
    exact trim_front limit c _
  · rcases hnew with ⟨hne, -⟩ | ⟨x, hx, hxk, rfl⟩
    · exact absurd hitk (hne it hit)
    · rw [List.inj_on_of_nodup_map hv hx hit (hxk.trans hitk.symm)]

theorem nodup_of_increment (hv : (v.map key).Nodup)
    (hv' : increment stays limit k time v = some v') : (v'.map key).Nodup := by
  obtain ⟨c, hpre, hk, -⟩ := increment_cases hv hv'
  refine List.Nodup.sublist (hpre.sublist.map key) ?_
  rw [List.map_cons, List.nodup_cons]
  refine ⟨fun hmem => ?_, nodup_others hv⟩
  obtain ⟨d, hd, hdk⟩ := List.mem_map.mp hmem
  exact (mem_others.mp hd).2 (hdk.trans hk)

/-- The key's clock in the vector after is the next one. -/
theorem eq_next_of_mem (hv : (v.map key).Nodup) (hv' : increment stays limit k time v = some v')
    {it : TimeClock K} (hit : it ∈ v) (hitk : it.key = k) (hc : c ∈ v') (hck : c.key = k) :
    c = if time ≤ it.time then ⟨k, it.time, it.count + 1⟩ else ⟨k, time, 0⟩ := by
  obtain ⟨d, hpre, -, -, hnext⟩ := increment_cases hv hv'
  rcases List.mem_cons.mp (hpre.subset hc) with rfl | hco
  · exact hnext it hit hitk
  · exact absurd hck (mem_others.mp hco).2

/-- A clock of another key in the vector after was there before. -/
theorem mem_of_increment (hv : (v.map key).Nodup)
    (hv' : increment stays limit k time v = some v') (hc : c ∈ v') (hck : c.key ≠ k) : c ∈ v := by
  obtain ⟨d, hpre, hdk, -⟩ := increment_cases hv hv'
  rcases List.mem_cons.mp (hpre.subset hc) with rfl | hco
  · exact absurd hdk hck
  · exact (mem_others.mp hco).1

theorem others_eq_nil_iff (hv : (v.map key).Nodup) (hc : c ∈ v) :
    others c.key v = [] ↔ v.length ≤ 1 := by
  have hle : v.length ≤ (others c.key v).length + 1 := length_le_others hv
  have hk : ClockOps.key c = c.key := rfl
  have hlt : (others c.key v).length < v.length :=
    List.length_filter_lt_length_iff_exists.mpr ⟨c, hc, by simp [hk]⟩
  rw [← List.length_eq_zero_iff]
  omega

/-- One `increment` of a key that is there. -/
theorem movesForward_iff (hv : (v.map key).Nodup) (hc : c ∈ v) :
    MovesForward c v (increment stays limit c.key time v) ↔
      stays = true ∧ (c.time < time ∨ c.count.toNat < 2 ^ 16 - 1) ∧
        (0 < limit ∨ 1 < v.length) := by
  have hresult : (increment stays limit c.key time v).isSome = true ↔
      stays = true ∨ ∀ d ∈ v, key d ≠ c.key := incrementWith_isSome
  have hsome : (increment stays limit c.key time v).isSome = true ↔ stays = true :=
    hresult.trans (or_iff_left fun hne => hne c hc rfl)
  rw [← hsome, ← lessThan_next_iff c.key, Option.isSome_iff_exists]
  constructor
  · rintro ⟨c', rest, hv', hk, -, hlt⟩
    obtain rfl := eq_next_of_mem hv hv' hc rfl List.mem_cons_self hk
    refine ⟨⟨_, hv'⟩, hlt, ?_⟩
    obtain ⟨d, -, -, hfront, -⟩ := increment_cases hv hv'
    rw [ne_eq, others_eq_nil_iff hv hc] at hfront
    rcases hfront with ⟨hroom, -⟩ | ⟨-, hnil⟩
    · omega
    · cases hnil
  · rintro ⟨⟨v', hv'⟩, hlt, hroom⟩
    obtain ⟨d, -, hdk, hfront, hnext⟩ := increment_cases hv hv'
    rcases hfront with ⟨-, r, rfl, hr⟩ | ⟨⟨hzero, hnil⟩, -⟩
    · exact ⟨d, r, hv', hdk, hr, hnext c hc rfl ▸ hlt⟩
    · rw [others_eq_nil_iff hv hc] at hnil
      omega

/-- A run of increments in which `k` is never evicted, with the clocks that its own
increments leave. Before each of these the stored time is earlier than the one given, or
the count is not at its largest. -/
inductive IncrementRun (limit : ℕ) (k : K) : List (TimeClock K) → List (TimeClock K) → Prop where
  | done (v : List (TimeClock K)) : IncrementRun limit k v []
  | own {v v' clocks : List (TimeClock K)} {c : TimeClock K} {stays : Bool} {time : UInt64}
      (hroom : ∀ it ∈ v, it.key = k → it.time < time ∨ it.count.toNat < 2 ^ 16 - 1)
      (hv' : increment stays limit k time v = some v') (hc : c ∈ v') (hck : c.key = k)
      (hrest : IncrementRun limit k v' clocks) : IncrementRun limit k v (c :: clocks)
  | other {v v' clocks : List (TimeClock K)} {k' : K} {stays : Bool} {time : UInt64}
      (hk' : k' ≠ k) (hv' : increment stays limit k' time v = some v')
      (hk : ∃ c ∈ v', c.key = k) (hrest : IncrementRun limit k v' clocks) :
      IncrementRun limit k v clocks

theorem IncrementRun.ascending {clocks : List (TimeClock K)} (h : IncrementRun limit k v clocks)
    (hv : (v.map key).Nodup) (hc : c ∈ v) (hck : c.key = k) :
    (c :: clocks).Pairwise fun d d' => d.lessThan d' = true := by
  induction h generalizing c with
  | done v => exact List.pairwise_singleton _ _
  | own hroom hv' hd hdk hrest ih =>
    have hrun := ih (nodup_of_increment hv hv') hd hdk
    have hnext := eq_next_of_mem hv hv' hc hck hd hdk
    have hlt := (lessThan_next_iff k c _).mpr (hroom c hc hck)
    rw [← hnext] at hlt
    refine List.Pairwise.cons (fun e he => ?_) hrun
    rcases List.mem_cons.mp he with rfl | he
    · exact hlt
    · exact ClockOps.lessThan_trans (C := TimeClock K) _ _ _ hlt (List.rel_of_pairwise_cons hrun he)
  | other hk' hv' hk hrest ih =>
    obtain ⟨d, hd, hdk⟩ := hk
    -- the clock of `k` is still the one it was
    have hdv := mem_of_increment hv hv' hd (by rw [hdk]; exact hk'.symm)
    obtain rfl : d = c := List.inj_on_of_nodup_map hv hdv hc (hdk.trans hck.symm)
    exact ih (nodup_of_increment hv hv') hd hdk

/-- An `increment` of a key moves its clock forward exactly when the iterator found stays
where it is, the count has room or is not needed, and the limit is not 0; and in a run of
such increments, among others, the clocks of the key are ascending. -/
theorem increment_forward (limit : ℕ) (v : List (TimeClock K)) (c : TimeClock K)
    (hv : (v.map key).Nodup) (hc : c ∈ v) :
    (∀ stays time, MovesForward c v (increment stays limit c.key time v) ↔
      stays = true ∧ (c.time < time ∨ c.count.toNat < 2 ^ 16 - 1) ∧
        (0 < limit ∨ 1 < v.length)) ∧
    ∀ clocks, IncrementRun limit c.key v clocks →
      (c :: clocks).Pairwise fun d d' => d.lessThan d' = true :=
  ⟨fun _ _ => movesForward_iff hv hc, fun _ hrun => hrun.ascending hv hc rfl⟩

/-- The clock set back, with a count below the largest. -/
theorem increment_forward_two :
    let v : List (TimeClock ℕ) := [⟨1, 5, 65534⟩, ⟨2, 9, 0⟩]
    (∀ stays time, MovesForward ⟨1, 5, 65534⟩ v (increment stays 10 1 time v) ↔
      stays = true ∧ ((5 : UInt64) < time ∨ (65534 : UInt16).toNat < 2 ^ 16 - 1) ∧
        (0 < 10 ∨ 1 < v.length)) ∧
    ∀ clocks, IncrementRun 10 1 v clocks →
      ((⟨1, 5, 65534⟩ : TimeClock ℕ) :: clocks).Pairwise fun d d' => d.lessThan d' = true :=
  increment_forward 10 [⟨1, 5, 65534⟩, ⟨2, 9, 0⟩] ⟨1, 5, 65534⟩ (by decide) (by decide)

/-- At the largest count the clock goes back to count 0 of the same time. -/
theorem increment_wraps :
    let v : List (TimeClock ℕ) := [⟨1, 5, 65535⟩, ⟨2, 9, 0⟩]
    increment true 10 1 5 v = some [⟨1, 5, 0⟩, ⟨2, 9, 0⟩] ∧
      (⟨1, 5, 0⟩ : TimeClock ℕ).lessThan ⟨1, 5, 65535⟩ = true ∧
      ¬MovesForward ⟨1, 5, 65535⟩ v (increment true 10 1 5 v) := by
  intro v
  have hv' : increment true 10 1 5 v = some [⟨1, 5, 0⟩, ⟨2, 9, 0⟩] := by decide
  refine ⟨hv', by decide, ?_⟩
  rintro ⟨c', rest, hres, -, -, hlt⟩
  rw [hv', Option.some_inj, List.cons.injEq] at hres
  rw [← hres.1] at hlt
  exact absurd hlt (by decide)

end TimeClock

end Turbolib
