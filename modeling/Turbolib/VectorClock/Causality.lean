import Turbolib.Library.Ledger
import Turbolib.VectorClock.PartialOrder
import Turbolib.VectorClock.Supersede

/-!
# Vectors and the increments behind them

Vectors are incremented, merged and copied, in any order. As long as the increments of a
key all go to one vector, a vector stands for the increments that it has taken in, at
first hand or through others: below the limit, `compare` tells whether two vectors have
taken in the same increments, one of them more than the other, or each some of its own.

## Main definitions

* `Vectors.step` — an increment, a merge or a copy.
* `Owned` — what an increment and a copy have to keep to.
* `Stands` — the invariant: a vector holds the last clock of each key in its history.
-/

namespace Turbolib

namespace BoundedVector

variable {ι C K : Type} [ClockOps C K]

/-! ## A vector and its history -/

/-- The clocks that were issued for a key ascend. -/
def Ascending (issued : List C) : Prop :=
  ∀ (e f : ℕ) (c d : C), issued[e]? = some c → issued[f]? = some d → key c = key d → e < f →
    clockLessThan c d = true

/-- A vector holds the last clock of each key in its history. -/
structure Stands (issued v : List C) (history : Finset ℕ) : Prop where
  nodup : (v.map key).Nodup
  held : ∀ c ∈ v, ∃ e ∈ history, issued[e]? = some c
  covered : ∀ e ∈ history, ∃ c, issued[e]? = some c ∧
    ∃ d ∈ v, key d = key c ∧ clockLessThan d c = false
  closed : ∀ (e f : ℕ) (c d : C), e ∈ history → issued[e]? = some c → issued[f]? = some d →
    key d = key c → f ≤ e → f ∈ history

variable {issued v w d : List C} {h h' : Finset ℕ} {c : C} {keys : Finset K}

theorem stands_nil (issued : List C) : Stands issued [] ∅ := by
  constructor <;> simp

theorem Stands.lt_length (hv : Stands issued v h) {e : ℕ} (he : e ∈ h) : e < issued.length := by
  obtain ⟨c, hc, -⟩ := hv.covered e he
  exact (List.getElem?_eq_some_iff.mp hc).1

/-- What is issued later says nothing about the history so far. -/
theorem Stands.append (hv : Stands issued v h) (c : C) : Stands (issued ++ [c]) v h where
  nodup := hv.nodup
  held x hx := by
    obtain ⟨e, he, hxe⟩ := hv.held x hx
    exact ⟨e, he, by rwa [List.getElem?_append_left (hv.lt_length he)]⟩
  covered e he := by
    rw [List.getElem?_append_left (hv.lt_length he)]
    exact hv.covered e he
  closed e f x y he hx hy hk hfe := by
    have hlt := hv.lt_length he
    rw [List.getElem?_append_left hlt] at hx
    rw [List.getElem?_append_left (hfe.trans_lt hlt)] at hy
    exact hv.closed e f x y he hx hy hk hfe

/-- A vector is below another exactly when this one has taken in all that the first has. -/
theorem Stands.below_iff (hasc : Ascending issued) (hv : Stands issued v h)
    (hw : Stands issued w h') : Below v w ↔ h ⊆ h' := by
  constructor
  · intro hbelow e he
    obtain ⟨x, hx, y, hy, hyk, hyx⟩ := hv.covered e he
    obtain ⟨z, hz, hzk, hzy⟩ := hbelow y hy
    obtain ⟨f, hf, hzf⟩ := hw.held z hz
    have hzx : clockLessThan z x = false := not_lessThan_trans hyk hyx hzy
    have hkey : key z = key x := hzk.trans hyk
    refine hw.closed f e z x hf hzf hx hkey.symm ?_
    by_contra hlt
    rw [hasc f e z x hzf hx hkey (not_le.mp hlt)] at hzx
    cases hzx
  · intro hsub c hc
    obtain ⟨e, he, hce⟩ := hv.held c hc
    obtain ⟨x, hx, hcover⟩ := hw.covered e (hsub he)
    obtain rfl : x = c := Option.some_inj.mp (hx.symm.trans hce)
    exact hcover

/-- The keys of a vector are keys that a clock was issued for. -/
theorem Stands.length_le (hkeys : ∀ c ∈ issued, key c ∈ keys) (hv : Stands issued v h) :
    v.length ≤ keys.card := by
  classical
  rw [← List.length_map key, ← List.toFinset_card_of_nodup hv.nodup]
  refine Finset.card_le_card fun k hk => ?_
  obtain ⟨c, hc, rfl⟩ := List.mem_map.mp (List.mem_toFinset.mp hk)
  obtain ⟨e, -, hce⟩ := hv.held c hc
  exact hkeys c (List.mem_of_getElem? hce)

theorem Stands.merged (hv : Stands issued v h) (hw : Stands issued w h') (hd : Merged v w d) :
    Stands issued d (h ∪ h') where
  nodup := hd.nodup
  held c hc := by
    rcases ((hd.mem_iff c).mp hc).1 with hc | hc
    · obtain ⟨e, he, hce⟩ := hv.held c hc
      exact ⟨e, Finset.mem_union_left _ he, hce⟩
    · obtain ⟨e, he, hce⟩ := hw.held c hc
      exact ⟨e, Finset.mem_union_right _ he, hce⟩
  covered e he := by
    have hbelow : ∃ c, issued[e]? = some c ∧
        ∃ x, (x ∈ v ∨ x ∈ w) ∧ key x = key c ∧ clockLessThan x c = false := by
      rcases Finset.mem_union.mp he with he | he
      · obtain ⟨c, hc, x, hx, hxc⟩ := hv.covered e he
        exact ⟨c, hc, x, Or.inl hx, hxc⟩
      · obtain ⟨c, hc, x, hx, hxc⟩ := hw.covered e he
        exact ⟨c, hc, x, Or.inr hx, hxc⟩
    obtain ⟨c, hc, x, hx, hxk, hxc⟩ := hbelow
    obtain ⟨m, hmk, hmax⟩ := exists_isMax hv.nodup hw.nodup hx
    exact ⟨c, hc, m, (hd.mem_iff m).mpr hmax, hmk.trans hxk,
      not_lessThan_trans hxk hxc (hmax.2 x hx hmk.symm)⟩
  closed e f x y he hx hy hk hfe := by
    rcases Finset.mem_union.mp he with he | he
    · exact Finset.mem_union_left _ (hv.closed e f x y he hx hy hk hfe)
    · exact Finset.mem_union_right _ (hw.closed e f x y he hx hy hk hfe)

section issue

variable (hv : Stands issued v h) (hgt : ∀ x ∈ v, key x = key c → clockLessThan x c = true)
include hv hgt

/-- What is greater than the clock a vector has is greater than all of its history. -/
theorem Stands.lessThan_of_mem {e : ℕ} {x : C} (he : e ∈ h) (hx : issued[e]? = some x)
    (hk : key x = key c) : clockLessThan x c = true := by
  obtain ⟨x', hx', y, hy, hyk, hyx⟩ := hv.covered e he
  obtain rfl : x' = x := Option.some_inj.mp (hx'.symm.trans hx)
  by_contra hxc
  have hyc : clockLessThan y c = false :=
    not_lessThan_trans hk (Bool.eq_false_of_not_eq_true hxc) hyx
  rw [hgt y hy (hyk.trans hk)] at hyc
  cases hyc

variable (howned : ∀ (e : ℕ) (x : C), issued[e]? = some x → key x = key c → e ∈ h)
include howned

theorem Stands.ascending_append (hasc : Ascending issued) : Ascending (issued ++ [c]) := by
  intro e f x y hx hy hk hef
  rcases getElem?_concat_eq_some_iff.mp hy with hy | ⟨rfl, rfl⟩
  · have hf := (List.getElem?_eq_some_iff.mp hy).1
    rw [List.getElem?_append_left (hef.trans hf)] at hx
    exact hasc e f x y hx hy hk hef
  · rw [List.getElem?_append_left hef] at hx
    exact hv.lessThan_of_mem hgt (howned e x hx hk) hx hk

variable [DecidableEq K]

/-- A clock of a key whose increments have all been taken in, in front. -/
theorem Stands.push :
    Stands (issued ++ [c]) (c :: others (key c) v) (insert issued.length h) where
  nodup := by
    rw [List.map_cons, List.nodup_cons]
    refine ⟨fun hk => ?_, nodup_others hv.nodup⟩
    obtain ⟨x, hx, hxk⟩ := List.mem_map.mp hk
    exact (mem_others.mp hx).2 hxk
  held x hx := by
    rcases List.mem_cons.mp hx with rfl | hx
    · exact ⟨issued.length, Finset.mem_insert_self _ _, List.getElem?_concat_length⟩
    · obtain ⟨e, he, hxe⟩ := (hv.append c).held x (mem_others.mp hx).1
      exact ⟨e, Finset.mem_insert_of_mem he, hxe⟩
  covered e he := by
    rcases Finset.mem_insert.mp he with rfl | he
    · exact ⟨c, List.getElem?_concat_length, c, List.mem_cons_self, rfl,
        ClockOps.lessThan_irrefl c⟩
    · obtain ⟨x, hx, y, hy, hyk, hyx⟩ := (hv.append c).covered e he
      refine ⟨x, hx, ?_⟩
      by_cases hk : key x = key c
      · refine ⟨c, List.mem_cons_self, hk.symm, ?_⟩
        rw [List.getElem?_append_left (hv.lt_length he)] at hx
        by_contra hcx
        have hxx := ClockOps.lessThan_trans _ _ _ (hv.lessThan_of_mem hgt he hx hk)
          (Bool.eq_true_of_not_eq_false hcx)
        rw [ClockOps.lessThan_irrefl] at hxx
        cases hxx
      · exact ⟨y, List.mem_cons_of_mem _ (mem_others.mpr ⟨hy, fun hyc => hk (hyk.symm.trans hyc)⟩),
          hyk, hyx⟩
  closed e f x y he hx hy hk hfe := by
    rcases Finset.mem_insert.mp he with rfl | he
    · rcases hfe.eq_or_lt with rfl | hlt
      · exact Finset.mem_insert_self _ _
      · rw [List.getElem?_concat_length, Option.some_inj] at hx
        rw [List.getElem?_append_left hlt] at hy
        exact Finset.mem_insert_of_mem (howned f y hy (hk.trans (congrArg key hx.symm)))
    · exact Finset.mem_insert_of_mem ((hv.append c).closed e f x y he hx hy hk hfe)

end issue

/-! ## Increments, merges and copies -/

open IncrementOps

/-- Vectors by name. `issued` has the clocks that the increments have put in front, in
their order, and `history` the numbers of the increments that a vector has taken in. -/
structure Vectors (ι C : Type) where
  clocks : ι → List C
  issued : List C
  history : ι → Finset ℕ

/-- `vectors[i].increment(arg)`, `vectors[i].merge(vectors[j])` and `vectors[i] = vectors[j]`. -/
inductive Action (ι C : Type) {K : outParam Type} [ClockOps C K] [IncrementOps C] where
  | increment (i : ι) (stays : Bool) (arg : Argument C)
  | merge (i j : ι)
  | copy (i j : ι)

variable [DecidableEq K] [IncrementOps C] [DecidableEq ι]

namespace Vectors

def empty : Vectors ι C := ⟨fun _ => [], [], fun _ => ∅⟩

def step (limit : ℕ) (s : Vectors ι C) : Action ι C → Option (Vectors ι C)
  | .increment i stays arg =>
    (BoundedVector.increment stays limit arg (s.clocks i)).map fun clocks =>
      { clocks := Function.update s.clocks i clocks
        issued := s.issued ++ clocks.head?.toList
        history := Function.update s.history i (insert s.issued.length (s.history i)) }
  | .merge i j =>
    (BoundedVector.merge limit (s.clocks i) (s.clocks j)).map fun clocks =>
      { s with
        clocks := Function.update s.clocks i clocks
        history := Function.update s.history i (s.history i ∪ s.history j) }
  | .copy i j =>
    some { s with
      clocks := Function.update s.clocks i (s.clocks j)
      history := Function.update s.history i (s.history j) }

/-- The increments of a key all go to its owner, and each makes the clock greater; no
vector that owns a key is written over. -/
def Owned (owner : K → ι) (keys : Finset K) (s : Vectors ι C) : Action ι C → Prop
  | .increment i _ arg =>
    owner (key (first arg)) = i ∧ key (first arg) ∈ keys ∧
      ∀ c ∈ s.clocks i, key c = key (first arg) → clockLessThan c (next arg c) = true
  | .merge _ _ => True
  | .copy i _ => ∀ k ∈ keys, owner k ≠ i

instance decidableOwned (owner : K → ι) (keys : Finset K) (s : Vectors ι C) (a : Action ι C) :
    Decidable (Owned owner keys s a) :=
  match a with
  | .increment i _ arg =>
    inferInstanceAs (Decidable (owner (key (first arg)) = i ∧ key (first arg) ∈ keys ∧
      ∀ c ∈ s.clocks i, key c = key (first arg) → clockLessThan c (next arg c) = true))
  | .merge _ _ => inferInstanceAs (Decidable True)
  | .copy i _ => inferInstanceAs (Decidable (∀ k ∈ keys, owner k ≠ i))

/-- The invariant of the runs whose increments keep to `Owned`. -/
structure Causal (owner : K → ι) (keys : Finset K) (s : Vectors ι C) : Prop where
  ascending : Ascending s.issued
  mem_keys : ∀ c ∈ s.issued, key c ∈ keys
  owned : ∀ (e : ℕ) (c : C), s.issued[e]? = some c → e ∈ s.history (owner (key c))
  stands : ∀ i, Stands s.issued (s.clocks i) (s.history i)

variable {s s' : Vectors ι C} {owner : K → ι} {keys : Finset K} {limit : ℕ} {i j : ι}

omit [DecidableEq K] [IncrementOps C] [DecidableEq ι] in
theorem causal_empty (owner : K → ι) (keys : Finset K) :
    Causal owner keys (empty : Vectors ι C) where
  ascending e f c d hc := by simp [empty] at hc
  mem_keys c hc := by simp [empty] at hc
  owned e c hc := by simp [empty] at hc
  stands _ := stands_nil []

omit [ClockOps C K] [DecidableEq K] [IncrementOps C] in
theorem mem_update {history : ι → Finset ℕ} {h : Finset ℕ} {e : ℕ} (hsub : history i ⊆ h)
    (he : e ∈ history j) : e ∈ Function.update history i h j := by
  by_cases hj : j = i
  · rw [hj, Function.update_self]
    exact hsub (hj ▸ he)
  · rwa [Function.update_of_ne hj]

omit [DecidableEq K] [IncrementOps C] in
theorem stands_update {issued v : List C} {h : Finset ℕ} (hv : Stands issued v h)
    (hs : ∀ j, Stands issued (s.clocks j) (s.history j)) (j : ι) :
    Stands issued (Function.update s.clocks i v j) (Function.update s.history i h j) := by
  by_cases hj : j = i
  · rw [hj, Function.update_self, Function.update_self]
    exact hv
  · rw [Function.update_of_ne hj, Function.update_of_ne hj]
    exact hs j

theorem Causal.increment (h : Causal owner keys s) (hcard : keys.card < limit) {stays : Bool}
    {arg : Argument C} (hguard : Owned owner keys s (.increment i stays arg))
    (hstep : step limit s (.increment i stays arg) = some s') : Causal owner keys s' := by
  obtain ⟨hi, hmem, hgreater⟩ := hguard
  obtain ⟨v, hv, rfl⟩ := Option.map_eq_some_iff.mp hstep
  have hstands := h.stands i
  obtain ⟨c, hc, hk, hcases⟩ := incrementWith_cases hv (key_next arg) hstands.nodup
  have hgt : ∀ x ∈ s.clocks i, key x = key c → clockLessThan x c = true := by
    intro x hx hxk
    rcases hcases with ⟨hnone, -⟩ | ⟨it, hit, hitk, rfl⟩
    · exact absurd (hxk.trans hk) (hnone x hx)
    · obtain rfl : x = it :=
        List.inj_on_of_nodup_map hstands.nodup hx hit (hxk.trans (hk.trans hitk.symm))
      exact hgreater x hx (hxk.trans hk)
  have howned : ∀ (e : ℕ) (x : C), s.issued[e]? = some x → key x = key c → e ∈ s.history i := by
    intro e x hx hxk
    have := h.owned e x hx
    rwa [hxk, hk, hi] at this
  have hpush := hstands.push hgt howned
  have hkeys : ∀ x ∈ s.issued ++ [c], key x ∈ keys := by
    intro x hx
    rcases List.mem_append.mp hx with hx | hx
    · exact h.mem_keys x hx
    · rw [List.mem_singleton.mp hx, hk]
      exact hmem
  -- there is room for the clock, so that none is dropped
  obtain rfl : v = c :: others (key c) (s.clocks i) := by
    have := hpush.length_le hkeys
    rw [hc, ← hk, if_neg (by omega)]
  simp only [List.head?_cons, Option.toList_some]
  refine ⟨hstands.ascending_append hgt howned h.ascending, hkeys, fun e x hx => ?_,
    stands_update hpush fun j => (h.stands j).append c⟩
  rcases getElem?_concat_eq_some_iff.mp hx with hx | ⟨rfl, rfl⟩
  · exact mem_update (Finset.subset_insert _ _) (h.owned e x hx)
  · obtain rfl : i = owner (key x) := by rw [hk, hi]
    simp

theorem Causal.merge (h : Causal owner keys s) (hcard : keys.card < limit)
    (hstep : step limit s (.merge i j) = some s') : Causal owner keys s' := by
  obtain ⟨v, hv, rfl⟩ := Option.map_eq_some_iff.mp hstep
  obtain ⟨d, hd, rfl⟩ := mem_take_merged (h.stands i).nodup (h.stands j).nodup hv
  have hmerged := (h.stands i).merged (h.stands j) hd
  have hlen := hmerged.length_le h.mem_keys
  rw [List.take_of_length_le (by omega)]
  exact ⟨h.ascending, h.mem_keys,
    fun e x hx => mem_update Finset.subset_union_left (h.owned e x hx),
    stands_update hmerged h.stands⟩

theorem Causal.copy (h : Causal owner keys s) (hguard : Owned owner keys s (.copy i j))
    (hstep : step limit s (.copy i j) = some s') : Causal owner keys s' := by
  obtain rfl := Option.some_inj.mp hstep
  refine ⟨h.ascending, h.mem_keys, fun e x hx => ?_, stands_update (h.stands j) h.stands⟩
  have hne : owner (key x) ≠ i := hguard _ (h.mem_keys x (List.mem_of_getElem? hx))
  have hold := h.owned e x hx
  simpa only [Function.update_of_ne hne] using hold

theorem causal_of_reaches (hcard : keys.card < limit)
    (hrun : Reaches (step limit) (Owned owner keys) (empty : Vectors ι C) s) :
    Causal owner keys s := by
  refine hrun.invariant (causal_empty owner keys) fun s a s' h hguard hstep => ?_
  cases a with
  | increment i stays arg => exact h.increment hcard hguard hstep
  | merge i j => exact h.merge hcard hstep
  | copy i j => exact h.copy hguard hstep

/-- What `compare` answers about two vectors with these histories. -/
structure ComparesHistories (h h' : Finset ℕ) (result : Compare) : Prop where
  equal : result = .equal ↔ h = h'
  lessThan : result = .lessThan ↔ h ⊂ h'
  greaterThan : result = .greaterThan ↔ h' ⊂ h
  conflict : result = .conflict ↔ ¬h ⊆ h' ∧ ¬h' ⊆ h

/-- In every run whose increments keep to `Owned`, with fewer keys than the limit, `compare`
compares what the vectors have taken in, and vectors with one history have the same clocks. -/
theorem compare_histories (owner : K → ι) (keys : Finset K) (limit : ℕ)
    (hcard : keys.card < limit) (s : Vectors ι C)
    (hrun : Reaches (step limit) (Owned owner keys) empty s) (i j : ι) :
    ComparesHistories (s.history i) (s.history j)
      (compare limit (s.clocks i) (s.clocks j)) ∧
    (s.history i = s.history j → SameClocks (s.clocks i) (s.clocks j)) := by
  have h := causal_of_reaches hcard hrun
  have hsmall : ∀ l, Small limit (s.clocks l) := fun l =>
    ⟨(h.stands l).nodup, ((h.stands l).length_le h.mem_keys).trans_lt hcard⟩
  have hij := (h.stands i).below_iff h.ascending (h.stands j)
  have hji := (h.stands j).below_iff h.ascending (h.stands i)
  rw [compare_of_small (hsmall i) (hsmall j)]
  refine ⟨⟨?_, ?_, ?_, ?_⟩, fun heq => ?_⟩
  · rw [ordinary_eq_equal_iff, hij, hji]
    exact Finset.Subset.antisymm_iff.symm
  · rw [ordinary_eq_lessThan_iff, hij, hji]
    rfl
  · rw [ordinary_eq_greaterThan_iff, hij, hji, and_comm]
    rfl
  · rw [ordinary_eq_conflict_iff, hij, hji]
  · rw [sameClocks_iff (hsmall i).nodup (hsmall j).nodup, hij, hji, heq]
    exact ⟨Finset.Subset.refl _, Finset.Subset.refl _⟩

/-- Two owners, and a third vector that is a copy of the first, merged into the second
after both have gone on. -/
theorem compare_histories_three :
    ∃ s : Vectors (Fin 3) (VersionClock ℕ),
      ComparesHistories (s.history 2) (s.history 1) (compare 4 (s.clocks 2) (s.clocks 1)) ∧
      compare 4 (s.clocks 2) (s.clocks 1) = .lessThan ∧
      compare 4 (s.clocks 0) (s.clocks 1) = .conflict := by
  obtain ⟨s, hrun, hless, hconflict⟩ : ∃ s : Vectors (Fin 3) (VersionClock ℕ),
      Reaches (step 4) (Owned (fun k : ℕ => if k = 7 then 0 else 1) {7, 8}) empty s ∧
      compare 4 (s.clocks 2) (s.clocks 1) = .lessThan ∧
      compare 4 (s.clocks 0) (s.clocks 1) = .conflict :=
    exists_reaches [.increment 0 true (7 : ℕ), .copy 2 0, .increment 1 true (8 : ℕ),
      .increment 0 true (7 : ℕ), .merge 1 2] (by decide)
  exact ⟨s, (compare_histories _ {7, 8} 4 (by decide) s hrun 2 1).1, hless, hconflict⟩

end Vectors

end BoundedVector

end Turbolib
