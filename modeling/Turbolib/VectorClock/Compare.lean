import Turbolib.VectorClock.Merge

/-!
# Comparing bounded vectors

`compare` is the ordinary comparison of what is kept of the two vectors after each
is cut at one of its clocks. `CutsAgree` is what the cuts have to leave alone for
the result to be as the ordinary comparison of the whole vectors whenever these are
ordered, and to be `EQUAL` for equal vectors only.
-/

namespace Turbolib

namespace BoundedVector

variable {C K : Type} [ClockOps C K]

/-! ## The ordinary comparison -/

/-- Every key of `a` is in `b`, with a clock that is no smaller. -/
def Below (a b : List C) : Prop :=
  ∀ c ∈ a, ∃ d ∈ b, key d = key c ∧ clockLessThan d c = false

def SameClocks (a b : List C) : Prop :=
  ∀ c, c ∈ a ↔ c ∈ b

variable {a b x y first second : List C} {c d : C}

theorem SameClocks.below (h : SameClocks a b) : Below a b :=
  fun c hc => ⟨c, (h c).mp hc, rfl, ClockOps.lessThan_irrefl c⟩

theorem SameClocks.symm (h : SameClocks a b) : SameClocks b a :=
  fun c => (h c).symm

theorem Below.mem (ha : (a.map key).Nodup) (hab : Below a b) (hba : Below b a) (hc : c ∈ a) :
    c ∈ b := by
  obtain ⟨d, hd, hdk, hdc⟩ := hab c hc
  obtain ⟨e, he, hek, hed⟩ := hba d hd
  obtain rfl : e = c := List.inj_on_of_nodup_map ha he hc (hek.trans hdk)
  rwa [ClockOps.eq_of_not_lessThan e d hek hed hdc]

theorem sameClocks_iff (ha : (a.map key).Nodup) (hb : (b.map key).Nodup) :
    SameClocks a b ↔ Below a b ∧ Below b a :=
  ⟨fun h => ⟨h.below, h.symm.below⟩,
    fun h _ => ⟨Below.mem ha h.1 h.2, Below.mem hb h.2 h.1⟩⟩

theorem Below.keys_subset (h : Below a b) : a.map key ⊆ b.map key := by
  intro k hk
  obtain ⟨c, hc, rfl⟩ := List.mem_map.mp hk
  obtain ⟨d, hd, hdk, -⟩ := h c hc
  exact List.mem_map.mpr ⟨d, hd, hdk⟩

theorem Below.length_le (ha : (a.map key).Nodup) (h : Below a b) : a.length ≤ b.length := by
  have := (ha.subperm h.keys_subset).length_le
  rwa [List.length_map, List.length_map] at this

/-- Parts of ordered vectors are ordered when no key of the first is missing. -/
theorem Below.restrict_iff (hb : (b.map key).Nodup) (h : Below a b) (hx : x ⊆ a) (hy : y ⊆ b) :
    Below x y ↔ x.map key ⊆ y.map key := by
  refine ⟨Below.keys_subset, fun hk c hc => ?_⟩
  obtain ⟨d, hd, hdk, hdc⟩ := h c (hx hc)
  obtain ⟨e, he, hek⟩ := List.mem_map.mp (hk (List.mem_map_of_mem hc))
  obtain rfl : e = d := List.inj_on_of_nodup_map hb (hy he) hd (hek.trans hdk.symm)
  exact ⟨e, he, hdk, hdc⟩

theorem below_congr {a' b' : List C} (ha : a.Perm a') (hb : b.Perm b') :
    Below a b ↔ Below a' b' := by
  simp only [Below, ha.mem_iff, hb.mem_iff]

theorem below_cons_iff (hk : key d = key c) (hx : ∀ e ∈ x, key e ≠ key c)
    (hy : ∀ e ∈ y, key e ≠ key c) :
    Below (c :: x) (d :: y) ↔ clockLessThan d c = false ∧ Below x y := by
  constructor
  · intro h
    refine ⟨?_, fun e he => ?_⟩
    · obtain ⟨f, hf, hfk, hfc⟩ := h c (by simp)
      rcases List.mem_cons.mp hf with rfl | hf
      · exact hfc
      · exact absurd hfk (hy f hf)
    · obtain ⟨f, hf, hfk, hfe⟩ := h e (by simp [he])
      rcases List.mem_cons.mp hf with rfl | hf
      · exact absurd (hfk.symm.trans hk) (hx e he)
      · exact ⟨f, hf, hfk, hfe⟩
  · rintro ⟨hdc, h⟩ e he
    rcases List.mem_cons.mp he with rfl | he
    · exact ⟨d, by simp, hk, hdc⟩
    · obtain ⟨f, hf, hfe⟩ := h e he
      exact ⟨f, by simp [hf], hfe⟩

variable [DecidableEq K]

instance : DecidableRel (Below (C := C)) := fun a b =>
  inferInstanceAs (Decidable (∀ c ∈ a, ∃ d ∈ b, key d = key c ∧ clockLessThan d c = false))

/-- The comparison of vector clocks, where a key that is missing is below every clock. -/
def ordinary (a b : List C) : Compare :=
  if Below a b then (if Below b a then .equal else .lessThan)
  else if Below b a then .greaterThan else .conflict

theorem ordinary_eq_equal_iff : ordinary a b = .equal ↔ Below a b ∧ Below b a := by
  rw [ordinary]
  split_ifs <;> simp [*]

theorem ordinary_eq_lessThan_iff : ordinary a b = .lessThan ↔ Below a b ∧ ¬Below b a := by
  rw [ordinary]
  split_ifs <;> simp [*]

theorem ordinary_eq_greaterThan_iff : ordinary a b = .greaterThan ↔ ¬Below a b ∧ Below b a := by
  rw [ordinary]
  split_ifs <;> simp [*]

theorem ordinary_eq_conflict_iff : ordinary a b = .conflict ↔ ¬Below a b ∧ ¬Below b a := by
  rw [ordinary]
  split_ifs <;> simp [*]

/-! ## The loop -/

/-- The set of distinct keys is filled with all of them. -/
theorem toSet_eq (hx : (x.map key).Nodup) : toSet x = x := by
  suffices h : ∀ s : List C, ((s ++ x).map key).Nodup →
      x.foldl (fun s c => if s.any (fun d => key d = key c) then s else s ++ [c]) s = s ++ x by
    simpa [toSet] using h [] (by simpa using hx)
  clear hx
  induction x with
  | nil => simp
  | cons c x ih =>
    intro s hs
    have hnew : ¬s.any (fun d => key d = key c) = true := by
      rw [List.any_eq_true]
      rintro ⟨d, hd, hk⟩
      exact key_ne_of_nodup hs d hd (of_decide_eq_true hk)
    rw [List.foldl_cons, if_neg hnew, ih (s ++ [c]) (by simpa using hs), List.append_assoc,
      List.singleton_append]

/-- The bits of a result: whether the first vector fails to be below the second, and
the other way round. -/
def bits (x y : List C) : ℕ :=
  (if Below x y then 0 else Compare.GREATER_THAN) ||| (if Below y x then 0 else Compare.LESS_THAN)

theorem bits_nil : bits [] y = if y.isEmpty then 0 else Compare.LESS_THAN := by
  cases y with
  | nil => simp [bits, Below]
  | cons d y =>
    have hless : ¬Below (d :: y) [] := fun h => by simpa using h d (by simp)
    have hgreater : Below [] (d :: y) := fun c hc => absurd hc List.not_mem_nil
    rw [bits, if_neg hless, if_pos hgreater]
    rfl

/-- A key that the second vector lacks sets one bit, and plays no role in the other. -/
theorem bits_cons_of_ne (hy : ∀ e ∈ y, key e ≠ key c) :
    bits (c :: x) y = Compare.GREATER_THAN ||| bits x y := by
  have hgreater : ¬Below (c :: x) y := by
    intro h
    obtain ⟨d, hd, hk, -⟩ := h c (by simp)
    exact hy d hd hk
  have hless : Below y (c :: x) ↔ Below y x := by
    refine ⟨fun h e he => ?_, fun h e he => ?_⟩
    · obtain ⟨d, hd, hk, hde⟩ := h e he
      rcases List.mem_cons.mp hd with rfl | hd
      · exact absurd hk.symm (hy e he)
      · exact ⟨d, hd, hk, hde⟩
    · obtain ⟨d, hd, hde⟩ := h e he
      exact ⟨d, by simp [hd], hde⟩
  simp only [bits, hgreater, hless, if_false]
  split_ifs <;> rfl

theorem bits_cons_of_eq {s t : List C} (hk : key d = key c) (hx : ((c :: x).map key).Nodup)
    (hy : ((s ++ d :: t).map key).Nodup) :
    bits (c :: x) (s ++ d :: t) =
      (if clockLessThan c d then Compare.LESS_THAN
        else if clockLessThan d c then Compare.GREATER_THAN else 0) ||| bits x (s ++ t) := by
  have hperm : (s ++ d :: t).Perm (d :: (s ++ t)) := List.perm_middle
  have hx' : ∀ e ∈ x, key e ≠ key c := fun e he hek => by
    rw [List.map_cons, List.nodup_cons] at hx
    exact hx.1 (List.mem_map.mpr ⟨e, he, hek⟩)
  have hy' : ∀ e ∈ s ++ t, key e ≠ key c := fun e he hek => by
    rw [(hperm.map key).nodup_iff, List.map_cons, List.nodup_cons] at hy
    exact hy.1 (List.mem_map.mpr ⟨e, he, hek.trans hk.symm⟩)
  simp only [bits, below_congr (List.Perm.refl (c :: x)) hperm,
    below_congr hperm (List.Perm.refl (c :: x)), below_cons_iff hk hx' hy',
    below_cons_iff hk.symm (hk ▸ hy') (hk ▸ hx')]
  cases hcd : clockLessThan c d with
  | true =>
    have hdc : clockLessThan d c = false := by
      by_contra hdc
      have := ClockOps.lessThan_trans _ _ _ hcd (Bool.eq_true_of_not_eq_false hdc)
      rw [ClockOps.lessThan_irrefl] at this
      exact absurd this (by simp)
    simp only [hdc, Bool.true_eq_false, true_and, false_and, if_true, if_false]
    split_ifs <;> rfl
  | false =>
    cases hdc : clockLessThan d c with
    | true =>
      simp only [Bool.true_eq_false, Bool.false_eq_true, true_and, false_and, if_true, if_false]
      split_ifs <;> rfl
    | false => simp

theorem compareLoop_eq {result : ℕ} (hx : (x.map key).Nodup) (hy : (y.map key).Nodup) :
    compareLoop x y result = result ||| bits x y := by
  induction x generalizing y result with
  | nil =>
    rw [compareLoop, bits_nil]
    split_ifs <;> simp
  | cons c x ih =>
    have hx' := (List.nodup_cons.mp hx).2
    rw [compareLoop]
    cases hfind : find y c with
    | none =>
      simp only
      rw [ih hx' hy, bits_cons_of_ne (find_eq_none_iff.mp hfind), Nat.or_assoc]
    | some it =>
      obtain ⟨i, d⟩ := it
      obtain ⟨s, t, rfl, rfl, hk, -⟩ := find_eq_some_iff.mp hfind
      have herase : (s ++ d :: t).eraseIdx s.length = s ++ t := by
        simp [List.eraseIdx_append_of_length_le]
      have hy' : ((s ++ t).map key).Nodup :=
        hy.sublist (((List.Sublist.refl s).append (List.sublist_cons_self d t)).map key)
      simp only [herase]
      rw [ih hx' hy', bits_cons_of_eq hk hx hy, ← Nat.or_assoc]
      split_ifs <;> simp

/-! ## The cuts -/

/-- The clock of `y` that `x` is cut at: of the older half of a full `y`, the most
recent one whose key `x` has with a clock that is no greater. -/
def cutClock (limit : ℕ) (x y : List C) : Option C :=
  if limit ≤ y.length then
    (y.drop (y.length - limit / 2)).find? fun c =>
      x.any fun d => key d = key c && !clockLessThan c d
  else none

/-- The clocks of `x` in front of the cut. -/
def kept (limit : ℕ) (x y : List C) : List C :=
  match cutClock limit x y with
  | some c => x.takeWhile fun d => key d ≠ key c
  | none => x

/-- The clocks of `x` behind the cut, with the one it is at. -/
def cutOff (limit : ℕ) (x y : List C) : List C :=
  match cutClock limit x y with
  | some c => x.dropWhile fun d => key d ≠ key c
  | none => []

theorem kept_append_cutOff (limit : ℕ) (x y : List C) :
    kept limit x y ++ cutOff limit x y = x := by
  rw [kept, cutOff]
  cases cutClock limit x y with
  | none => simp
  | some c => exact List.takeWhile_append_dropWhile

theorem mem_iff_kept (limit : ℕ) (x y : List C) :
    c ∈ x ↔ c ∈ kept limit x y ∨ c ∈ cutOff limit x y := by
  rw [← List.mem_append, kept_append_cutOff]

theorem findElem_eq (hx : (x.map key).Nodup) (c : C) :
    findElem x c =
      if x.any fun d => key d = key c && !clockLessThan c d then
        some (x.takeWhile fun d => key d ≠ key c).length
      else none := by
  rw [findElem]
  cases hfind : find x c with
  | none =>
    have hnone : ¬(x.any fun d => key d = key c && !clockLessThan c d) = true := by
      simp only [List.any_eq_true, Bool.and_eq_true, decide_eq_true_eq]
      rintro ⟨d, hd, hk, -⟩
      exact find_eq_none_iff.mp hfind d hd hk
    rw [if_neg hnone]
  | some it =>
    obtain ⟨i, d⟩ := it
    obtain ⟨s, t, rfl, rfl, hk, hs⟩ := find_eq_some_iff.mp hfind
    have hany : ((s ++ d :: t).any fun d => key d = key c && !clockLessThan c d) =
        !clockLessThan c d := by
      rw [Bool.eq_iff_iff]
      simp only [List.any_eq_true, Bool.and_eq_true, decide_eq_true_eq]
      refine ⟨?_, fun h => ⟨d, by simp, hk, h⟩⟩
      rintro ⟨e, he, hek, h⟩
      rwa [List.inj_on_of_nodup_map hx (show d ∈ s ++ d :: t by simp) he (hk.trans hek.symm)]
    have htake : ((s ++ d :: t).takeWhile fun d => key d ≠ key c) = s := by
      rw [List.takeWhile_append_of_pos (by simpa using hs)]
      simp [hk]
    simp only [hany, htake, ClockOps.lessThanEquals_eq]

theorem findEndFrom_eq (hx : (x.map key).Nodup) (cs : List C) :
    findEndFrom x cs =
      match cs.find? fun c => x.any fun d => key d = key c && !clockLessThan c d with
      | some c => (x.takeWhile fun d => key d ≠ key c).length
      | none => x.length := by
  induction cs with
  | nil => rfl
  | cons c cs ih =>
    rw [findEndFrom, findElem_eq hx, List.find?_cons]
    cases x.any fun d => key d = key c && !clockLessThan c d with
    | true => rfl
    | false => exact ih

theorem take_findEnd (hx : (x.map key).Nodup) (limit : ℕ) (y : List C) :
    x.take (findEnd limit x y) = kept limit x y := by
  rw [findEnd, kept, cutClock]
  split_ifs with h
  · rw [findEndFrom_eq hx]
    cases (y.drop (y.length - limit / 2)).find? fun c =>
        x.any fun d => key d = key c && !clockLessThan c d with
    | none => exact List.take_length
    | some c => exact List.prefix_iff_eq_take.mp (List.takeWhile_prefix _) |>.symm
  · exact List.take_length

theorem kept_sublist (limit : ℕ) (x y : List C) : (kept limit x y).Sublist x := by
  conv_rhs => rw [← kept_append_cutOff limit x y]
  exact List.sublist_append_left _ _

theorem nodup_kept (hx : (x.map key).Nodup) (limit : ℕ) (y : List C) :
    ((kept limit x y).map key).Nodup :=
  hx.sublist ((kept_sublist limit x y).map key)

/-! ## compare -/

theorem compareBits_eq (limit : ℕ) (ha : (a.map key).Nodup) (hb : (b.map key).Nodup) :
    compareBits limit a b = bits (kept limit a b) (kept limit b a) := by
  have hka := nodup_kept ha limit b
  have hkb := nodup_kept hb limit a
  rw [compareBits]
  simp only [take_findEnd ha, take_findEnd hb]
  rw [toSet_eq hka, toSet_eq hkb, compareLoop_eq hka hkb]
  exact Nat.zero_or _

/-- The first vector is no longer than the other: the kept parts are compared. -/
theorem compare_of_le (limit : ℕ) (ha : (a.map key).Nodup) (hb : (b.map key).Nodup)
    (hlen : a.length ≤ b.length) :
    compare limit a b = ordinary (kept limit a b) (kept limit b a) := by
  rw [compare, if_neg (by omega), compareBits_eq limit ha hb, bits, ordinary]
  split_ifs <;> rfl

/-- The first vector is longer: it is never the lesser one. -/
theorem compare_of_gt (limit : ℕ) (ha : (a.map key).Nodup) (hb : (b.map key).Nodup)
    (hlen : b.length < a.length) :
    compare limit a b =
      if Below (kept limit b a) (kept limit a b) then .greaterThan else .conflict := by
  rw [compare, if_pos hlen, compareBits_eq limit hb ha, bits]
  split_ifs <;> rfl

/-- The comparison gives the order of ordered vectors, and equality to equal ones only. -/
def CompareSound (limit : ℕ) (a b : List C) : Prop :=
  (ordinary a b ≠ .conflict → compare limit a b = ordinary a b) ∧
    (compare limit a b = .equal → SameClocks a b)

/-- The cuts keep what decides the order. Where one vector is below the other, no key
that is kept of the lower one is cut off from the upper one; and where the kept parts
are the same, so are the parts cut off. -/
structure CutsAgree (limit : ℕ) (a b : List C) : Prop where
  left : Below a b → (kept limit a b).map key ⊆ (kept limit b a).map key
  right : Below b a → (kept limit b a).map key ⊆ (kept limit a b).map key
  same : a.length ≤ b.length → SameClocks (kept limit a b) (kept limit b a) →
    SameClocks (cutOff limit a b) (cutOff limit b a)

theorem mem_cutOff_iff (hx : (x.map key).Nodup) (limit : ℕ) (y : List C) :
    c ∈ cutOff limit x y ↔ c ∈ x ∧ c ∉ kept limit x y := by
  have hn : (kept limit x y ++ cutOff limit x y).Nodup := by
    rw [kept_append_cutOff]
    exact hx.of_map key
  have hdisj := (List.nodup_append.mp hn).2.2
  rw [mem_iff_kept limit x y]
  constructor
  · intro hc
    exact ⟨Or.inr hc, fun hk => hdisj c hk c hc rfl⟩
  · rintro ⟨hc, hk⟩
    exact hc.resolve_left hk

/-- Where the kept parts are the same, the vectors are as far as the parts cut off are. -/
theorem sameClocks_iff_cutOff (limit : ℕ) (ha : (a.map key).Nodup) (hb : (b.map key).Nodup)
    (h : SameClocks (kept limit a b) (kept limit b a)) :
    SameClocks a b ↔ SameClocks (cutOff limit a b) (cutOff limit b a) := by
  constructor
  · intro hab c
    rw [mem_cutOff_iff ha, mem_cutOff_iff hb, hab c, h c]
  · intro hcut c
    rw [mem_iff_kept limit a b, mem_iff_kept limit b a, h c, hcut c]

theorem below_kept_iff {limit : ℕ} (hb : (b.map key).Nodup) (h : Below a b) :
    Below (kept limit a b) (kept limit b a) ↔
      (kept limit a b).map key ⊆ (kept limit b a).map key :=
  h.restrict_iff hb (kept_sublist limit a b).subset (kept_sublist limit b a).subset

section sound

variable {limit : ℕ} (ha : (a.map key).Nodup) (hb : (b.map key).Nodup)
include ha hb

theorem compareSound_of_le (hlen : a.length ≤ b.length) :
    CompareSound limit a b ↔ CutsAgree limit a b := by
  have hka := nodup_kept ha limit b
  have hkb := nodup_kept hb limit a
  rw [CompareSound, compare_of_le limit ha hb hlen]
  constructor
  · rintro ⟨hord, heq⟩
    refine ⟨fun hab => ?_, fun hba => ?_, fun _ hk => ?_⟩
    · have := hord (by rw [ne_eq, ordinary_eq_conflict_iff]; tauto)
      by_cases hba : Below b a
      · rw [ordinary_eq_equal_iff.mpr ⟨hab, hba⟩, ordinary_eq_equal_iff] at this
        exact this.1.keys_subset
      · rw [ordinary_eq_lessThan_iff.mpr ⟨hab, hba⟩, ordinary_eq_lessThan_iff] at this
        exact this.1.keys_subset
    · have := hord (by rw [ne_eq, ordinary_eq_conflict_iff]; tauto)
      by_cases hab : Below a b
      · rw [ordinary_eq_equal_iff.mpr ⟨hab, hba⟩, ordinary_eq_equal_iff] at this
        exact this.2.keys_subset
      · rw [ordinary_eq_greaterThan_iff.mpr ⟨hab, hba⟩, ordinary_eq_greaterThan_iff] at this
        exact this.2.keys_subset
    · rw [← sameClocks_iff_cutOff limit ha hb hk]
      exact heq (ordinary_eq_equal_iff.mpr ((sameClocks_iff hka hkb).mp hk))
  · intro h
    have heq : ordinary (kept limit a b) (kept limit b a) = .equal → SameClocks a b := by
      rw [ordinary_eq_equal_iff, ← sameClocks_iff hka hkb]
      intro hk
      exact (sameClocks_iff_cutOff limit ha hb hk).mpr (h.same hlen hk)
    refine ⟨fun hne => ?_, heq⟩
    have hleft : Below a b → Below (kept limit a b) (kept limit b a) := fun hab =>
      (below_kept_iff hb hab).mpr (h.left hab)
    have hright : Below b a → Below (kept limit b a) (kept limit a b) := fun hba =>
      (below_kept_iff ha hba).mpr (h.right hba)
    -- a one-sided order stays one-sided: equal kept parts would mean equal vectors
    by_cases hab : Below a b
    · by_cases hba : Below b a
      · rw [ordinary_eq_equal_iff.mpr ⟨hab, hba⟩, ordinary_eq_equal_iff]
        exact ⟨hleft hab, hright hba⟩
      · rw [ordinary_eq_lessThan_iff.mpr ⟨hab, hba⟩, ordinary_eq_lessThan_iff]
        exact ⟨hleft hab, fun hk =>
          hba (heq (ordinary_eq_equal_iff.mpr ⟨hleft hab, hk⟩)).symm.below⟩
    · have hba : Below b a := by
        by_contra hba
        exact hne (ordinary_eq_conflict_iff.mpr ⟨hab, hba⟩)
      rw [ordinary_eq_greaterThan_iff.mpr ⟨hab, hba⟩, ordinary_eq_greaterThan_iff]
      exact ⟨fun hk => hab (heq (ordinary_eq_equal_iff.mpr ⟨hk, hright hba⟩)).below, hright hba⟩

theorem compareSound_of_gt (hlen : b.length < a.length) :
    CompareSound limit a b ↔ CutsAgree limit a b := by
  have hab : ¬Below a b := fun h => absurd (h.length_le ha) (by omega)
  rw [CompareSound, compare_of_gt limit ha hb hlen]
  constructor
  · rintro ⟨hord, -⟩
    refine ⟨fun h => absurd h hab, fun hba => ?_, fun h => absurd h (by omega)⟩
    have := hord (by rw [ne_eq, ordinary_eq_conflict_iff]; tauto)
    rw [ordinary_eq_greaterThan_iff.mpr ⟨hab, hba⟩] at this
    by_contra hk
    rw [if_neg fun h => hk (Below.keys_subset h)] at this
    exact absurd this (by simp)
  · intro h
    refine ⟨fun hne => ?_, fun heq => ?_⟩
    · have hba : Below b a := by
        by_contra hba
        exact hne (ordinary_eq_conflict_iff.mpr ⟨hab, hba⟩)
      rw [ordinary_eq_greaterThan_iff.mpr ⟨hab, hba⟩,
        if_pos ((below_kept_iff ha hba).mpr (h.right hba))]
    · split_ifs at heq

end sound

/-- The bounded comparison is sound exactly when the cuts keep what decides the order. -/
theorem compareSound_iff_cutsAgree (limit : ℕ) (ha : (a.map key).Nodup)
    (hb : (b.map key).Nodup) : CompareSound limit a b ↔ CutsAgree limit a b := by
  rcases Nat.lt_or_ge b.length a.length with hlen | hlen
  · exact compareSound_of_gt ha hb hlen
  · exact compareSound_of_le ha hb hlen

/-- Two full vectors in the same order, of which the older halves are cut off. -/
theorem compareSound_iff_cutsAgree_two :
    let a : List (VersionClock ℕ) := [⟨1, 1⟩, ⟨2, 1⟩, ⟨3, 1⟩, ⟨4, 1⟩]
    let b : List (VersionClock ℕ) := [⟨1, 2⟩, ⟨2, 1⟩, ⟨3, 1⟩, ⟨4, 1⟩]
    kept 4 a b = [⟨1, 1⟩, ⟨2, 1⟩] ∧ CompareSound 4 a b := by
  intro a b
  refine ⟨by decide, (compareSound_iff_cutsAgree 4 (by decide) (by decide)).mpr ?_⟩
  refine ⟨by decide, by decide, fun _ hsame => ?_⟩
  rw [sameClocks_iff (by decide) (by decide)] at hsame ⊢
  revert hsame
  decide

/-- The first two vectors hold the same clocks and are not equal; the first and the
third are equal, and two clocks of each are not in the other. -/
theorem compare_cuts_too_much :
    let a : List (VersionClock ℕ) := [⟨1, 1⟩, ⟨2, 1⟩, ⟨3, 1⟩, ⟨4, 1⟩]
    let b : List (VersionClock ℕ) := [⟨3, 1⟩, ⟨1, 1⟩, ⟨2, 1⟩, ⟨4, 1⟩]
    let c : List (VersionClock ℕ) := [⟨3, 1⟩, ⟨5, 1⟩, ⟨1, 1⟩, ⟨6, 1⟩]
    (ordinary a b = .equal ∧ compare 4 a b = .greaterThan) ∧
      (ordinary a c = .conflict ∧ compare 4 a c = .equal) ∧
      ¬CompareSound 4 a b ∧ ¬CompareSound 4 a c := by
  intro a b c
  have hab : ordinary a b = .equal ∧ compare 4 a b = .greaterThan := by decide
  have hac : ordinary a c = .conflict ∧ compare 4 a c = .equal := by decide
  refine ⟨hab, hac, ?_, ?_⟩
  · rintro ⟨hord, -⟩
    rw [hab.1, hab.2] at hord
    exact absurd (hord (by simp)) (by simp)
  · rintro ⟨-, heq⟩
    exact absurd ((heq hac.2 ⟨2, 1⟩).mp (by decide)) (by decide)

section full

variable {limit : ℕ}

theorem kept_of_lt (h : y.length < limit) : kept limit x y = x := by
  rw [kept, cutClock, if_neg (by omega)]

theorem cutOff_of_lt (h : y.length < limit) : cutOff limit x y = [] := by
  rw [cutOff, cutClock, if_neg (by omega)]

/-- Only two full vectors can be cut in the wrong places. -/
theorem cutsAgree_of_lt (ha : (a.map key).Nodup) (hb : (b.map key).Nodup)
    (hb' : b.length ≤ limit) (h : a.length < limit ∨ b.length < limit) :
    CutsAgree limit a b where
  left hab := by
    rw [kept_of_lt (show a.length < limit by have := hab.length_le ha; omega)]
    exact fun k hk =>
      hab.keys_subset (List.map_subset key (kept_sublist limit a b).subset hk)
  right hba := by
    have := hba.length_le hb
    by_cases hlt : b.length < limit
    · rw [kept_of_lt hlt]
      exact fun k hk =>
        hba.keys_subset (List.map_subset key (kept_sublist limit b a).subset hk)
    · omega
  same hlen hk := by
    have hlt : a.length < limit := by omega
    rw [kept_of_lt hlt] at hk
    have hle := hk.symm.below.length_le hb
    have hkept := (kept_sublist limit a b).length_le
    rw [cutOff_of_lt hlt, cutOff_of_lt (show b.length < limit by omega)]
    exact fun c => Iff.rfl

end full

end BoundedVector

end Turbolib
