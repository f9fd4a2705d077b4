import Turbolib.VectorClock.Arrange
import Turbolib.VectorClock.Compare

/-!
# Merging what is known

A vector that holds no greater clock leaves the clocks of the other one in their order,
but brings in the clocks it has beside them. These fall out again only if they come
behind all clocks of a full vector, that is after the clock for its last key.

## Main definitions

* `NothingNewer` — no clock of a key is greater.
* `Late` — the clocks of other keys come after the one for the last key.
-/

namespace Turbolib

namespace BoundedVector

variable {C K : Type} [ClockOps C K]

/-- No clock of `w` is greater than the one that `v` has of its key. -/
def NothingNewer (v w : List C) : Prop :=
  ∀ e ∈ w, ∀ x ∈ v, key x = key e → clockLessThan x e = false

/-- `v` lacks the key of `e`. -/
def Foreign (v : List C) (e : C) : Prop := ∀ x ∈ v, key x ≠ key e

/-- Each clock of `w` for a key that `v` lacks comes after one for the key of the last
clock of `behind`, if there is any clock in `behind`. -/
def Late (v behind w : List C) : Prop :=
  ∀ w₁ f w₂, w = w₁ ++ f :: w₂ → Foreign v f → ∀ x ∈ behind.getLast?, ∃ z ∈ w₁, key z = key x

variable {v w behind a b d : List C} {c e x : C}

theorem NothingNewer.tail (hnew : NothingNewer v (e :: w)) : NothingNewer v w :=
  fun d hd => hnew d (List.mem_cons_of_mem e hd)

theorem late_nil (v w : List C) : Late v [] w :=
  fun _ _ _ _ _ x hx => absurd hx (by simp)

theorem late_cons_of_foreign (he : Foreign v e) : Late v behind (e :: w) ↔ behind = [] := by
  constructor
  · intro h
    have hfirst := h [] e w rfl he
    rw [← List.getLast?_eq_none_iff, Option.eq_none_iff_forall_not_mem]
    intro x hx
    obtain ⟨z, hz, -⟩ := hfirst x hx
    cases hz
  · rintro rfl
    exact late_nil v _

theorem late_cons_of_known (he : ¬Foreign v e) :
    Late v behind (e :: w) ↔ ∀ w₁ f w₂, w = w₁ ++ f :: w₂ → Foreign v f →
      ∀ x ∈ behind.getLast?, key e = key x ∨ ∃ z ∈ w₁, key z = key x := by
  constructor
  · intro h w₁ f w₂ hw hf x hx
    simpa using h (e :: w₁) f w₂ (by rw [hw, List.cons_append]) hf x hx
  · intro h w₁ f w₂ hw hf x hx
    cases w₁ with
    | nil =>
      obtain ⟨rfl, -⟩ := List.cons.inj hw
      exact absurd hf he
    | cons z w₁ =>
      obtain ⟨rfl, htail⟩ := List.cons.inj hw
      simpa using h w₁ f w₂ htail hf x hx

/-- The clock for a key that is not the last one settles nothing. -/
theorem late_cons_of_ne (he : ¬Foreign v e) (hne : ∀ x ∈ behind.getLast?, key e ≠ key x) :
    Late v behind (e :: w) ↔ Late v behind w := by
  rw [late_cons_of_known he]
  constructor
  · exact fun h w₁ f w₂ hw hf x hx => (h w₁ f w₂ hw hf x hx).resolve_left (hne x hx)
  · exact fun h w₁ f w₂ hw hf x hx => Or.inr (h w₁ f w₂ hw hf x hx)

/-- A clock for a key of `behind` settles it for all in front of that key. -/
theorem late_cons_of_split (hn : ((a ++ x :: b).map key).Nodup) (he : ¬Foreign v e)
    (hk : key x = key e) : Late v (a ++ x :: b) (e :: w) ↔ Late v b w := by
  rcases List.eq_nil_or_concat' b with rfl | ⟨b, y, rfl⟩
  · refine iff_of_true ((late_cons_of_known he).mpr fun w₁ f w₂ _ _ z hz => Or.inl ?_)
      (late_nil v w)
    rw [List.getLast?_concat, Option.mem_some_iff] at hz
    rw [← hz, hk]
  · have hlast : (a ++ x :: (b ++ [y])).getLast? = (b ++ [y]).getLast? := by
      rw [← List.cons_append, ← List.append_assoc, List.getLast?_concat, List.getLast?_concat]
    have hxy : key e ≠ key y := by
      rw [← hk]
      rw [← List.cons_append, ← List.append_assoc] at hn
      exact key_ne_of_nodup hn x (by simp)
    have hne : ∀ z ∈ (b ++ [y]).getLast?, key e ≠ key z := by simpa using hxy
    rw [← late_cons_of_ne he hne]
    unfold Late
    rw [hlast]

/-! ## The order of the merge -/

variable [DecidableEq K] {limit : ℕ}

theorem foreign_iff_find : Foreign v e ↔ find v e = none := find_eq_none_iff.symm

/-- With nothing newer the clocks left of `v` stay in front of the others exactly when
these come late. -/
theorem arrangeRest_prefix_iff (hnew : NothingNewer v w) (hn : (behind.map key).Nodup)
    (hsub : behind ⊆ v) : behind <+: arrangeRest v behind w ↔ Late v behind w := by
  induction w generalizing behind with
  | nil =>
    refine iff_of_true List.prefix_rfl fun w₁ f w₂ hw => ?_
    exact absurd hw (by simp)
  | cons e w ih =>
    rw [arrangeRest]
    cases hfind : find v e with
    | none =>
      have hforeign := foreign_iff_find.mpr hfind
      rw [late_cons_of_foreign hforeign]
      cases behind with
      | nil => exact iff_of_true List.nil_prefix rfl
      | cons y behind =>
        refine iff_of_false (fun hpre => ?_) (by simp)
        obtain rfl : y = e := (List.cons_prefix_cons.mp hpre).1
        exact hforeign y (hsub List.mem_cons_self) rfl
    | some it =>
      obtain ⟨i, x⟩ := it
      obtain ⟨v₁, v₂, hsplit, -, hk, -⟩ := find_eq_some_iff.mp hfind
      have hxv : x ∈ v := by simp [hsplit]
      have hknown : ¬Foreign v e := fun hf => hf x hxv hk
      have hlt := hnew e List.mem_cons_self x hxv hk
      simp only [hlt, Bool.false_eq_true, if_false]
      cases hbehind : find behind e with
      | some jt =>
        obtain ⟨j, y⟩ := jt
        obtain ⟨a, b, rfl, rfl, hky, -⟩ := find_eq_some_iff.mp hbehind
        have hb : (b.map key).Nodup := hn.sublist
          ((((List.sublist_cons_self y b).trans (List.sublist_append_right a _))).map key)
        rw [late_cons_of_split hn hknown hky, ← ih hnew.tail hb fun c hc => hsub (by simp [hc])]
        simp only [take_length_succ, drop_length_succ]
        rw [List.append_cons a y b, List.prefix_append_right_inj]
      | none =>
        have hne := find_eq_none_iff.mp hbehind
        rw [late_cons_of_ne hknown fun z hz hez => hne z (List.mem_of_mem_getLast? hz) hez.symm]
        exact ih hnew.tail hn hsub

theorem mem_arrangeRest (hc : c ∈ arrangeRest v behind w) : c ∈ behind ∨ c ∈ w := by
  fun_induction arrangeRest v behind w <;> grind [List.mem_of_mem_take, List.mem_of_mem_drop,
    List.mem_of_mem_eraseIdx, List.mem_of_mem_tail]

/-! ## The merge -/

theorem held_of_nothingNewer (hnew : NothingNewer v w) (he : e ∈ w) :
    held v e = false ↔ Foreign v e := by
  rw [Bool.eq_false_iff, ne_eq, held_iff]
  constructor
  · exact fun h x hx hk => h ⟨x, hx, hk, hnew e he x hx hk⟩
  · rintro h ⟨x, hx, hk, -⟩
    exact h x hx hk

/-- Without a replacement the insert position cannot leave the deque. -/
theorem foldlM_advance_isSome (hnew : NothingNewer v w) (behind : List C) :
    (w.foldlM (advance v) behind).isSome = true := by
  induction w generalizing behind with
  | nil => rfl
  | cons e w ih =>
    obtain ⟨behind', hstep⟩ : ∃ behind', advance v behind e = some behind' := by
      rw [advance]
      cases hfind : find v e with
      | none => exact ⟨_, rfl⟩
      | some it =>
        obtain ⟨i, x⟩ := it
        obtain ⟨v₁, v₂, hsplit, -, hk, -⟩ := find_eq_some_iff.mp hfind
        have hlt := hnew e List.mem_cons_self x (by simp [hsplit]) hk
        simp only [hlt, Bool.false_eq_true, if_false]
        cases find behind e <;> exact ⟨_, rfl⟩
    rw [List.foldlM_cons, hstep]
    exact ih hnew.tail behind'

/-- Nothing is outdated in two vectors of which the second has nothing newer. -/
theorem not_outdated_of_nothingNewer (hw : (w.map key).Nodup) (hnew : NothingNewer v w)
    (hc : c ∈ v ∨ c ∈ w) : outdated w c = false := by
  rw [Bool.eq_false_iff, ne_eq, outdated_iff]
  rintro ⟨d, hd, hk, hlt⟩
  rcases hc with hc | hc
  · rw [hnew d hd c hc hk.symm] at hlt
    cases hlt
  · rw [List.inj_on_of_nodup_map hw hc hd hk.symm, ClockOps.lessThan_irrefl] at hlt
    cases hlt

/-- With nothing newer no clock is left out of the order. -/
theorem arrange_cases (hw : (w.map key).Nodup) (hnew : NothingNewer v w) :
    ∃ news rest, w = news ++ rest ∧ (∀ e ∈ news, held v e = false) ∧
      (rest = [] ∧ arrange v w = Deque.interlace v news ∨
      ∃ e w', rest = e :: w' ∧ held v e = true ∧ arrange v w =
        Deque.interlace (v.takeWhile fun c => key c ≠ key e) news ++
          arrangeRest v (v.dropWhile fun c => key c ≠ key e) rest) := by
  have hsplit : (w.takeWhile fun e => !held v e) ++ (w.dropWhile fun e => !held v e) = w :=
    List.takeWhile_append_dropWhile
  have hheld := List.head?_dropWhile_not (fun e => !held v e) w
  have hnews : ∀ e ∈ w.takeWhile fun e => !held v e, held v e = false := by
    intro e he
    simpa using List.mem_takeWhile_imp he
  rw [arrange]
  generalize (w.takeWhile fun e => !held v e) = news at hsplit hnews ⊢
  generalize (w.dropWhile fun e => !held v e) = rest at hsplit hheld ⊢
  have hleft : (v.filter fun c => !outdated news c) = v := by
    refine List.filter_eq_self.mpr fun c hc => ?_
    have hout := not_outdated_of_nothingNewer hw hnew (Or.inl hc)
    rw [← hsplit, outdated_append, Bool.or_eq_false_iff] at hout
    rw [hout.1, Bool.not_false]
  refine ⟨news, rest, hsplit.symm, hnews, ?_⟩
  have hall : ∀ clocks : List C, (∀ c ∈ clocks, c ∈ v ∨ c ∈ w) →
      (clocks.filter fun c => !outdated w c) = clocks := by
    refine fun clocks hc => List.filter_eq_self.mpr fun c hcc => ?_
    rw [not_outdated_of_nothingNewer hw hnew (hc c hcc), Bool.not_false]
  have hturns : ∀ left ⊆ v, ∀ c ∈ Deque.interlace left news, c ∈ v ∨ c ∈ w := by
    intro left hsub c hc
    rcases List.mem_append.mp ((Deque.interlace_perm left news).mem_iff.mp hc) with hc | hc
    · exact Or.inl (hsub hc)
    · exact Or.inr (hsplit ▸ List.mem_append_left rest hc)
  cases rest with
  | nil =>
    refine Or.inl ⟨rfl, ?_⟩
    simp only [hleft]
    exact hall _ fun c hc => hturns v (List.Subset.refl v) c hc
  | cons e w' =>
    refine Or.inr ⟨e, w', rfl, by simpa using hheld, ?_⟩
    simp only [hleft]
    refine hall _ fun c hc => ?_
    rcases List.mem_append.mp hc with hc | hc
    · exact hturns _ (List.takeWhile_subset _) c hc
    · rcases mem_arrangeRest hc with hc | hc
      · exact Or.inl (List.dropWhile_subset _ hc)
      · exact Or.inr (hsplit ▸ List.mem_append_right news hc)

/-- A first clock that is known: the merge goes on from `v`. -/
theorem arrange_of_known (hv : (v.map key).Nodup) (hw : (w.map key).Nodup)
    (hnew : NothingNewer v w) (hfirst : ∀ e ∈ w.head?, ¬Foreign v e) :
    arrange v w = arrangeRest v v w := by
  obtain ⟨news, rest, rfl, hnews, hcase⟩ := arrange_cases hw hnew
  have hnil : news = [] := by
    cases news with
    | nil => rfl
    | cons d news =>
      have hd := (held_of_nothingNewer hnew (by simp)).mp (hnews d List.mem_cons_self)
      exact absurd hd (hfirst d rfl)
  subst hnil
  rw [List.nil_append] at *
  rcases hcase with ⟨rfl, harrange⟩ | ⟨e, w', rfl, hheld, harrange⟩
  · rw [harrange, Deque.interlace_nil, arrangeRest]
  · obtain ⟨x, hx, hk, hlt⟩ := held_iff.mp hheld
    obtain ⟨a, b, rfl⟩ := List.append_of_mem hx
    have ha : ∀ c ∈ a, key c ≠ key e := hk ▸ key_ne_of_nodup hv
    have hfind := find_append_cons hv hk
    have htake : ((a ++ x :: b).takeWhile fun c => key c ≠ key e) = a := by
      rw [List.takeWhile_append_of_pos (by simpa using ha)]
      simp [hk]
    have hdrop : ((a ++ x :: b).dropWhile fun c => key c ≠ key e) = x :: b := by
      rw [List.dropWhile_append_of_pos (by simpa using ha)]
      simp [hk]
    rw [harrange, Deque.interlace_nil, htake, hdrop]
    have hrest : arrangeRest (a ++ x :: b) (x :: b) (e :: w') =
        x :: arrangeRest (a ++ x :: b) b w' := by
      simp [arrangeRest, hfind, find, hk, hlt]
    rw [hrest, arrangeRest, hfind]
    simp [hlt, take_length_succ, drop_length_succ]

/-- A first clock for a key that `v` lacks comes first or second. -/
theorem foreign_mem_arrange (hw : ((e :: w).map key).Nodup) (hnew : NothingNewer v (e :: w))
    (he : Foreign v e) : e ∈ (arrange v (e :: w)).take 2 := by
  obtain ⟨news, rest, hsplit, hnews, hcase⟩ := arrange_cases hw hnew
  have hheld := (held_of_nothingNewer hnew List.mem_cons_self).mpr he
  obtain ⟨news, rfl⟩ : ∃ news', news = e :: news' := by
    cases news with
    | nil =>
      rcases hcase with ⟨rfl, -⟩ | ⟨d, w', rfl, hd, -⟩
      · cases hsplit
      · cases hsplit
        rw [hheld] at hd
        cases hd
    | cons d news => exact ⟨news, by rw [(List.cons.inj hsplit).1]⟩
  have hturns : ∀ left r : List C, e ∈ (Deque.interlace left (e :: news) ++ r).take 2 := by
    intro left r
    cases left <;> simp [Deque.interlace]
  rcases hcase with ⟨-, harrange⟩ | ⟨d, w', -, -, harrange⟩
  · rw [harrange, ← List.append_nil (Deque.interlace v (e :: news))]
    exact hturns _ _
  · rw [harrange]
    exact hturns _ _

/-- When `v` absorbs `w`: nothing in `w` is newer, and if `w` has clocks for keys that `v`
lacks, `v` is full and they come after the one for the key of its last clock. -/
structure Absorbs (limit : ℕ) (v w : List C) : Prop where
  nothingNewer : NothingNewer v w
  late : Late v v w
  full : (∃ e ∈ w, Foreign v e) → v.length = limit

omit [DecidableEq K] in
theorem Merged.foreign_mem (hmerged : Merged v w d) (hw : (w.map key).Nodup) (he : e ∈ w)
    (hforeign : Foreign v e) : e ∈ d :=
  (hmerged.mem_iff e).mpr (isMax_right hw he fun c hc hk => absurd hk (hforeign c hc))

omit [DecidableEq K] in
/-- What is kept in front of a full vector is all of it, unless a clock of another key is
among it. -/
theorem take_limit_eq_iff (hlen : v.length ≤ limit) (hw : (w.map key).Nodup)
    (hmerged : Merged v w d) :
    d.take limit = v ↔ v <+: d ∧ ((∃ e ∈ w, Foreign v e) → v.length = limit) := by
  constructor
  · intro htake
    refine ⟨htake ▸ List.take_prefix limit d, ?_⟩
    rintro ⟨e, he, hforeign⟩
    by_contra hne
    -- a vector that is not full would be all there is
    have hall : d.take limit = d := by
      refine List.take_of_length_le ?_
      have hlength := congrArg List.length htake
      rw [List.length_take] at hlength
      omega
    have hev : e ∈ v := by
      rw [← htake, hall]
      exact hmerged.foreign_mem hw he hforeign
    exact hforeign e hev rfl
  · rintro ⟨⟨t, rfl⟩, hfull⟩
    cases t with
    | nil => rw [List.append_nil, List.take_of_length_le hlen]
    | cons c t =>
      have hforeign : Foreign v c := key_ne_of_nodup hmerged.nodup
      have hcw : c ∈ w := by
        have hc := ((hmerged.mem_iff c).mp (by simp)).1
        exact hc.resolve_left fun hcv => hforeign c hcv rfl
      exact List.take_left' (hfull ⟨c, hcw, hforeign⟩)

theorem take_eq_iff_absorbs (hlimit : 2 ≤ limit) (hv : (v.map key).Nodup)
    (hw : (w.map key).Nodup) (hlen : v.length ≤ limit) (hnew : NothingNewer v w)
    (hmerged : Merged v w (arrange v w)) :
    (arrange v w).take limit = v ↔ Absorbs limit v w := by
  by_cases hfirst : ∀ e ∈ w.head?, ¬Foreign v e
  · rw [take_limit_eq_iff hlen hw hmerged, arrange_of_known hv hw hnew hfirst,
      arrangeRest_prefix_iff hnew hv (List.Subset.refl v)]
    exact ⟨fun h => ⟨hnew, h.1, h.2⟩, fun h => ⟨h.late, h.full⟩⟩
  · push Not at hfirst
    obtain ⟨e, he, hforeign⟩ := hfirst
    cases w with
    | nil => cases he
    | cons d w =>
      obtain rfl : d = e := Option.some.inj he
      refine iff_of_false (fun htake => ?_) fun h => ?_
      · have hmem := List.take_subset_take_left _ hlimit (foreign_mem_arrange hw hnew hforeign)
        rw [htake] at hmem
        exact hforeign d hmem rfl
      · have hnil := (late_cons_of_foreign hforeign).mp h.late
        have hfull := h.full ⟨d, List.mem_cons_self, hforeign⟩
        rw [hnil, List.length_nil] at hfull
        omega

/-- `merge` leaves a vector as it was exactly when it absorbs the other one. -/
theorem merge_eq_self_iff (hlimit : 2 ≤ limit) (hv : (v.map key).Nodup) (hw : (w.map key).Nodup)
    (hlen : v.length ≤ limit) : merge limit v w = some v ↔ Absorbs limit v w := by
  by_cases hfit : fits v w = true
  · obtain ⟨d, hd, hmerged⟩ := exists_merged hv hw hfit
    obtain rfl := mergeAll_eq_arrange hv hw hd hmerged
    rw [merge, hd, Option.map_some, truncate_eq_take, Option.some_inj]
    by_cases hnew : NothingNewer v w
    · exact take_eq_iff_absorbs hlimit hv hw hlen hnew hmerged
    · refine iff_of_false (fun htake => hnew fun e he x hx hk => ?_) fun h => hnew h.nothingNewer
      have hxd : x ∈ arrange v w := List.mem_of_mem_take (htake.symm ▸ hx)
      exact ((hmerged.mem_iff x).mp hxd).2 e (Or.inr he) hk.symm
  · refine iff_of_false (fun h => ?_) fun h => hfit (foldlM_advance_isSome h.nothingNewer v)
    rw [merge, mergeAll_eq_none hv hw (Bool.eq_false_of_not_eq_true hfit)] at h
    cases h

/-- Merging what `compare` takes for known changes nothing exactly when it is absorbed. -/
theorem merge_known_iff (limit : ℕ) (hlimit : 2 ≤ limit) (v w : List C) (hv : (v.map key).Nodup)
    (hw : (w.map key).Nodup) (hlen : v.length ≤ limit) :
    (compare limit w v = .lessThan ∨ compare limit w v = .equal → merge limit v w = some v) ↔
      (compare limit w v = .lessThan ∨ compare limit w v = .equal → Absorbs limit v w) :=
  imp_congr_right fun _ => merge_eq_self_iff hlimit hv hw hlen

theorem merge_known_iff_four :
    let v : List (VersionClock ℕ) := [⟨1, 1⟩, ⟨2, 1⟩, ⟨3, 1⟩, ⟨4, 1⟩]
    let w : List (VersionClock ℕ) := [⟨2, 1⟩, ⟨4, 1⟩, ⟨5, 1⟩, ⟨6, 1⟩]
    (compare 4 w v = .lessThan ∨ compare 4 w v = .equal → merge 4 v w = some v) ↔
      (compare 4 w v = .lessThan ∨ compare 4 w v = .equal → Absorbs 4 v w) :=
  merge_known_iff 4 (by decide) _ _ (by decide) (by decide) (by decide)

/-- Two clocks that the comparison has cut off take the place of a newer one. -/
theorem merge_of_known_evicts :
    let v : List (VersionClock ℕ) := [⟨1, 1⟩, ⟨2, 1⟩, ⟨3, 1⟩, ⟨4, 1⟩]
    let w : List (VersionClock ℕ) := [⟨3, 1⟩, ⟨5, 1⟩, ⟨1, 1⟩, ⟨6, 1⟩]
    (v.map key).Nodup ∧ (w.map key).Nodup ∧ v.length ≤ 4 ∧ w.length ≤ 4 ∧
      compare 4 w v = .equal ∧ merge 4 v w = some [⟨1, 1⟩, ⟨2, 1⟩, ⟨3, 1⟩, ⟨5, 1⟩] ∧
      merge 4 v w ≠ some v := by
  decide

end BoundedVector

end Turbolib
