import Turbolib.VectorClock.Arrange
import Turbolib.Library.Shuffle

/-!
# The ages of the merged clocks

A merge shuffles the clocks of the first vector that stand and the news of the second one.
Where a clock comes can be counted on the two vectors: what a clock of news has in front of
it is what is no longer behind the insert position when its turn comes, and the news up to the
first match take turns with what is in front of the match.

## Main definitions

* `slot` — how many clocks of the first vector come in front of a clock of news.
* `age` — how many clocks come in front of the one for a key.
-/

namespace Turbolib

namespace BoundedVector

variable {C K : Type} [ClockOps C K] [DecidableEq K]

/-! ## Counting -/

/-- The clocks of `v` that `w` has no greater one for. -/
def standing (v w : List C) : List C :=
  v.filter fun c => !outdated w c

/-- The clocks of `w` that `v` has no clock for, or a smaller one. -/
def news (v w : List C) : List C :=
  w.filter fun e => !held v e

/-- What is left of `v` behind the insert position after the clocks `u` of the other vector. -/
def waiting (v u : List C) : List C :=
  (u.foldlM (advance v) v).getD []

/-- The clocks of `v` that take turns with the news that `w` begins with: those in front of the
first match. -/
def turns (v w : List C) : List C :=
  let left := waiting v (w.takeWhile fun e => !held v e)
  match w.dropWhile fun e => !held v e with
  | [] => left
  | e :: _ => left.takeWhile fun c => key c ≠ key e

/-- The place of the key of `e` in `w`. -/
def place (w : List C) (e : C) : ℕ :=
  (w.takeWhile fun c => key c ≠ key e).length

/-- How many clocks of `v` that stand the insert position has passed when `w` has been gone
through up to the key of `e`. -/
def passed (v w : List C) (e : C) : ℕ :=
  (standing v w).length - (standing (waiting v (w.take (place w e + 1))) w).length

/-- How many clocks of `v` that stand come in front of the clock that `w` has for the key of `e`,
if that is news. -/
def slot (v w : List C) (e : C) : ℕ :=
  if (w.take (place w e)).any (held v) then passed v w e
  else (standing ((turns v w).take (place w e + 1)) w).length

/-- How many clocks come in front of the one for the key of `c` once `w` is merged into `v`. -/
def age (v w : List C) (c : C) : ℕ :=
  if (standing v w).any fun x => key x = key c then
    let i := place (standing v w) c
    i + (news v w).countP fun e => slot v w e ≤ i
  else place (news v w) c + slot v w c

variable {v u w q behind behind' : List C} {c e x : C}

/-! ## What is behind the insert position -/

theorem advance_sublist (h : advance v behind e = some behind') : behind'.Sublist behind := by
  rw [advance] at h
  cases hfind : find v e with
  | none =>
    rw [hfind] at h
    exact Option.some.inj h ▸ List.Sublist.refl _
  | some it =>
    obtain ⟨i, x⟩ := it
    rw [hfind] at h
    cases hbehind : find behind e with
    | some jt =>
      rw [hbehind] at h
      obtain rfl := Option.some.inj h
      split_ifs
      · exact List.eraseIdx_sublist _ _
      · exact List.drop_sublist _ _
    | none =>
      simp only [hbehind] at h
      split_ifs at h
      · exact Option.some.inj h ▸ List.tail_sublist _
      · exact Option.some.inj h ▸ List.Sublist.refl _

theorem foldlM_advance_sublist (h : u.foldlM (advance v) behind = some behind') :
    behind'.Sublist behind := by
  induction u generalizing behind with
  | nil => exact Option.some.inj h ▸ List.Sublist.refl _
  | cons e u ih =>
    rw [List.foldlM_cons] at h
    obtain ⟨next, hnext, h⟩ := Option.bind_eq_some_iff.mp h
    exact (ih h).trans (advance_sublist hnext)

theorem waiting_of_foldlM (h : u.foldlM (advance v) v = some behind) : waiting v u = behind := by
  rw [waiting, h]
  rfl

/-- After nothing but news, what they replace is gone, and nothing else. -/
theorem foldlM_advance_news (hv : (v.map key).Nodup) (hu : (u.map key).Nodup)
    (hnews : ∀ e ∈ u, held v e = false) :
    u.foldlM (advance v) v = some (v.filter fun c => !outdated u c) := by
  have hleft : (v.filter fun c => !outdated [] c) = v := by simp [outdated]
  obtain ⟨s, hs, -, h⟩ :=
    Running.news (v := v) (u := []) (by rw [hleft]; exact running_nil hv) rfl hv
      (by simpa using hu) hnews
  rcases (running_nil hv).loop hv (w := u) (by simpa using hu) with
    ⟨-, hloop⟩ | ⟨behind, s', front, hfold, hloop, h'⟩
  · rw [hloop] at hs
    cases hs
  · obtain rfl : s' = s := Option.some.inj (hloop.symm.trans hs)
    -- the insert position divides the clocks in one way only
    have hlength := h'.prevIndex_eq.symm.trans h.prevIndex_eq
    obtain ⟨-, rfl⟩ := List.append_inj (h'.clocks_eq.symm.trans h.clocks_eq) hlength
    rw [hfold, List.nil_append]

/-! ## Clocks that stand, and news -/

theorem held_eq_false_iff (hv : (v.map key).Nodup) (hx : x ∈ v) (hk : key x = key e) :
    held v e = false ↔ clockLessThan x e = true := by
  rw [Bool.eq_false_iff, ne_eq, held_iff]
  constructor
  · intro h
    by_contra hlt
    exact h ⟨x, hx, hk, Bool.eq_false_of_not_eq_true hlt⟩
  · rintro hlt ⟨y, hy, hky, hylt⟩
    rw [List.inj_on_of_nodup_map hv hy hx (hky.trans hk.symm), hlt] at hylt
    cases hylt

theorem outdated_eq_true_iff (hw : (w.map key).Nodup) (he : e ∈ w) (hk : key e = key c) :
    outdated w c = true ↔ clockLessThan c e = true := by
  rw [outdated_iff]
  constructor
  · rintro ⟨d, hd, hdk, hlt⟩
    rwa [← List.inj_on_of_nodup_map hw hd he (hdk.trans hk.symm)]
  · exact fun hlt => ⟨e, he, hk, hlt⟩

theorem outdated_eq_false_iff (hw : (w.map key).Nodup) (he : e ∈ w) (hk : key e = key c) :
    outdated w c = false ↔ clockLessThan c e = false := by
  rw [Bool.eq_false_iff, Bool.eq_false_iff]
  exact (outdated_eq_true_iff hw he hk).not

theorem not_outdated_self (hw : (w.map key).Nodup) (he : e ∈ w) : outdated w e = false :=
  (outdated_eq_false_iff hw he rfl).mpr (ClockOps.lessThan_irrefl e)

/-! ## The shuffle -/

theorem place_eq_length {a b : List C} (hn : ((a ++ x :: b).map key).Nodup)
    (hk : key x = key e) : place (a ++ x :: b) e = a.length := by
  rw [place, takeWhile_of_nodup hn hk]

theorem standing_append (a b w : List C) : standing (a ++ b) w = standing a w ++ standing b w :=
  List.filter_append ..

theorem standing_cons (x : C) (b w : List C) :
    standing (x :: b) w = standing [x] w ++ standing b w :=
  standing_append [x] b w

theorem length_standing_le (h : behind.Sublist v) (w : List C) :
    (standing behind w).length ≤ (standing v w).length :=
  (h.filter _).length_le

theorem news_cons_of_held (h : held v e = true) (w : List C) : news v (e :: w) = news v w :=
  List.filter_cons_of_neg (by simp [h])

theorem news_cons_of_not_held (h : held v e = false) (w : List C) :
    news v (e :: w) = e :: news v w :=
  List.filter_cons_of_pos (by simp [h])

/-- In a round some clocks are passed, and the news come behind them. -/
theorem arrangeRest_cons (hv : (v.map key).Nodup) (hw : (w.map key).Nodup) (he : e ∈ w)
    (hsub : behind.Sublist v) (hbehind' : advance v behind e = some behind') (q : List C) :
    ∃ l, standing behind w = standing l w ++ standing behind' w ∧
      standing (arrangeRest v behind (e :: q)) w =
        standing l w ++ (news v [e] ++ standing (arrangeRest v behind' q) w) := by
  have hstands : standing [e] w = [e] :=
    List.filter_cons_of_pos (by rw [not_outdated_self hw he, Bool.not_false])
  have hcons : ∀ d, standing (e :: d) w = e :: standing d w := fun d => by
    rw [standing_cons, hstands, List.singleton_append]
  rw [advance] at hbehind'
  rw [arrangeRest]
  cases hfind : find v e with
  | none =>
    rw [hfind] at hbehind'
    obtain rfl := Option.some.inj hbehind'
    have hheld : held v e = false := by
      rw [Bool.eq_false_iff, ne_eq, held_iff]
      rintro ⟨y, hy, hk, -⟩
      exact find_eq_none_iff.mp hfind y hy hk
    refine ⟨[], rfl, ?_⟩
    simp only [hcons, news_cons_of_not_held hheld]
    rfl
  | some it =>
    obtain ⟨i, x⟩ := it
    obtain ⟨v₁, v₂, rfl, -, hk, -⟩ := find_eq_some_iff.mp hfind
    have hx : x ∈ v₁ ++ x :: v₂ := by simp
    rw [hfind] at hbehind'
    simp only at hbehind' ⊢
    cases hb : find behind e with
    | some jt =>
      obtain ⟨j, y⟩ := jt
      obtain ⟨a, b, rfl, rfl, hky, -⟩ := find_eq_some_iff.mp hb
      obtain rfl : y = x := List.inj_on_of_nodup_map hv (hsub.subset (by simp)) hx
        (hky.trans hk.symm)
      rw [hb] at hbehind'
      obtain rfl := Option.some.inj hbehind'
      cases hlt : clockLessThan y e with
      | true =>
        have hheld := (held_eq_false_iff hv hx hk).mpr hlt
        have hy : standing [y] w = [] :=
          List.filter_cons_of_neg (by simp [(outdated_eq_true_iff hw he hk.symm).mpr hlt])
        have herase : standing (a ++ y :: b) w = standing (a ++ b) w := by
          rw [standing_append, standing_cons, hy, List.nil_append, standing_append]
        refine ⟨[], ?_, ?_⟩
        · have hidx : (a ++ y :: b).eraseIdx a.length = a ++ b := by
            simp [List.eraseIdx_append_of_length_le]
          rw [if_pos rfl, hidx, herase]
          rfl
        · simp only [if_true, hcons, news_cons_of_not_held hheld]
          rfl
      | false =>
        have hheld : held (v₁ ++ y :: v₂) e = true := held_iff.mpr ⟨y, hx, hk, hlt⟩
        refine ⟨a ++ [y], ?_, ?_⟩
        · simp [← standing_append]
        · simp only [Bool.false_eq_true, if_false, take_length_succ, standing_append,
            news_cons_of_held hheld]
          rfl
    | none =>
      cases hlt : clockLessThan x e with
      | true =>
        have hheld := (held_eq_false_iff hv hx hk).mpr hlt
        rw [hb] at hbehind'
        cases behind with
        | nil => simp [hlt] at hbehind'
        | cons y behind =>
          obtain rfl : behind = behind' := by simpa [hlt] using hbehind'
          refine ⟨[y], ?_, ?_⟩
          · rw [← standing_append, List.singleton_append]
          · rw [if_pos rfl, standing_append, List.tail_cons, hcons, news_cons_of_not_held hheld]
            rfl
      | false =>
        have hheld : held (v₁ ++ x :: v₂) e = true := held_iff.mpr ⟨x, hx, hk, hlt⟩
        obtain rfl : behind = behind' := by simpa [hb, hlt] using hbehind'
        refine ⟨[], rfl, ?_⟩
        rw [if_neg Bool.false_ne_true, news_cons_of_held hheld]
        rfl

/-- Behind the first match, the clocks of the first vector that stand come in front of the news
for which they are no longer behind the insert position. -/
theorem shuffle_arrangeRest (hv : (v.map key).Nodup) (hw : (w.map key).Nodup) (hsplit : u ++ q = w)
    (hu : u.foldlM (advance v) v = some behind)
    (hfit : (q.foldlM (advance v) behind).isSome = true) :
    ∃ slots, Shuffle slots (standing behind w) (news v q) (standing (arrangeRest v behind q) w) ∧
      (news v q).map (passed v w) =
        slots.map (· + ((standing v w).length - (standing behind w).length)) := by
  induction q generalizing u behind with
  | nil => exact ⟨[], .lefts _, rfl⟩
  | cons e q ih =>
    have hsub := foldlM_advance_sublist hu
    rw [List.foldlM_cons] at hfit
    obtain ⟨behind', hbehind', hfit⟩ : ∃ behind', advance v behind e = some behind' ∧
        (q.foldlM (advance v) behind').isSome = true := by
      cases h : advance v behind e with
      | none => simp [h] at hfit
      | some behind' => exact ⟨behind', rfl, by simpa [h] using hfit⟩
    have hu' : (u ++ [e]).foldlM (advance v) v = some behind' := by
      rw [List.foldlM_append, hu, Option.bind_eq_bind, Option.bind_some, List.foldlM_cons, hbehind']
      rfl
    obtain ⟨slots, hshuffle, hslots⟩ := ih (by simpa using hsplit) hu' hfit
    obtain ⟨l, hbehind, harrange⟩ :=
      arrangeRest_cons hv hw (by simp [← hsplit]) hsub hbehind' q
    have hlength : (standing behind w).length =
        (standing l w).length + (standing behind' w).length := by
      rw [hbehind, List.length_append]
    have hle := length_standing_le hsub w
    rw [hbehind, harrange]
    cases hheld : held v e with
    | true =>
      rw [news_cons_of_held hheld, news_cons_of_held hheld]
      refine ⟨_, (Shuffle.lefts (standing l w)).append hshuffle, ?_⟩
      rw [hslots, List.nil_append, List.map_map]
      refine List.map_congr_left fun slot _ => ?_
      simp only [Function.comp_apply, List.length_append]
      omega
    | false =>
      have hpassed : passed v w e = (standing v w).length - (standing behind' w).length := by
        have hplace : place w e = u.length := by
          subst hsplit
          exact place_eq_length hw rfl
        have htake : w.take (u.length + 1) = u ++ [e] := by
          rw [← hsplit]
          exact take_length_succ u q e
        rw [passed, hplace, htake, waiting_of_foldlM hu']
      rw [news_cons_of_not_held hheld, news_cons_of_not_held hheld]
      refine ⟨_, (Shuffle.lefts (standing l w)).append (hshuffle.right e), ?_⟩
      rw [List.map_cons, hpassed, hslots, List.nil_append, List.map_map, List.map_cons]
      congr 1
      · simp only [Function.comp_apply, List.length_append]
        omega
      · refine List.map_congr_left fun slot _ => ?_
        simp only [Function.comp_apply, List.length_append]
        omega

/-- What news replace does not stand. -/
theorem standing_filter_outdated (v u q : List C) :
    standing (v.filter fun c => !outdated u c) (u ++ q) = standing v (u ++ q) := by
  rw [standing, List.filter_filter]
  refine List.filter_congr fun c _ => ?_
  rw [outdated_append]
  cases outdated u c <;> simp

theorem news_of_not_held (h : ∀ e ∈ u, held v e = false) : news v u = u :=
  List.filter_eq_self.mpr fun e he => by rw [h e he, Bool.not_false]

/-- Up to the first match, the clocks in front of it and the news take turns. -/
theorem shuffle_turns (hw : ((u ++ q).map key).Nodup) (hnews : ∀ e ∈ u, held v e = false) :
    Shuffle (u.map (slot v (u ++ q))) (standing (turns v (u ++ q)) (u ++ q)) u
      (standing (Deque.interlace (turns v (u ++ q)) u) (u ++ q)) := by
  have hstand : ∀ e ∈ u, (!outdated (u ++ q) e) = true := fun e he => by
    rw [not_outdated_self hw (List.mem_append_left q he), Bool.not_false]
  have hslots : u.map (slot v (u ++ q)) =
      ((List.range u.length).map fun i => min (i + 1) (turns v (u ++ q)).length).map
        fun slot => ((turns v (u ++ q)).take slot).countP fun c => !outdated (u ++ q) c := by
    refine List.ext_getElem (by simp) fun i hi _ => ?_
    rw [List.length_map] at hi
    have hsplit : u ++ q = u.take i ++ u[i] :: (u.drop (i + 1) ++ q) := by
      rw [← List.cons_append, ← List.append_assoc, List.getElem_cons_drop, List.take_append_drop]
    have hplace : place (u ++ q) u[i] = i := by
      rw [hsplit] at hw ⊢
      rw [place_eq_length hw rfl, List.length_take, min_eq_left hi.le]
    have htake : ((u ++ q).take i).any (held v) = false := by
      rw [List.take_append_of_le_length hi.le, List.any_eq_false]
      intro e he
      simp [hnews e (List.mem_of_mem_take he)]
    rw [List.getElem_map, List.getElem_map, List.getElem_map, List.getElem_range,
      ← List.take_eq_take_min, List.countP_eq_length_filter, slot, hplace, htake,
      if_neg Bool.false_ne_true]
    rfl
  rw [hslots]
  exact (Shuffle.interlace (turns v (u ++ q)) u).filter _ hstand

/-- Behind the first match the slots are those of the insert position. -/
theorem slot_eq_passed {p : List C} (hw : ((p ++ e :: q).map key).Nodup) (hmatch : held v e = true)
    (hx : x ∈ q) : slot v (p ++ e :: q) x = passed v (p ++ e :: q) x := by
  obtain ⟨q₁, q₂, rfl⟩ := List.append_of_mem hx
  have hshape : p ++ e :: (q₁ ++ x :: q₂) = (p ++ e :: q₁) ++ x :: q₂ := by simp
  have hplace : place (p ++ e :: (q₁ ++ x :: q₂)) x = (p ++ e :: q₁).length := by
    rw [hshape] at hw ⊢
    exact place_eq_length hw rfl
  rw [slot, hplace, hshape, List.take_left, if_pos (by simp [hmatch])]

/-- The merged clocks are the clocks of the first vector that stand and the news of the second
one, with these slots. -/
theorem shuffle_arrange (hv : (v.map key).Nodup) (hw : (w.map key).Nodup)
    (hfit : fits v w = true) :
    Shuffle ((news v w).map (slot v w)) (standing v w) (news v w) (arrange v w) := by
  have hsplit : (w.takeWhile fun e => !held v e) ++ (w.dropWhile fun e => !held v e) = w :=
    List.takeWhile_append_dropWhile
  have hheld := List.head?_dropWhile_not (fun e => !held v e) w
  have hnews : ∀ e ∈ w.takeWhile fun e => !held v e, held v e = false := by
    intro e he
    simpa using List.mem_takeWhile_imp he
  have hturns : turns v w = (fun left => match w.dropWhile fun e => !held v e with
      | [] => left
      | e :: _ => left.takeWhile fun c => key c ≠ key e)
        (waiting v (w.takeWhile fun e => !held v e)) := rfl
  rw [fits] at hfit
  rw [arrange]
  generalize (w.takeWhile fun e => !held v e) = p at hsplit hnews hturns ⊢
  generalize (w.dropWhile fun e => !held v e) = q at hsplit hheld hturns ⊢
  subst hsplit
  have hp : (p.map key).Nodup := hw.sublist ((List.sublist_append_left p q).map key)
  have hfold := foldlM_advance_news hv hp hnews
  rw [waiting_of_foldlM hfold] at hturns
  have hfront := shuffle_turns hw hnews
  cases q with
  | nil =>
    simp only at hturns ⊢
    rw [hturns] at hfront
    rw [standing_filter_outdated] at hfront
    rw [List.append_nil] at hfront ⊢
    rwa [news_of_not_held hnews]
  | cons e q =>
    have hmatch : held v e = true := by simpa using hheld
    obtain ⟨x, hx, hk, hlt⟩ := held_iff.mp hmatch
    -- the clock of the match stands, and none of the news has replaced it
    have hxw : outdated (p ++ e :: q) x = false :=
      (outdated_eq_false_iff hw (by simp) hk.symm).mpr hlt
    have hxp : x ∈ v.filter fun c => !outdated p c := by
      rw [outdated_append, Bool.or_eq_false_iff] at hxw
      simp [hx, hxw.1]
    obtain ⟨a, b, hab⟩ := List.append_of_mem hxp
    have hn : ((a ++ x :: b).map key).Nodup := hab ▸ hv.sublist (List.filter_sublist.map key)
    simp only [hab, takeWhile_of_nodup hn hk, dropWhile_of_nodup hn hk] at hfold hturns ⊢
    rw [hturns] at hfront
    obtain ⟨i, hfind⟩ := find_of_mem hv hx hk
    have hrest : arrangeRest v (x :: b) (e :: q) = x :: arrangeRest v b q := by
      simp [arrangeRest, hfind, find, hk, hlt]
    have hadvance : advance v (a ++ x :: b) e = some b := by
      simp [advance, hfind, find_append_cons hn hk, hlt]
    have hfold' : (p ++ [e]).foldlM (advance v) v = some b := by
      simp [List.foldlM_append, hfold, hadvance]
    have hfit' : (q.foldlM (advance v) b).isSome = true := by
      simpa [List.foldlM_append, hfold, hadvance] using hfit
    obtain ⟨slots, hshuffle, hslots⟩ :=
      shuffle_arrangeRest hv hw (by simp : (p ++ [e]) ++ q = p ++ e :: q) hfold' hfit'
    have hxs : standing [x] (p ++ e :: q) = [x] := List.filter_cons_of_pos (by simp [hxw])
    have hstanding : standing v (p ++ e :: q) =
        standing a (p ++ e :: q) ++ ([x] ++ standing b (p ++ e :: q)) := by
      rw [← standing_filter_outdated, hab, standing_append, standing_cons, hxs]
    have hnewsw : news v (p ++ e :: q) = p ++ news v q := by
      rw [news, List.filter_append]
      exact congrArg₂ _ (news_of_not_held hnews) (news_cons_of_held hmatch q)
    have hslot : (news v q).map (slot v (p ++ e :: q)) =
        (news v q).map (passed v (p ++ e :: q)) :=
      List.map_congr_left fun e' he' => slot_eq_passed hw hmatch (List.mem_of_mem_filter he')
    have hclocks : standing (Deque.interlace a p ++ arrangeRest v (x :: b) (e :: q)) (p ++ e :: q) =
        standing (Deque.interlace a p) (p ++ e :: q) ++
          ([x] ++ standing (arrangeRest v b q) (p ++ e :: q)) := by
      rw [hrest, standing_append, standing_cons, hxs]
    have hall := hfront.append ((Shuffle.lefts [x]).append hshuffle)
    have hlength : (standing v (p ++ e :: q)).length - (standing b (p ++ e :: q)).length =
        1 + (standing a (p ++ e :: q)).length := by
      rw [hstanding, List.length_append, List.length_append, List.length_singleton]
      omega
    rw [hnewsw, List.map_append, hslot, hslots, hlength, hstanding]
    rw [List.nil_append, List.nil_append, List.map_map, ← hclocks] at hall
    simp only [Function.comp_def, Nat.add_assoc, List.length_singleton] at hall
    exact hall

/-! ## The ages -/

theorem place_congr (w : List C) (hk : key e = key c) : place w e = place w c := by
  rw [place, place, hk]

theorem slot_congr (v w : List C) (hk : key e = key c) : slot v w e = slot v w c := by
  rw [slot, slot, passed, passed, place_congr w hk]

/-- A key without a clock of the first vector that stands is in the news. -/
theorem mem_news_of_not_standing (hv : (v.map key).Nodup) (hw : (w.map key).Nodup)
    (hc : c ∈ v ∨ c ∈ w) (hnone : ∀ x ∈ standing v w, key x ≠ key c) :
    ∃ e ∈ news v w, key e = key c := by
  rcases hc with hc | hc
  · have hold : outdated w c = true := by
      by_contra hold
      exact hnone c (List.mem_filter.mpr ⟨hc, by simpa using hold⟩) rfl
    obtain ⟨e, he, hk, hlt⟩ := outdated_iff.mp hold
    have hheld := (held_eq_false_iff hv hc hk.symm).mpr hlt
    exact ⟨e, List.mem_filter.mpr ⟨he, by rw [hheld, Bool.not_false]⟩, hk⟩
  · refine ⟨c, List.mem_filter.mpr ⟨hc, ?_⟩, rfl⟩
    by_contra hheld
    obtain ⟨x, hx, hk, hlt⟩ := held_iff.mp (by simpa using hheld)
    have hstands : outdated w x = false := (outdated_eq_false_iff hw hc hk.symm).mpr hlt
    exact hnone x (List.mem_filter.mpr ⟨hx, by rw [hstands, Bool.not_false]⟩) hk

/-- The clock for a key comes behind as many clocks as its age says. -/
theorem getElem_age (hv : (v.map key).Nodup) (hw : (w.map key).Nodup) (hfit : fits v w = true)
    (hc : c ∈ v ∨ c ∈ w) : ∃ m, (arrange v w)[age v w c]? = some m ∧ key m = key c := by
  have hshuffle := shuffle_arrange hv hw hfit
  rw [age]
  split_ifs with hstands
  · obtain ⟨x, hx, hk⟩ := List.any_eq_true.mp hstands
    replace hk : key x = key c := of_decide_eq_true hk
    have hn : ((standing v w).map key).Nodup := hv.sublist (List.filter_sublist.map key)
    obtain ⟨a, b, hab⟩ := List.append_of_mem hx
    rw [hab] at hshuffle hn ⊢
    have hleft : (arrange v w)[a.length + ((news v w).map (slot v w)).countP (· ≤ a.length)]? =
        some x := hshuffle.getElem_left (by simp)
    rw [List.countP_map] at hleft
    rw [place_eq_length hn hk]
    exact ⟨x, hleft, hk⟩
  · have hnone : ∀ x ∈ standing v w, key x ≠ key c := by simpa using hstands
    obtain ⟨e, he, hk⟩ := mem_news_of_not_standing hv hw hc hnone
    have hn : ((news v w).map key).Nodup := hw.sublist (List.filter_sublist.map key)
    obtain ⟨a, b, hab⟩ := List.append_of_mem he
    rw [hab] at hshuffle hn ⊢
    have hright : (arrange v w)[a.length + slot v w e]? = some e :=
      hshuffle.getElem_right (by simp) (by simp)
    rw [place_eq_length hn hk, ← slot_congr v w hk]
    exact ⟨e, hright, hk⟩

theorem age_congr (v w : List C) (hk : key e = key c) : age v w e = age v w c := by
  rw [age, age, place_congr _ hk, place_congr _ hk, slot_congr v w hk, hk]

theorem merged_arrange (hv : (v.map key).Nodup) (hw : (w.map key).Nodup)
    (hfit : fits v w = true) : Merged v w (arrange v w) := by
  obtain ⟨d, hd, hmerged⟩ := exists_merged hv hw hfit
  exact mergeAll_eq_arrange hv hw hd hmerged ▸ hmerged

section arranged

variable (hv : (v.map key).Nodup) (hw : (w.map key).Nodup) (hfit : fits v w = true)
include hv hw hfit

/-- The merged clock of a key. -/
theorem exists_mem_arrange (hc : c ∈ v ∨ c ∈ w) :
    ∃ m ∈ arrange v w, key m = key c ∧ age v w m = age v w c := by
  obtain ⟨m, hm, hk⟩ := getElem_age hv hw hfit hc
  exact ⟨m, List.mem_of_getElem? hm, hk, age_congr v w hk⟩

theorem getElem_arrange_iff {i : ℕ} :
    (arrange v w)[i]? = some x ↔ x ∈ arrange v w ∧ age v w x = i := by
  have hmerged := merged_arrange hv hw hfit
  have hself : ∀ y ∈ arrange v w, (arrange v w)[age v w y]? = some y := fun y hy => by
    obtain ⟨m, hm, hk⟩ := getElem_age hv hw hfit ((hmerged.mem_iff y).mp hy).1
    rwa [List.inj_on_of_nodup_map hmerged.nodup (List.mem_of_getElem? hm) hy hk] at hm
  constructor
  · intro hi
    have hx := List.mem_of_getElem? hi
    refine ⟨hx, ?_⟩
    obtain ⟨hlt, -⟩ := List.getElem?_eq_some_iff.mp hi
    exact ((List.getElem?_inj hlt hmerged.nodup.of_map).mp (hi.trans (hself x hx).symm)).symm
  · rintro ⟨hx, rfl⟩
    exact hself x hx

theorem mem_slice_iff (hx : x ∈ arrange v w) (first last : ℕ) :
    x ∈ ((arrange v w).take last).drop first ↔ first ≤ age v w x ∧ age v w x < last := by
  have hage := (getElem_arrange_iff hv hw hfit).mpr ⟨hx, rfl⟩
  rw [List.mem_iff_getElem?]
  simp only [List.getElem?_drop, List.getElem?_take]
  constructor
  · rintro ⟨i, hi⟩
    split_ifs at hi with hlt
    have := ((getElem_arrange_iff hv hw hfit).mp hi).2
    omega
  · rintro ⟨hfirst, hlast⟩
    refine ⟨age v w x - first, ?_⟩
    rwa [Nat.add_sub_cancel' hfirst, if_pos hlast]

theorem mem_take_iff (hx : x ∈ arrange v w) (last : ℕ) :
    x ∈ (arrange v w).take last ↔ age v w x < last := by
  simpa using mem_slice_iff hv hw hfit hx 0 last

/-- The clocks are in the order of their ages. -/
theorem pairwise_age : (arrange v w).Pairwise fun x y => age v w x < age v w y := by
  rw [List.pairwise_iff_getElem]
  intro i j hi hj hij
  have hx := ((getElem_arrange_iff hv hw hfit).mp (List.getElem?_eq_getElem hi)).2
  have hy := ((getElem_arrange_iff hv hw hfit).mp (List.getElem?_eq_getElem hj)).2
  rwa [hx, hy]

end arranged

end BoundedVector

end Turbolib
