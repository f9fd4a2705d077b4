import Turbolib.VectorClock.Merge
import Mathlib.Data.List.TakeWhile

/-!
# The order of the merged clocks

Up to the first clock of the other vector that is no news, the clocks of the two vectors
take turns. From there on the news come in front of what is left of the first vector: of
its clocks, those up to each further clock that is no news come first.

## Main definitions

* `arrange` — the clocks of two vectors in this order.
-/

namespace Turbolib

namespace BoundedVector

variable {C K : Type} [ClockOps C K] [DecidableEq K]

/-- `w` has a greater clock of the key. -/
def outdated (w : List C) (c : C) : Bool :=
  w.any fun d => key d = key c && clockLessThan c d

/-- `v` has a clock of the key that is no smaller. -/
def held (v : List C) (e : C) : Bool :=
  v.any fun x => key x = key e && !clockLessThan x e

/-- The order behind the first clock that is no news, where `behind` is left of `v`. News
for a key that is not left any more let one clock pass. -/
def arrangeRest (v : List C) : (behind w : List C) → List C
  | behind, [] => behind
  | behind, e :: w =>
    match find v e with
    | none => e :: arrangeRest v behind w
    | some (_, x) =>
      match find behind e with
      | some (i, _) =>
        if clockLessThan x e then e :: arrangeRest v (behind.eraseIdx i) w
        else behind.take (i + 1) ++ arrangeRest v (behind.drop (i + 1)) w
      | none =>
        if clockLessThan x e then behind.take 1 ++ e :: arrangeRest v behind.tail w
        else arrangeRest v behind w

/-- The clocks of `v` and `w` in the order of the merge, those that the other vector has
a greater one for left out. -/
def arrange (v w : List C) : List C :=
  let news := w.takeWhile fun e => !held v e
  let left := v.filter fun c => !outdated news c
  let clocks :=
    match w.dropWhile fun e => !held v e with
    | [] => Deque.interlace left news
    | e :: w =>
      Deque.interlace (left.takeWhile fun c => key c ≠ key e) news ++
        arrangeRest v (left.dropWhile fun c => key c ≠ key e) (e :: w)
  clocks.filter fun c => !outdated w c

variable {v u w p a b d front behind : List C} {s s' : MergeState C} {c e x : C}

theorem outdated_iff : outdated w c = true ↔ ∃ d ∈ w, key d = key c ∧ clockLessThan c d = true := by
  simp [outdated]

theorem outdated_append : outdated (u ++ w) c = (outdated u c || outdated w c) :=
  List.any_append

theorem not_outdated_of_ne (h : key e ≠ key c) : outdated [e] c = false := by
  simp [outdated, h]

/-- No clock of a merged vector is outdated. -/
theorem Merged.not_outdated (h : Merged v u d) (hc : c ∈ d) : outdated u c = false := by
  rw [Bool.eq_false_iff, ne_eq, outdated_iff]
  rintro ⟨e, he, hk, hlt⟩
  rw [((h.mem_iff c).mp hc).2 e (Or.inr he) hk] at hlt
  exact Bool.false_ne_true hlt

theorem Merged.filter_outdated (h : Merged v u d) : (d.filter fun c => !outdated u c) = d :=
  List.filter_eq_self.mpr fun c hc => by rw [h.not_outdated hc, Bool.not_false]

theorem held_iff : held v e = true ↔ ∃ x ∈ v, key x = key e ∧ clockLessThan x e = false := by
  simp [held]

theorem mergeLoop_append (s : MergeState C) (u w : List C) :
    mergeLoop s (u ++ w) = (mergeLoop s u).bind fun s => mergeLoop s w := by
  induction u generalizing s with
  | nil => rfl
  | cons e u ih =>
    rw [List.cons_append, mergeLoop, mergeLoop, Option.bind_assoc]
    exact congrArg _ (funext fun s => ih s)

/-! ## Before the first match -/

/-- News take the place of what they replace. -/
theorem filter_outdated_concat (hn : ((a ++ x :: b).map key).Nodup) (hk : key x = key e)
    (hlt : clockLessThan x e = true) (hleft : (v.filter fun c => !outdated u c) = a ++ x :: b) :
    (v.filter fun c => !outdated (u ++ [e]) c) = a ++ b := by
  have hne : ∀ c ∈ a ++ b, outdated [e] c = false := by
    intro c hc
    rw [List.map_append, List.map_cons, List.nodup_middle, List.nodup_cons, ← List.map_append]
      at hn
    apply not_outdated_of_ne
    intro hec
    exact hn.1 (List.mem_map.mpr ⟨c, hc, hec.symm.trans hk.symm⟩)
  have hx : outdated [e] x = true := outdated_iff.mpr ⟨e, by simp, hk.symm, hlt⟩
  have hsplit : (v.filter fun c => !outdated (u ++ [e]) c) =
      (v.filter fun c => !outdated u c).filter fun c => !outdated [e] c := by
    rw [List.filter_filter]
    congr 1
    funext c
    rw [outdated_append, Bool.not_or, Bool.and_comm]
  rw [hsplit, hleft, List.filter_append, List.filter_cons_of_neg (by simp [hx]),
    ← List.filter_append]
  exact List.filter_eq_self.mpr fun c hc => by rw [hne c hc, Bool.not_false]

theorem filter_outdated_of_none (hfind : find v e = none) :
    (v.filter fun c => !outdated (u ++ [e]) c) = v.filter fun c => !outdated u c := by
  apply List.filter_congr
  intro c hc
  rw [outdated_append, not_outdated_of_ne (fun h => find_eq_none_iff.mp hfind c hc h.symm),
    Bool.or_false]

/-- As long as there are only news, they come in front, one after the other. -/
theorem Running.news (h : Running v u u (v.filter fun c => !outdated u c) s)
    (hmatch : s.noMatch = true) (hv : (v.map key).Nodup) (hu : ((u ++ p).map key).Nodup)
    (hp : ∀ e ∈ p, held v e = false) :
    ∃ s', mergeLoop s p = some s' ∧ s'.noMatch = true ∧
      Running v (u ++ p) (u ++ p) (v.filter fun c => !outdated (u ++ p) c) s' := by
  induction p generalizing u s with
  | nil => exact ⟨s, rfl, hmatch, by simpa using h⟩
  | cons e p ih =>
    have he := key_ne_of_nodup hu
    have hstep : ∃ s', mergeStep s e = some s' ∧ s'.noMatch = true ∧
        Running v (u ++ [e]) (u ++ [e]) (v.filter fun c => !outdated (u ++ [e]) c) s' := by
      cases hfind : find v e with
      | none =>
        obtain ⟨s', hs', hm, h'⟩ := h.step_none hfind he
        rw [filter_outdated_of_none hfind]
        exact ⟨s', hs', hm.trans hmatch, h'⟩
      | some it =>
        obtain ⟨i, x⟩ := it
        obtain ⟨v₁, v₂, hsplit, -, hk, -⟩ := find_eq_some_iff.mp hfind
        have hxv : x ∈ v := by simp [hsplit]
        have hlt : clockLessThan x e = true := by
          by_contra hlt
          have hheld := held_iff.mpr ⟨x, hxv, hk, Bool.eq_false_of_not_eq_true hlt⟩
          rw [hp e (by simp)] at hheld
          exact Bool.false_ne_true hheld
        -- the clock it replaces has not been passed
        have hx : x ∈ v.filter fun c => !outdated u c := by
          have hmem := h.mem hv hxv hk he
          rw [h.clocks_eq, List.mem_append] at hmem
          exact hmem.resolve_left fun hx => he x hx hk
        obtain ⟨a, b, hab⟩ := List.append_of_mem hx
        have hn : ((a ++ x :: b).map key).Nodup := hab ▸ hv.sublist (List.filter_sublist.map key)
        rw [hab] at h
        obtain ⟨s', hs', hm, h'⟩ := h.step_behind_replace hk hlt
        rw [filter_outdated_concat hn hk hlt hab]
        exact ⟨s', hs', hm.trans hmatch, h'⟩
    obtain ⟨s₁, hs₁, hm, h₁⟩ := hstep
    obtain ⟨s', hs', hm', h'⟩ := ih h₁ hm (by simpa using hu) fun e' he' => hp e' (by simp [he'])
    refine ⟨s', ?_, hm', by simpa using h'⟩
    rw [mergeLoop, hs₁, Option.bind_some, hs']

/-! ## Behind it -/

theorem take_length_succ (a b : List C) (x : C) :
    (a ++ x :: b).take (a.length + 1) = a ++ [x] := by
  simp [List.take_append]

theorem drop_length_succ (a b : List C) (x : C) : (a ++ x :: b).drop (a.length + 1) = b := by
  simp [List.drop_append]

theorem Running.arrange_rest (h : Running v u front behind s) (hmatch : s.noMatch = false)
    (hv : (v.map key).Nodup) (hw : ((u ++ w).map key).Nodup) (hloop : mergeLoop s w = some s') :
    s'.noMatch = false ∧
      s'.clocks = (front ++ arrangeRest v behind w).filter fun c => !outdated (u ++ w) c := by
  induction w generalizing u front behind s with
  | nil =>
    obtain rfl : s = s' := Option.some.inj hloop
    refine ⟨hmatch, ?_⟩
    rw [List.append_nil, arrangeRest, ← h.clocks_eq, h.merged.filter_outdated]
  | cons e w ih =>
    have he := key_ne_of_nodup hw
    have hu : ((u ++ [e] ++ w).map key).Nodup := by simpa using hw
    rw [mergeLoop] at hloop
    rw [arrangeRest]
    cases hfind : find v e with
    | none =>
      obtain ⟨s₁, hs₁, hm, h₁⟩ := h.step_none hfind he
      rw [hs₁] at hloop
      simpa using ih h₁ (hm.trans hmatch) hu hloop
    | some it =>
      obtain ⟨i, x⟩ := it
      obtain ⟨v₁, v₂, hsplit, -, hk, -⟩ := find_eq_some_iff.mp hfind
      have hmem := h.mem hv (show x ∈ v by simp [hsplit]) hk he
      simp only
      cases hbehind : find behind e with
      | some jt =>
        obtain ⟨j, y⟩ := jt
        obtain ⟨a, b, rfl, rfl, hky, -⟩ := find_eq_some_iff.mp hbehind
        obtain rfl : y = x := List.inj_on_of_nodup_map h.merged.nodup (by simp [h.clocks_eq]) hmem
          (hky.trans hk.symm)
        cases hlt : clockLessThan y e with
        | true =>
          obtain ⟨s₁, hs₁, hm, h₁⟩ := h.step_behind_replace hk hlt
          rw [hs₁] at hloop
          simpa [List.eraseIdx_append_of_length_le] using ih h₁ (hm.trans hmatch) hu hloop
        | false =>
          obtain ⟨s₁, hs₁, hm, h₁⟩ := h.step_behind_keep hk hlt
          rw [hs₁] at hloop
          rw [hmatch, if_neg Bool.false_ne_true] at h₁
          simp only [Bool.false_eq_true, if_false, take_length_succ, drop_length_succ]
          simpa only [List.append_assoc, List.singleton_append] using ih h₁ hm hu hloop
      | none =>
        have hfront : x ∈ front := by
          rw [h.clocks_eq, List.mem_append] at hmem
          exact hmem.resolve_right fun hx => find_eq_none_iff.mp hbehind x hx hk
        obtain ⟨a, b, rfl⟩ := List.append_of_mem hfront
        cases hlt : clockLessThan x e with
        | true =>
          -- the clock that is replaced has been passed, and is filtered out
          have hx : outdated (u ++ e :: w) x = true :=
            outdated_iff.mpr ⟨e, by simp, hk.symm, hlt⟩
          rcases h.step_front_replace hk hlt he with ⟨-, hs₁⟩ | ⟨r, behind', s₁, rfl, hs₁, hm, h₁⟩
          · rw [hs₁] at hloop
            cases hloop
          · rw [hs₁] at hloop
            simpa [List.filter_append, hx] using ih h₁ (hm.trans hmatch) hu hloop
        | false =>
          obtain ⟨hs₁, h₁⟩ := h.step_front_keep hk hlt he
          rw [hs₁] at hloop
          simpa using ih h₁ hmatch hu hloop

/-! ## All of it -/

theorem find_of_mem (hv : (v.map key).Nodup) (hx : x ∈ v) (hk : key x = key e) :
    ∃ i, find v e = some (i, x) := by
  obtain ⟨a, b, rfl⟩ := List.append_of_mem hx
  exact ⟨a.length, find_append_cons hv hk⟩

theorem takeWhile_of_nodup (hn : ((a ++ x :: b).map key).Nodup) (hk : key x = key e) :
    ((a ++ x :: b).takeWhile fun c => key c ≠ key e) = a := by
  have ha : ∀ c ∈ a, key c ≠ key e := by
    rw [← hk]
    exact key_ne_of_nodup hn
  rw [List.takeWhile_append_of_pos (by simpa using ha)]
  simp [hk]

theorem dropWhile_of_nodup (hn : ((a ++ x :: b).map key).Nodup) (hk : key x = key e) :
    ((a ++ x :: b).dropWhile fun c => key c ≠ key e) = x :: b := by
  have hsplit := List.takeWhile_append_dropWhile (p := fun c => key c ≠ key e) (l := a ++ x :: b)
  rw [takeWhile_of_nodup hn hk] at hsplit
  exact List.append_cancel_left hsplit

/-- The first match, and everything behind it. -/
theorem Running.arrange_held (h : Running v p p (v.filter fun c => !outdated p c) s)
    (hmatch : s.noMatch = true) (hv : (v.map key).Nodup) (hw : ((p ++ e :: w).map key).Nodup)
    (hheld : held v e = true) (hloop : mergeLoop s (e :: w) = some s') :
    s'.noMatch = false ∧ s'.clocks =
      (Deque.interlace ((v.filter fun c => !outdated p c).takeWhile fun c => key c ≠ key e) p ++
        arrangeRest v ((v.filter fun c => !outdated p c).dropWhile
          fun c => key c ≠ key e) (e :: w)).filter fun c => !outdated (p ++ e :: w) c := by
  obtain ⟨x, hxv, hk, hlt⟩ := held_iff.mp hheld
  have he := key_ne_of_nodup hw
  have hx : x ∈ v.filter fun c => !outdated p c := by
    have hmem := h.mem hv hxv hk he
    rw [h.clocks_eq, List.mem_append] at hmem
    exact hmem.resolve_left fun hx => he x hx hk
  obtain ⟨a, b, hab⟩ := List.append_of_mem hx
  have hn : ((a ++ x :: b).map key).Nodup := hab ▸ hv.sublist (List.filter_sublist.map key)
  rw [hab] at h ⊢
  have hrest : arrangeRest v (x :: b) (e :: w) =
      x :: arrangeRest v b w := by
    obtain ⟨i, hfind⟩ := find_of_mem hv hxv hk
    simp [arrangeRest, hfind, find, hk, hlt]
  obtain ⟨s₁, hs₁, hm, h₁⟩ := h.step_behind_keep hk hlt
  rw [hmatch, if_pos rfl] at h₁
  rw [mergeLoop, hs₁, Option.bind_some] at hloop
  rw [takeWhile_of_nodup hn hk, dropWhile_of_nodup hn hk, hrest]
  simpa only [List.append_assoc, List.singleton_append] using
    h₁.arrange_rest hm hv (by simpa using hw) hloop

/-- `merge` leaves the clocks in this order, as long as its positions stay inside the deque. -/
theorem mergeAll_eq_arrange (hv : (v.map key).Nodup) (hw : (w.map key).Nodup)
    (hd : mergeAll v w = some d) (hmerged : Merged v w d) : d = arrange v w := by
  have hsplit : (w.takeWhile fun e => !held v e) ++ (w.dropWhile fun e => !held v e) = w :=
    List.takeWhile_append_dropWhile
  have hheld := List.head?_dropWhile_not (fun e => !held v e) w
  have hnews : ∀ e ∈ w.takeWhile fun e => !held v e, held v e = false := by
    intro e he
    simpa using List.mem_takeWhile_imp he
  rw [arrange]
  generalize (w.takeWhile fun e => !held v e) = p at hsplit hnews ⊢
  generalize (w.dropWhile fun e => !held v e) = q at hsplit hheld ⊢
  subst hsplit
  have hp : (([] ++ p).map key).Nodup := hw.sublist ((List.sublist_append_left p q).map key)
  have hleft : (v.filter fun c => !outdated [] c) = v := by simp [outdated]
  obtain ⟨s, hs, hmatch, h⟩ :=
    Running.news (v := v) (u := []) (by rw [hleft]; exact running_nil hv) rfl hv hp hnews
  rw [List.nil_append] at h
  have hloop : mergeLoop ⟨v, true, 0⟩ (p ++ q) = mergeLoop s q := by
    rw [mergeLoop_append, hs, Option.bind_some]
  cases q with
  | nil =>
    rw [List.append_nil] at hloop hmerged hd ⊢
    rw [mergeAll_of_loop hloop h, hmatch, if_pos rfl, Option.some_inj] at hd
    simp only [hd, hmerged.filter_outdated]
  | cons e q =>
    rw [mergeAll, hloop] at hd
    obtain ⟨s', hs', hd⟩ := Option.bind_eq_some_iff.mp hd
    obtain ⟨hm, hclocks⟩ := h.arrange_held hmatch hv hw (by simpa using hheld) hs'
    rw [hm, if_neg Bool.false_ne_true, Option.some_inj] at hd
    exact hd.symm.trans hclocks

end BoundedVector

end Turbolib
