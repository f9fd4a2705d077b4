import Turbolib.VectorClock.Vector

/-!
# Merging vectors

What `merge` should leave behind is `Merged`: every key once, with the greater
clock. The loop does that as long as its positions stay inside the deque, and
`fits` says when they do: it follows the clocks of the first vector that are
still behind the insert position.
-/

namespace Turbolib

namespace BoundedVector

variable {C K : Type} [ClockOps C K]

/-! ## The key-wise maximum -/

/-- `c` is a clock of one of the vectors, and neither has a greater one for its key. -/
def IsMax (v w : List C) (c : C) : Prop :=
  (c ∈ v ∨ c ∈ w) ∧ ∀ c', c' ∈ v ∨ c' ∈ w → key c' = key c → clockLessThan c c' = false

/-- The deque holds each key of the two vectors once, with the greater of its clocks. -/
structure Merged (v w d : List C) : Prop where
  nodup : (d.map key).Nodup
  mem_iff : ∀ c, c ∈ d ↔ IsMax v w c

variable {v u w d d' : List C} {e x : C}

/-- Distinct keys in front of an element are not its key. -/
theorem key_ne_of_nodup {a b : List C} (hn : ((a ++ x :: b).map key).Nodup) :
    ∀ c ∈ a, key c ≠ key x := by
  intro c hc
  rw [List.map_append, List.nodup_append] at hn
  exact hn.2.2 _ (List.mem_map_of_mem hc) _ (by simp)

theorem isMax_right (hw : (w.map key).Nodup) (he : e ∈ w)
    (h : ∀ c ∈ v, key c = key e → clockLessThan e c = false) : IsMax v w e := by
  refine ⟨Or.inr he, ?_⟩
  rintro c (hc | hc) hk
  · exact h c hc hk
  · rw [List.inj_on_of_nodup_map hw hc he hk]
    exact ClockOps.lessThan_irrefl e

theorem IsMax.swap {c : C} (h : IsMax v w c) : IsMax w v c :=
  ⟨h.1.symm, fun c' hc' => h.2 c' hc'.symm⟩

/-- Every key has its greatest clock. -/
theorem exists_isMax {c : C} (hv : (v.map key).Nodup) (hw : (w.map key).Nodup)
    (hc : c ∈ v ∨ c ∈ w) : ∃ m, key m = key c ∧ IsMax v w m := by
  -- by symmetry the clock is one of the second vector
  wlog hcw : c ∈ w generalizing v w
  · obtain ⟨m, hm, hmax⟩ := this hw hv hc.symm (hc.resolve_right hcw)
    exact ⟨m, hm, hmax.swap⟩
  by_cases hgt : ∃ x ∈ v, key x = key c ∧ clockLessThan c x = true
  · obtain ⟨x, hx, hk, hlt⟩ := hgt
    refine ⟨x, hk, (isMax_right hv hx fun y hy hyk => ?_).swap⟩
    rw [List.inj_on_of_nodup_map hw hy hcw (hyk.trans hk)]
    by_contra hxc
    have := ClockOps.lessThan_trans _ _ _ hlt (Bool.eq_true_of_not_eq_false hxc)
    rw [ClockOps.lessThan_irrefl] at this
    exact absurd this (by simp)
  · refine ⟨c, rfl, isMax_right hw hcw fun x hx hk => ?_⟩
    by_contra hlt
    exact hgt ⟨x, hx, hk, Bool.eq_true_of_not_eq_false hlt⟩

/-- No key is lost and none appears. -/
theorem Merged.mem_keys (h : Merged v w d) (hv : (v.map key).Nodup) (hw : (w.map key).Nodup)
    (k : K) : k ∈ d.map key ↔ k ∈ v.map key ∨ k ∈ w.map key := by
  simp only [List.mem_map]
  constructor
  · rintro ⟨c, hc, hk⟩
    rcases ((h.mem_iff c).mp hc).1 with hc | hc
    · exact Or.inl ⟨c, hc, hk⟩
    · exact Or.inr ⟨c, hc, hk⟩
  · intro hk
    obtain ⟨c, hc, rfl⟩ : ∃ c, (c ∈ v ∨ c ∈ w) ∧ key c = k := by
      rcases hk with ⟨c, hc, hk⟩ | ⟨c, hc, hk⟩
      · exact ⟨c, Or.inl hc, hk⟩
      · exact ⟨c, Or.inr hc, hk⟩
    obtain ⟨m, hm, hmax⟩ := exists_isMax hv hw hc
    exact ⟨m, (h.mem_iff m).mpr hmax, hm⟩

theorem Merged.swap (h : Merged v w d) : Merged w v d where
  nodup := h.nodup
  mem_iff c := (h.mem_iff c).trans ⟨IsMax.swap, IsMax.swap⟩

theorem Merged.perm (h : Merged v u d) (hp : d'.Perm d) : Merged v u d' where
  nodup := ((hp.map key).nodup_iff).mpr h.nodup
  mem_iff c := hp.mem_iff.trans (h.mem_iff c)

theorem merged_nil (hv : (v.map key).Nodup) : Merged v [] v where
  nodup := hv
  mem_iff c := by
    have hinj := List.inj_on_of_nodup_map hv
    simp only [IsMax, List.not_mem_nil, or_false]
    refine ⟨fun hc => ⟨hc, fun c' hc' hk => ?_⟩, fun h => h.1⟩
    rw [hinj hc' hc hk]
    exact ClockOps.lessThan_irrefl c

/-- The maximum over one clock more. -/
theorem isMax_concat {c : C} : IsMax v (u ++ [e]) c ↔
    (IsMax v u c ∧ (key e = key c → clockLessThan c e = false)) ∨
      c = e ∧ ∀ c', c' ∈ v ∨ c' ∈ u → key c' = key e → clockLessThan e c' = false := by
  simp only [IsMax, List.mem_append, List.mem_singleton]
  constructor
  · rintro ⟨h | h | rfl, hall⟩
    · exact Or.inl ⟨⟨Or.inl h, fun c' hc' => hall c' (by tauto)⟩, hall e (by tauto)⟩
    · exact Or.inl ⟨⟨Or.inr h, fun c' hc' => hall c' (by tauto)⟩, hall e (by tauto)⟩
    · exact Or.inr ⟨rfl, fun c' hc' => hall c' (by tauto)⟩
  · rintro (⟨⟨h, hall⟩, he⟩ | ⟨rfl, hall⟩)
    · refine ⟨by tauto, ?_⟩
      rintro c' (hc' | hc' | rfl) hk
      · exact hall c' (Or.inl hc') hk
      · exact hall c' (Or.inr hc') hk
      · exact he hk
    · refine ⟨by tauto, ?_⟩
      rintro c' (hc' | hc' | rfl) hk
      · exact hall c' (Or.inl hc') hk
      · exact hall c' (Or.inr hc') hk
      · exact ClockOps.lessThan_irrefl _

/-- A new key is added. -/
theorem Merged.add (h : Merged v u d) (hd : ∀ c ∈ d, key c ≠ key e)
    (hv : ∀ c ∈ v, key c ≠ key e) (hu : ∀ c ∈ u, key c ≠ key e) :
    Merged v (u ++ [e]) (e :: d) where
  nodup := by
    rw [List.map_cons, List.nodup_cons]
    refine ⟨fun hmem => ?_, h.nodup⟩
    obtain ⟨c, hc, hk⟩ := List.mem_map.mp hmem
    exact hd c hc hk
  mem_iff c := by
    rw [isMax_concat, List.mem_cons, h.mem_iff]
    constructor
    · rintro (rfl | hc)
      · refine Or.inr ⟨rfl, ?_⟩
        rintro c' (hc' | hc') hk
        · exact absurd hk (hv c' hc')
        · exact absurd hk (hu c' hc')
      · exact Or.inl ⟨hc, fun hk => absurd hk.symm (hd c ((h.mem_iff c).mpr hc))⟩
    · rintro (hc | hc)
      · exact Or.inr hc.1
      · exact Or.inl hc.1

/-- A smaller clock of the same key is replaced. -/
theorem Merged.replace (h : Merged v u d) (hd : d.Perm (x :: d')) (hk : key x = key e)
    (hlt : clockLessThan x e = true) : Merged v (u ++ [e]) (e :: d') := by
  have h' := h.perm hd.symm
  have hn := h'.nodup
  rw [List.map_cons, List.nodup_cons] at hn
  have hne : ∀ c ∈ d', key c ≠ key e := fun c hc hck =>
    hn.1 (List.mem_map.mpr ⟨c, hc, hck.trans hk.symm⟩)
  have hx := (h'.mem_iff x).mp (by simp)
  refine ⟨?_, fun c => ?_⟩
  · rw [List.map_cons, List.nodup_cons, ← hk]
    exact hn
  · rw [isMax_concat, ← h'.mem_iff, List.mem_cons, List.mem_cons]
    constructor
    · rintro (rfl | hc)
      · refine Or.inr ⟨rfl, fun c' hc' hck => ?_⟩
        -- a clock above the new one would be above the one it replaces
        by_contra hgt
        have := ClockOps.lessThan_trans _ _ _ hlt (Bool.eq_true_of_not_eq_false hgt)
        rw [hx.2 c' hc' (hck.trans hk.symm)] at this
        exact absurd this (by simp)
      · exact Or.inl ⟨Or.inr hc, fun hke => absurd hke.symm (hne c hc)⟩
    · rintro (⟨rfl | hc, hce⟩ | hc)
      · rw [hce hk.symm] at hlt
        exact absurd hlt (by simp)
      · exact Or.inr hc
      · exact Or.inl hc.1

/-- A clock that is no greater than the one of its key changes nothing. -/
theorem Merged.keep (h : Merged v u d) (hx : x ∈ d) (hk : key x = key e)
    (hlt : clockLessThan x e = false) : Merged v (u ++ [e]) d := by
  refine ⟨h.nodup, fun c => ?_⟩
  have hxm := (h.mem_iff x).mp hx
  rw [isMax_concat, ← h.mem_iff]
  constructor
  · intro hc
    refine Or.inl ⟨hc, fun hke => ?_⟩
    rwa [List.inj_on_of_nodup_map h.nodup hc hx (hke.symm.trans hk.symm)]
  · rintro (hc | ⟨rfl, hall⟩)
    · exact hc.1
    · rwa [← ClockOps.eq_of_not_lessThan x c hk hlt (hall x hxm.1 hk)]

/-! ## reorient -/

/-- Each round takes the first of what is left of `y` and puts it in front of what is left
of `x`; the clocks in front of both have changed places already. -/
theorem reorientFrom_interlace {additions i : ℕ} {p x y : List C} (r : List C)
    (hp : p.length = 2 * i) (hx : additions = i + x.length) :
    reorientFrom additions (min x.length y.length) i (p ++ (x ++ (y ++ r))) =
      some (p ++ (Deque.interlace y x ++ r)) := by
  induction x generalizing i p y with
  | nil => simp [reorientFrom]
  | cons c x ih =>
    cases y with
    | nil => simp [reorientFrom, Deque.interlace]
    | cons d y =>
      have hlen : additions + i = p.length + (c :: x).length := by omega
      have hmin : min (c :: x).length (d :: y).length = min x.length y.length + 1 := by
        simp only [List.length_cons]
        omega
      rw [hmin, reorientFrom, hlen, ← hp, List.cons_append (a := d), Deque.moveUp_length]
      have hnext := ih (y := y) (p := p ++ [d, c]) (i := i + 1) (by simp [hp]; omega)
        (by rw [hx, List.length_cons]; omega)
      simpa [Deque.interlace] using hnext

/-- The first `total` clocks take turns, and the others stay where they are. -/
theorem reorient_interlace (x y r : List C) :
    reorient x.length (x.length + y.length) (x ++ (y ++ r)) =
      some (Deque.interlace y x ++ r) := by
  rw [reorient, remaining, if_pos (by omega), Nat.add_sub_cancel_left]
  exact reorientFrom_interlace (p := []) r rfl (by simp)

/-! ## The loop -/

/-- The state after the clocks `u`: the deque is `front` up to the insert position,
and `behind`. -/
structure Running (v u front behind : List C) (s : MergeState C) : Prop where
  clocks_eq : s.clocks = front ++ behind
  prevIndex_eq : s.prevIndex = front.length
  merged : Merged v u s.clocks
  noMatch : s.noMatch = true → front = u

variable {front behind : List C} {s : MergeState C}

theorem running_nil (hv : (v.map key).Nodup) : Running v [] [] v ⟨v, true, 0⟩ where
  clocks_eq := rfl
  prevIndex_eq := rfl
  merged := merged_nil hv
  noMatch _ := rfl

/-- A clock that the first vector has for the key is still the one in the deque. -/
theorem Running.mem (h : Running v u front behind s) (hv : (v.map key).Nodup) (hx : x ∈ v)
    (hk : key x = key e) (he : ∀ c ∈ u, key c ≠ key e) : x ∈ s.clocks := by
  rw [h.merged.mem_iff]
  refine ⟨Or.inl hx, ?_⟩
  rintro c (hc | hc) hck
  · rw [List.inj_on_of_nodup_map hv hc hx hck]
    exact ClockOps.lessThan_irrefl x
  · exact absurd (hck.trans hk) (he c hc)

/-- A key in front of the insert position means that there was a match before. -/
theorem Running.matched (h : Running v u front behind s) (hx : x ∈ front) (hk : key x = key e)
    (he : ∀ c ∈ u, key c ≠ key e) : s.noMatch = false := by
  by_contra hm
  rw [h.noMatch (Bool.eq_true_of_not_eq_false hm)] at hx
  exact he x hx hk

variable [DecidableEq K]

/-! ## find -/

theorem find_eq_some_iff {d : List C} {e x : C} {i : ℕ} :
    find d e = some (i, x) ↔ ∃ a b, d = a ++ x :: b ∧ a.length = i ∧ key x = key e ∧
      ∀ c ∈ a, key c ≠ key e := by
  induction d generalizing i with
  | nil => simp [find]
  | cons c d ih =>
    rw [find]
    split_ifs with hc
    · simp only [Option.some.injEq, Prod.mk.injEq]
      constructor
      · rintro ⟨rfl, rfl⟩
        exact ⟨[], d, rfl, rfl, hc, by simp⟩
      · rintro ⟨a, b, hd, ha, -, hall⟩
        cases a with
        | nil =>
          cases hd
          exact ⟨ha, rfl⟩
        | cons c' a =>
          cases hd
          exact absurd hc (hall c (by simp))
    · rw [Option.map_eq_some_iff]
      constructor
      · rintro ⟨⟨j, y⟩, hj, hxy⟩
        obtain ⟨rfl, rfl⟩ := Prod.mk.inj hxy
        obtain ⟨a, b, rfl, rfl, hk, hall⟩ := ih.mp hj
        refine ⟨c :: a, b, rfl, rfl, hk, fun c' hc' => ?_⟩
        rcases List.mem_cons.mp hc' with rfl | hc'
        · exact hc
        · exact hall c' hc'
      · rintro ⟨a, b, hd, ha, hk, hall⟩
        cases a with
        | nil =>
          cases hd
          exact absurd hk hc
        | cons c' a =>
          cases hd
          refine ⟨(a.length, x), ih.mpr ⟨a, b, rfl, rfl, hk, fun y hy => hall y (by simp [hy])⟩, ?_⟩
          simp only [Prod.mk.injEq, and_true]
          exact ha

theorem find_eq_none_iff {d : List C} {e : C} : find d e = none ↔ ∀ c ∈ d, key c ≠ key e := by
  induction d with
  | nil => simp [find]
  | cons c d ih =>
    rw [find]
    split_ifs with hc
    · simp [hc]
    · rw [Option.map_eq_none_iff, ih]
      simp [hc]

/-- With distinct keys an element is found wherever it is. -/
theorem find_append_cons {a b : List C} {e x : C} (hn : ((a ++ x :: b).map key).Nodup)
    (hk : key x = key e) : find (a ++ x :: b) e = some (a.length, x) := by
  refine find_eq_some_iff.mpr ⟨a, b, rfl, rfl, hk, fun c hc => ?_⟩
  rw [← hk]
  exact key_ne_of_nodup hn c hc

/-! ## A round -/

/-- How the clocks behind the insert position change in a round: a clock that
replaces one of them takes its place in front, one that finds its key there with no
smaller clock moves the position past it, and one that replaces a clock in front of
the position lets the position move over the next clock, if there is one. -/
def advance (v behind : List C) (e : C) : Option (List C) :=
  match find v e with
  | none => some behind
  | some (_, x) =>
    match find behind e with
    | some (i, _) => some (if clockLessThan x e then behind.eraseIdx i else behind.drop (i + 1))
    | none =>
      if clockLessThan x e then (if behind.isEmpty then none else some behind.tail)
      else some behind

/-- The insert position stays inside the deque while `w` is merged into `v`. -/
def fits (v w : List C) : Bool :=
  (w.foldlM (advance v) v).isSome

theorem Running.find_none (h : Running v u front behind s) (hfind : find v e = none)
    (he : ∀ c ∈ u, key c ≠ key e) : find s.clocks e = none := by
  rw [find_eq_none_iff] at hfind ⊢
  intro c hc
  rcases ((h.merged.mem_iff c).mp hc).1 with hc | hc
  · exact hfind c hc
  · exact he c hc

theorem Running.find_eq {a b : List C} (h : Running v u front behind s)
    (hclocks : s.clocks = a ++ x :: b) (hk : key x = key e) :
    find s.clocks e = some (a.length, x) := by
  have hn := h.merged.nodup
  rw [hclocks] at hn ⊢
  exact find_append_cons hn hk

/-- The key is in neither vector so far. -/
theorem Running.step_none (h : Running v u front behind s) (hfind : find v e = none)
    (he : ∀ c ∈ u, key c ≠ key e) :
    ∃ s', mergeStep s e = some s' ∧ s'.noMatch = s.noMatch ∧
      Running v (u ++ [e]) (front ++ [e]) behind s' := by
  have hnone := h.find_none hfind he
  refine ⟨⟨front ++ e :: behind, s.noMatch, s.prevIndex + 1⟩, ?_, rfl, ?_, ?_, ?_, ?_⟩
  · rw [mergeStep, hnone]
    simp only [h.clocks_eq, h.prevIndex_eq, Deque.insertAt_length, Option.map_some]
  · simp
  · simp [h.prevIndex_eq]
  · refine (h.merged.add (find_eq_none_iff.mp hnone) (find_eq_none_iff.mp hfind) he).perm ?_
    rw [h.clocks_eq]
    exact List.perm_middle
  · intro hm
    rw [h.noMatch hm]

section shared

variable {a b : List C}

/-- The key is behind the insert position, with a smaller clock. -/
theorem Running.step_behind_replace (h : Running v u front (a ++ x :: b) s)
    (hk : key x = key e) (hlt : clockLessThan x e = true) :
    ∃ s', mergeStep s e = some s' ∧ s'.noMatch = s.noMatch ∧
      Running v (u ++ [e]) (front ++ [e]) (a ++ b) s' := by
  have hclocks : s.clocks = (front ++ a) ++ x :: b := by
    rw [h.clocks_eq, List.append_assoc]
  have hfind := h.find_eq hclocks hk
  refine ⟨⟨front ++ e :: (a ++ b), s.noMatch, s.prevIndex + 1⟩, ?_, rfl, ?_, ?_, ?_, ?_⟩
  · rw [mergeStep, hfind]
    simp only [hlt, if_true, hclocks, Deque.eraseAt_length, Option.bind_some]
    rw [List.append_assoc, h.prevIndex_eq, Deque.insertAt_length, Option.map_some]
  · simp
  · simp [h.prevIndex_eq]
  · have hperm : s.clocks.Perm (x :: (front ++ (a ++ b))) := by
      rw [hclocks, ← List.append_assoc]
      exact List.perm_middle
    exact (h.merged.replace hperm hk hlt).perm List.perm_middle
  · intro hm
    rw [h.noMatch hm]

/-- The key is behind the insert position, with a clock that is no smaller: the first time,
the clocks in front of it take turns. -/
theorem Running.step_behind_keep (h : Running v u front (a ++ x :: b) s)
    (hk : key x = key e) (hlt : clockLessThan x e = false) :
    ∃ s', mergeStep s e = some s' ∧ s'.noMatch = false ∧ Running v (u ++ [e])
      ((if s.noMatch then Deque.interlace a front else front ++ a) ++ [x]) b s' := by
  have hclocks : s.clocks = (front ++ a) ++ x :: b := by
    rw [h.clocks_eq, List.append_assoc]
  have hfind := h.find_eq hclocks hk
  have hindex : s.prevIndex ≤ (front ++ a).length := by simp [h.prevIndex_eq]
  obtain ⟨y, hy, hyeq, hperm⟩ : ∃ y, (if s.noMatch then reorient s.prevIndex (front ++ a).length
      s.clocks else some s.clocks) = some (y ++ x :: b) ∧
      (if s.noMatch then Deque.interlace a front else front ++ a) = y ∧ y.Perm (front ++ a) := by
    split_ifs
    · refine ⟨_, ?_, rfl, (Deque.interlace_perm a front).trans List.perm_append_comm⟩
      rw [hclocks, h.prevIndex_eq, List.length_append, List.append_assoc, reorient_interlace]
    · exact ⟨front ++ a, by rw [hclocks], rfl, List.Perm.refl _⟩
  rw [hyeq]
  refine ⟨⟨y ++ x :: b, false, (front ++ a).length + 1⟩, ?_, rfl, ?_, ?_, ?_, ?_⟩
  · rw [mergeStep, hfind]
    simp only [hlt, Bool.false_eq_true, if_false, hy, Option.map_some, if_pos hindex]
  · simp
  · simp [hperm.length_eq]
  · have hx : x ∈ s.clocks := by simp [hclocks]
    refine (h.merged.keep hx hk hlt).perm ?_
    rw [hclocks]
    exact hperm.append_right _
  · simp

/-- The key is in front of the insert position, with a smaller clock: the deque is
too short for the insertion when there is nothing behind. -/
theorem Running.step_front_replace (h : Running v u (a ++ x :: b) behind s)
    (hk : key x = key e) (hlt : clockLessThan x e = true) (he : ∀ c ∈ u, key c ≠ key e) :
    (behind = [] ∧ mergeStep s e = none) ∨
    ∃ r behind' s', behind = r :: behind' ∧ mergeStep s e = some s' ∧
      s'.noMatch = s.noMatch ∧ Running v (u ++ [e]) (a ++ b ++ [r, e]) behind' s' := by
  have hclocks : s.clocks = a ++ x :: (b ++ behind) := by
    rw [h.clocks_eq, List.append_assoc, List.cons_append]
  have hfind := h.find_eq hclocks hk
  have hstep : mergeStep s e = (Deque.insertAt (a ++ (b ++ behind)) s.prevIndex e).map
      fun clocks => { s with clocks := clocks, prevIndex := s.prevIndex + 1 } := by
    rw [mergeStep, hfind]
    simp only [hlt, if_true, hclocks, Deque.eraseAt_length, Option.bind_some]
  have hprev := h.prevIndex_eq
  cases behind with
  | nil =>
    refine Or.inl ⟨rfl, ?_⟩
    rw [hstep, Deque.insertAt_eq_none (by simp [hprev]), Option.map_none]
  | cons r behind =>
    refine Or.inr ⟨r, behind, ⟨a ++ b ++ r :: e :: behind, s.noMatch, s.prevIndex + 1⟩, rfl,
      ?_, rfl, ?_, ?_, ?_, ?_⟩
    · have hlen : s.prevIndex = (a ++ b ++ [r]).length := by simp [hprev]
      have hins := Deque.insertAt_length (a ++ b ++ [r]) behind e
      simp only [List.append_assoc, List.cons_append, List.nil_append] at hins hlen ⊢
      rw [hstep, hlen, hins, Option.map_some]
    · simp
    · simp [hprev]
      omega
    · have hperm : s.clocks.Perm (x :: (a ++ (b ++ r :: behind))) := by
        rw [hclocks]
        exact List.perm_middle
      refine (h.merged.replace hperm hk hlt).perm ?_
      have hmid : (a ++ b ++ [r] ++ e :: behind).Perm (e :: (a ++ b ++ [r] ++ behind)) :=
        List.perm_middle
      simpa using hmid
    · intro hm
      rw [h.matched (by simp) hk he] at hm
      exact absurd hm (by simp)

/-- The key is in front of the insert position, with a clock that is no smaller. -/
theorem Running.step_front_keep (h : Running v u (a ++ x :: b) behind s)
    (hk : key x = key e) (hlt : clockLessThan x e = false) (he : ∀ c ∈ u, key c ≠ key e) :
    mergeStep s e = some s ∧ Running v (u ++ [e]) (a ++ x :: b) behind s := by
  have hclocks : s.clocks = a ++ x :: (b ++ behind) := by
    rw [h.clocks_eq, List.append_assoc, List.cons_append]
  have hfind := h.find_eq hclocks hk
  have hmatched := h.matched (x := x) (by simp) hk he
  have hindex : ¬s.prevIndex ≤ a.length := by simp [h.prevIndex_eq]
  refine ⟨?_, h.clocks_eq, h.prevIndex_eq, h.merged.keep (by simp [hclocks]) hk hlt, ?_⟩
  · rw [mergeStep, hfind]
    simp only [hlt, Bool.false_eq_true, if_false, hmatched, if_neg hindex, Option.map_some]
    rw [← hmatched]
  · intro hm
    rw [hmatched] at hm
    exact absurd hm (by simp)

end shared

/-- One round of the loop. -/
theorem Running.step (h : Running v u front behind s) (hv : (v.map key).Nodup)
    (he : ∀ c ∈ u, key c ≠ key e) :
    (advance v behind e = none ∧ mergeStep s e = none) ∨
    ∃ behind' s' front', advance v behind e = some behind' ∧ mergeStep s e = some s' ∧
      Running v (u ++ [e]) front' behind' s' := by
  rw [advance]
  cases hfind : find v e with
  | none =>
    obtain ⟨s', hs', -, h'⟩ := h.step_none hfind he
    exact Or.inr ⟨behind, s', _, rfl, hs', h'⟩
  | some it =>
    obtain ⟨i, x⟩ := it
    obtain ⟨v₁, v₂, rfl, -, hk, -⟩ := find_eq_some_iff.mp hfind
    have hmem := h.mem hv (show x ∈ v₁ ++ x :: v₂ by simp) hk he
    simp only
    cases hbehind : find behind e with
    | some jt =>
      obtain ⟨j, y⟩ := jt
      obtain ⟨a, b, rfl, rfl, hky, -⟩ := find_eq_some_iff.mp hbehind
      obtain rfl : y = x := List.inj_on_of_nodup_map h.merged.nodup (by simp [h.clocks_eq]) hmem
        (hky.trans hk.symm)
      cases hlt : clockLessThan y e with
      | true =>
        obtain ⟨s', hs', -, h'⟩ := h.step_behind_replace hk hlt
        exact Or.inr ⟨a ++ b, s', _, by simp [List.eraseIdx_append_of_length_le], hs', h'⟩
      | false =>
        obtain ⟨s', hs', -, h'⟩ := h.step_behind_keep hk hlt
        exact Or.inr ⟨b, s', _, by simp, hs', h'⟩
    | none =>
      have hfront : x ∈ front := by
        rw [h.clocks_eq, List.mem_append] at hmem
        exact hmem.resolve_right fun hx => find_eq_none_iff.mp hbehind x hx hk
      obtain ⟨a, b, rfl⟩ := List.append_of_mem hfront
      cases hlt : clockLessThan x e with
      | true =>
        rcases h.step_front_replace hk hlt he with ⟨rfl, hs'⟩ | ⟨r, behind', s', rfl, hs', -, h'⟩
        · exact Or.inl ⟨by simp, hs'⟩
        · exact Or.inr ⟨behind', s', _, by simp, hs', h'⟩
      | false =>
        obtain ⟨hs', h'⟩ := h.step_front_keep hk hlt he
        exact Or.inr ⟨behind, s, _, by simp, hs', h'⟩

/-- All rounds. -/
theorem Running.loop (h : Running v u front behind s) (hv : (v.map key).Nodup)
    (hw : ((u ++ w).map key).Nodup) :
    (w.foldlM (advance v) behind = none ∧ mergeLoop s w = none) ∨
    ∃ behind' s' front', w.foldlM (advance v) behind = some behind' ∧
      mergeLoop s w = some s' ∧ Running v (u ++ w) front' behind' s' := by
  induction w generalizing u front behind s with
  | nil => exact Or.inr ⟨behind, s, front, rfl, rfl, by simpa using h⟩
  | cons e w ih =>
    have he := key_ne_of_nodup hw
    rw [List.foldlM_cons, mergeLoop]
    rcases h.step hv he with ⟨ha, hs⟩ | ⟨behind', s', front', ha, hs, h'⟩
    · exact Or.inl ⟨by rw [ha]; rfl, by rw [hs]; rfl⟩
    · rw [ha, hs]
      have := ih h' (by simpa using hw)
      rwa [List.append_assoc, List.singleton_append] at this

/-! ## merge -/

theorem truncate_eq_take (limit : ℕ) (d : List C) : truncate limit d = d.take limit := by
  rw [truncate]
  induction hn : d.length - limit generalizing d with
  | zero => rw [Function.iterate_zero_apply, List.take_of_length_le (by omega)]
  | succ n ih =>
    rw [Function.iterate_succ_apply, ih _ (by simp; omega), List.dropLast_eq_take, List.take_take,
      min_eq_left (by omega)]

/-- The clocks take turns at the end, too, if there has been no match. -/
theorem mergeAll_of_loop (hloop : mergeLoop ⟨v, true, 0⟩ w = some s)
    (h : Running v w front behind s) :
    mergeAll v w =
      some (if s.noMatch then Deque.interlace behind front else front ++ behind) := by
  rw [mergeAll, hloop, Option.bind_some, h.clocks_eq]
  split_ifs with hm
  · have hturns := reorient_interlace front behind []
    rw [List.append_nil, List.append_nil] at hturns
    rw [← h.noMatch hm, List.length_append, hturns]
  · rfl

theorem mergeAll_eq_none (hv : (v.map key).Nodup) (hw : (w.map key).Nodup)
    (hfit : fits v w = false) : mergeAll v w = none := by
  rw [fits] at hfit
  rcases (running_nil hv).loop hv (by simpa using hw) with ⟨-, hloop⟩ | ⟨_, _, _, hfit', -, -⟩
  · rw [mergeAll, hloop, Option.bind_none]
  · rw [hfit'] at hfit
    cases hfit

theorem exists_merged (hv : (v.map key).Nodup) (hw : (w.map key).Nodup)
    (hfit : fits v w = true) : ∃ d, mergeAll v w = some d ∧ Merged v w d := by
  rw [fits] at hfit
  rcases (running_nil hv).loop hv (by simpa using hw) with
    ⟨hfit', -⟩ | ⟨behind, s, front, -, hloop, h⟩
  · rw [hfit'] at hfit
    cases hfit
  · rw [List.nil_append] at h
    have hmerged := h.merged
    rw [h.clocks_eq] at hmerged
    rw [mergeAll_of_loop hloop h]
    split_ifs
    · exact ⟨_, rfl, hmerged.perm
        ((Deque.interlace_perm behind front).trans List.perm_append_comm)⟩
    · exact ⟨_, rfl, hmerged⟩

/-- What `merge` promises: every position is inside the deque, which ends up with
the greater clock of each key, and then loses what is over the limit. -/
def MergesTo (limit : ℕ) (v w : List C) : Prop :=
  ∃ d, mergeAll v w = some d ∧ Merged v w d ∧ merge limit v w = some (d.take limit)

/-- `merge` computes the key-wise maximum exactly when its insert position stays
inside the deque. -/
theorem mergesTo_iff_fits (limit : ℕ) (hv : (v.map key).Nodup) (hw : (w.map key).Nodup) :
    MergesTo limit v w ↔ fits v w = true := by
  constructor
  · rintro ⟨d, hd, -, -⟩
    by_contra hfit
    rw [mergeAll_eq_none hv hw (Bool.eq_false_of_not_eq_true hfit)] at hd
    cases hd
  · intro hfit
    obtain ⟨d, hd, hmerged⟩ := exists_merged hv hw hfit
    refine ⟨d, hd, hmerged, ?_⟩
    rw [merge, hd, Option.map_some, truncate_eq_take]

theorem mergesTo_iff_fits_two :
    MergesTo 2 ([⟨1, 1⟩, ⟨2, 5⟩] : List (VersionClock ℕ)) [⟨1, 2⟩, ⟨3, 5⟩] :=
  (mergesTo_iff_fits 2 (by decide) (by decide)).mpr (by decide)

/-- The first round moves the insert position behind the shared key `2`; the second
one takes `1` out of the front and inserts past the end of what is left. -/
theorem merge_past_the_end :
    let v : List (VersionClock ℕ) := [⟨1, 1⟩, ⟨2, 5⟩]
    let w : List (VersionClock ℕ) := [⟨2, 5⟩, ⟨1, 2⟩]
    (v.map key).Nodup ∧ (w.map key).Nodup ∧ v.length ≤ 10 ∧ w.length ≤ 10 ∧
      mergeAll v w = none ∧ ¬MergesTo 10 v w := by
  intro v w
  have hnone : mergeAll v w = none := by decide
  refine ⟨by decide, by decide, by decide, by decide, hnone, ?_⟩
  rintro ⟨d, hd, -⟩
  rw [hnone] at hd
  exact absurd hd (by simp)

end BoundedVector

end Turbolib
