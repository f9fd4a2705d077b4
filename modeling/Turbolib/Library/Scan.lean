import Mathlib.Data.List.Basic
import Mathlib.Order.Bounds.Basic

/-!
# Scans of ascending lists

A scan runs from one mark of a list to another. It leaves the second mark out when
told so, and runs to the end of the list when the marks are in the wrong order.
`Between` is what that means for an ascending list, and the last two theorems say
when it is an interval.
-/

namespace Turbolib

namespace Scan

variable {α β : Type*}

/-- Everything up to the mark. -/
def upTo (isStop : α → Bool) (excl : Bool) : List α → List α
  | [] => []
  | x :: xs => if isStop x then (if excl then [] else [x]) else x :: upTo isStop excl xs

/-- Everything from one mark to the other. -/
def scan (isStart isStop : α → Bool) (excl : Bool) : List α → List α
  | [] => []
  | x :: xs => if isStart x then upTo isStop excl (x :: xs) else scan isStart isStop excl xs

theorem upTo_sublist (isStop : α → Bool) (excl : Bool) (xs : List α) :
    (upTo isStop excl xs).Sublist xs := by
  induction xs with
  | nil => exact List.Sublist.refl _
  | cons x xs ih =>
    rw [upTo]
    split_ifs
    · exact List.nil_sublist _
    · simp
    · exact ih.cons_cons x

theorem scan_sublist (isStart isStop : α → Bool) (excl : Bool) (xs : List α) :
    (scan isStart isStop excl xs).Sublist xs := by
  induction xs with
  | nil => exact List.Sublist.refl _
  | cons x xs ih =>
    rw [scan]
    split_ifs
    · exact upTo_sublist _ _ _
    · exact ih.cons x

variable [LinearOrder β]

/-- Between the marks: up to the second one, or to the end if it is in front of the first. -/
def Between (start stop : β) (excl : Prop) (x : β) : Prop :=
  start ≤ x ∧ (stop < start ∨ x < stop ∨ x = stop ∧ ¬excl)

variable {key : α → β} {isStart isStop : α → Bool} {excl : Bool} {xs : List α} {start stop : α}

theorem mem_upTo_iff (hs : xs.Pairwise fun a b => key a < key b)
    (hstop : ∀ x ∈ xs, isStop x = true ↔ key x = key stop) {x : α} (hx : x ∈ xs) :
    x ∈ upTo isStop excl xs ↔
      (∀ y ∈ xs, key y ≠ key stop) ∨ key x < key stop ∨ key x = key stop ∧ excl = false := by
  induction xs with
  | nil => simp at hx
  | cons a xs ih =>
    obtain ⟨ha, hxs⟩ := List.pairwise_cons.mp hs
    rw [upTo]
    by_cases hk : key a = key stop
    · -- the mark is here, and everything else is behind it
      rw [if_pos ((hstop a (by simp)).mpr hk)]
      have hnone : ¬∀ y ∈ a :: xs, key y ≠ key stop := fun h => h a (by simp) hk
      rcases List.mem_cons.mp hx with rfl | hx
      · cases excl <;> simp [hk]
      · have hlt := hk ▸ ha x hx
        have hxa : x ≠ a := fun h => absurd (h ▸ ha x hx) (lt_irrefl _)
        have hout : x ∉ (if excl then [] else [a] : List α) := by
          cases excl <;> simp [hxa]
        simp only [hout, hnone, hlt.not_gt, hlt.ne', false_and, or_false]
    · have hmark : (∀ y ∈ a :: xs, key y ≠ key stop) ↔ ∀ y ∈ xs, key y ≠ key stop := by
        simp [hk]
      rw [if_neg fun h => hk ((hstop a (by simp)).mp h), hmark]
      rcases List.mem_cons.mp hx with rfl | hx
      · refine iff_of_true (by simp) ?_
        by_cases hall : ∀ y ∈ xs, key y ≠ key stop
        · exact Or.inl hall
        · push Not at hall
          obtain ⟨y, hy, hys⟩ := hall
          exact Or.inr (Or.inl (hys ▸ ha y hy))
      · have hxa : x ≠ a := fun h => absurd (h ▸ ha x hx) (lt_irrefl _)
        rw [List.mem_cons, or_iff_right hxa,
          ih hxs (fun y hy => hstop y (by simp [hy])) hx]

theorem scan_append {a b : List α} (ha : ∀ x ∈ a, isStart x = false) (hx : isStart start = true) :
    scan isStart isStop excl (a ++ start :: b) = upTo isStop excl (start :: b) := by
  induction a with
  | nil => rw [List.nil_append, scan, if_pos hx]
  | cons x a ih =>
    rw [List.cons_append, scan, if_neg (by simp [ha x (by simp)])]
    exact ih fun y hy => ha y (by simp [hy])

theorem upTo_append {a b : List α} (ha : ∀ x ∈ a, isStop x = false) (hx : isStop stop = true) :
    upTo isStop excl (a ++ stop :: b) = if excl then a else a ++ [stop] := by
  induction a with
  | nil => cases excl <;> simp [upTo, hx]
  | cons x a ih =>
    have hrest := ih fun y hy => ha y (List.mem_cons_of_mem _ hy)
    rw [List.cons_append, upTo, if_neg (by simp [ha x List.mem_cons_self]), hrest]
    cases excl <;> rfl

/-- From the first element of a piece of the list to its last one, each of them a mark that is
found there only. -/
theorem scan_interval {before between after : List α} (hhead : between.head? = some start)
    (hlast : between.getLast? = some stop) (hstart : isStart start = true)
    (hbefore : ∀ x ∈ before, isStart x = false) (hstop : isStop stop = true)
    (hinside : ∀ x ∈ between.dropLast, isStop x = false) :
    scan isStart isStop excl (before ++ (between ++ after)) =
      if excl then between.dropLast else between := by
  have hbetween := List.dropLast_append_getLast? stop hlast
  obtain ⟨rest, hrest⟩ := List.head?_eq_some_iff.mp hhead
  calc scan isStart isStop excl (before ++ (between ++ after))
      = upTo isStop excl (between ++ after) := by
        rw [hrest, List.cons_append, scan_append hbefore hstart]
    _ = upTo isStop excl (between.dropLast ++ stop :: after) := by
        rw [List.append_cons, hbetween]
    _ = if excl then between.dropLast else between := by
        rw [upTo_append hinside hstop, hbetween]

/-- What a scan of an ascending list visits. -/
theorem mem_scan_iff (hs : xs.Pairwise fun a b => key a < key b)
    (hstart : ∀ x ∈ xs, isStart x = true ↔ key x = key start)
    (hstop : ∀ x ∈ xs, isStop x = true ↔ key x = key stop)
    (hmem : start ∈ xs) (hmem' : stop ∈ xs) {x : α} (hx : x ∈ xs) :
    x ∈ scan isStart isStop excl xs ↔ Between (key start) (key stop) (excl = true) (key x) := by
  obtain ⟨a, b, rfl⟩ := List.append_of_mem hmem
  obtain ⟨-, hb, hab⟩ := List.pairwise_append.mp hs
  have hlow : ∀ y ∈ a, key y < key start := fun y hy => hab y hy start (by simp)
  have hhigh : ∀ y ∈ start :: b, key start ≤ key y := by
    intro y hy
    rcases List.mem_cons.mp hy with rfl | hy
    · exact le_rfl
    · exact ((List.pairwise_cons.mp hb).1 y hy).le
  have hscan : scan isStart isStop excl (a ++ start :: b) = upTo isStop excl (start :: b) := by
    refine scan_append (fun y hy => ?_) ((hstart start hmem).mpr rfl)
    rw [Bool.eq_false_iff, ne_eq, hstart y (by simp [hy])]
    exact (hlow y hy).ne
  have hbehind : (∀ y ∈ start :: b, key y ≠ key stop) ↔ key stop < key start := by
    constructor
    · intro h
      refine hlow stop ((List.mem_append.mp hmem').resolve_right fun hm => h stop hm rfl)
    · intro h y hy hk
      exact absurd (hhigh y hy) (by rw [hk]; exact h.not_ge)
  rw [hscan, Between]
  rcases List.mem_append.mp hx with hxa | hxb
  · have hlt := (hlow x hxa).not_ge
    refine iff_of_false (fun h => hlt (hhigh x ((upTo_sublist _ _ _).subset h))) fun h => hlt h.1
  · rw [mem_upTo_iff hb (fun y hy => hstop y (List.mem_append_right _ hy)) hxb, hbehind,
      Bool.not_eq_true, and_iff_right (hhigh x hxb)]

/-! ## Scans and intervals -/

variable {s : Set β} {first last m n b e : β} {ex : Prop}

/-- Where the interval holds nothing, a scan is right when it visits nothing. -/
theorem between_iff_of_empty (hb : b ∈ s) (hempty : ∀ x ∈ s, ¬(first ≤ x ∧ x ≤ last)) :
    (∀ x ∈ s, Between b e ex x ↔ first ≤ x ∧ x ≤ last) ↔ b = e ∧ ex := by
  constructor
  · intro h
    have hbb : ¬Between b e ex b := fun hbb => hempty b hb ((h b hb).mp hbb)
    simp only [Between, le_refl, true_and, not_or, not_lt, not_and, not_not] at hbb
    have hbe : b = e := le_antisymm hbb.1 hbb.2.1
    exact ⟨hbe, hbb.2.2 hbe⟩
  · rintro ⟨rfl, hex⟩ x hx
    refine iff_of_false ?_ (hempty x hx)
    rintro ⟨hle, hlt | hlt | ⟨-, hn⟩⟩
    · exact lt_irrefl _ hlt
    · exact hle.not_gt hlt
    · exact hn hex

/-- Otherwise it has to start at the least and to stop at the greatest member of the
interval; it may also run to the end when nothing is above, or stop short of the
next member. -/
theorem between_iff (hm : IsLeast {x ∈ s | first ≤ x ∧ x ≤ last} m)
    (hn : IsGreatest {x ∈ s | first ≤ x ∧ x ≤ last} n) (hb : b ∈ s) (he : e ∈ s)
    (hex : ex → last < e) :
    (∀ x ∈ s, Between b e ex x ↔ first ≤ x ∧ x ≤ last) ↔
      b = m ∧ (e = n ∨ (e < m ∧ ∀ x ∈ s, x ≤ last) ∨ (ex ∧ ∀ x ∈ s, last < x → e ≤ x)) := by
  obtain ⟨⟨hms, hfm, hml⟩, hleast⟩ := hm
  obtain ⟨⟨hns, hfn, hnl⟩, hgreatest⟩ := hn
  have hin : ∀ x ∈ s, first ≤ x → x ≤ last → m ≤ x ∧ x ≤ n := fun x hx hf hl =>
    ⟨hleast ⟨hx, hf, hl⟩, hgreatest ⟨hx, hf, hl⟩⟩
  constructor
  · intro h
    have hbm : b = m := by
      have hle := ((h m hms).mpr ⟨hfm, hml⟩).1
      by_cases hbb : Between b e ex b
      · have := (h b hb).mp hbb
        exact le_antisymm hle (hin b hb this.1 this.2).1
      · have hmb := (h m hms).mpr ⟨hfm, hml⟩
        simp only [Between] at hbb hmb
        grind
    subst hbm
    refine ⟨rfl, ?_⟩
    have hbn := (h n hns).mpr ⟨hfn, hnl⟩
    rcases hbn.2 with heb | hne | ⟨hne, -⟩
    · refine Or.inr (Or.inl ⟨heb, fun x hx => ?_⟩)
      by_contra hlx
      have hbx : Between b e ex x := ⟨hml.trans (not_le.mp hlx).le, Or.inl heb⟩
      exact hlx ((h x hx).mp hbx).2
    · -- the mark is above the interval, so it is left out, and nothing comes before it
      have hle : ¬e ≤ last := fun hel =>
        hne.not_ge (hin e he ((hfn.trans hne.le)) hel).2
      have hbe : b ≤ e := hbn.1.trans hne.le
      refine Or.inr (Or.inr ⟨?_, fun x hx hlx => ?_⟩)
      · by_contra hnex
        exact hle ((h e he).mp ⟨hbe, Or.inr (Or.inr ⟨rfl, hnex⟩)⟩).2
      · by_contra hxe
        have hbx : Between b e ex x := ⟨hml.trans hlx.le, Or.inr (Or.inl (not_le.mp hxe))⟩
        exact hlx.not_ge ((h x hx).mp hbx).2
    · exact Or.inl hne.symm
  · rintro ⟨rfl, hstop⟩ x hx
    constructor
    · rintro ⟨hbx, hrest⟩
      refine ⟨hfm.trans hbx, ?_⟩
      rcases hstop with rfl | ⟨heb, hall⟩ | ⟨hexe, hall⟩
      · rcases hrest with h | h | h
        · exact absurd (hin b hms hfm hml).2 h.not_ge
        · exact h.le.trans hnl
        · exact h.1.le.trans hnl
      · exact hall x hx
      · by_contra hlx
        have hex' := hall x hx (not_le.mp hlx)
        rcases hrest with h | h | h
        · exact absurd (hml.trans (hex hexe).le) h.not_ge
        · exact h.not_ge hex'
        · exact h.2 hexe
    · rintro ⟨hfx, hxl⟩
      obtain ⟨hbx, hxn⟩ := hin x hx hfx hxl
      refine ⟨hbx, ?_⟩
      rcases hstop with rfl | ⟨heb, -⟩ | ⟨hexe, -⟩
      · rcases hxn.lt_or_eq with h | h
        · exact Or.inr (Or.inl h)
        · exact Or.inr (Or.inr ⟨h, fun hexe => (hex hexe).not_ge hnl⟩)
      · exact Or.inl heb
      · exact Or.inr (Or.inl (hxl.trans_lt (hex hexe)))

end Scan

end Turbolib
