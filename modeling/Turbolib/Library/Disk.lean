import Mathlib.Data.List.Basic
import Mathlib.Logic.Function.Basic

/-!
# Disks that can crash

Files have numbers, and entries say which file is under a path. What is written reaches the
device when it is synced, or sooner: after a crash each entry is as it is now or as it was at
some time since it was last synced, whatever the others are, and a file that was written and
not synced has any contents.

## Main definitions

* `Disk` — what there is now, and what the device may have instead.
* `Disk.crash` — the device after a crash.
* `Disk.Keeps` — whatever happens, one of some contents is under a path.
* `Disk.Apart` — what is done under a path leaves the file under another one alone.
-/

namespace Turbolib

structure Disk (Path β : Type*) where
  entries : Path → Option ℕ
  /-- the entries as the device may have them -/
  older : List (Path → Option ℕ)
  data : ℕ → List β
  /-- the device has the contents of the file -/
  synced : ℕ → Bool
  /-- the number of the next file -/
  next : ℕ

namespace Disk

variable {Path β : Type*}

/-- The entries now, and those that the device may have. -/
def views (d : Disk Path β) : List (Path → Option ℕ) := d.entries :: d.older

def load (d : Disk Path β) (p : Path) : Option (List β) := (d.entries p).map d.data

/-- `view` tells for each path which of its entries the device has, and `torn` what is in the
files that were not synced. -/
def crash (d : Disk Path β) (view : Path → ℕ) (torn : ℕ → List β) : Disk Path β where
  entries p := d.views.getD (view p) d.entries p
  older := []
  data file := if d.synced file then d.data file else torn file
  synced _ := true
  next := d.next

def append (d : Disk Path β) (file : ℕ) (bytes : List β) : Disk Path β :=
  { d with
    data := Function.update d.data file (d.data file ++ bytes)
    synced := Function.update d.synced file false }

def syncFile (d : Disk Path β) (file : ℕ) : Disk Path β :=
  { d with synced := Function.update d.synced file true }

/-- Sync the entries of a directory, which are those of some paths. -/
def syncEntries (d : Disk Path β) (inside : Path → Bool) : Disk Path β :=
  { d with older := d.older.map fun view p => if inside p then d.entries p else view p }

/-! ## What is kept -/

variable {d : Disk Path β} {p q : Path} {kept : List (Option (List β))} {file : ℕ}

/-- Under `q` the device has one of the contents. -/
def KeepsIn (d : Disk Path β) (q : Path) (kept : List (Option (List β)))
    (view : Path → Option ℕ) : Prop :=
  match view q with
  | none => none ∈ kept
  | some file => d.synced file = true ∧ some (d.data file) ∈ kept

/-- Whatever happens, one of the contents is under `q`. -/
def Keeps (d : Disk Path β) (q : Path) (kept : List (Option (List β))) : Prop :=
  ∀ view ∈ d.views, d.KeepsIn q kept view

theorem Keeps.mono (h : d.Keeps q kept) {more : List (Option (List β))} (hsub : kept ⊆ more) :
    d.Keeps q more := by
  intro view hview
  have hin := h view hview
  unfold KeepsIn at hin ⊢
  split at hin
  · exact hsub hin
  · exact ⟨hin.1, hsub hin.2⟩

theorem getD_views_mem (d : Disk Path β) (i : ℕ) : d.views.getD i d.entries ∈ d.views := by
  rw [List.getD_eq_getElem?_getD]
  cases hview : d.views[i]? with
  | none => exact List.mem_cons_self
  | some e => exact List.mem_of_getElem? hview

/-- One of the contents is under `q` after a crash. -/
theorem Keeps.crash (h : d.Keeps q kept) (view : Path → ℕ) (torn : ℕ → List β) :
    (d.crash view torn).Keeps q kept := by
  intro e he
  obtain rfl := List.mem_singleton.mp he
  have hin := h _ (getD_views_mem d (view q))
  unfold KeepsIn at hin ⊢
  split at hin
  next hq =>
    simp only [Disk.crash, hq]
    exact hin
  next file hq =>
    simp only [Disk.crash, hq, hin.1, if_true]
    exact ⟨trivial, hin.2⟩

theorem KeepsIn.of_eq {d' : Disk Path β} {view view' : Path → Option ℕ} (h : d.KeepsIn q kept view)
    (hview : view' q = view q)
    (hfile : ∀ file, view q = some file →
      d'.data file = d.data file ∧ (d.synced file = true → d'.synced file = true)) :
    d'.KeepsIn q kept view' := by
  unfold KeepsIn at h ⊢
  rw [hview]
  split at h
  · exact h
  next file hq => exact ⟨(hfile file hq).2 h.1, (hfile file hq).1 ▸ h.2⟩

/-- What is written to another file than the one under `q`. -/
theorem KeepsIn.write {d' : Disk Path β} {view view' : Path → Option ℕ} {bytes : List β}
    (h : d.KeepsIn q kept view) (hview : view' q = view q) (hother : view q ≠ some file)
    (hdata : d'.data = Function.update d.data file bytes)
    (hsynced : d'.synced = Function.update d.synced file false) : d'.KeepsIn q kept view' := by
  refine h.of_eq hview fun other hq => ?_
  have hne : other ≠ file := by
    rintro rfl
    exact hother hq
  rw [hdata, hsynced]
  exact ⟨Function.update_of_ne hne _ _, (Function.update_of_ne hne _ _).trans⟩

theorem Keeps.syncFile (h : d.Keeps q kept) (file : ℕ) : (d.syncFile file).Keeps q kept := by
  intro view hview
  refine (h view hview).of_eq rfl fun other _ => ⟨rfl, fun hsynced => ?_⟩
  by_cases he : other = file
  · rw [he]
    exact Function.update_self _ _ _
  · exact (Function.update_of_ne he _ _).trans hsynced

theorem Keeps.syncEntries (h : d.Keeps q kept) (inside : Path → Bool) :
    (d.syncEntries inside).Keeps q kept := by
  intro view hview
  rcases List.mem_cons.mp hview with rfl | hview
  · exact (h _ List.mem_cons_self).of_eq rfl fun _ _ => ⟨rfl, id⟩
  obtain ⟨old, hold, rfl⟩ := List.mem_map.mp hview
  cases hinside : inside q with
  | true =>
    exact (h _ List.mem_cons_self).of_eq (if_pos hinside) fun _ _ => ⟨rfl, id⟩
  | false =>
    exact (h old (List.mem_cons_of_mem _ hold)).of_eq (if_neg (by simp [hinside]))
      fun _ _ => ⟨rfl, id⟩

/-- Once the entry of `q` is synced, only what is there now is kept. -/
theorem Keeps.of_syncEntries (h : d.Keeps q kept) {inside : Path → Bool}
    (hinside : inside q = true) : (d.syncEntries inside).Keeps q [d.load q] := by
  have hnow : d.KeepsIn q [d.load q] d.entries := by
    have hin := h _ List.mem_cons_self
    unfold KeepsIn at hin ⊢
    unfold load
    split at hin
    next hq => simp [hq]
    next file hq => simp [hq, hin.1]
  intro view hview
  rcases List.mem_cons.mp hview with rfl | hview
  · exact hnow.of_eq rfl fun _ _ => ⟨rfl, id⟩
  · obtain ⟨old, -, rfl⟩ := List.mem_map.mp hview
    exact hnow.of_eq (if_pos hinside) fun _ _ => ⟨rfl, id⟩

/-! ## Two paths -/

/-- What is written under `p` is not under `q`, on the device either. -/
structure Apart (d : Disk Path β) (p q : Path) : Prop where
  bound : ∀ view ∈ d.views, ∀ file, view p = some file ∨ view q = some file → file < d.next
  inView : ∀ view ∈ d.views, ∀ file, view p = some file → view q ≠ some file
  now : ∀ view ∈ d.views, ∀ file, d.entries p = some file → view q ≠ some file

/-- Two paths stay apart in a crash that takes both entries from one time. -/
theorem Apart.crash (h : d.Apart p q) {view : Path → ℕ} (htogether : view p = view q)
    (torn : ℕ → List β) : (d.crash view torn).Apart p q := by
  have hmem := getD_views_mem d (view q)
  have hp : (d.crash view torn).entries p = d.views.getD (view q) d.entries p := by
    rw [← htogether]
    rfl
  have hq : (d.crash view torn).entries q = d.views.getD (view q) d.entries q := rfl
  have hviews : ∀ e ∈ (d.crash view torn).views, e = (d.crash view torn).entries := fun e he =>
    List.mem_singleton.mp he
  refine ⟨fun e he => ?_, fun e he => ?_, fun e he => ?_⟩
  · rw [hviews e he, hp, hq]
    exact h.bound _ hmem
  · rw [hviews e he, hp, hq]
    exact h.inView _ hmem
  · rw [hviews e he, hp, hq]
    exact h.inView _ hmem

/-- Where the file under `p` is written and synced matters to `p` alone. -/
theorem Apart.of_eq (h : d.Apart p q) {d' : Disk Path β} (hentries : d'.entries = d.entries)
    (holder : d'.older = d.older) (hnext : d'.next = d.next) : d'.Apart p q := by
  have hviews : d'.views = d.views := by rw [views, hentries, holder, views]
  refine ⟨?_, ?_, ?_⟩
  · rw [hviews, hnext]
    exact h.bound
  · rw [hviews]
    exact h.inView
  · rw [hviews, hentries]
    exact h.now

theorem Apart.syncEntries (h : d.Apart p q) {inside : Path → Bool} (hsame : inside p = inside q) :
    (d.syncEntries inside).Apart p q := by
  have hcases : ∀ view ∈ (d.syncEntries inside).views,
      ∃ old ∈ d.views, view p = old p ∧ view q = old q := by
    intro view hview
    rcases List.mem_cons.mp hview with rfl | hview
    · exact ⟨_, List.mem_cons_self, rfl, rfl⟩
    obtain ⟨old, hold, rfl⟩ := List.mem_map.mp hview
    cases hinside : inside q with
    | true => exact ⟨_, List.mem_cons_self, by simp [hsame, hinside], by simp [hinside]⟩
    | false =>
      exact ⟨old, List.mem_cons_of_mem _ hold, by simp [hsame, hinside], by simp [hinside]⟩
  refine ⟨fun view hview file => ?_, fun view hview file => ?_, fun view hview file => ?_⟩
  all_goals
    obtain ⟨old, hold, hp, hq⟩ := hcases view hview
    simp only [hp, hq]
  · exact h.bound old hold file
  · exact h.inView old hold file
  · exact h.now old hold file

theorem Keeps.append (h : d.Keeps q kept) (hapart : d.Apart p q) (hfile : d.entries p = some file)
    (bytes : List β) : (d.append file bytes).Keeps q kept := by
  intro view hview
  exact (h view hview).write rfl (hapart.now view hview file hfile) rfl rfl

/-! ## New entries -/

variable [DecidableEq Path]

/-- Open a file to write it anew. -/
def create (d : Disk Path β) (p : Path) : ℕ × Disk Path β :=
  match d.entries p with
  | some file =>
    (file, { d with
      data := Function.update d.data file []
      synced := Function.update d.synced file false })
  | none =>
    (d.next, { d with
      entries := Function.update d.entries p (some d.next)
      older := d.views
      data := Function.update d.data d.next []
      synced := Function.update d.synced d.next false
      next := d.next + 1 })

/-- Put the file under `src` in the place of the one under `dest`. -/
def rename (d : Disk Path β) (src dest : Path) : Option (Disk Path β) :=
  (d.entries src).map fun file =>
    if src = dest then d
    else
      { d with
        entries := Function.update (Function.update d.entries dest (some file)) src none
        older := d.views }

/-- What `create` does. -/
structure Created (d : Disk Path β) (p q : Path) (kept : List (Option (List β)))
    (r : ℕ × Disk Path β) : Prop where
  entry : r.2.entries p = some r.1
  empty : r.2.data r.1 = []
  keeps : r.2.Keeps q kept
  apart : r.2.Apart p q

theorem Keeps.create (h : d.Keeps q kept) (hapart : d.Apart p q) (hne : p ≠ q) :
    d.Created p q kept (d.create p) := by
  unfold Disk.create
  split
  next file hfile =>
    refine ⟨hfile, Function.update_self _ _ _, fun view hview => ?_, hapart.of_eq rfl rfl rfl⟩
    exact (h view hview).write rfl (hapart.now view hview file hfile) rfl rfl
  next hnone =>
    -- no entry has the new number
    have hold : ∀ view ∈ d.views, view q ≠ some d.next := fun view hview hq =>
      Nat.lt_irrefl _ (hapart.bound view hview _ (Or.inr hq))
    have hq : Function.update d.entries p (some d.next) q = d.entries q :=
      Function.update_of_ne hne.symm _ _
    have hcases : ∀ view ∈ Function.update d.entries p (some d.next) :: d.views,
        ∃ old ∈ d.views, view q = old q ∧ (view p = old p ∨ view p = some d.next) := by
      intro view hview
      rcases List.mem_cons.mp hview with rfl | hview
      · exact ⟨_, List.mem_cons_self, hq, Or.inr (Function.update_self _ _ _)⟩
      · exact ⟨view, hview, rfl, Or.inl rfl⟩
    refine ⟨Function.update_self _ _ _, Function.update_self _ _ _, fun view hview => ?_,
      fun view hview file hfile => ?_, fun view hview file hfile => ?_,
      fun view hview file hfile => ?_⟩
    · obtain ⟨old, hmem, hview, -⟩ := hcases view hview
      exact (h old hmem).write hview (hold old hmem) rfl rfl
    · obtain ⟨old, hmem, hview, hp⟩ := hcases view hview
      rw [hview] at hfile
      have hbound := hapart.bound old hmem file
      simp only
      rcases hp with hp | hp
      · rw [hp] at hfile
        exact Nat.lt_succ_of_lt (hbound hfile)
      · rcases hfile with hfile | hfile
        · cases hp.symm.trans hfile
          exact Nat.lt_succ_self _
        · exact Nat.lt_succ_of_lt (hbound (Or.inr hfile))
    · obtain ⟨old, hmem, hview, hp⟩ := hcases view hview
      rw [hview]
      rcases hp with hp | hp
      · exact hapart.inView old hmem file (hp.symm.trans hfile)
      · cases hp.symm.trans hfile
        exact hold old hmem
    · obtain ⟨old, hmem, hview, -⟩ := hcases view hview
      rw [hview]
      cases (Function.update_self (f := d.entries) p (some d.next)).symm.trans hfile
      exact hold old hmem

/-- What `rename` does to a file that was synced. -/
structure Renamed (d : Disk Path β) (p q : Path) (kept : List (Option (List β)))
    (d' : Disk Path β) : Prop where
  load : d'.load q = d.load p
  keeps : d'.Keeps q kept
  apart : d'.Apart p q

theorem Keeps.rename (h : d.Keeps q kept) (hapart : d.Apart p q) (hne : p ≠ q)
    (hfile : d.entries p = some file) (hsynced : d.synced file = true)
    (hmem : some (d.data file) ∈ kept) :
    ∃ d', d.rename p q = some d' ∧ d.Renamed p q kept d' := by
  let entries := Function.update (Function.update d.entries q (some file)) p none
  have hp : entries p = none := Function.update_self _ _ _
  have hq : entries q = some file := by
    simp only [entries, Function.update_of_ne hne.symm, Function.update_self]
  refine ⟨{ d with entries := entries, older := d.views }, ?_, ?_, fun view hview => ?_,
    fun view hview other hother => ?_, fun view hview other hother => ?_,
    fun view hview other hother => ?_⟩
  · rw [Disk.rename, hfile, Option.map_some, if_neg hne]
  · simp only [Disk.load, hq, hfile]
  · rcases List.mem_cons.mp hview with rfl | hview
    · unfold KeepsIn
      simp only [hq]
      exact ⟨hsynced, hmem⟩
    · exact (h view hview).of_eq rfl fun _ _ => ⟨rfl, id⟩
  · rcases List.mem_cons.mp hview with rfl | hview
    · simp only [hp, hq, reduceCtorEq, false_or, Option.some.injEq] at hother
      exact hother ▸ hapart.bound _ List.mem_cons_self file (Or.inl hfile)
    · exact hapart.bound view hview other hother
  · rcases List.mem_cons.mp hview with rfl | hview
    · simp [hp] at hother
    · exact hapart.inView view hview other hother
  · simp [hp] at hother

end Disk

end Turbolib
