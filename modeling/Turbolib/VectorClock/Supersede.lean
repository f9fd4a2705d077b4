import Turbolib.VectorClock.Ages
import Turbolib.VectorClock.Increment
import Mathlib.Data.List.Find

/-!
# Merges and their inputs

A vector recognises what it has been merged into as newer when every clock in front of
its cut has its key in front of the cut of the merged vector. Both cuts are places in the
vector itself, and the keys in front of the second one are those with a lesser age. Nothing
is cut, and nothing is evicted, below the limit.

## Main definitions

* `Reached` — the vectors that increments and merges make of empty ones.
* `Superseded` — the result of a merge is not older than either input, for `compare`.
* `Recognized` — what it takes, in terms of the cuts.
* `InSight` — what it takes, in terms of the two inputs.
-/

namespace Turbolib

namespace BoundedVector

/-- What the two `increment`s are called with, and the clocks they make of it. -/
class IncrementOps (C : Type) {K : outParam Type} [ClockOps C K] where
  Argument : Type
  first : Argument → C
  next : Argument → C → C
  key_next : ∀ arg it, key (next arg it) = key (first arg)

instance versionIncrement {K : Type} : IncrementOps (VersionClock K) where
  Argument := K
  first k := ⟨k, 1⟩
  next k it := ⟨k, it.count + 1⟩
  key_next _ _ := rfl

instance timeIncrement {K : Type} : IncrementOps (TimeClock K) where
  Argument := K × UInt64
  first arg := ⟨arg.1, arg.2, 0⟩
  next arg it :=
    if arg.2 ≤ it.time then ⟨arg.1, it.time, it.count + 1⟩ else ⟨arg.1, arg.2, 0⟩
  key_next arg it := by
    split_ifs <;> rfl

open IncrementOps

variable {C K : Type} [ClockOps C K] {u v w d m : List C} {c : C} {limit : ℕ}

/-- The inputs are below the merged clocks. -/
theorem Merged.below (h : Merged v w d) (hv : (v.map key).Nodup) (hw : (w.map key).Nodup) :
    Below v d := by
  intro c hc
  obtain ⟨m, hk, hmax⟩ := exists_isMax hv hw (Or.inl hc)
  exact ⟨m, (h.mem_iff m).mpr hmax, hk, hmax.2 c (Or.inl hc) hk.symm⟩

variable [DecidableEq K]

/-- `increment` of either kind of vector. -/
def increment [IncrementOps C] (stays : Bool) (limit : ℕ) (arg : Argument C) (clocks : List C) :
    Option (List C) :=
  incrementWith (first arg) (next arg) stays limit clocks

theorem increment_version (stays : Bool) (limit : ℕ) (k : K) (clocks : List (VersionClock K)) :
    increment stays limit k clocks = VersionClock.increment stays limit k clocks := rfl

theorem increment_time (stays : Bool) (limit : ℕ) (k : K) (time : UInt64)
    (clocks : List (TimeClock K)) :
    increment stays limit (k, time) clocks = TimeClock.increment stays limit k time clocks := rfl

/-- The vectors that increments and merges make of empty ones. -/
inductive Reached [IncrementOps C] (limit : ℕ) : List C → Prop
  | empty : Reached limit []
  | increment {v v' : List C} (stays : Bool) (arg : Argument C) : Reached limit v →
      increment stays limit arg v = some v' → Reached limit v'
  | merge {v w m : List C} : Reached limit v → Reached limit w → merge limit v w = some m →
      Reached limit m

/-- The merge has a result, and neither input is newer or in conflict with it. -/
def Superseded (limit : ℕ) (v w : List C) : Prop :=
  ∃ m, merge limit v w = some m ∧
    (compare limit m v = .greaterThan ∨ compare limit m v = .equal) ∧
    (compare limit m w = .greaterThan ∨ compare limit m w = .equal)

/-- No key in front of the cut of `u` is missing in front of the cut of `m`. -/
def Recognized (limit : ℕ) (u m : List C) : Prop :=
  (kept limit u m).map key ⊆ (kept limit m u).map key

instance decidableRecognized (limit : ℕ) (u m : List C) : Decidable (Recognized limit u m) :=
  inferInstanceAs (Decidable ((kept limit u m).map key ⊆ (kept limit m u).map key))

/-! ## Reached vectors -/

theorem mem_take_merged (hv : (v.map key).Nodup) (hw : (w.map key).Nodup)
    (hm : merge limit v w = some m) : ∃ d, Merged v w d ∧ m = d.take limit := by
  rw [merge] at hm
  obtain ⟨d, hd, rfl⟩ := Option.map_eq_some_iff.mp hm
  refine ⟨d, ?_, truncate_eq_take limit d⟩
  cases hfit : fits v w with
  | true =>
    obtain ⟨d', hd', hmerged⟩ := exists_merged hv hw hfit
    rw [hd, Option.some_inj] at hd'
    exact hd' ▸ hmerged
  | false =>
    rw [mergeAll_eq_none hv hw hfit] at hd
    cases hd

/-- A reached vector has distinct keys, and no more than the limit. -/
theorem Reached.bounded [IncrementOps C] (hlimit : 0 < limit) (h : Reached limit v) :
    (v.map key).Nodup ∧ v.length ≤ limit := by
  induction h with
  | empty => simp
  | increment stays arg _ hv' ih =>
    obtain ⟨c, rfl, hk, -⟩ := incrementWith_eq hv' (key_next arg) ih.1 ih.2 hlimit
    rw [← hk]
    refine ⟨nodup_pushed ih.1 limit c, ?_⟩
    rw [List.length_cons, List.length_take]
    omega
  | merge _ _ hm ihv ihw =>
    obtain ⟨d, hd, rfl⟩ := mem_take_merged ihv.1 ihw.1 hm
    refine ⟨hd.nodup.sublist ((List.take_sublist _ _).map key), ?_⟩
    rw [List.length_take]
    omega

/-! ## The merged vector -/

theorem merge_eq_arrange (limit : ℕ) (hv : (v.map key).Nodup) (hw : (w.map key).Nodup)
    (hfit : fits v w = true) :
    merge limit v w = some ((arrange v w).take limit) := by
  obtain ⟨d, hd, hmerged⟩ := exists_merged hv hw hfit
  rw [merge, hd, Option.map_some, truncate_eq_take, mergeAll_eq_arrange hv hw hd hmerged]

/-- The comparison with a vector that is no longer turns on one direction only. -/
theorem compare_of_ge (hm : (m.map key).Nodup) (hu : (u.map key).Nodup)
    (hlen : u.length ≤ m.length) :
    (compare limit m u = .greaterThan ∨ compare limit m u = .equal) ↔
      Below (kept limit u m) (kept limit m u) := by
  rcases hlen.lt_or_eq with hlt | heq
  · rw [compare_of_gt limit hm hu hlt]
    split_ifs with h <;> simp [h]
  · rw [compare_of_le limit hm hu heq.ge, ordinary_eq_greaterThan_iff, ordinary_eq_equal_iff]
    tauto

/-- A vector whose clocks are all merged is superseded when the cuts say so. -/
theorem compare_take_iff (hu : (u.map key).Nodup) (hlen : u.length ≤ limit)
    (hd : (d.map key).Nodup) (hbelow : Below u d) :
    (compare limit (d.take limit) u = .greaterThan ∨ compare limit (d.take limit) u = .equal) ↔
      Recognized limit u (d.take limit) := by
  have hm : ((d.take limit).map key).Nodup := hd.sublist ((List.take_sublist _ _).map key)
  have hle : u.length ≤ (d.take limit).length := by
    have := hbelow.length_le hu
    rw [List.length_take]
    omega
  rw [compare_of_ge hm hu hle, Recognized]
  exact hbelow.restrict_iff hd (kept_sublist limit u _).subset
    ((kept_sublist limit _ u).trans (List.take_sublist limit d)).subset

/-- Below the limit every vector is recognised. -/
theorem recognized_of_lt (hbelow : Below u d) (hu : (u.map key).Nodup) (hlt : d.length < limit) :
    Recognized limit u (d.take limit) := by
  have hle := hbelow.length_le hu
  rw [List.take_of_length_le hlt.le, Recognized, kept_of_lt hlt, kept_of_lt (by omega)]
  exact hbelow.keys_subset

theorem superseded_iff_recognized (hv : (v.map key).Nodup) (hw : (w.map key).Nodup)
    (hlv : v.length ≤ limit) (hlw : w.length ≤ limit) :
    Superseded limit v w ↔
      fits v w = true ∧ Recognized limit v ((arrange v w).take limit) ∧
        Recognized limit w ((arrange v w).take limit) := by
  cases hfit : fits v w with
  | false =>
    refine iff_of_false ?_ (by simp)
    rintro ⟨m, hm, -⟩
    rw [merge, mergeAll_eq_none hv hw hfit] at hm
    cases hm
  | true =>
    have hmerge := merge_eq_arrange limit hv hw hfit
    have hmerged := merged_arrange hv hw hfit
    rw [and_iff_right rfl, ← compare_take_iff hv hlv hmerged.nodup (hmerged.below hv hw),
      ← compare_take_iff hw hlw hmerged.nodup (hmerged.swap.below hw hv), Superseded, hmerge]
    simp

/-- A merge that leaves room supersedes its inputs. -/
theorem superseded_of_room (hv : (v.map key).Nodup) (hw : (w.map key).Nodup)
    (hfit : fits v w = true) (hroom : (standing v w).length + (news v w).length < limit) :
    Superseded limit v w := by
  have hmerged := merged_arrange hv hw hfit
  rw [← (shuffle_arrange hv hw hfit).length_eq] at hroom
  have hbv := hmerged.below hv hw
  have hbw := hmerged.swap.below hw hv
  exact (superseded_iff_recognized hv hw ((hbv.length_le hv).trans hroom.le)
    ((hbw.length_le hw).trans hroom.le)).mpr
    ⟨hfit, recognized_of_lt hbv hv hroom, recognized_of_lt hbw hw hroom⟩

/-! ## The cuts, by the ages -/

/-- `compare` cuts `u` at this clock, if the merged vector is full: of the clocks of `u` whose ages
are those of the older half, it is the most recent one. -/
def cutsAt (limit : ℕ) (v w u : List C) (c : C) : Bool :=
  limit - limit / 2 ≤ age v w c && age v w c < limit &&
    u.all fun d => age v w d < limit - limit / 2 || age v w c ≤ age v w d

/-- The age from which on `compare` looks at no clock of the merged vector: that of the first clock
in the older half of a full `u` which neither vector has a greater one for and which is not
evicted. -/
def horizon (limit : ℕ) (v w u : List C) : ℕ :=
  let older := if limit ≤ u.length then u.drop (u.length - limit / 2) else []
  match older.find? fun c => !outdated v c && !outdated w c && age v w c < limit with
  | some c => age v w c
  | none => limit

/-- The clocks of `u` in front of its cut come in front of the horizon. -/
def InSight (limit : ℕ) (v w u : List C) : Prop :=
  ∀ c ∈ u.takeWhile fun c => !cutsAt limit v w u c, age v w c < horizon limit v w u

instance decidableInSight (limit : ℕ) (v w u : List C) : Decidable (InSight limit v w u) :=
  inferInstanceAs (Decidable (∀ c ∈ u.takeWhile fun c => !cutsAt limit v w u c,
    age v w c < horizon limit v w u))

theorem takeWhile_congr {α : Type} {p q : α → Bool} {l : List α} (h : ∀ x ∈ l, p x = q x) :
    l.takeWhile p = l.takeWhile q := by
  induction l with
  | nil => rfl
  | cons x l ih =>
    rw [List.takeWhile_cons, List.takeWhile_cons, h x (by simp),
      ih fun y hy => h y (by simp [hy])]

section arranged

variable (hv : (v.map key).Nodup) (hw : (w.map key).Nodup) (hfit : fits v w = true)
  (hu : ∀ c ∈ u, c ∈ v ∨ c ∈ w)
include hv hw hfit hu

/-- The merged vector has the keys of `u`, with clocks that are no smaller. -/
theorem any_key_iff {x : C} (hx : x ∈ arrange v w) :
    (u.any fun d => key d = key x && !clockLessThan x d) = true ↔ ∃ d ∈ u, key d = key x := by
  have hmax := ((merged_arrange hv hw hfit).mem_iff x).mp hx
  simp only [List.any_eq_true, Bool.and_eq_true, decide_eq_true_eq, Bool.not_eq_true']
  constructor
  · rintro ⟨d, hd, hk, -⟩
    exact ⟨d, hd, hk⟩
  · rintro ⟨d, hd, hk⟩
    exact ⟨d, hd, hk, hmax.2 d (hu d hd) hk⟩

/-- The cut, by a clock of the older half that no more recent one is a match before. -/
theorem cutsAt_iff {x : C} (hx : x ∈ arrange v w) (hfirst : limit - limit / 2 ≤ age v w x)
    (hlast : age v w x < limit) (hmatch : ∃ d ∈ u, key d = key x)
    (hleast : ∀ y ∈ arrange v w, limit - limit / 2 ≤ age v w y → age v w y < limit →
      (∃ d ∈ u, key d = key y) → age v w x ≤ age v w y) (hc : c ∈ u) :
    cutsAt limit v w u c = true ↔ key c = key x := by
  obtain ⟨z, hz, hzk, hzage⟩ := exists_mem_arrange hv hw hfit (hu c hc)
  simp only [cutsAt, Bool.and_eq_true, decide_eq_true_eq, List.all_eq_true, Bool.or_eq_true]
  constructor
  · rintro ⟨⟨hcfirst, hclast⟩, hall⟩
    obtain ⟨d, hd, hdk⟩ := hmatch
    have hdage := age_congr v w hdk
    have hle := hleast z hz (hzage ▸ hcfirst) (hzage ▸ hclast) ⟨c, hc, hzk.symm⟩
    have hge := (hall d hd).resolve_left (by omega)
    -- one age, one clock
    have hxz : age v w z = age v w x := by omega
    have hzget := (getElem_arrange_iff hv hw hfit).mpr ⟨hz, hxz⟩
    rw [(getElem_arrange_iff hv hw hfit).mpr ⟨hx, rfl⟩, Option.some_inj] at hzget
    rw [← hzk, hzget]
  · intro hk
    rw [age_congr v w hk]
    refine ⟨⟨hfirst, hlast⟩, fun d hd => ?_⟩
    obtain ⟨y, hy, hyk, hyage⟩ := exists_mem_arrange hv hw hfit (hu d hd)
    by_contra hnot
    have hle := hleast y hy (by omega) (by omega) ⟨d, hd, hyk.symm⟩
    omega

/-- Where a vector is cut by the merged one. -/
theorem kept_eq_takeWhile (hfull : limit ≤ (arrange v w).length) :
    kept limit u ((arrange v w).take limit) = u.takeWhile fun c => !cutsAt limit v w u c := by
  have hlength : ((arrange v w).take limit).length = limit := by
    rw [List.length_take, min_eq_left hfull]
  rw [kept, cutClock, if_pos hlength.ge, hlength]
  cases hfind : (((arrange v w).take limit).drop (limit - limit / 2)).find? fun x =>
      u.any fun d => key d = key x && !clockLessThan x d with
  | none =>
    rw [List.find?_eq_none] at hfind
    refine (List.takeWhile_eq_self_iff.mpr fun c hc => ?_).symm
    by_contra hcut
    obtain ⟨x, hx, hk, hage⟩ := exists_mem_arrange hv hw hfit (hu c hc)
    simp only [cutsAt, Bool.not_eq_true', Bool.not_eq_false, Bool.and_eq_true, decide_eq_true_eq]
      at hcut
    have hslice := (mem_slice_iff hv hw hfit hx (limit - limit / 2) limit).mpr (hage ▸ hcut.1)
    exact hfind x hslice ((any_key_iff hv hw hfit hu hx).mpr ⟨c, hc, hk.symm⟩)
  | some x =>
    obtain ⟨hmatch, before, behind, hsplit, hbefore⟩ := List.find?_eq_some_iff_append.mp hfind
    have hslice : x ∈ ((arrange v w).take limit).drop (limit - limit / 2) := by simp [hsplit]
    have hx := List.mem_of_mem_take (List.mem_of_mem_drop hslice)
    obtain ⟨hfirst, hlast⟩ := (mem_slice_iff hv hw hfit hx _ _).mp hslice
    have hleast : ∀ y ∈ arrange v w, limit - limit / 2 ≤ age v w y → age v w y < limit →
        (∃ d ∈ u, key d = key y) → age v w x ≤ age v w y := by
      intro y hy hyfirst hylast hymatch
      have hyslice := (mem_slice_iff hv hw hfit hy _ _).mpr ⟨hyfirst, hylast⟩
      have hages := (pairwise_age hv hw hfit).sublist
        ((List.drop_sublist (limit - limit / 2) _).trans (List.take_sublist limit _))
      rw [hsplit] at hyslice hages
      rcases List.mem_append.mp hyslice with hyb | hyb
      · have hyb := hbefore y hyb
        rw [(any_key_iff hv hw hfit hu hy).mpr hymatch] at hyb
        cases hyb
      · rcases List.mem_cons.mp hyb with rfl | hyb
        · exact le_rfl
        · exact (List.rel_of_pairwise_cons (List.pairwise_append.mp hages).2.1 hyb).le
    refine takeWhile_congr fun c hc => ?_
    rw [Bool.eq_iff_iff, decide_eq_true_eq, Bool.not_eq_true', Bool.eq_false_iff, ne_eq, ne_eq,
      cutsAt_iff hv hw hfit hu hx hfirst hlast ((any_key_iff hv hw hfit hu hx).mp hmatch) hleast hc]

/-- The merged vector is cut at a clock of `u` that both vectors have up to date and that is not
evicted. -/
theorem any_clock_eq (hc : c ∈ u) :
    (((arrange v w).take limit).any fun d => key d = key c && !clockLessThan c d) =
      (!outdated v c && !outdated w c && decide (age v w c < limit)) := by
  have hmerged := merged_arrange hv hw hfit
  obtain ⟨x, hx, hk, hage⟩ := exists_mem_arrange hv hw hfit (hu c hc)
  have hmax := (hmerged.mem_iff x).mp hx
  rw [Bool.eq_iff_iff]
  simp only [List.any_eq_true, Bool.and_eq_true, decide_eq_true_eq, Bool.not_eq_true']
  constructor
  · rintro ⟨d, hd, hdk, hlt⟩
    have hdx : d = x := List.inj_on_of_nodup_map hmerged.nodup (List.mem_of_mem_take hd) hx
      (hdk.trans hk.symm)
    rw [hdx] at hd hlt
    -- the merged clock is that of `u` itself
    obtain rfl : x = c := ClockOps.eq_of_not_lessThan x c hk (hmax.2 c (hu c hc) hk.symm) hlt
    have hfresh : ∀ l, (∀ y ∈ l, y ∈ v ∨ y ∈ w) → outdated l x = false := by
      intro l hl
      rw [Bool.eq_false_iff, ne_eq, outdated_iff]
      rintro ⟨y, hy, hyk, hylt⟩
      rw [hmax.2 y (hl y hy) hyk] at hylt
      cases hylt
    exact ⟨⟨hfresh v fun _ => Or.inl, hfresh w fun _ => Or.inr⟩,
      (mem_take_iff hv hw hfit hx limit).mp hd⟩
  · rintro ⟨⟨hv', hw'⟩, hlast⟩
    refine ⟨x, (mem_take_iff hv hw hfit hx limit).mpr (hage ▸ hlast), hk, ?_⟩
    by_contra hlt
    have hlt := Bool.eq_true_of_not_eq_false hlt
    rcases hmax.1 with hxv | hxw
    · rw [outdated_iff.mpr ⟨x, hxv, hk, hlt⟩] at hv'
      cases hv'
    · rw [outdated_iff.mpr ⟨x, hxw, hk, hlt⟩] at hw'
      cases hw'

omit hu in
/-- The clocks in front of one that is not evicted. -/
theorem mem_takeWhile_iff {f : C} (hf : f ∈ v ∨ f ∈ w) (hlast : age v w f < limit)
    (hc : c ∈ v ∨ c ∈ w) :
    key c ∈ (((arrange v w).take limit).takeWhile fun d => key d ≠ key f).map key ↔
      age v w c < age v w f := by
  have hmerged := merged_arrange hv hw hfit
  obtain ⟨x, hx, hk, hage⟩ := exists_mem_arrange hv hw hfit hf
  obtain ⟨y, hy, hyk, hyage⟩ := exists_mem_arrange hv hw hfit hc
  have hages := (pairwise_age hv hw hfit).sublist (List.take_sublist limit _)
  have hnodup := hmerged.nodup.sublist ((List.take_sublist limit _).map key)
  have hxmem := (mem_take_iff hv hw hfit hx limit).mpr (hage ▸ hlast)
  have hymem := mem_take_iff hv hw hfit hy limit
  obtain ⟨a, b, hab⟩ := List.append_of_mem hxmem
  rw [hab] at hages hnodup hymem ⊢
  rw [takeWhile_of_nodup hnodup hk]
  obtain ⟨-, hbehind, hfront⟩ := List.pairwise_append.mp hages
  constructor
  · intro hmem
    obtain ⟨z, hz, hzk⟩ := List.mem_map.mp hmem
    have hlt := hfront z hz x (by simp)
    rwa [age_congr v w hzk, hage] at hlt
  · intro hlt
    rcases List.mem_append.mp (hymem.mpr (by omega)) with hya | hyb
    · exact List.mem_map.mpr ⟨y, hya, hyk⟩
    · rcases List.mem_cons.mp hyb with rfl | hyb
      · omega
      · have := List.rel_of_pairwise_cons hbehind hyb
        omega

/-- The keys in front of the cut of the merged vector. -/
theorem mem_kept_iff (hc : c ∈ v ∨ c ∈ w) :
    key c ∈ (kept limit ((arrange v w).take limit) u).map key ↔
      age v w c < horizon limit v w u := by
  have hcut : cutClock limit ((arrange v w).take limit) u =
      (if limit ≤ u.length then u.drop (u.length - limit / 2) else []).find? fun c =>
        !outdated v c && !outdated w c && decide (age v w c < limit) := by
    rw [cutClock]
    split_ifs
    · exact List.find?_congr fun c hc => any_clock_eq hv hw hfit hu (List.mem_of_mem_drop hc)
    · rfl
  rw [kept, hcut, horizon]
  cases hfind : (if limit ≤ u.length then u.drop (u.length - limit / 2) else []).find? fun c =>
      !outdated v c && !outdated w c && decide (age v w c < limit) with
  | none =>
    obtain ⟨y, hy, hyk, hyage⟩ := exists_mem_arrange hv hw hfit hc
    simp only
    rw [← hyage, ← mem_take_iff hv hw hfit hy, ← hyk]
    have hinj := List.inj_on_of_nodup_map (merged_arrange hv hw hfit).nodup
    constructor
    · intro hmem
      obtain ⟨z, hz, hzk⟩ := List.mem_map.mp hmem
      rwa [← hinj (List.mem_of_mem_take hz) hy hzk]
    · exact List.mem_map_of_mem
  | some f =>
    have hf : f ∈ u := by
      have hmem := List.mem_of_find?_eq_some hfind
      split_ifs at hmem
      · exact List.mem_of_mem_drop hmem
      · cases hmem
    have hfresh := List.find?_some hfind
    rw [Bool.and_eq_true, decide_eq_true_eq] at hfresh
    simp only
    exact mem_takeWhile_iff hv hw hfit (hu f hf) hfresh.2 hc

theorem recognized_iff_inSight (hnodup : (u.map key).Nodup) (hbelow : Below u (arrange v w)) :
    Recognized limit u ((arrange v w).take limit) ↔ InSight limit v w u := by
  by_cases hfull : limit ≤ (arrange v w).length
  · rw [Recognized, kept_eq_takeWhile hv hw hfit hu hfull, InSight]
    have hmem : ∀ c ∈ u.takeWhile fun c => !cutsAt limit v w u c, c ∈ v ∨ c ∈ w :=
      fun c hc => hu c (List.takeWhile_subset _ hc)
    constructor
    · exact fun h c hc =>
        (mem_kept_iff hv hw hfit hu (hmem c hc)).mp (h (List.mem_map_of_mem hc))
    · intro h k hk
      obtain ⟨c, hc, rfl⟩ := List.mem_map.mp hk
      exact (mem_kept_iff hv hw hfit hu (hmem c hc)).mpr (h c hc)
  · rw [not_le] at hfull
    refine iff_of_true (recognized_of_lt hbelow hnodup hfull) fun c hc => ?_
    have hle := hbelow.length_le hnodup
    obtain ⟨y, hy, -, hyage⟩ := exists_mem_arrange hv hw hfit (hu c (List.takeWhile_subset _ hc))
    have hlt := List.getElem?_eq_some_iff.mp ((getElem_arrange_iff hv hw hfit).mpr ⟨hy, hyage⟩)
    rw [horizon, if_neg (by omega)]
    exact hlt.1.trans hfull

end arranged

/-- A merge supersedes its inputs exactly when its positions stay inside the deque, and in either
input the clocks in front of the cut are of lesser ages than the horizon. -/
theorem superseded_iff [IncrementOps C] (limit : ℕ) (hlimit : 0 < limit) (v w : List C)
    (hv : Reached limit v) (hw : Reached limit w) :
    Superseded limit v w ↔
      fits v w = true ∧ InSight limit v w v ∧ InSight limit v w w := by
  obtain ⟨hv, hlv⟩ := hv.bounded hlimit
  obtain ⟨hw, hlw⟩ := hw.bounded hlimit
  rw [superseded_iff_recognized hv hw hlv hlw]
  refine and_congr_right fun hfit => ?_
  have hmerged := merged_arrange hv hw hfit
  rw [recognized_iff_inSight hv hw hfit (fun _ => Or.inl) hv (hmerged.below hv hw),
    recognized_iff_inSight hv hw hfit (fun _ => Or.inr) hw (hmerged.swap.below hw hv)]

/-! ### Increments only -/

/-- The vector after some increments, no iterator having stayed. -/
def incrementAll [IncrementOps C] (limit : ℕ) (args : List (Argument C)) : Option (List C) :=
  args.foldlM (fun clocks arg => increment false limit arg clocks) []

theorem reached_incrementAll [IncrementOps C] {limit : ℕ} (args : List (Argument C))
    (h : incrementAll limit args = some v) : Reached limit v := by
  rw [incrementAll] at h
  induction args using List.reverseRecOn generalizing v with
  | nil =>
    obtain rfl : [] = v := Option.some.inj h
    exact .empty
  | append_singleton args arg ih =>
    rw [List.foldlM_append] at h
    obtain ⟨w, hw, hv⟩ := Option.bind_eq_some_iff.mp h
    rw [List.foldlM_cons] at hv
    obtain ⟨v', hv', hv⟩ := Option.bind_eq_some_iff.mp hv
    obtain rfl : v' = v := Option.some.inj hv
    exact .increment false arg (ih hw) hv'

/-- Two full vectors without a common key: half of the clocks are evicted. -/
theorem superseded_iff_four :
    let v : List (VersionClock ℕ) := [⟨4, 1⟩, ⟨3, 1⟩, ⟨2, 1⟩, ⟨1, 1⟩]
    let w : List (VersionClock ℕ) := [⟨8, 1⟩, ⟨7, 1⟩, ⟨6, 1⟩, ⟨5, 1⟩]
    Superseded 4 v w := by
  intro v w
  have hv : Reached 4 v := reached_incrementAll ([1, 2, 3, 4] : List ℕ) (by decide)
  have hw : Reached 4 w := reached_incrementAll ([5, 6, 7, 8] : List ℕ) (by decide)
  exact (superseded_iff 4 (by decide) v w hv hw).mpr (by decide)

/-- The merge leaves the clocks of the second vector in another order, and the cut of the
second vector spares a clock that the cut of the merged one does not. -/
theorem merged_less_than_input :
    let v : List (VersionClock ℕ) := [⟨0, 1⟩, ⟨1, 1⟩]
    let w : List (VersionClock ℕ) := [⟨1, 1⟩, ⟨2, 1⟩, ⟨0, 1⟩, ⟨3, 1⟩]
    let m : List (VersionClock ℕ) := [⟨0, 1⟩, ⟨1, 1⟩, ⟨2, 1⟩, ⟨3, 1⟩]
    Reached 4 v ∧ Reached 4 w ∧ merge 4 v w = some m ∧ SameClocks m w ∧
      compare 4 m w = .lessThan ∧ ¬Superseded 4 v w := by
  intro v w m
  have hv : Reached 4 v := reached_incrementAll ([1, 0] : List ℕ) (by decide)
  have hw : Reached 4 w := reached_incrementAll ([3, 0, 2, 1] : List ℕ) (by decide)
  have hmerge : merge 4 v w = some m := by decide
  have hless : compare 4 m w = .lessThan := by decide
  refine ⟨hv, hw, hmerge, (sameClocks_iff (by decide) (by decide)).mpr (by decide), hless, ?_⟩
  rintro ⟨m', hm', -, hgt⟩
  obtain rfl : m = m' := Option.some.inj (hmerge.symm.trans hm')
  rw [hless] at hgt
  simp at hgt

end BoundedVector

end Turbolib
