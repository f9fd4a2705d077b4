import Turbolib.VectorClock.Mirror

/-!
# Incrementing a key

`increment` puts the next clock of a key in front and drops the oldest clock of a full
vector. The vector it leaves is newer than the one before: where the oldest clock is
lost, both vectors are cut in front of it. It erases the older clock of the key through
an iterator that was found before the push, which no longer has to point there.
-/

namespace Turbolib

namespace BoundedVector

variable {C K : Type} [ClockOps C K] [DecidableEq K]

/-- The text the two `increment`s share: `first` is the first clock of a key, and `next`
the clock that follows an older one. `push_front` invalidates the iterator to the clock
found. `stays` says whether it points there all the same, which depends on the blocks
that the deque has left in front; if not, the effect of `erase` is undefined. -/
def incrementWith (first : C) (next : C → C) (stays : Bool) (limit : ℕ) (clocks : List C) :
    Option (List C) :=
  let clocks :=
    match find clocks first with
    | none => some (first :: clocks)
    | some (i, it) => if stays then some (next it :: clocks.eraseIdx i) else none
  clocks.map fun clocks => if clocks.length > limit then clocks.dropLast else clocks

end BoundedVector

/-- `bounded_version_vector::increment`. -/
def VersionClock.increment {K : Type} [DecidableEq K] (stays : Bool) (limit : ℕ) (k : K)
    (clocks : List (VersionClock K)) : Option (List (VersionClock K)) :=
  BoundedVector.incrementWith ⟨k, 1⟩ (fun it => ⟨k, it.count + 1⟩) stays limit clocks

/-- `bounded_time_vector::increment(key, time)`. -/
def TimeClock.increment {K : Type} [DecidableEq K] (stays : Bool) (limit : ℕ) (k : K)
    (time : UInt64) (clocks : List (TimeClock K)) : Option (List (TimeClock K)) :=
  BoundedVector.incrementWith ⟨k, time, 0⟩
    (fun it => if time ≤ it.time then ⟨k, it.time, it.count + 1⟩ else ⟨k, time, 0⟩)
    stays limit clocks

namespace BoundedVector

variable {C K : Type} [ClockOps C K] [DecidableEq K] {v : List C} {c d x : C} {k : K} {limit : ℕ}

/-- The clocks of the other keys. -/
def others (k : K) (v : List C) : List C := v.filter fun d => key d ≠ k

@[simp] theorem mem_others : d ∈ others k v ↔ d ∈ v ∧ key d ≠ k := by
  simp [others]

theorem others_cons_of_eq (h : key d = k) : others k (d :: v) = others k v :=
  List.filter_cons_of_neg (by simpa using h)

theorem others_cons_of_ne (h : key d ≠ k) : others k (d :: v) = d :: others k v :=
  List.filter_cons_of_pos (by simpa using h)

theorem others_of_ne (h : ∀ d ∈ v, key d ≠ k) : others k v = v :=
  List.filter_eq_self.mpr (by simpa using h)

/-- With distinct keys one clock at most is left out. -/
theorem length_le_others (hv : (v.map key).Nodup) : v.length ≤ (others k v).length + 1 := by
  induction v with
  | nil => simp
  | cons d v ih =>
    rw [List.map_cons, List.nodup_cons] at hv
    by_cases hd : key d = k
    · have hne : ∀ e ∈ v, key e ≠ k := by
        intro e he hek
        exact hv.1 (List.mem_map.mpr ⟨e, he, hek.trans hd.symm⟩)
      rw [others_cons_of_eq hd, others_of_ne hne]
      rfl
    · have := ih hv.2
      rw [others_cons_of_ne hd, List.length_cons, List.length_cons]
      omega

theorem nodup_others (hv : (v.map key).Nodup) : ((others k v).map key).Nodup :=
  hv.sublist (List.filter_sublist.map key)

theorem eraseIdx_find (hv : (v.map key).Nodup) {i : ℕ} (h : find v c = some (i, x)) :
    v.eraseIdx i = others (key c) v := by
  obtain ⟨a, b, rfl, rfl, hk, ha⟩ := find_eq_some_iff.mp h
  have hb : ∀ e ∈ b, key e ≠ key c := by
    intro e he hek
    rw [List.map_append, List.nodup_append, List.map_cons, List.nodup_cons] at hv
    exact hv.2.1.1 (List.mem_map.mpr ⟨e, he, hek.trans hk.symm⟩)
  rw [List.eraseIdx_append_of_length_le le_rfl, Nat.sub_self, List.eraseIdx_zero, others,
    List.filter_append, List.filter_cons_of_neg (by simpa using hk), ← others, ← others,
    others_of_ne ha, others_of_ne hb]
  rfl

/-- A vector that has a clock too many loses the oldest one. -/
theorem trim_eq (hlimit : 0 < limit) (hlen : v.length ≤ limit) :
    (if (c :: v).length > limit then (c :: v).dropLast else c :: v) = c :: v.take (limit - 1) := by
  split_ifs with hgt
  · have hfull : (c :: v).length - 1 = limit - 1 + 1 := by
      rw [List.length_cons] at hgt ⊢
      omega
    rw [List.dropLast_eq_take, hfull, List.take_succ_cons]
  · rw [List.take_of_length_le]
    rw [List.length_cons] at hgt
    omega

/-- What `increment` leaves before it looks at the limit: the key in front, and behind it
the other clocks as they were. -/
theorem incrementWith_cases {first : C} {next : C → C} {stays : Bool} {v' : List C}
    (hv' : incrementWith first next stays limit v = some v')
    (hnext : ∀ it, key (next it) = key first) (hv : (v.map key).Nodup) :
    ∃ c, v' = (if (c :: others (key first) v).length > limit
        then (c :: others (key first) v).dropLast else c :: others (key first) v) ∧
      key c = key first ∧
      ((∀ d ∈ v, key d ≠ key first) ∧ c = first ∨ ∃ it ∈ v, key it = key first ∧ c = next it) := by
  rw [incrementWith] at hv'
  cases hfind : find v first with
  | none =>
    have hne := find_eq_none_iff.mp hfind
    rw [hfind, Option.map_some, Option.some_inj] at hv'
    exact ⟨first, by rw [others_of_ne hne, hv'], rfl, Or.inl ⟨hne, rfl⟩⟩
  | some it =>
    obtain ⟨i, x⟩ := it
    obtain ⟨a, b, hab, -, hk, -⟩ := find_eq_some_iff.mp hfind
    simp only [hfind, eraseIdx_find hv hfind] at hv'
    split_ifs at hv'
    · rw [Option.map_some, Option.some_inj] at hv'
      exact ⟨next x, hv'.symm, hnext x, Or.inr ⟨x, by simp [hab], hk, rfl⟩⟩
    · cases hv'

/-- With no more clocks than the limit, the oldest one is lost if there is no room. -/
theorem incrementWith_eq {first : C} {next : C → C} {stays : Bool} {v' : List C}
    (hv' : incrementWith first next stays limit v = some v')
    (hnext : ∀ it, key (next it) = key first) (hv : (v.map key).Nodup) (hlen : v.length ≤ limit)
    (hlimit : 0 < limit) :
    ∃ c, v' = c :: (others (key first) v).take (limit - 1) ∧ key c = key first ∧
      ((∀ d ∈ v, key d ≠ key first) ∧ c = first ∨ ∃ it ∈ v, key it = key first ∧ c = next it) := by
  obtain ⟨c, hc, hrest⟩ := incrementWith_cases hv' hnext hv
  have hothers : (others (key first) v).length ≤ limit := (List.length_filter_le _ _).trans hlen
  exact ⟨c, by rw [hc, trim_eq hlimit hothers], hrest⟩

/-- `increment` has a result unless it erases through an iterator that has not stayed. -/
theorem incrementWith_isSome {first : C} {next : C → C} {stays : Bool} :
    (incrementWith first next stays limit v).isSome = true ↔
      stays = true ∨ ∀ d ∈ v, key d ≠ key first := by
  rw [incrementWith, Option.isSome_map]
  cases hfind : find v first with
  | none => exact iff_of_true rfl (Or.inr (find_eq_none_iff.mp hfind))
  | some it =>
    have hfound : ¬∀ d ∈ v, key d ≠ key first := by
      rw [← find_eq_none_iff, hfind]
      simp
    rw [or_iff_left hfound]
    cases stays <;> simp

/-! ## A newer clock in front -/

/-- `v` with `c` in front, where `increment` has trimmed it. -/
def pushed (limit : ℕ) (c : C) (v : List C) : List C := c :: (others (key c) v).take (limit - 1)

theorem takeWhile_others {p : C → Bool} (h : ∀ d, p d = false → key d ≠ k) (v : List C) :
    others k (v.takeWhile p) = (others k v).takeWhile p := by
  induction v with
  | nil => rfl
  | cons d v ih =>
    cases hp : p d with
    | true =>
      rw [List.takeWhile_cons_of_pos hp]
      by_cases hd : key d = k
      · rw [others_cons_of_eq hd, others_cons_of_eq hd, ih]
      · rw [others_cons_of_ne hd, others_cons_of_ne hd, List.takeWhile_cons_of_pos hp, ih]
    | false =>
      rw [others_cons_of_ne (h d hp), List.takeWhile_cons_of_neg (by simp [hp]),
        List.takeWhile_cons_of_neg (by simp [hp])]
      rfl

/-- The first clocks of the other keys come one place further down at most. -/
theorem take_others_subset (hv : (v.map key).Nodup) (m : ℕ) :
    (others k v).take m ⊆ v.take (m + 1) := by
  rcases Nat.lt_or_ge v.length (m + 1) with hlt | hge
  · rw [List.take_of_length_le hlt.le]
    exact fun d hd => (mem_others.mp (List.mem_of_mem_take hd)).1
  · have hsplit : others k v = others k (v.take (m + 1)) ++ others k (v.drop (m + 1)) := by
      rw [others, others, others, ← List.filter_append, List.take_append_drop]
    have hlen := length_le_others (k := k) (hv.sublist ((List.take_sublist (m + 1) v).map key))
    rw [List.length_take_of_le hge] at hlen
    rw [hsplit, List.take_append_of_le_length (by omega)]
    exact fun d hd => (mem_others.mp (List.mem_of_mem_take hd)).1

section newer

variable (hv : (v.map key).Nodup)
include hv

theorem nodup_pushed (limit : ℕ) (c : C) : ((pushed limit c v).map key).Nodup := by
  rw [pushed, List.map_cons, List.nodup_cons]
  refine ⟨fun hk => ?_, (nodup_others hv).sublist ((List.take_sublist _ _).map key)⟩
  obtain ⟨d, hd, hdk⟩ := List.mem_map.mp hk
  exact (mem_others.mp (List.mem_of_mem_take hd)).2 hdk

theorem length_le_pushed (hlen : v.length ≤ limit) : v.length ≤ (pushed limit c v).length := by
  have := length_le_others (k := key c) hv
  rw [pushed, List.length_cons, List.length_take]
  omega

/-- A full vector cuts the older one in front of the clock that begins its older half. -/
theorem mem_kept_old (hlimit : 2 ≤ limit) (hfull : limit ≤ (pushed limit c v).length)
    (hd : d ∈ kept limit v (pushed limit c v)) (hk : key d ≠ key c) :
    d ∈ (others (key c) v).take (limit - limit / 2 - 1) := by
  have hroom : limit - 1 ≤ (others (key c) v).length := by
    rw [pushed, List.length_cons, List.length_take] at hfull
    omega
  obtain ⟨x, r, hx⟩ : ∃ x r, (others (key c) v).drop (limit - limit / 2 - 1) = x :: r := by
    cases hdrop : (others (key c) v).drop (limit - limit / 2 - 1) with
    | nil =>
      rw [List.drop_eq_nil_iff] at hdrop
      omega
    | cons x r => exact ⟨x, r, rfl⟩
  have hsplit : others (key c) v = (others (key c) v).take (limit - limit / 2 - 1) ++ x :: r := by
    rw [← hx, List.take_append_drop]
  have hxv : x ∈ v ∧ key x ≠ key c := by
    rw [← mem_others, hsplit]
    exact List.mem_append_right _ List.mem_cons_self
  -- the older half of the full vector begins with `x`
  have hcut : cutClock limit v (pushed limit c v) = some x := by
    have hlast : (pushed limit c v).length = limit := by
      rw [pushed, List.length_cons, List.length_take]
      omega
    have hhalf : (pushed limit c v).drop (limit - limit / 2) =
        x :: r.take (limit - 1 - (limit - limit / 2 - 1) - 1) := by
      obtain ⟨m, hm⟩ : ∃ m, limit - limit / 2 = m + 1 := ⟨limit - limit / 2 - 1, by omega⟩
      rw [hm, Nat.add_sub_cancel] at hx
      obtain ⟨j, hj⟩ : ∃ j, limit - 1 - m = j + 1 := ⟨limit - 1 - m - 1, by omega⟩
      rw [hm, pushed, List.drop_succ_cons, List.drop_take, hx, Nat.add_sub_cancel, hj,
        List.take_succ_cons, Nat.add_sub_cancel]
    rw [cutClock, if_pos hfull, hlast, hhalf, List.find?_cons_of_pos]
    rw [List.any_eq_true]
    exact ⟨x, hxv.1, by simp [ClockOps.lessThan_irrefl]⟩
  have hothers : d ∈ others (key c) (kept limit v (pushed limit c v)) := mem_others.mpr ⟨hd, hk⟩
  have hfront : ∀ e ∈ (others (key c) v).take (limit - limit / 2 - 1), key e ≠ key x := by
    have hn := nodup_others (k := key c) hv
    rw [hsplit] at hn
    exact key_ne_of_nodup hn
  have hkept : kept limit v (pushed limit c v) = v.takeWhile fun e => key e ≠ key x := by
    rw [kept, hcut]
  have hkey : ∀ e : C, decide (key e ≠ key x) = false → key e ≠ key c := by
    intro e he
    rw [decide_eq_false_iff_not, not_not] at he
    rw [he]
    exact hxv.2
  have htake : ((others (key c) v).takeWhile fun e => key e ≠ key x) =
      (others (key c) v).take (limit - limit / 2 - 1) := by
    conv_lhs => rw [hsplit]
    rw [List.takeWhile_append_of_pos (by simpa using hfront),
      List.takeWhile_cons_of_neg (by simp), List.append_nil]
  rwa [hkept, takeWhile_others hkey, htake] at hothers

/-- A full vector does not cut the newer one sooner. -/
theorem mem_kept_new (hold : ∀ d ∈ v, key d = key c → clockLessThan d c = true)
    (hlen : v.length ≤ limit) (hlimit : 2 ≤ limit) (hd : d ∈ pushed limit c v)
    (hfirst : limit ≤ v.length → d = c ∨ d ∈ (others (key c) v).take (limit - limit / 2 - 1)) :
    d ∈ kept limit (pushed limit c v) v := by
  rw [kept]
  cases hcut : cutClock limit (pushed limit c v) v with
  | none => exact hd
  | some x =>
    rw [cutClock] at hcut
    split_ifs at hcut with hfull
    have hlast : v.length = limit := le_antisymm hlen hfull
    have hx := List.mem_of_find?_eq_some hcut
    have hany := List.find?_some hcut
    simp only [List.any_eq_true, Bool.and_eq_true, decide_eq_true_eq, Bool.not_eq_true'] at hany
    obtain ⟨y, hy, hyk, hyx⟩ := hany
    obtain ⟨m, hm⟩ : ∃ m, limit - limit / 2 = m + 1 := ⟨limit - limit / 2 - 1, by omega⟩
    rw [hlast, hm] at hx
    rw [hm, Nat.add_sub_cancel] at hfirst
    -- neither the new clock nor the first of the others has the key of the cut
    have hc : key c ≠ key x := by
      intro hk
      have hyc : y = c := List.inj_on_of_nodup_map (nodup_pushed hv limit c) hy
        (by simp [pushed]) (hyk.trans hk.symm)
      rw [hyc, hold x (List.mem_of_mem_drop hx) hk.symm] at hyx
      exact absurd hyx (by simp)
    have hpre : ∀ e ∈ c :: (others (key c) v).take m, key e ≠ key x := by
      intro e he
      rcases List.mem_cons.mp he with rfl | he
      · exact hc
      · have hsplit := hv
        rw [← List.take_append_drop (m + 1) v, List.map_append, List.nodup_append] at hsplit
        exact hsplit.2.2 _ (List.mem_map_of_mem (take_others_subset hv m he)) _
          (List.mem_map_of_mem hx)
    have hpushed : pushed limit c v = (c :: (others (key c) v).take m) ++
        ((others (key c) v).take (limit - 1)).drop m := by
      rw [pushed, List.cons_append, List.cons.injEq, and_iff_right rfl]
      conv_lhs => rw [← List.take_append_drop m ((others (key c) v).take (limit - 1))]
      rw [List.take_take, min_eq_left (by omega)]
    simp only
    rw [hpushed, List.takeWhile_append_of_pos (by simpa using hpre), List.mem_append]
    left
    rcases hfirst hfull with rfl | hd
    · exact List.mem_cons_self
    · exact List.mem_cons_of_mem _ hd

/-- A vector is less than the one with a newer clock in front. -/
theorem compare_pushed (hold : ∀ d ∈ v, key d = key c → clockLessThan d c = true)
    (hlen : v.length ≤ limit) (hlimit : 2 ≤ limit) :
    compare limit v (pushed limit c v) = .lessThan := by
  have hv' := nodup_pushed hv limit c
  have hle := length_le_pushed (c := c) hv hlen
  have hfront : c ∈ kept limit (pushed limit c v) v :=
    mem_kept_new hv hold hlen hlimit (by simp [pushed]) fun _ => Or.inl rfl
  rw [compare_of_le limit hv hv' hle, ordinary_eq_lessThan_iff]
  constructor
  · intro d hd
    have hdv := (kept_sublist limit v _).subset hd
    by_cases hk : key d = key c
    · refine ⟨c, hfront, hk.symm, ?_⟩
      by_contra hcd
      have := ClockOps.lessThan_trans _ _ _ (hold d hdv hk) (Bool.eq_true_of_not_eq_false hcd)
      rw [ClockOps.lessThan_irrefl] at this
      exact absurd this (by simp)
    · refine ⟨d, mem_kept_new hv hold hlen hlimit ?_ fun hfull => ?_, rfl,
        ClockOps.lessThan_irrefl d⟩
      · have hdo : d ∈ others (key c) v := mem_others.mpr ⟨hdv, hk⟩
        refine List.mem_cons_of_mem _ ?_
        by_cases hroom : (others (key c) v).length ≤ limit - 1
        · rwa [List.take_of_length_le hroom]
        · have hfull : limit ≤ (pushed limit c v).length := by
            rw [pushed, List.length_cons, List.length_take]
            omega
          exact (List.take_subset_take_left _ (by omega)) (mem_kept_old hv hlimit hfull hd hk)
      · exact Or.inr (mem_kept_old hv hlimit (hfull.trans hle) hd hk)
  · intro hbelow
    obtain ⟨d, hd, hk, hdc⟩ := hbelow c hfront
    rw [hold d ((kept_sublist limit v _).subset hd) hk] at hdc
    exact absurd hdc (by simp)

end newer

/-- `increment(k)` has left a vector that is newer than `v`, with `k` in front and behind it
the other clocks as they were, the oldest left out if there was no room. -/
def SeenAsNewer (limit : ℕ) (k : K) (v : List (VersionClock K))
    (result : Option (List (VersionClock K))) : Prop :=
  ∃ v', result = some v' ∧ compare limit v v' = .lessThan ∧ compare limit v' v = .greaterThan ∧
    (v'.map key).Nodup ∧ v'.length ≤ limit ∧
    ∃ c, v' = c :: (others k v).take (limit - 1) ∧ c.key = k

theorem seenAsNewer_of_increment {stays : Bool} {v v' : List (VersionClock K)}
    (hlimit : 2 ≤ limit) (hv : (v.map key).Nodup) (hlen : v.length ≤ limit)
    (hroom : ∀ c ∈ v, c.key = k → c.count.toNat < 2 ^ 32 - 1)
    (hv' : VersionClock.increment stays limit k v = some v') :
    SeenAsNewer limit k v (some v') := by
  obtain ⟨c, hc', hck, hc⟩ : ∃ c, v' = c :: (others k v).take (limit - 1) ∧ key c = k ∧
      ((∀ d ∈ v, key d ≠ k) ∧ c = ⟨k, 1⟩ ∨ ∃ it ∈ v, key it = k ∧ c = ⟨k, it.count + 1⟩) :=
    incrementWith_eq hv' (fun _ => rfl) hv hlen (by omega)
  have hpushed : v' = pushed limit c v := by rw [pushed, hck, hc']
  have hold : ∀ d ∈ v, key d = key c → clockLessThan d c = true := by
    intro d hd hdk
    rcases hc with ⟨hne, -⟩ | ⟨it, hit, hitk, rfl⟩
    · exact absurd (hdk.trans hck) (hne d hd)
    · obtain rfl : d = it := List.inj_on_of_nodup_map hv hd hit (hdk.trans (hck.trans hitk.symm))
      have hlt := hroom d hd (hdk.trans hck)
      change decide (d.count < d.count + 1) = true
      rw [decide_eq_true_eq, UInt32.lt_iff_toNat_lt, UInt32.toNat_add]
      simp only [UInt32.reduceToNat]
      omega
  have hless : compare limit v v' = .lessThan := hpushed ▸ compare_pushed hv hold hlen hlimit
  have hnodup : (v'.map key).Nodup := hpushed ▸ nodup_pushed hv limit c
  have hlen' : v'.length ≤ limit := by
    rw [hpushed, pushed, List.length_cons, List.length_take]
    omega
  refine ⟨v', rfl, hless, ?_, hnodup, hlen', c, hc', hck⟩
  rw [compare_mirror limit hv hnodup hlen hlen', hless]
  rfl

/-- `increment` of a version vector, where the count of the key has room: the vector after
is newer exactly when nothing is erased through an iterator that has not stayed. -/
theorem increment_newer_iff (limit : ℕ) (hlimit : 2 ≤ limit) (v : List (VersionClock K)) (k : K)
    (hv : (v.map key).Nodup) (hlen : v.length ≤ limit)
    (hroom : ∀ c ∈ v, c.key = k → c.count.toNat < 2 ^ 32 - 1) (stays : Bool) :
    SeenAsNewer limit k v (VersionClock.increment stays limit k v) ↔
      stays = true ∨ ∀ c ∈ v, c.key ≠ k := by
  have hresult : (VersionClock.increment stays limit k v).isSome = true ↔
      stays = true ∨ ∀ c ∈ v, c.key ≠ k := incrementWith_isSome
  rw [← hresult]
  constructor
  · rintro ⟨v', hv', -⟩
    rw [hv', Option.isSome_some]
  · intro hsome
    obtain ⟨v', hv'⟩ := Option.isSome_iff_exists.mp hsome
    rw [hv']
    exact seenAsNewer_of_increment hlimit hv hlen hroom hv'

/-- A full vector loses its oldest clock to a new key. -/
theorem increment_newer_iff_two :
    SeenAsNewer 2 7 ([⟨1, 2⟩, ⟨3, 5⟩] : List (VersionClock ℕ))
      (VersionClock.increment false 2 7 [⟨1, 2⟩, ⟨3, 5⟩]) :=
  (increment_newer_iff 2 le_rfl _ 7 (by decide) (by decide) (by decide) false).mpr
    (Or.inr (by decide))

/-- The clock of a key in the middle, erased through an iterator that has not stayed. -/
theorem increment_not_newer :
    ¬SeenAsNewer 10 2 ([⟨3, 12⟩, ⟨2, 12⟩, ⟨1, 12⟩] : List (VersionClock ℕ))
      (VersionClock.increment false 10 2 [⟨3, 12⟩, ⟨2, 12⟩, ⟨1, 12⟩]) := by
  rintro ⟨v', hv', -⟩
  have hnone : VersionClock.increment false 10 2
      ([⟨3, 12⟩, ⟨2, 12⟩, ⟨1, 12⟩] : List (VersionClock ℕ)) = none := by decide
  rw [hnone] at hv'
  cases hv'

end BoundedVector

end Turbolib
