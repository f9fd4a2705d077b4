import Turbolib.Kademlia.Buckets

/-!
# Going through the routing table

The iterator keeps, beside its place in a bucket, the bucket it is in. What is left at a
place is the rest of its bucket and all the buckets after it, and `++` takes the first
value off that.

## Main definitions

* `RoutingTable.rest` — the values from a place to the end.
* `RoutingTable.Stands` — an iterator at a value of the bucket it keeps, or at the end.
* `RoutingTable.inserted` — the values stored, in the order they were inserted.
-/

namespace Turbolib

/-- Where a value of some lists lies: in one of them, behind all the lists before it. -/
theorem exists_of_flatten_eq {α : Type*} {ls : List (List α)} {before after : List α} {x : α}
    (h : ls.flatten = before ++ x :: after) :
    ∃ ls₁ front back ls₂, ls = ls₁ ++ (front ++ x :: back) :: ls₂ ∧
      before = ls₁.flatten ++ front ∧ after = back ++ ls₂.flatten := by
  obtain ⟨ls₁, ls₂, rfl, rfl, hrest⟩ | ⟨ls₁, front, y, back, ls₂, rfl, rfl, hrest⟩ :=
    List.flatten_eq_append_iff.mp h
  · obtain ⟨empties, back, ls₃, rfl, hempty, rfl⟩ := List.flatten_eq_cons_iff.mp hrest.symm
    exact ⟨ls₁ ++ empties, [], back, ls₃, by simp, by simpa using hempty, rfl⟩
  · obtain ⟨rfl, rfl⟩ := List.cons.inj hrest
    exact ⟨ls₁, front, back, ls₂, rfl, rfl, rfl⟩

namespace RoutingTable

variable {V : Type} {w : ℕ} {hash : V → BitVec w} {t t' : RoutingTable V w}
  {v : V} {vs : List V} {key : LookupKey V w} {i : ℕ}

/-! ## One step of an iterator -/

/-- The values from a place to the end of the table. -/
def rest (t : RoutingTable V w) (it : ListIterator) : List V :=
  (t.table.toList[it.bucket]?.getD []).drop it.position ++
    (t.table.toList.drop (it.bucket + 1)).flatten

/-- An iterator stands at a value of the bucket it keeps, or at the end. -/
def Stands (t : RoutingTable V w) (it : TableIterator) : Prop :=
  it.toListIterator = t.endIterator ∨
    (it.current = it.bucket ∧ (t.deref it.toListIterator).isSome)

theorem rest_of_lt {p : ℕ} (hi : i < w) :
    t.rest ⟨i, p⟩ = t.table[i].drop p ++ (t.table.toList.drop (i + 1)).flatten := by
  simp [rest, hi]

/-- At the end of a bucket the next one is left. -/
theorem rest_bucket_end (hi : i + 1 < w) :
    t.rest ⟨i, t.table[i].length⟩ = t.rest ⟨i + 1, 0⟩ := by
  rw [rest_of_lt (by omega), rest_of_lt hi, List.drop_length, List.nil_append, List.drop_zero,
    List.drop_eq_getElem_cons (by simpa using hi), List.flatten_cons, Vector.getElem_toList]

theorem rest_end (hw : 0 < w) : t.rest t.endIterator = [] := by
  have hlast : w - 1 < w := by omega
  have hnone : t.table.toList.drop (w - 1 + 1) = [] := List.drop_of_length_le (by simp; omega)
  rw [endIterator, rest_of_lt hlast, hnone, Vector.getElem?_eq_getElem hlast]
  simp

/-- The values before a bucket, those in it and those after it. -/
theorem values_split (hi : i < w) :
    t.values = (t.table.toList.take i).flatten ++
      (t.table[i] ++ (t.table.toList.drop (i + 1)).flatten) := by
  rw [values, ← Vector.getElem_toList (by simpa using hi), ← List.flatten_cons,
    ← List.drop_eq_getElem_cons (by simpa using hi), ← List.flatten_append,
    List.take_append_drop]

theorem rest_begin (hw : 0 < w) : t.rest ⟨0, 0⟩ = t.values := by
  rw [rest_of_lt hw, values_split hw, List.take_zero, List.flatten_nil, List.nil_append,
    List.drop_zero]

theorem deref_of_lt {p : ℕ} (hi : i < w) : t.deref ⟨i, p⟩ = t.table[i][p]? := by
  simp [deref, hi]

theorem deref_eq_some {it : ListIterator} (hderef : t.deref it = some v) :
    ∃ hi : it.bucket < w, ∃ hp : it.position < t.table[it.bucket].length,
      t.table[it.bucket][it.position] = v := by
  obtain ⟨bucket, hbucket, hv⟩ := Option.bind_eq_some_iff.mp hderef
  obtain ⟨hi, rfl⟩ := Vector.getElem?_eq_some_iff.mp hbucket
  obtain ⟨hp, hv⟩ := List.getElem?_eq_some_iff.mp hv
  exact ⟨hi, hp, hv⟩

/-- A place short of the end of its bucket holds the first of the values left. -/
theorem rest_of_deref {it : ListIterator} (hderef : t.deref it = some v) :
    t.rest it = v :: t.rest ⟨it.bucket, it.position + 1⟩ := by
  obtain ⟨hi, hp, rfl⟩ := deref_eq_some hderef
  obtain ⟨i, p⟩ := it
  rw [rest_of_lt hi, rest_of_lt hi, List.drop_eq_getElem_cons hp, List.cons_append]

/-- The loop ends at a value or at the end of the table, and skips none. -/
theorem iterateUntilValidOrEnd_spec (it : ListIterator) {current : ℕ} (hcurrent : current < w)
    (hbucket : it.bucket = current) (hposition : it.position ≤ t.table[current].length) :
    t.Stands (t.iterateUntilValidOrEnd it current) ∧
      t.rest (t.iterateUntilValidOrEnd it current).toListIterator = t.rest it := by
  fun_induction iterateUntilValidOrEnd t it current with
  | case1 current hlt hlast =>
    -- the last bucket has ended, and with it the table
    refine ⟨Or.inl ?_, rfl⟩
    have hcurrent : w - 1 = current := by omega
    simp [endIterator, hcurrent, hlt]
  | case2 current hlt hnext ih =>
    -- a bucket has ended, and the loop goes on with the next one
    have hlt' : current + 1 < w := by omega
    obtain ⟨hstands, hrest⟩ := ih hlt' rfl (Nat.zero_le _)
    exact ⟨hstands, hrest.trans (rest_bucket_end hlt').symm⟩
  | case3 it current hlt hend =>
    obtain ⟨i, p⟩ := it
    obtain rfl : i = current := hbucket
    have hp : p < t.table[i].length := lt_of_le_of_ne hposition (by simpa using hend)
    refine ⟨Or.inr ⟨rfl, ?_⟩, rfl⟩
    simp [deref_of_lt hlt, hp]
  | case4 it current hge => exact absurd hcurrent hge

/-- The values left at an iterator are read one after the other. -/
theorem cursor_leaves (hw : 0 < w) :
    t.cursor.Leaves t.Stands (fun it => t.rest it.toListIterator) where
  nil it hstands hrest := by
    obtain hend | ⟨-, hderef⟩ := hstands
    · exact hend
    · obtain ⟨v, hv⟩ := Option.isSome_iff_exists.mp hderef
      simp [rest_of_deref hv] at hrest
  cons it v vs hstands hrest := by
    obtain hend | ⟨hcurrent, hderef⟩ := hstands
    · simp [hend, rest_end hw] at hrest
    · obtain ⟨u, hu⟩ := Option.isSome_iff_exists.mp hderef
      obtain ⟨rfl, rfl⟩ := List.cons.inj ((rest_of_deref hu).symm.trans hrest)
      obtain ⟨hbucket, hposition, -⟩ := deref_eq_some hu
      have hnot : it.toListIterator ≠ t.endIterator := by
        intro hend
        simp [hend, rest_end hw] at hrest
      obtain ⟨hstands', hrest'⟩ := iterateUntilValidOrEnd_spec
        ⟨it.bucket, it.position + 1⟩ (hcurrent ▸ hbucket) hcurrent.symm
        (by simpa only [hcurrent] using Nat.succ_le_of_lt hposition)
      refine ⟨hnot, hu, _, ?_, hstands', hrest'⟩
      exact if_pos ⟨hderef, hcurrent ▸ hbucket⟩

/-- An iterator made at a place of a bucket, or at the bucket's end, goes through what is
left there. -/
theorem walk_makeIterator {p : ℕ} (hi : i < w) (hp : p ≤ t.table[i].length) :
    t.cursor.Walk (t.makeIterator ⟨i, p⟩ i) (t.rest ⟨i, p⟩) := by
  obtain ⟨hstands, hrest⟩ := iterateUntilValidOrEnd_spec ⟨i, p⟩ hi rfl hp
  have hmake : t.makeIterator ⟨i, p⟩ i = t.iterateUntilValidOrEnd ⟨i, p⟩ i := if_pos hi.ne
  rw [hmake, ← hrest]
  exact (cursor_leaves (by omega)).walk hstands

/-- From `begin()` all values are read, bucket by bucket. -/
theorem walk_begin (hw : 0 < w) : t.cursor.Walk t.beginIterator t.values := by
  rw [← rest_begin hw]
  exact walk_makeIterator hw (Nat.zero_le _)

theorem find_of_stdFind (key : LookupKey V w) {p : ℕ} (hkey : t.index key.hash = i) (hi : i < w)
    (hfind : stdFind t.table[i] key.equals = p) (hp : p < t.table[i].length) :
    t.find key = some (t.makeIterator ⟨i, p⟩ i) := by
  subst hkey hfind
  rw [find, dif_pos hi]
  exact if_neg hp.ne

/-- `std::find` stops at the first value that equals the key. -/
theorem stdFind_append_cons {equals : V → Bool} {front back : List V}
    (hfront : ∀ u ∈ front, equals u = false) (hv : equals v = true) :
    stdFind (front ++ v :: back) equals = front.length := by
  have hend : front.findIdx equals = front.length := List.findIdx_eq_length.mpr hfront
  simp [stdFind, List.findIdx_append, hend, List.findIdx_cons, hv]

/-- From the place `find` gives for a stored value, that value and those after it are read.
No value before it in its bucket equals it. -/
theorem walk_find [BEq V] (hinv : t.Invariant hash) {before after : List V}
    (hvalues : t.values = before ++ v :: after) (hv : (v == v) = true) :
    ∃ it, t.find (.ofValue hash v) = some it ∧ t.cursor.Walk it (v :: after) := by
  obtain ⟨buckets, front, back, later, htable, -, rfl⟩ := exists_of_flatten_eq hvalues
  have hi : buckets.length < w := by
    have hlength := congrArg List.length htable
    simp only [Vector.length_toList, List.length_append, List.length_cons] at hlength
    omega
  have hbucket : t.table[buckets.length] = front ++ v :: back := by
    rw [← Vector.getElem_toList (by simpa using hi)]
    simp [htable]
  have hplaced := hinv.placed buckets.length hi v (by simp [hbucket])
  have hfront : ∀ u ∈ front, (u == v) = false := by
    have hdistinct := hinv.distinct buckets.length hi
    rw [hbucket, List.pairwise_append] at hdistinct
    exact fun u hu => hdistinct.2.2 u hu v List.mem_cons_self
  have hp : front.length < t.table[buckets.length].length := by simp [hbucket]
  have hstop : stdFind t.table[buckets.length] (· == v) = front.length := by
    rw [hbucket]
    exact stdFind_append_cons hfront hv
  have hfind := find_of_stdFind (.ofValue hash v) hplaced hi hstop hp
  have hrest : t.rest ⟨buckets.length, front.length⟩ = v :: (back ++ later.flatten) := by
    rw [rest_of_lt hi, hbucket, List.drop_left, htable]
    simp
  exact ⟨_, hfind, hrest ▸ walk_makeIterator hi hp.le⟩

/-! ## The order of insertion -/

/-- What a request makes of the values stored, listed in the order they were inserted. It
sees the values that lie in the bucket of its key. -/
def Request.applyTo [BEq V] (hash : V → BitVec w) (bucket : BitVec w → ℕ) (vs : List V) :
    Request V w → List V
  | .insert value =>
    if vs.any (fun v => v == value && bucket (hash v) = bucket (hash value)) then vs
    else vs ++ [value]
  | .erase key => vs.eraseP (fun v => key.equals v && bucket (hash v) = bucket key.hash)
  | .find _ => vs

/-- The values stored after some requests, in the order they were inserted. -/
def inserted [BEq V] (hash : V → BitVec w) (bucket : BitVec w → ℕ) (rs : List (Request V w)) :
    List V :=
  rs.foldl (Request.applyTo hash bucket) []

/-- Each bucket lists its values in the order they were inserted. -/
structure InOrder (hash : V → BitVec w) (bucket : BitVec w → ℕ) (t : RoutingTable V w)
    (vs : List V) : Prop where
  index_eq : t.index = bucket
  table_eq : ∀ i (hi : i < w), t.table[i] = vs.filter (fun v => bucket (hash v) = i)

variable {bucket : BitVec w → ℕ}

theorem insert_inOrder [BEq V] {done : Bool} (horder : t.InOrder hash bucket vs)
    (hinsert : t.insert hash v = some (t', done)) :
    t'.InOrder hash bucket ((Request.insert v).applyTo hash bucket vs) := by
  obtain ⟨rfl, horder⟩ := horder
  simp only [insert, Option.dite_none_right_eq_some] at hinsert
  obtain ⟨hi, hinsert⟩ := hinsert
  have hany : vs.any (fun u => u == v && t.index (hash u) = t.index (hash v)) = false ↔
      stdFind t.table[t.index (hash v)] (· == v) = t.table[t.index (hash v)].length := by
    rw [stdFind_eq_length_iff, horder]
    simp only [List.any_eq_false, List.mem_filter]
    grind
  split_ifs at hinsert with hfind
  · obtain ⟨rfl, -⟩ := Prod.mk.inj (Option.some.inj hinsert)
    have hpresent := Bool.eq_true_of_not_eq_false (mt hany.mp hfind)
    simpa only [Request.applyTo, if_pos hpresent] using ⟨rfl, horder⟩
  · obtain ⟨rfl, -⟩ := Prod.mk.inj (Option.some.inj hinsert)
    have habsent := hany.mpr (not_not.mp hfind)
    refine ⟨rfl, fun j hj => ?_⟩
    have hold := horder j hj
    simp only [Request.applyTo, habsent]
    grind

theorem filter_eraseP_of_not {p f : V → Bool} (hpf : ∀ v, p v = true → f v = false) :
    (vs.eraseP p).filter f = vs.filter f := by
  obtain hself | ⟨v, before, after, -, hv, hvs, herase⟩ := List.exists_or_eq_self_of_eraseP p vs
  · rw [hself]
  · rw [herase, hvs]
    simp [hpf v hv]

/-- `erase` takes out of the bucket what `eraseP` takes out. -/
theorem eraseIdx_stdFind (bucket : List V) (equals : V → Bool) :
    bucket.eraseIdx (stdFind bucket equals) = bucket.eraseP equals := by
  induction bucket with
  | nil => rfl
  | cons u bucket ih =>
    cases hu : equals u with
    | true => simp [stdFind, List.findIdx_cons, hu]
    | false => simpa [stdFind, List.findIdx_cons, hu] using ih

theorem erase_inOrder [BEq V] {done : Bool} (horder : t.InOrder hash bucket vs)
    (herase : t.erase key = some (t', done)) :
    t'.InOrder hash bucket ((Request.erase key).applyTo hash bucket vs) := by
  obtain ⟨rfl, horder⟩ := horder
  simp only [erase, Option.dite_none_right_eq_some] at herase
  obtain ⟨hi, herase⟩ := herase
  rw [Request.applyTo]
  -- the value taken out is that of the key's bucket, and of no other
  have hhere : (vs.eraseP fun v => key.equals v && t.index (hash v) = t.index key.hash).filter
      (fun v => t.index (hash v) = t.index key.hash) =
        t.table[t.index key.hash].eraseP key.equals := by
    rw [horder _ hi, List.eraseP_filter]
  have hother : ∀ j, t.index key.hash ≠ j →
      (vs.eraseP fun v => key.equals v && t.index (hash v) = t.index key.hash).filter
        (fun v => t.index (hash v) = j) = vs.filter (fun v => t.index (hash v) = j) := by
    intro j hj
    apply filter_eraseP_of_not
    grind
  split_ifs at herase with hfind
  · obtain ⟨rfl, -⟩ := Prod.mk.inj (Option.some.inj herase)
    have hnone := stdFind_eq_length_iff.mp hfind
    refine ⟨rfl, fun j hj => ?_⟩
    by_cases hij : t.index key.hash = j
    · subst hij
      rw [hhere, List.eraseP_of_forall_not (by simpa using hnone)]
    · rw [hother j hij, horder j hj]
  · obtain ⟨rfl, -⟩ := Prod.mk.inj (Option.some.inj herase)
    refine ⟨rfl, fun j hj => ?_⟩
    simp only [Vector.getElem_set]
    by_cases hij : t.index key.hash = j
    · subst hij
      rw [if_pos rfl, eraseIdx_stdFind, hhere]
    · rw [if_neg hij, horder j hj, hother j hij]

theorem serve_inOrder [BEq V] {r : Request V w} {answer : Answer}
    (horder : t.InOrder hash bucket vs) (hserve : serve hash t r = some (t', answer)) :
    t'.InOrder hash bucket (r.applyTo hash bucket vs) := by
  cases r with
  | insert v =>
    obtain ⟨⟨t₁, done⟩, hinsert, hanswer⟩ := Option.bind_eq_some_iff.mp hserve
    obtain ⟨rfl, -⟩ := Prod.mk.inj (Option.some.inj hanswer)
    exact insert_inOrder horder hinsert
  | erase key =>
    obtain ⟨⟨t₁, done⟩, herase, hanswer⟩ := Option.bind_eq_some_iff.mp hserve
    obtain ⟨rfl, -⟩ := Prod.mk.inj (Option.some.inj hanswer)
    exact erase_inOrder horder herase
  | find key =>
    obtain ⟨it, -, hanswer⟩ := Option.bind_eq_some_iff.mp hserve
    obtain ⟨rfl, -⟩ := Prod.mk.inj (Option.some.inj hanswer)
    exact horder

theorem run_inOrder [BEq V] {rs : List (Request V w)} {answers : List Answer}
    (horder : t.InOrder hash bucket vs) (hrun : run (serve hash) t rs = some (t', answers)) :
    t'.InOrder hash bucket (rs.foldl (Request.applyTo hash bucket) vs) := by
  induction rs generalizing t vs answers with
  | nil =>
    obtain ⟨rfl, -⟩ := Prod.mk.inj (Option.some.inj hrun)
    exact horder
  | cons r rs ih =>
    obtain ⟨⟨t₁, answer⟩, hserve, hrest⟩ := Option.bind_eq_some_iff.mp hrun
    obtain ⟨⟨t₂, answers'⟩, hrun', hanswers⟩ := Option.bind_eq_some_iff.mp hrest
    obtain ⟨rfl, -⟩ := Prod.mk.inj (Option.some.inj hanswers)
    exact ih (serve_inOrder horder hserve) hrun'

/-- The values of the buckets in order. -/
theorem InOrder.values_eq (horder : t.InOrder hash bucket vs) :
    t.values = (List.range w).flatMap fun i => vs.filter (fun v => bucket (hash v) = i) := by
  have htable : t.table.toList =
      (List.range w).map fun i => vs.filter (fun v => bucket (hash v) = i) := by
    apply List.ext_getElem (by simp)
    intro i hi hi'
    simpa using horder.table_eq i (by simpa using hi)
  rw [values, htable, List.flatMap_def]

/-- A value of a bucket comes before the values of later buckets. -/
theorem values_pairwise_index [BEq V] (hinv : t.Invariant hash) :
    t.values.Pairwise (fun u v => t.index (hash u) ≤ t.index (hash v)) := by
  apply pairwise_values
  · intro i hi
    apply List.pairwise_of_forall_mem_list
    intro u hu v hv
    rw [hinv.placed i hi u hu, hinv.placed i hi v hv]
  · intro i j hi hj hij u hu v hv
    rw [hinv.placed i hi u hu, hinv.placed j hj v hv]
    exact hij.le

/-- After any run from a new table whose origin has been set, going from `begin()` to
`end()` reads every value stored once, one for each step: bucket after bucket, so that a
value whose highest differing bit is smaller comes first, and each bucket in the order of
insertion. From the place `find` gives for a stored value, that value and those after it
are read. The size is the number of values, as 32 bits hold it. -/
theorem iterate_complete [BEq V] (hash : V → BitVec w) (hw : 0 < w) (uninitialised : BitVec w)
    (origin : V) (rs : List (Request V w)) :
    ∃ t answers,
      run (serve hash) ((new uninitialised).setOrigin (hash origin)) rs = some (t, answers) ∧
      t.cursor.Walk t.beginIterator t.values ∧
      t.size.toNat = t.values.length % 2 ^ 32 ∧
      t.values = ((List.range w).flatMap fun i =>
        (inserted hash t.index rs).filter (fun v => t.index (hash v) = i)) ∧
      t.values.Pairwise (fun u v => ∀ i j, HighestBit (hash u ^^^ hash origin) i →
        HighestBit (hash v ^^^ hash origin) j → i ≤ j) ∧
      ((∀ u v : V, (u == v) = true → hash u = hash v) →
        t.values.Pairwise (fun u v => (u == v) = false)) ∧
      ∀ before x after, t.values = before ++ x :: after → (x == x) = true →
        ∃ it, t.find (.ofValue hash x) = some it ∧ t.cursor.Walk it (x :: after) := by
  obtain ⟨t, answers, hrun, hinv, horigin⟩ :=
    run_new_invariant hash hw uninitialised origin rs
  have hstart : InOrder hash _ ((new uninitialised).setOrigin (hash origin)) [] :=
    ⟨rfl, fun i hi => by simp [new, setOrigin]⟩
  have horder := run_inOrder hstart hrun
  refine ⟨t, answers, hrun, walk_begin hw, ?_, ?_, ?_, values_pairwise hinv, ?_⟩
  · rw [hinv.counted, BitVec.toNat_ofNat]
  · rw [horder.index_eq]
    exact horder.values_eq
  · refine (values_pairwise_index hinv).imp fun {u v} hle i j hi hj => ?_
    rw [← horigin, ← index_eq_iff] at hi hj
    rwa [hi, hj] at hle
  · exact fun before x after hvalues hx => walk_find hinv hvalues hx

/-- The table of 25, 4 and 1337, of which 25 is erased and inserted again. -/
theorem iterate_complete_three :
    ∃ t answers,
      run (serve id) ((new 0#32).setOrigin 0#32)
        [.insert 25#32, .insert 4#32, .insert 1337#32, .erase (.ofValue id 25#32),
          .insert 25#32] = some (t, answers) ∧
      t.cursor.Walk t.beginIterator t.values ∧ t.size.toNat = t.values.length % 2 ^ 32 := by
  obtain ⟨t, answers, hrun, hwalk, hsize, -⟩ :=
    iterate_complete id (by decide) 0#32 0#32
      [.insert 25#32, .insert 4#32, .insert 1337#32, .erase (.ofValue id 25#32), .insert 25#32]
  exact ⟨t, answers, hrun, hwalk, hsize⟩

/-- With 2 ^ 32 values stored the size is 0, and there are as many steps to the end as there
are values. -/
theorem iteration_longer_than_size :
    ∃ t answers, run (serve id) ((new 0#64).setOrigin 0#64)
        (((List.range (2 ^ 32)).map (BitVec.ofNat 64)).map .insert) = some (t, answers) ∧
      t.size.toNat = 0 ∧ t.cursor.Walk t.beginIterator t.values ∧
      ∀ vs, t.cursor.Walk t.beginIterator vs → vs.length = 2 ^ 32 := by
  obtain ⟨t, answers, hrun, hlen, hsize⟩ := run_insert_range (2 ^ 32) (by decide)
  have hwalk := walk_begin (t := t) (by decide)
  refine ⟨t, answers, hrun, hsize, hwalk, fun vs hvs => ?_⟩
  rw [hvs.unique hwalk, hlen]

end RoutingTable

end Turbolib
