import Turbolib.Kademlia.RoutingTable

/-!
# The routing table is a set

Every stored value lies in the bucket of its hash, so a value that is stored is found
where a lookup searches for it, and no value is stored twice.

## Main definitions

* `RoutingTable.Invariant` — what holds between any two requests.
* `RoutingTable.Meets` — what each request has to do to the values stored.
-/

namespace Turbolib

/-- Replacing one of some lists exchanges its elements. -/
theorem flatten_set_perm {α : Type*} (ls : List (List α)) {i : ℕ} (hi : i < ls.length)
    (l : List α) : ((ls.set i l).flatten ++ ls[i]).Perm (ls.flatten ++ l) := by
  induction ls generalizing i with
  | nil => simp at hi
  | cons l' ls ih =>
    cases i with
    | zero =>
      simp only [List.set_cons_zero, List.flatten_cons, List.getElem_cons_zero]
      have hl : (l ++ ls.flatten).Perm (ls.flatten ++ l) := List.perm_append_comm
      rw [List.append_assoc l']
      exact List.perm_append_comm.trans (hl.append_left l')
    | succ i =>
      have hi : i < ls.length := by simpa using hi
      simpa using (ih hi).append_left l'

namespace RoutingTable

variable {V : Type} {w : ℕ} {hash : V → BitVec w} {t t' : RoutingTable V w}
  {v : V} {key : LookupKey V w} {i : ℕ}

/-- Equal keys have equal hashes. -/
def Request.RespectsHash (hash : V → BitVec w) : Request V w → Prop
  | .insert _ => True
  | .erase key => ∀ v, key.equals v = true → hash v = key.hash
  | .find key => ∀ v, key.equals v = true → hash v = key.hash

/-- What holds between requests. -/
structure Invariant [BEq V] (hash : V → BitVec w) (t : RoutingTable V w) : Prop where
  placed : ∀ i (hi : i < w), ∀ v ∈ t.table[i], t.index (hash v) = i
  distinct : ∀ i (hi : i < w), t.table[i].Pairwise (fun u v => (u == v) = false)
  counted : t.size = BitVec.ofNat 32 t.values.length

theorem mem_values : v ∈ t.values ↔ ∃ i, ∃ hi : i < w, v ∈ t.table[i] := by
  simp only [values, List.mem_flatten, Vector.mem_toList_iff, Vector.mem_iff_getElem]
  grind

/-- Exchanging one bucket for another. -/
theorem values_set_perm (hi : i < w) (bucket : List V) (size : BitVec 32) :
    ((RoutingTable.mk (t.table.set i bucket) t.origin size).values ++ t.table[i]).Perm
      (t.values ++ bucket) := by
  have hperm := flatten_set_perm t.table.toList (i := i) (by simpa using hi) bucket
  simpa [values, Vector.toList_set] using hperm

/-- One more value in a bucket is one more value in the table. -/
theorem values_cons_perm (hi : i < w) {bucket : List V} (size : BitVec 32)
    (hbucket : bucket.Perm (v :: t.table[i])) :
    (RoutingTable.mk (t.table.set i bucket) t.origin size).values.Perm (v :: t.values) := by
  have hright := (values_set_perm hi bucket size).trans (hbucket.append_left t.values)
  exact (List.perm_append_right_iff t.table[i]).mp (hright.trans List.perm_middle)

/-- One value less in a bucket is one value less in the table. -/
theorem values_perm_cons (hi : i < w) {bucket : List V} (size : BitVec 32)
    (hbucket : t.table[i].Perm (v :: bucket)) :
    t.values.Perm (v :: (RoutingTable.mk (t.table.set i bucket) t.origin size).values) := by
  have hright := (values_set_perm hi bucket size).symm.trans
    (hbucket.append_left (RoutingTable.mk (t.table.set i bucket) t.origin size).values)
  exact (List.perm_append_right_iff bucket).mp (hright.trans List.perm_middle)

theorem mem_values_iff_bucket (hinv : ∀ i (hi : i < w), ∀ v ∈ t.table[i], t.index (hash v) = i)
    (hi : t.index (hash v) < w) : v ∈ t.values ↔ v ∈ t.table[t.index (hash v)] := by
  grind [mem_values]

/-- A relation holds along the values when it holds along each bucket and from each bucket
to the later ones. -/
theorem pairwise_values {R : V → V → Prop} (hin : ∀ i (hi : i < w), t.table[i].Pairwise R)
    (hacross : ∀ i j (hi : i < w) (hj : j < w), i < j →
      ∀ u ∈ t.table[i], ∀ v ∈ t.table[j], R u v) : t.values.Pairwise R := by
  rw [values, List.pairwise_flatten]
  constructor
  · intro bucket hbucket
    obtain ⟨i, hi, rfl⟩ := Vector.mem_iff_getElem.mp (Vector.mem_toList_iff.mp hbucket)
    exact hin i hi
  · rw [List.pairwise_iff_getElem]
    intro i j hi hj hij u hu v hv
    simp only [Vector.length_toList] at hi hj
    exact hacross i j hi hj hij u (by simpa using hu) v (by simpa using hv)

theorem values_pairwise [BEq V] (hinv : t.Invariant hash)
    (hhash : ∀ u v : V, (u == v) = true → hash u = hash v) :
    t.values.Pairwise (fun u v => (u == v) = false) := by
  apply pairwise_values hinv.distinct
  intro i j hi hj hij u hu v hv
  have hiu := hinv.placed i hi u hu
  have hjv := hinv.placed j hj v hv
  have hne : hash u ≠ hash v := fun heq => by grind
  simpa using mt (hhash u v) hne

/-! ## What each request does -/

/-- What a request has to do: `insert` adds a value equal to no stored one, `erase` takes
one value out that equals the key, and `find` points at one. -/
def Meets [BEq V] (t : RoutingTable V w) : Request V w → RoutingTable V w → Answer → Prop
  | .insert value, t', answer =>
    ((∃ u ∈ t.values, (u == value) = true) ∧ answer = .changed false ∧ t' = t) ∨
    ((∀ u ∈ t.values, (u == value) = false) ∧ answer = .changed true ∧
      t'.values.Perm (value :: t.values))
  | .erase key, t', answer =>
    ((∀ u ∈ t.values, key.equals u = false) ∧ answer = .changed false ∧ t' = t) ∨
    (answer = .changed true ∧ ∃ u ∈ t.values, key.equals u = true ∧
      t.values.Perm (u :: t'.values))
  | .find key, t', answer => t' = t ∧ ∃ it, answer = .place it ∧
    (((∀ u ∈ t.values, key.equals u = false) ∧ it.toListIterator = t.endIterator) ∨
    (it.toListIterator ≠ t.endIterator ∧ ∃ u ∈ t.values, key.equals u = true ∧
      t.deref it.toListIterator = some u))

theorem stdFind_eq_length_iff {bucket : List V} {equals : V → Bool} :
    stdFind bucket equals = bucket.length ↔ ∀ u ∈ bucket, equals u = false :=
  List.findIdx_eq_length

/-- No stored value equals a key when none in its bucket does. -/
theorem forall_values_iff [BEq V] (hinv : t.Invariant hash) (hi : t.index key.hash < w)
    (hkey : ∀ v, key.equals v = true → hash v = key.hash) :
    (∀ u ∈ t.values, key.equals u = false) ↔
      ∀ u ∈ t.table[t.index key.hash], key.equals u = false := by
  constructor
  · intro hall u hu
    exact hall u (mem_values.mpr ⟨_, hi, hu⟩)
  · intro hall u hu
    by_contra hequals
    have heq : key.equals u = true := by simpa using hequals
    have hplace := mem_values_iff_bucket hinv.placed (v := u) (by rwa [hkey u heq])
    simp only [hkey u heq] at hplace
    simp [hall u (hplace.mp hu)] at heq

/-- Exchanging one bucket keeps the invariant. -/
theorem Invariant.setBucket [BEq V] (hinv : t.Invariant hash) (hi : i < w) {bucket : List V}
    {size : BitVec 32} (hplaced : ∀ v ∈ bucket, t.index (hash v) = i)
    (hdistinct : bucket.Pairwise (fun u v => (u == v) = false))
    (hcounted : size = BitVec.ofNat 32
      (RoutingTable.mk (t.table.set i bucket) t.origin size).values.length) :
    Invariant hash (RoutingTable.mk (t.table.set i bucket) t.origin size) where
  placed j hj v hv := by
    have hold := hinv.placed j hj v
    grind [index]
  distinct j hj := by
    have hold := hinv.distinct j hj
    grind
  counted := hcounted

/-- What `insert` does, as its bucket decides it. -/
theorem insert_spec [BEq V] (hinv : t.Invariant hash) (v : V) (hi : t.index (hash v) < w) :
    ∃ t' done, t.insert hash v = some (t', done) ∧ t'.Invariant hash ∧ t'.origin = t.origin ∧
      (((∃ u ∈ t.table[t.index (hash v)], (u == v) = true) ∧ done = false ∧ t' = t) ∨
        ((∀ u ∈ t.table[t.index (hash v)], (u == v) = false) ∧ done = true ∧
          t'.values.Perm (v :: t.values))) := by
  rw [insert, dif_pos hi]
  by_cases hfind : stdFind t.table[t.index (hash v)] (· == v) = t.table[t.index (hash v)].length
  · have hbucket := stdFind_eq_length_iff.mp hfind
    have hperm := values_cons_perm hi (t.size + 1)
      (List.perm_append_singleton v t.table[t.index (hash v)])
    refine ⟨_, true, if_neg (not_not.mpr hfind), ?_, rfl, Or.inr ⟨hbucket, rfl, hperm⟩⟩
    apply hinv.setBucket hi
    · have hold := hinv.placed _ hi
      grind
    · have hold := hinv.distinct _ hi
      grind
    · rw [hperm.length_eq, hinv.counted, List.length_cons, BitVec.ofNat_add]
      rfl
  · have hsome : ∃ u ∈ t.table[t.index (hash v)], (u == v) = true := by
      simpa using mt stdFind_eq_length_iff.mpr hfind
    exact ⟨t, false, if_pos hfind, hinv, rfl, Or.inl ⟨hsome, rfl, rfl⟩⟩

theorem insert_meets [BEq V] (hw : 0 < w) (hinv : t.Invariant hash)
    (hhash : ∀ u v : V, (u == v) = true → hash u = hash v) (v : V) :
    ∃ t' done, t.insert hash v = some (t', done) ∧ Meets t (.insert v) t' (.changed done) ∧
      t'.Invariant hash ∧ t'.origin = t.origin := by
  have hi : t.index (hash v) < w := index_lt hw
  have habsent : (∀ u ∈ t.values, (u == v) = false) ↔
      ∀ u ∈ t.table[t.index (hash v)], (u == v) = false :=
    @forall_values_iff _ _ _ _ ⟨hash v, (· == v)⟩ _ hinv hi (fun u => hhash u v)
  obtain ⟨t', done, hinsert, hinv', horigin, hcases⟩ := insert_spec hinv v hi
  refine ⟨t', done, hinsert, ?_, hinv', horigin⟩
  obtain ⟨⟨u, hu, huv⟩, rfl, rfl⟩ | ⟨hbucket, rfl, hperm⟩ := hcases
  · exact Or.inl ⟨⟨u, mem_values.mpr ⟨_, hi, hu⟩, huv⟩, rfl, rfl⟩
  · exact Or.inr ⟨habsent.mpr hbucket, rfl, hperm⟩

/-- Where `std::find` stops short of the end there is a value that equals the key. -/
theorem stdFind_lt {bucket : List V} {equals : V → Bool}
    (hfind : stdFind bucket equals ≠ bucket.length) :
    ∃ hlt : stdFind bucket equals < bucket.length, equals bucket[stdFind bucket equals] = true := by
  have hlt : stdFind bucket equals < bucket.length :=
    lt_of_le_of_ne List.findIdx_le_length hfind
  exact ⟨hlt, List.findIdx_getElem (w := hlt)⟩

/-- What `erase` does, as its bucket decides it. -/
theorem erase_spec [BEq V] (hinv : t.Invariant hash) (key : LookupKey V w)
    (hi : t.index key.hash < w) :
    ∃ t' done, t.erase key = some (t', done) ∧ t'.Invariant hash ∧ t'.origin = t.origin ∧
      (((∀ u ∈ t.table[t.index key.hash], key.equals u = false) ∧ done = false ∧ t' = t) ∨
        (done = true ∧ ∃ u ∈ t.values, key.equals u = true ∧
          t.values.Perm (u :: t'.values))) := by
  rw [erase, dif_pos hi]
  by_cases hfind : stdFind t.table[t.index key.hash] key.equals = t.table[t.index key.hash].length
  · have hnone := stdFind_eq_length_iff.mp hfind
    exact ⟨t, false, if_pos hfind, hinv, rfl, Or.inl ⟨hnone, rfl, rfl⟩⟩
  · obtain ⟨hlt, hequals⟩ := stdFind_lt hfind
    have hperm := values_perm_cons hi (t.size - 1) (List.getElem_cons_eraseIdx_perm hlt).symm
    refine ⟨_, true, if_neg hfind, ?_, rfl, Or.inr ⟨rfl, _, ?_, hequals, hperm⟩⟩
    · apply hinv.setBucket hi
      · intro u hu
        exact hinv.placed _ hi u (List.mem_of_mem_eraseIdx hu)
      · exact (hinv.distinct _ hi).sublist (List.eraseIdx_sublist _ _)
      · rw [hinv.counted, hperm.length_eq, List.length_cons, BitVec.ofNat_add]
        exact BitVec.add_sub_cancel _ _
    · exact mem_values.mpr ⟨_, hi, List.getElem_mem hlt⟩

theorem erase_meets [BEq V] (hw : 0 < w) (hinv : t.Invariant hash)
    (hkey : ∀ v, key.equals v = true → hash v = key.hash) :
    ∃ t' done, t.erase key = some (t', done) ∧ Meets t (.erase key) t' (.changed done) ∧
      t'.Invariant hash ∧ t'.origin = t.origin := by
  have hi : t.index key.hash < w := index_lt hw
  obtain ⟨t', done, herase, hinv', horigin, hcases⟩ := erase_spec hinv key hi
  refine ⟨t', done, herase, ?_, hinv', horigin⟩
  obtain ⟨hnone, rfl, rfl⟩ | ⟨rfl, hsome⟩ := hcases
  · exact Or.inl ⟨(forall_values_iff hinv hi hkey).mpr hnone, rfl, rfl⟩
  · exact Or.inr ⟨rfl, hsome⟩

/-- An iterator made at a value stays there. -/
theorem makeIterator_of_lt {p : ℕ} (hi : i < w) (hp : p < t.table[i].length) :
    (t.makeIterator ⟨i, p⟩ i).toListIterator = ⟨i, p⟩ := by
  have hne : (⟨i, p⟩ : ListIterator) ≠ ⟨i, t.table[i].length⟩ := by
    simpa using hp.ne
  rw [makeIterator, if_pos hi.ne, iterateUntilValidOrEnd, dif_pos hi, if_neg hne]

theorem find_meets [BEq V] (hw : 0 < w) (hinv : t.Invariant hash)
    (hkey : ∀ v, key.equals v = true → hash v = key.hash) :
    ∃ it, t.find key = some it ∧ Meets t (.find key) t (.place it) := by
  have hi : t.index key.hash < w := index_lt hw
  have habsent := forall_values_iff hinv hi hkey
  rw [find, dif_pos hi]
  by_cases hfind : stdFind t.table[t.index key.hash] key.equals = t.table[t.index key.hash].length
  · have hnone := habsent.mpr (stdFind_eq_length_iff.mp hfind)
    refine ⟨_, if_pos hfind, rfl, _, rfl, Or.inl ⟨hnone, ?_⟩⟩
    rw [makeIterator, if_neg (not_not.mpr rfl)]
  · obtain ⟨hlt, hequals⟩ := stdFind_lt hfind
    have hplace := makeIterator_of_lt hi hlt
    refine ⟨_, if_neg hfind, rfl, _, rfl, Or.inr ⟨?_, _, ?_, hequals, ?_⟩⟩
    · rw [hplace, endIterator]
      grind
    · exact mem_values.mpr ⟨_, hi, List.getElem_mem hlt⟩
    · rw [hplace, deref]
      grind

/-- Every request is served as it should be and keeps the invariant. -/
theorem serve_meets [BEq V] (hw : 0 < w) (hinv : t.Invariant hash)
    (hhash : ∀ u v : V, (u == v) = true → hash u = hash v) (r : Request V w)
    (hr : r.RespectsHash hash) :
    ∃ t' answer, serve hash t r = some (t', answer) ∧ Meets t r t' answer ∧
      t'.Invariant hash ∧ t'.origin = t.origin := by
  cases r with
  | insert v =>
    obtain ⟨t', done, hinsert, hmeets, hinv', horigin⟩ := insert_meets hw hinv hhash v
    exact ⟨t', .changed done, by simp [serve, hinsert], hmeets, hinv', horigin⟩
  | erase key =>
    obtain ⟨t', done, herase, hmeets, hinv', horigin⟩ := erase_meets hw hinv hr
    exact ⟨t', .changed done, by simp [serve, herase], hmeets, hinv', horigin⟩
  | find key =>
    obtain ⟨it, hfind, hmeets⟩ := find_meets hw hinv hr
    exact ⟨t, .place it, by simp [serve, hfind], hmeets, hinv, rfl⟩

theorem new_invariant [BEq V] (origin : BitVec w) :
    (RoutingTable.new origin : RoutingTable V w).Invariant hash where
  placed i hi v hv := by simp [new] at hv
  distinct i hi := by simp [new]
  counted := by simp [new, values]

theorem exists_find (key : LookupKey V w) (hi : t.index key.hash < w) :
    ∃ it, t.find key = some it := by
  simp only [find, dif_pos hi]
  split_ifs <;> exact ⟨_, rfl⟩

/-- Every request is served and keeps the invariant, whatever the hashes of equal values. -/
theorem serve_invariant [BEq V] (hw : 0 < w) (hinv : t.Invariant hash) (r : Request V w) :
    ∃ t' answer, serve hash t r = some (t', answer) ∧ t'.Invariant hash ∧
      t'.origin = t.origin := by
  cases r with
  | insert v =>
    obtain ⟨t', done, hinsert, hinv', horigin, -⟩ := insert_spec hinv v (index_lt hw)
    exact ⟨t', .changed done, by simp [serve, hinsert], hinv', horigin⟩
  | erase key =>
    obtain ⟨t', done, herase, hinv', horigin, -⟩ := erase_spec hinv key (index_lt hw)
    exact ⟨t', .changed done, by simp [serve, herase], hinv', horigin⟩
  | find key =>
    obtain ⟨it, hfind⟩ := exists_find (t := t) key (index_lt hw)
    exact ⟨t, .place it, by simp [serve, hfind], hinv, rfl⟩

/-- The invariant over a whole run. -/
theorem run_invariant [BEq V] (hw : 0 < w) (rs : List (Request V w)) (hinv : t.Invariant hash) :
    ∃ t' answers, run (serve hash) t rs = some (t', answers) ∧ t'.Invariant hash ∧
      t'.origin = t.origin := by
  induction rs generalizing t with
  | nil => exact ⟨t, [], rfl, hinv, rfl⟩
  | cons r rs ih =>
    obtain ⟨t₁, answer, hserve, hinv₁, horigin₁⟩ := serve_invariant hw hinv r
    obtain ⟨t₂, answers, hrun, hinv₂, horigin₂⟩ := ih hinv₁
    refine ⟨t₂, answer :: answers, ?_, hinv₂, horigin₂.trans horigin₁⟩
    simp [run, hserve, hrun]

/-- The invariant after a run from a new table whose origin has been set. -/
theorem run_new_invariant [BEq V] (hash : V → BitVec w) (hw : 0 < w)
    (uninitialised : BitVec w) (origin : V) (rs : List (Request V w)) :
    ∃ t answers,
      run (serve hash) ((new uninitialised).setOrigin (hash origin)) rs = some (t, answers) ∧
      t.Invariant hash ∧ t.origin = hash origin :=
  run_invariant hw rs (new_invariant (hash origin))

/-- After any run from a new table whose origin has been set, the buckets hold a set of
values, each in the bucket of its highest differing bit, and every further request is
served as it should be. The size is the number of values, as 32 bits hold it. -/
theorem run_represents_set [BEq V] (hash : V → BitVec w) (hw : 0 < w)
    (hhash : ∀ u v : V, (u == v) = true → hash u = hash v) (uninitialised : BitVec w)
    (origin : V) (rs : List (Request V w)) :
    ∃ t answers,
      run (serve hash) ((new uninitialised).setOrigin (hash origin)) rs = some (t, answers) ∧
      (∀ h, t.index h < w) ∧
      (∀ v ∈ t.values, ∀ i (hi : i < w),
        v ∈ t.table[i] ↔ HighestBit (hash v ^^^ hash origin) i) ∧
      t.values.Pairwise (fun u v => (u == v) = false) ∧
      t.size.toNat = t.values.length % 2 ^ 32 ∧
      ∀ r : Request V w, r.RespectsHash hash →
        ∃ t' answer, serve hash t r = some (t', answer) ∧ Meets t r t' answer := by
  obtain ⟨t, answers, hrun, hinv, horigin⟩ :=
    run_new_invariant hash hw uninitialised origin rs
  refine ⟨t, answers, hrun, fun h => index_lt hw, ?_, values_pairwise hinv hhash, ?_, ?_⟩
  · intro v hv i hi
    rw [← horigin, ← index_eq_iff]
    have hplace := (mem_values_iff_bucket hinv.placed (index_lt hw)).mp hv
    refine ⟨hinv.placed i hi v, ?_⟩
    rintro rfl
    exact hplace
  · rw [hinv.counted, BitVec.toNat_ofNat]
  · intro r hr
    obtain ⟨t', answer, hserve, hmeets, -⟩ := serve_meets hw hinv hhash r hr
    exact ⟨t', answer, hserve, hmeets⟩

/-- The buckets of 4, 25 and 1337, of which 25 is erased again. -/
theorem run_represents_set_three :
    ∃ t answers,
      run (serve id) ((new 0#32).setOrigin 0#32)
        [.insert 4#32, .insert 25#32, .insert 1337#32, .erase (.ofValue id 25#32)] =
          some (t, answers) ∧ t.size.toNat = t.values.length % 2 ^ 32 := by
  obtain ⟨t, answers, hrun, -, -, -, hsize, -⟩ :=
    run_represents_set id (by decide) (fun u v huv => by simpa using huv) 0#32 0#32
      [.insert 4#32, .insert 25#32, .insert 1337#32, .erase (.ofValue id 25#32)]
  exact ⟨t, answers, hrun, hsize⟩

/-- Inserting values that are all different stores them all. -/
theorem run_insert_distinct [BEq V] (hw : 0 < w)
    (hhash : ∀ u v : V, (u == v) = true → hash u = hash v) (vs : List V)
    (hvs : vs.Pairwise (fun u v => (u == v) = false)) (hinv : t.Invariant hash)
    (hfresh : ∀ u ∈ t.values, ∀ v ∈ vs, (u == v) = false) :
    ∃ t' answers, run (serve hash) t (vs.map .insert) = some (t', answers) ∧
      t'.values.length = t.values.length + vs.length ∧ t'.Invariant hash := by
  induction vs generalizing t with
  | nil => exact ⟨t, [], rfl, rfl, hinv⟩
  | cons v vs ih =>
    obtain ⟨hv, hvs⟩ := List.pairwise_cons.mp hvs
    obtain ⟨t₁, answer, hserve, hmeets, hinv₁, -⟩ :=
      serve_meets hw hinv hhash (.insert v) trivial
    have hperm : t₁.values.Perm (v :: t.values) := by
      obtain ⟨⟨u, hu, huv⟩, -⟩ | ⟨-, -, hperm⟩ := hmeets
      · simp [hfresh u hu v List.mem_cons_self] at huv
      · exact hperm
    obtain ⟨t₂, answers, hrun, hlen, hinv₂⟩ := ih hvs hinv₁ (by
      intro u hu x hx
      obtain rfl | hu := List.mem_cons.mp (hperm.mem_iff.mp hu)
      · exact hv x hx
      · exact hfresh u hu x (List.mem_cons_of_mem _ hx))
    refine ⟨t₂, answer :: answers, by simp [run, hserve, hrun], ?_, hinv₂⟩
    rw [hlen, hperm.length_eq, List.length_cons, List.length_cons]
    omega

/-- The first `n` numbers, inserted into an empty table of 64-bit numbers. -/
theorem run_insert_range (n : ℕ) (hn : n ≤ 2 ^ 64) :
    ∃ t answers, run (serve id) ((new 0#64).setOrigin 0#64)
        (((List.range n).map (BitVec.ofNat 64)).map .insert) = some (t, answers) ∧
      t.values.length = n ∧ t.size.toNat = n % 2 ^ 32 := by
  have hdistinct : ((List.range n).map (BitVec.ofNat 64)).Pairwise
      (fun u v => (u == v) = false) := by
    refine List.pairwise_map.mpr (List.pairwise_lt_range.imp_of_mem ?_)
    intro i j hi hj hij
    rw [List.mem_range] at hi hj
    have hne : BitVec.ofNat 64 i ≠ BitVec.ofNat 64 j := by
      rw [Ne, ← BitVec.toNat_inj, BitVec.toNat_ofNat, BitVec.toNat_ofNat]
      omega
    simpa using hne
  obtain ⟨t, answers, hrun, hlen, hinv⟩ :=
    run_insert_distinct (by decide) (fun u v huv => by simpa using huv) _ hdistinct
      (new_invariant 0#64) (by simp [new, values])
  have hlen : t.values.length = n := by simpa [new, values] using hlen
  exact ⟨t, answers, hrun, hlen, by rw [hinv.counted, hlen, BitVec.toNat_ofNat]⟩

/-- With 2 ^ 32 values stored the count has gone round to 0. -/
theorem size_wraps :
    ∃ t answers, run (serve id) ((new 0#64).setOrigin 0#64)
        (((List.range (2 ^ 32)).map (BitVec.ofNat 64)).map .insert) = some (t, answers) ∧
      t.values.length = 2 ^ 32 ∧ t.size.toNat = 0 :=
  run_insert_range (2 ^ 32) (by decide)

end RoutingTable

end Turbolib
