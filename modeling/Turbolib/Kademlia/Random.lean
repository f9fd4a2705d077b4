import Turbolib.Kademlia.Iterate

/-!
# A random place in the routing table

`random` favours the values close to the origin in a large table, and falls back on a
walk from `begin()` of a random length. The walk never leaves the table: its length is
less than the size, and so less than the number of values stored even where the size has
gone round.

## Main definitions

* `RoutingTable.Selects` — an iterator at a stored value, or at the end of an empty table.
-/

namespace Turbolib

namespace RandomEngine

variable (rando : RandomEngine) (n : ℕ)

theorem draw_le (b : BitVec 32) : rando.draw n 0 b ≤ b :=
  (rando.inRange n 0 b (BitVec.le_def.mpr (Nat.zero_le _))).2

/-- A draw from 0 to `k` made as `unsigned int` is at most `k`. -/
theorem toNat_draw_le (k : ℕ) : (rando.draw n 0 (BitVec.ofNat 32 k)).toNat ≤ k := by
  have hle := BitVec.le_def.mp (rando.draw_le n (BitVec.ofNat 32 k))
  rw [BitVec.toNat_ofNat] at hle
  exact hle.trans (Nat.mod_le _ _)

/-- An engine that always draws the greatest number in range. -/
def greatest : RandomEngine where
  draw _ _ b := b
  inRange _ _ b hab := ⟨hab, BitVec.le_refl b⟩

end RandomEngine

namespace RoutingTable

variable {V : Type} {w : ℕ} {hash : V → BitVec w} {t : RoutingTable V w}
  {vs : List V} {i : ℕ}

/-- An iterator at a stored value, or at the end where nothing is stored. -/
structure Selects (t : RoutingTable V w) (it : TableIterator) : Prop where
  atEnd_iff : it.toListIterator = t.endIterator ↔ t.values = []
  stored : it.toListIterator ≠ t.endIterator → ∃ v ∈ t.values, t.deref it.toListIterator = some v

/-- A place from which stored values are left is at one of them. -/
theorem selects_of_walk {it : TableIterator} (hwalk : t.cursor.Walk it vs)
    (hsub : ∀ v ∈ vs, v ∈ t.values) (hvs : vs = [] → t.values = []) : t.Selects it where
  atEnd_iff := by
    refine hwalk.atEnd_iff.trans ⟨hvs, fun hvalues => ?_⟩
    exact List.eq_nil_iff_forall_not_mem.mpr fun v hv => by simpa [hvalues] using hsub v hv
  stored hnot := by
    obtain ⟨v, hv, hread⟩ := hwalk.read (mt hwalk.atEnd_iff.mpr hnot)
    exact ⟨v, hsub v hv, hread⟩

theorem rest_subset {p : ℕ} (hi : i < w) {v : V} (hv : v ∈ t.rest ⟨i, p⟩) : v ∈ t.values := by
  rw [rest_of_lt hi, List.mem_append] at hv
  rw [values_split hi, List.mem_append, List.mem_append]
  exact Or.inr (hv.imp_left List.mem_of_mem_drop)

/-- The walk from `begin()` ends at a value when it is shorter than the size. -/
theorem randomFromBegin_selects [BEq V] (hw : 0 < w) (hinv : t.Invariant hash)
    (rando : RandomEngine) (n : ℕ) (hsize : t.size ≠ 0) :
    ∃ it, t.randomFromBegin (rando.draw n 0 (t.size - 1)) = some it ∧ t.Selects it := by
  have hdraw := rando.draw_le n (t.size - 1)
  have hcounted : t.size.toNat ≤ t.values.length := by
    rw [hinv.counted, BitVec.toNat_ofNat]
    exact Nat.mod_le _ _
  have hlt : (rando.draw n 0 (t.size - 1)).toNat < t.values.length := by bv_omega
  obtain ⟨it, hadvance, hwalk⟩ := (walk_begin hw).drop hlt.le
  refine ⟨it, hadvance, selects_of_walk hwalk (fun v hv => List.mem_of_mem_drop hv) ?_⟩
  exact fun hnil => absurd (List.drop_eq_nil_iff.mp hnil) (not_le.mpr hlt)

/-- Whatever is drawn, every step is in range, and the result is at a stored value or, where
nothing is stored, at the end. -/
theorem random_selects [BEq V] (hw : 0 < w) (hinv : t.Invariant hash) (rando : RandomEngine) :
    ∃ it, t.random rando = some it ∧ t.Selects it := by
  rw [random]
  split_ifs with hsize hbig
  · exact ⟨_, rfl, selects_of_walk (walk_begin hw) (fun v hv => hv) id⟩
  · have hb : (rando.draw 0 0 (BitVec.ofNat 32 (w - 1))).toNat < w :=
      (rando.toNat_draw_le 0 (w - 1)).trans_lt (by omega)
    generalize (rando.draw 0 0 (BitVec.ofNat 32 (w - 1))).toNat = b at hb
    simp only [Vector.getElem?_eq_getElem hb, Option.bind_eq_bind, Option.bind_some]
    have hdraw := rando.toNat_draw_le 1 (t.table[b].length - 1)
    split_ifs with hbucket hp hend
    · -- a value of the bucket drawn
      have hwalk := walk_makeIterator hb hp
      have hlen : 0 < t.table[b].length := List.length_pos_iff.mpr hbucket
      refine ⟨_, rfl, selects_of_walk hwalk (fun v hv => rest_subset hb hv) fun hnil => ?_⟩
      rw [rest_of_lt hb, List.append_eq_nil_iff, List.drop_eq_nil_iff] at hnil
      omega
    · have hlen : 0 < t.table[b].length := List.length_pos_iff.mpr hbucket
      omega
    · -- the first value of a later bucket
      have hwalk := walk_makeIterator hb (Nat.zero_le t.table[b].length)
      refine ⟨_, rfl, selects_of_walk hwalk (fun v hv => rest_subset hb hv) fun hnil => ?_⟩
      exact absurd (hwalk.atEnd_iff.mpr hnil) hend
    · exact randomFromBegin_selects hw hinv rando 1 hsize
  · exact randomFromBegin_selects hw hinv rando 0 hsize

/-- After any run from a new table whose origin has been set, and for any draws, `random`
takes no step out of range and gives `end()` exactly when the table is empty, and an iterator
at a stored value otherwise. -/
theorem random_valid [BEq V] (hash : V → BitVec w) (hw : 0 < w) (uninitialised : BitVec w)
    (origin : V) (rs : List (Request V w)) :
    ∃ t answers,
      run (serve hash) ((new uninitialised).setOrigin (hash origin)) rs = some (t, answers) ∧
      ∀ rando : RandomEngine, ∃ it, t.random rando = some it ∧
        (it.toListIterator = t.endIterator ↔ t.values = []) ∧
        (t.values ≠ [] → ∃ v ∈ t.values, t.deref it.toListIterator = some v) := by
  obtain ⟨t, answers, hrun, hinv, -⟩ :=
    run_new_invariant hash hw uninitialised origin rs
  refine ⟨t, answers, hrun, fun rando => ?_⟩
  obtain ⟨it, hrandom, hselects⟩ := random_selects hw hinv rando
  refine ⟨it, hrandom, hselects.atEnd_iff, fun hvalues => ?_⟩
  exact hselects.stored (mt hselects.atEnd_iff.mp hvalues)

/-- The table of 4, 25 and 1337, with the greatest draws. -/
theorem random_valid_three :
    ∃ t answers,
      run (serve id) ((new 0#32).setOrigin 0#32) [.insert 4#32, .insert 25#32, .insert 1337#32] =
        some (t, answers) ∧
      ∃ it, t.random RandomEngine.greatest = some it ∧
        (it.toListIterator = t.endIterator ↔ t.values = []) := by
  obtain ⟨t, answers, hrun, hrandom⟩ :=
    random_valid id (by decide) 0#32 0#32 [.insert 4#32, .insert 25#32, .insert 1337#32]
  obtain ⟨it, hit, hend, -⟩ := hrandom RandomEngine.greatest
  exact ⟨t, answers, hrun, it, hit, hend⟩

end RoutingTable

end Turbolib
