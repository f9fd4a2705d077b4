import Turbolib.Library.Assignment
import Turbolib.Serialize.Str

/-!
# Fields in a map of strings

`DEFINE_SERIALIZE_MAP` gives a class `save` and `load` over some of its members: each is
written under its name with `str`, and read with `fromStr` where the map has its name.

## Main definitions

* `SerializeMap.Object` — an object of a class, which the types of its members stand for.
* `SerializeMap.save`, `SerializeMap.load` — the generated functions.
-/

namespace Turbolib

namespace SerializeMap

/-- The members of an object by their names. -/
abbrev Object (types : Text → FieldType) := (n : Text) → (types n).Value

variable {types : Text → FieldType} {fields : List Text} {n : Text}

/-- `SAVE_MAP_ELEM` -/
def saveElem (obj : Object types) (map : Text → Option Text) (n : Text) : Text → Option Text :=
  Function.update map n (some (str (types n) (obj n)))

/-- `LOAD_MAP_ELEM` -/
def loadElem (map : Text → Option Text) (obj : Object types) (n : Text) : Object types :=
  match map n with
  | none => obj
  | some second => Function.update obj n (fromStr (types n) (obj n) second).1

def save (fields : List Text) (obj : Object types) (map : Text → Option Text) :
    Text → Option Text :=
  fields.foldl (saveElem obj) map

def load (fields : List Text) (map : Text → Option Text) (obj : Object types) : Object types :=
  fields.foldl (loadElem map) obj

end SerializeMap

/-! ## One value -/

/-- What a value is after it was written and read. -/
def FieldType.readBack : (t : FieldType) → t.Value → t.Value
  | .bool, _ => false
  | .int, val => val
  | .unsigned, val => val
  | .longLong, val => val
  | .string, val => val

/-- The value `true` of a `bool`. -/
def FieldType.IsTrue : (t : FieldType) → t.Value → Prop
  | .bool, val => val = true
  | _, _ => False

theorem FieldType.readBack_eq_self_iff (t : FieldType) (val : t.Value) :
    t.readBack val = val ↔ ¬t.IsTrue val := by
  cases t with
  | bool =>
    have hbool : ∀ b : Bool, false = b ↔ ¬b = true := by decide
    exact hbool val
  | _ => exact iff_of_true rfl not_false

/-- The words for a `bool` are no numbers, so both are read as zero. -/
theorem fromStr_bool (var val : Bool) : (fromStr .bool var (str .bool val)).1 = false := by
  cases val <;> rfl

/-- What is written is read back whatever the variable holds. -/
theorem fromStr_str (t : FieldType) (var val : t.Value) :
    (fromStr t var (str t val)).1 = t.readBack val := by
  have hint : ∀ n : ℤ, ∀ t : FieldType, t ≠ .string → ∀ var : t.Value,
      fromStr t var (Numeral.writeInt 10 n) = extract t (Numeral.writeInt 10 n) := by
    intro n t ht var
    have hblank := Numeral.dropWhile_isspace_writeInt (b := 10) (by omega) (by omega) n
    rw [fromStr, if_neg ht, hblank, if_neg (Numeral.writeInt_ne_nil n),
      if_neg (Numeral.writeInt_ne_nil n)]
  cases t with
  | bool => exact fromStr_bool var val
  | int =>
    have hlt := Int32.toInt_lt val
    have hread : (extract .int (Numeral.writeInt 10 (Int32.toInt val))).1 = val := by
      rw [extract, extractInt_writeInt (Int32.le_toInt val) (by omega)]
      exact Int32.ofInt_toInt val
    exact (congrArg Prod.fst (hint _ .int (by decide) var)).trans hread
  | unsigned =>
    have hlt := UInt32.toNat_lt val
    have hread : (extract .unsigned (Numeral.writeInt 10 (UInt32.toNat val))).1 = val := by
      rw [extract, extractInt_writeInt (by omega) (by omega)]
      exact UInt32.ofNat_toNat
    exact (congrArg Prod.fst (hint _ .unsigned (by decide) var)).trans hread
  | longLong =>
    have hlt := Int64.toInt_lt val
    have hread : (extract .longLong (Numeral.writeInt 10 (Int64.toInt val))).1 = val := by
      rw [extract, extractInt_writeInt (Int64.le_toInt val) (by omega)]
      exact Int64.ofInt_toInt val
    exact (congrArg Prod.fst (hint _ .longLong (by decide) var)).trans hread
  | string => rfl

/-! ## All fields -/

namespace SerializeMap

variable {types : Text → FieldType} {fields : List Text} {n : Text}
  {map : Text → Option Text} {x y : Object types}

theorem save_eq_assignAll :
    save fields x map = assignAll map (fields.map fun n => (n, str (types n) (x n))) := by
  rw [save, assignAll, List.foldl_map]
  rfl

theorem save_apply (hn : n ∈ fields) : save fields x map n = some (str (types n) (x n)) := by
  rw [save_eq_assignAll]
  have hkey : n ∈ (fields.map fun n => (n, str (types n) (x n))).map Prod.fst := by simpa using hn
  obtain ⟨s, hs, hmem⟩ := assignAll_of_mem (m := map) hkey
  obtain ⟨n', -, heq⟩ := List.mem_map.mp hmem
  obtain ⟨rfl, rfl⟩ := Prod.mk.inj heq
  exact hs

/-- A field that is not listed is not touched. -/
theorem load_of_not_mem (hn : n ∉ fields) : load fields map y n = y n := by
  induction fields generalizing y with
  | nil => rfl
  | cons n' fields ih =>
    obtain ⟨hne, hn⟩ : n ≠ n' ∧ n ∉ fields := by simpa using hn
    rw [load, List.foldl_cons]
    refine (ih hn).trans ?_
    rw [loadElem]
    cases map n' with
    | none => rfl
    | some second => exact Function.update_of_ne hne _ _

/-- A listed field has what is read from its text, when that does not depend on the field. -/
theorem load_apply {s : Text} {w : (types n).Value} (hn : n ∈ fields) (hs : map n = some s)
    (hw : ∀ var, (fromStr (types n) var s).1 = w) : load fields map y n = w := by
  induction fields generalizing y with
  | nil => simp at hn
  | cons n' fields ih =>
    by_cases hlast : n ∈ fields
    · exact ih hlast
    · obtain rfl : n = n' := (List.mem_cons.mp hn).resolve_right hlast
      rw [load, List.foldl_cons]
      refine (load_of_not_mem hlast).trans ?_
      rw [loadElem, hs]
      exact (Function.update_self _ _ _).trans (hw (y n))

/-- A field that was saved is loaded with what is read back of it. -/
theorem load_save (x y : Object types) (map : Text → Option Text) (hn : n ∈ fields) :
    load fields (save fields x map) y n = (types n).readBack (x n) :=
  load_apply hn (save_apply hn) fun var => fromStr_str (types n) var (x n)

/-- Every listed field comes back exactly when no listed `bool` is true. -/
theorem saved_fields_iff (types : Text → FieldType) (fields : List Text) (x y : Object types) :
    (∀ n ∈ fields, load fields (save fields x fun _ => none) y n = x n) ↔
      ∀ n ∈ fields, ¬(types n).IsTrue (x n) := by
  refine forall₂_congr fun n hn => ?_
  rw [load_save x y _ hn, FieldType.readBack_eq_self_iff]

/-- A flag that is set is loaded as not set. -/
theorem not_saved_flag :
    let x : Object fun _ => .bool := fun _ => true
    ¬∀ y : Object fun _ => .bool,
      load [ascii "flag"] (save [ascii "flag"] x fun _ => none) y (ascii "flag") =
        x (ascii "flag") := by
  intro x hall
  have hload := load_save x x (fun _ => none) (List.mem_singleton.mpr (Eq.refl (ascii "flag")))
  have hfalse : false = true := hload.symm.trans (hall x)
  simp at hfalse

end SerializeMap

end Turbolib
