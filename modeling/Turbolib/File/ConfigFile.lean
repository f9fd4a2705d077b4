import Mathlib.Data.List.Lex
import Turbolib.Library.OrderedMap
import Turbolib.Serialize.Split

/-!
# Configuration files

A `ConfigFile` writes one line `key=value` for each option, through a temporary file that is
renamed when it is complete. To load, it splits each line at every equals sign and keeps the
first two tokens.

## Main definitions

* `File.save`, `StateSaver.save`, `StateSaver.load` — a file of lines.
* `ConfigFile.save`, `ConfigFile.load` — the options in such a file.
-/

namespace Turbolib

/-! ## The order of the options -/

namespace ByteOrder

/-- Strings compare by bytes, and bytes as unsigned numbers. -/
scoped instance instLinearOrderUInt8 : LinearOrder UInt8 where
  le_refl := UInt8.le_refl
  le_trans _ _ _ := UInt8.le_trans
  lt_iff_le_not_ge a b := by
    rw [UInt8.lt_iff_toNat_lt, UInt8.le_iff_toNat_le, UInt8.le_iff_toNat_le]
    omega
  le_antisymm _ _ := UInt8.le_antisymm
  le_total := UInt8.le_total
  toDecidableLE := inferInstance
  toDecidableEq := inferInstance
  toDecidableLT := inferInstance
  min_def _ _ := rfl
  max_def _ _ := rfl

end ByteOrder

open scoped ByteOrder

/-! ## Files -/

/-- The contents of each file there is, under the name the system sees. -/
abbrev Files := Text → Option Text

def Files.rename (files : Files) (src dest : Text) : Files :=
  if src = dest then files else Function.update (Function.update files dest (files src)) src none

/-- How the calls of one `File::save` turn out. -/
structure SaveCalls where
  /-- what a write that fails leaves of the file -/
  writeFailure : Option (Option Text)
  flushes : Bool
  renames : Bool
  flushesDirectory : Bool

/-- `File::save` -/
def File.save (calls : SaveCalls) (files : Files) (filename contents : Text) : Bool × Files :=
  let tempfile := filename ++ ascii "~tmp~"
  match calls.writeFailure with
  | some left => (false, Function.update files tempfile.cString left)
  | none =>
    let files : Files := Function.update files tempfile.cString (some contents)
    if !calls.flushes then (false, files)
    else if !calls.renames then (false, files)
    else (calls.flushesDirectory, Files.rename files tempfile.cString filename.cString)

/-- The lines `getline` takes off, one after the other: what is behind the last newline is a
line unless it is empty. -/
def getlines (s : Text) : List Text :=
  if s = [] then []
  else match _hfind : s.find (byte '\n') with
    | none => [s]
    | some pos => s.substr 0 pos :: getlines (s.drop (pos + 1))
termination_by s.length
decreasing_by
  have hfound := Text.find_eq_some _hfind
  rw [List.length_drop]
  omega

namespace StateSaver

/-- Each item with a newline behind it. -/
def save (calls : SaveCalls) (files : Files) (filename : Text) (items : List Text) :
    Bool × Files :=
  File.save calls files filename (items.foldl (fun out it => out ++ (it ++ [byte '\n'])) [])

/-- `loadFun` for each line of the file, if there is one. -/
def load {α : Type} (files : Files) (filename : Text) (loadFun : α → Text → α) (a : α) :
    Bool × α :=
  match files filename.cString with
  | none => (false, a)
  | some contents => (true, (getlines contents).foldl loadFun a)

end StateSaver

/-! ## The options -/

/-- `_filename` and `_config` -/
structure ConfigFile where
  filename : Text
  config : OrderedMap Text Text

namespace ConfigFile

/-- Without options yet. -/
def new (filename : Text) : ConfigFile := ⟨filename, [], .nil⟩

/-- `operator<<` for an option. -/
def line (val : Text × Text) : Text := val.1 ++ byte '=' :: val.2

def set (c : ConfigFile) (option value : Text) : ConfigFile :=
  { c with config := c.config.assign option value }

def get (c : ConfigFile) (option : Text) : Text :=
  match c.config.entries[c.config.find option]? with
  | none => []
  | some it => it.2

def loadLine (c : ConfigFile) (line : Text) : ConfigFile :=
  match split line (byte '=') with
  | key :: value :: _ => c.set key value
  | _ => c

def load (c : ConfigFile) (files : Files) : Bool × ConfigFile :=
  StateSaver.load files c.filename loadLine c

def save (c : ConfigFile) (calls : SaveCalls) (files : Files) : Bool × Files :=
  StateSaver.save calls files c.filename (c.config.entries.map line)

end ConfigFile

/-! ## What is written and read back -/

theorem Files.rename_dest {files : Files} {src dest contents : Text}
    (hsrc : files src = some contents) : Files.rename files src dest dest = some contents := by
  rw [Files.rename]
  split_ifs with hsame
  · rwa [← hsame]
  · rw [Function.update_of_ne (Ne.symm hsame), Function.update_self, hsrc]

/-- A save that succeeds leaves the contents under the name. -/
theorem File.contents_of_save {calls : SaveCalls} {files files' : Files}
    {filename contents : Text} (hsave : File.save calls files filename contents = (true, files')) :
    files' filename.cString = some contents := by
  rw [File.save] at hsave
  cases hwrite : calls.writeFailure with
  | some left => simp [hwrite] at hsave
  | none =>
    simp only [hwrite] at hsave
    split_ifs at hsave with hflush hrename
    · simp at hsave
    · simp at hsave
    · obtain rfl := (Prod.mk.inj hsave).2
      exact Files.rename_dest (Function.update_self _ _ _)

theorem getlines_append {t rest : Text} (ht : byte '\n' ∉ t) :
    getlines (t ++ byte '\n' :: rest) = t :: getlines rest := by
  rw [getlines, if_neg (by simp)]
  split
  · next hfind => simp [Text.find_append_cons ht] at hfind
  · next pos hfind =>
    obtain rfl := Option.some.inj ((Text.find_append_cons ht).symm.trans hfind)
    simp [Text.substr]

theorem getlines_flatMap {items : List Text} (hitems : ∀ it ∈ items, byte '\n' ∉ it) :
    getlines (items.flatMap (fun it => it ++ [byte '\n'])) = items := by
  induction items with
  | nil => rw [List.flatMap_nil, getlines, if_pos rfl]
  | cons it items ih =>
    obtain ⟨hit, hitems⟩ := List.forall_mem_cons.mp hitems
    rw [List.flatMap_cons, List.append_assoc, List.singleton_append, getlines_append hit, ih hitems]

/-- The items of a file that was saved come back as its lines. -/
theorem StateSaver.load_of_save {α : Type} {calls : SaveCalls} {files files' : Files}
    {filename : Text} {items : List Text} (hitems : ∀ it ∈ items, byte '\n' ∉ it)
    (hsave : StateSaver.save calls files filename items = (true, files'))
    (loadFun : α → Text → α) (a : α) :
    StateSaver.load files' filename loadFun a = (true, items.foldl loadFun a) := by
  rw [StateSaver.save, ← List.flatMap_eq_foldl] at hsave
  rw [StateSaver.load, File.contents_of_save hsave]
  simp only [getlines_flatMap hitems]

namespace ConfigFile

variable {c : ConfigFile} {e : Text × Text} {es : List (Text × Text)} {v : Text}

/-- What `loadLine` keeps of a value: the part in front of its first equals sign. -/
def kept (v : Text) : Text := (v.splitOn (byte '=')).head (List.splitOn_ne_nil _ _)

theorem kept_eq_self_iff : kept v = v ↔ byte '=' ∉ v := by
  constructor
  · intro h
    have hmem : kept v ∈ v.splitOn (byte '=') := List.head_mem _
    have hnot := not_mem_of_mem_splitOn hmem
    rwa [h] at hnot
  · intro h
    simp [kept, List.splitOn_eq_singleton h]

theorem loadLine_line (hkey : byte '=' ∉ e.1) : c.loadLine (line e) = c.set e.1 (kept e.2) := by
  obtain ⟨value, tokens, htokens⟩ :=
    List.exists_cons_of_ne_nil (List.splitOn_ne_nil (byte '=') e.2)
  have hsplit : split (line e) (byte '=') = e.1 :: value :: tokens := by
    rw [split_eq_splitOn (by simp [line]), line,
      List.splitOn_append_cons_self_of_not_mem hkey, htokens]
  simp [loadLine, hsplit, kept, htokens]

theorem foldl_loadLine (hkeys : ∀ e ∈ es, byte '=' ∉ e.1) :
    ((es.map line).foldl loadLine c).config =
      (es.map fun e => (e.1, kept e.2)).foldl (fun m d => m.assign d.1 d.2) c.config := by
  induction es generalizing c with
  | nil => rfl
  | cons e es ih =>
    obtain ⟨hkey, hkeys⟩ := List.forall_mem_cons.mp hkeys
    simp only [List.map_cons, List.foldl_cons, loadLine_line hkey, ih hkeys]
    rfl

theorem get_eq_of_mem (he : e ∈ c.config.entries) : c.get e.1 = e.2 := by
  rw [get, OrderedMap.find_entry_iff.mpr ⟨he, rfl⟩]

/-- After a load into a fresh object: the options that were saved, with what is kept of their
values. -/
theorem mem_load_iff (c : ConfigFile) (calls : SaveCalls) (files files' : Files)
    (hkeys : ∀ e ∈ c.config.entries, byte '=' ∉ e.1 ∧ byte '\n' ∉ e.1)
    (hvalues : ∀ e ∈ c.config.entries, byte '\n' ∉ e.2)
    (hsave : c.save calls files = (true, files')) :
    ((new c.filename).load files').1 = true ∧
      ∀ k v, (k, v) ∈ ((new c.filename).load files').2.config.entries ↔
        ∃ w, (k, w) ∈ c.config.entries ∧ v = kept w := by
  have hlines : ∀ it ∈ c.config.entries.map line, byte '\n' ∉ it := by
    intro it hit
    obtain ⟨e, he, rfl⟩ := List.mem_map.mp hit
    have hline := (hkeys e he).2
    have hvalue := hvalues e he
    simp only [line, List.mem_append, List.mem_cons, not_or]
    exact ⟨hline, by decide, hvalue⟩
  have hdistinct : ((c.config.entries.map fun e => (e.1, kept e.2)).map Prod.fst).Nodup := by
    rw [List.map_map]
    exact OrderedMap.nodup_keys
  have hload : (new c.filename).load files' =
      (true, (c.config.entries.map line).foldl loadLine (new c.filename)) :=
    StateSaver.load_of_save hlines hsave loadLine (new c.filename)
  rw [hload]
  refine ⟨rfl, fun k v => ?_⟩
  rw [foldl_loadLine fun e he => (hkeys e he).1, OrderedMap.mem_foldl_assign hdistinct,
    or_iff_left (by simp [new])]
  simp [eq_comm]

/-- A configuration comes back from its file exactly when no value has an equals sign in it:
every option with its value, and no other options. -/
theorem load_save_iff (c : ConfigFile) (calls : SaveCalls) (files files' : Files)
    (hkeys : ∀ e ∈ c.config.entries, byte '=' ∉ e.1 ∧ byte '\n' ∉ e.1)
    (hvalues : ∀ e ∈ c.config.entries, byte '\n' ∉ e.2)
    (hsave : c.save calls files = (true, files')) :
    (((new c.filename).load files').1 = true ∧
        (∀ e ∈ c.config.entries, ((new c.filename).load files').2.get e.1 = e.2) ∧
        ∀ e ∈ ((new c.filename).load files').2.config.entries,
          e.1 ∈ c.config.entries.map Prod.fst) ↔
      ∀ e ∈ c.config.entries, byte '=' ∉ e.2 := by
  obtain ⟨hloaded, hmem⟩ := mem_load_iff c calls files files' hkeys hvalues hsave
  have hget : ∀ e ∈ c.config.entries,
      ((new c.filename).load files').2.get e.1 = kept e.2 := fun e he =>
    get_eq_of_mem (e := (e.1, kept e.2)) ((hmem e.1 (kept e.2)).mpr ⟨e.2, he, rfl⟩)
  have hothers : ∀ e ∈ ((new c.filename).load files').2.config.entries,
      e.1 ∈ c.config.entries.map Prod.fst := by
    intro e he
    obtain ⟨w, hw, -⟩ := (hmem e.1 e.2).mp he
    exact List.mem_map.mpr ⟨(e.1, w), hw, rfl⟩
  constructor
  · rintro ⟨-, hsame, -⟩ e he
    exact kept_eq_self_iff.mp ((hget e he).symm.trans (hsame e he))
  · intro hvalue
    refine ⟨hloaded, fun e he => ?_, hothers⟩
    rw [hget e he, kept_eq_self_iff.mpr (hvalue e he)]

/-- The options of the test, in ascending order. -/
theorem load_save_iff_witness :
    let c : ConfigFile := ⟨ascii "foo.config",
      [(ascii "john", ascii "1"), (ascii "paul", [])], by decide⟩
    let files' := (c.save ⟨none, true, true, true⟩ fun _ => none).2
    ((new c.filename).load files').1 = true ∧
      (∀ e ∈ c.config.entries, ((new c.filename).load files').2.get e.1 = e.2) ∧
      ∀ e ∈ ((new c.filename).load files').2.config.entries,
        e.1 ∈ c.config.entries.map Prod.fst := by
  intro c files'
  exact (load_save_iff c ⟨none, true, true, true⟩ (fun _ => none) files' (by decide) (by decide)
    rfl).mpr (by decide)

/-- A value with an equals sign in it does not come back. -/
theorem not_load_save :
    let c : ConfigFile := ⟨ascii "foo.config", [(ascii "opt", ascii "a=b")], by decide⟩
    let saved := c.save ⟨none, true, true, true⟩ fun _ => none
    saved.1 = true ∧ ((new c.filename).load saved.2).2.get (ascii "opt") = ascii "a" ∧
      ¬∀ e ∈ c.config.entries, ((new c.filename).load saved.2).2.get e.1 = e.2 := by
  intro c saved
  have hmem := (mem_load_iff c ⟨none, true, true, true⟩ (fun _ => none) saved.2 (by decide)
    (by decide) rfl).2
  have hkept : (ascii "opt", ascii "a") ∈ ((new c.filename).load saved.2).2.config.entries :=
    (hmem _ _).mpr ⟨ascii "a=b", by decide, by decide⟩
  have hget : ((new c.filename).load saved.2).2.get (ascii "opt") = ascii "a" :=
    get_eq_of_mem hkept
  refine ⟨rfl, hget, fun hall => ?_⟩
  have hsame := hget.symm.trans (hall (ascii "opt", ascii "a=b") List.mem_cons_self)
  exact absurd hsame (by decide)

end ConfigFile

end Turbolib
