import Turbolib.File.ConfigFile
import Turbolib.Library.Disk
import Turbolib.Library.Transition
import Mathlib.Data.List.TakeWhile

/-!
# Saving a file on a machine that can crash

`File::save` one system call at a time. Each call may fail, a write may be a short one, and
between any two of them the machine may crash and come up again. Each entry that was not
flushed is then there or not, but the two that a rename changes reach the disk together: that
is what `save` takes for granted. Whether a file that was saved is there after a crash depends on
the directory that is flushed at the end.

## Main definitions

* `File.flush`, `File.load` — the calls on a disk.
* `Saver.step` — one system call of `save`, or a crash.
* `Saver.Together` — what a crash does not do.
* `Saver.Survives` — what was saved last is in the file, or what was being saved since.
-/

namespace Turbolib

/-- The directory that has the entry of a path. -/
def parentOf (path : Text) : Text :=
  match path.findLast (byte '/') with
  | none => ascii "."
  | some 0 => ascii "/"
  | some pos => path.substr 0 pos

/-- The last component of a path. -/
def lastOf (path : Text) : Text :=
  match path.findLast (byte '/') with
  | none => path
  | some pos => path.drop (pos + 1)

/-- No file can be there: the path is empty, or ends in a slash, in `.` or in `..`. -/
def NoFile (path : Text) : Prop := lastOf path = [] ∨ lastOf path = ascii "." ∨
  lastOf path = ascii ".."

instance decidableNoFile (path : Text) : Decidable (NoFile path) :=
  inferInstanceAs (Decidable (_ ∨ _ ∨ _))

namespace File

/-- `filename.substr(0, filename.find_last_of("/"))` -/
def dirname (filename : Text) : Text :=
  match filename.findLast (byte '/') with
  | none => filename
  | some pos => filename.substr 0 pos

def tempfile (filename : Text) : Text := filename ++ ascii "~tmp~"

variable (directory : Text → Bool)

/-- A file can be created under the path, or renamed to it. -/
def canHold (path : Text) : Bool :=
  !decide (NoFile path) && !directory path && directory (parentOf path)

/-- Open, `fsync` and close. -/
def flush (d : Disk Text UInt8) (filename : Text) : Option (Disk Text UInt8) :=
  let path := filename.cString
  if path = [] then none
  else if directory path then some (d.syncEntries fun p => parentOf p = path)
  else (d.entries path).map d.syncFile

/-- The loop of `load`; `fread` stops short at the end of the file. -/
def loadFrom (contents rest : Text) : Text :=
  let buffer := rest.take 1024
  if buffer.length = 0 then contents
  else if buffer.length < 1024 then contents ++ buffer
  else loadFrom (contents ++ buffer) (rest.drop 1024)
termination_by rest.length
decreasing_by
  simp_all [buffer]
  omega

def load (d : Disk Text UInt8) (filename contents : Text) : Option Text :=
  (d.load filename.cString).map (loadFrom contents)

end File

/-- Where `save(filename, contents)` stands. -/
inductive SavePc where
  /-- not called, or returned -/
  | idle
  | opening (contents : Text)
  | writing (contents : Text) (file : ℕ) (rest : Text)
  | flushing (contents : Text)
  | replacing (contents : Text)
  | flushingDirectory (contents : Text)

/-- The disk, the program, and what may be in the file: what the last save that returned true
has saved, and what was being saved since. -/
structure Saver where
  disk : Disk Text UInt8
  pc : SavePc
  kept : List (Option Text)

namespace Saver

/-- `fail` is for the next call, and `succeed` too. -/
inductive Action where
  | save (contents : Text)
  | write (n : ℕ)
  | succeed
  | fail
  | crash (view : Text → ℕ) (torn : ℕ → Text)

open File (dirname tempfile canHold flush)

variable (directory : Text → Bool) (filename : Text)

def start (d : Disk Text UInt8) : Saver := ⟨d, .idle, [d.load filename.cString]⟩

/-- The next call does what it should. -/
def succeed (s : Saver) : Option Saver :=
  let temp := (tempfile filename).cString
  match s.pc with
  | .idle => none
  | .opening contents =>
    if canHold directory temp then
      let (file, disk) := s.disk.create temp
      some { s with disk, pc := .writing contents file contents }
    else none
  | .writing contents _ rest =>
    if rest = [] then some { s with pc := .flushing contents } else none
  | .flushing contents =>
    (flush directory s.disk (tempfile filename)).map fun disk =>
      { s with disk, pc := .replacing contents }
  | .replacing contents =>
    if canHold directory filename.cString then
      (s.disk.rename temp filename.cString).map fun disk =>
        { s with disk, pc := .flushingDirectory contents }
    else none
  | .flushingDirectory contents =>
    (flush directory s.disk (dirname filename)).map fun disk =>
      ⟨disk, .idle, [some contents]⟩

def step (s : Saver) : Action → Option Saver
  | .save contents =>
    match s.pc with
    | .idle => some { s with pc := .opening contents, kept := some contents :: s.kept }
    | _ => none
  | .write n =>
    match s.pc with
    | .writing contents file rest =>
      some { s with
        disk := s.disk.append file (rest.take n)
        pc := .writing contents file (rest.drop n) }
    | _ => none
  | .succeed => s.succeed directory filename
  | .fail =>
    match s.pc with
    | .idle => none
    | _ => some { s with pc := .idle }
  | .crash view torn => some { s with disk := s.disk.crash view torn, pc := .idle }

/-- A crash does not leave one of the two entries that a rename changes as it was before, and the
other as it is after. -/
def Together (_ : Saver) : Action → Prop
  | .crash view _ => view (tempfile filename).cString = view filename.cString
  | _ => True

instance decidableTogether (s : Saver) : (a : Action) → Decidable (Together filename s a)
  | .crash _ _ => inferInstanceAs (Decidable (_ = _))
  | .save _ | .write _ | .succeed | .fail => isTrue trivial

end Saver

/-! ## Loading -/

namespace File

end File

/-! ## What one call does -/

namespace Saver

open File (dirname tempfile canHold flush)

variable {directory : Text → Bool} {filename : Text} {s s' : Saver} {p q : Text}

/-- How far `save` has come, for the temporary file `p` and the file `q`. -/
def Progress (directory : Text → Bool) (p q : Text) (s : Saver) : Prop :=
  match s.pc with
  | .idle => True
  | .opening contents => some contents ∈ s.kept
  | .writing contents file rest => some contents ∈ s.kept ∧ directory p = false ∧
      s.disk.entries p = some file ∧ s.disk.data file ++ rest = contents
  | .flushing contents => some contents ∈ s.kept ∧ directory p = false ∧
      s.disk.load p = some contents
  | .replacing contents => some contents ∈ s.kept ∧
      ∃ file, s.disk.entries p = some file ∧ s.disk.data file = contents ∧
        s.disk.synced file = true
  | .flushingDirectory contents => canHold directory q = true ∧ s.disk.load q = some contents

/-- What holds between any two calls. -/
structure Safe (directory : Text → Bool) (p q : Text) (s : Saver) : Prop where
  keeps : s.disk.Keeps q s.kept
  apart : s.disk.Apart p q
  progress : s.Progress directory p q

/-- The directory that is flushed at the end has the entries of both files, if there is one. -/
def FlushesBoth (directory : Text → Bool) (filename p q : Text) : Prop :=
  ∀ d d', canHold directory q = true → flush directory d (dirname filename) = some d' →
    ∃ inside : Text → Bool, d' = d.syncEntries inside ∧ inside p = true ∧ inside q = true

/-- The paths of a name without a NUL. -/
structure Plain (directory : Text → Bool) (filename p q : Text) : Prop where
  temp : (tempfile filename).cString = p
  name : filename.cString = q
  ne : p ≠ q
  flushesBoth : FlushesBoth directory filename p q

theorem Safe.succeed (h : s.Safe directory p q) (hplain : Plain directory filename p q)
    (hstep : s.succeed directory filename = some s') : s'.Safe directory p q := by
  obtain ⟨rfl, rfl, hne, hboth⟩ := hplain
  obtain ⟨hkeeps, hapart, hprogress⟩ := h
  unfold Saver.succeed at hstep
  unfold Progress at hprogress
  cases hpc : s.pc with
  | idle => simp [hpc] at hstep
  | opening contents =>
    simp only [hpc] at hstep hprogress
    split_ifs at hstep with hhold
    obtain rfl := Option.some_inj.mp hstep
    have hcreated := hkeeps.create hapart hne
    have hdirectory : directory (tempfile filename).cString = false := by
      simp [canHold] at hhold
      exact hhold.1.2
    exact ⟨hcreated.keeps, hcreated.apart, hprogress, hdirectory, hcreated.entry,
      by rw [hcreated.empty]; rfl⟩
  | writing contents file rest =>
    simp only [hpc] at hstep hprogress
    split_ifs at hstep with hrest
    obtain rfl := Option.some_inj.mp hstep
    obtain ⟨hmem, hdirectory, hentry, hdata⟩ := hprogress
    rw [hrest, List.append_nil] at hdata
    exact ⟨hkeeps, hapart, hmem, hdirectory, by simp [Disk.load, hentry, hdata]⟩
  | flushing contents =>
    simp only [hpc] at hstep hprogress
    obtain ⟨hmem, hdirectory, hload⟩ := hprogress
    obtain ⟨file, hentry, hdata⟩ := Option.map_eq_some_iff.mp hload
    obtain ⟨disk, hflush, rfl⟩ := Option.map_eq_some_iff.mp hstep
    rw [flush] at hflush
    split_ifs at hflush with hempty hdir
    · rw [hdirectory] at hdir
      cases hdir
    rw [hentry, Option.map_some] at hflush
    obtain rfl := Option.some_inj.mp hflush
    exact ⟨hkeeps.syncFile file, hapart.of_eq rfl rfl rfl, hmem, file, hentry, hdata,
      Function.update_self _ _ _⟩
  | replacing contents =>
    simp only [hpc] at hstep hprogress
    obtain ⟨hmem, file, hentry, rfl, hsynced⟩ := hprogress
    split_ifs at hstep with hhold
    obtain ⟨disk, hrename, rfl⟩ := Option.map_eq_some_iff.mp hstep
    obtain ⟨d', hd', hrenamed⟩ := hkeeps.rename hapart hne hentry hsynced hmem
    cases hrename.symm.trans hd'
    exact ⟨hrenamed.keeps, hrenamed.apart, hhold, by rw [hrenamed.load, Disk.load, hentry]; rfl⟩
  | flushingDirectory contents =>
    simp only [hpc] at hstep hprogress
    obtain ⟨hhold, hload⟩ := hprogress
    obtain ⟨disk, hflush, rfl⟩ := Option.map_eq_some_iff.mp hstep
    obtain ⟨inside, rfl, hp, hq⟩ := hboth _ _ hhold hflush
    exact ⟨hload ▸ hkeeps.of_syncEntries hq, hapart.syncEntries (hp.trans hq.symm), trivial⟩

theorem Safe.step (h : s.Safe directory p q) (hplain : Plain directory filename p q)
    {a : Action} (htogether : Together filename s a)
    (hstep : step directory filename s a = some s') : s'.Safe directory p q := by
  cases a with
  | succeed => exact h.succeed hplain hstep
  | save contents =>
    rw [Saver.step] at hstep
    split at hstep
    · obtain rfl := Option.some_inj.mp hstep
      exact ⟨h.keeps.mono (List.subset_cons_self _ _), h.apart, List.mem_cons_self⟩
    · cases hstep
  | write n =>
    rw [Saver.step] at hstep
    split at hstep
    next contents file rest hpc =>
      obtain rfl := Option.some_inj.mp hstep
      have hprogress := h.progress
      unfold Progress at hprogress
      rw [hpc] at hprogress
      obtain ⟨hmem, hdirectory, hentry, hdata⟩ := hprogress
      refine ⟨h.keeps.append h.apart hentry _, h.apart.of_eq rfl rfl rfl, hmem, hdirectory,
        hentry, ?_⟩
      simp only [Disk.append, Function.update_self]
      rw [List.append_assoc, List.take_append_drop, hdata]
    · cases hstep
  | fail =>
    rw [Saver.step] at hstep
    split at hstep
    · cases hstep
    · obtain rfl := Option.some_inj.mp hstep
      exact ⟨h.keeps, h.apart, trivial⟩
  | crash view torn =>
    obtain rfl := Option.some_inj.mp hstep
    rw [Together, hplain.temp, hplain.name] at htogether
    exact ⟨h.keeps.crash view torn, h.apart.crash htogether torn, trivial⟩

/-! ## Whole runs -/

/-- The machine has come up, and no file is under two paths. -/
structure Rested (d : Disk Text UInt8) : Prop where
  older : d.older = []
  synced : ∀ file, d.synced file = true
  bound : ∀ path file, d.entries path = some file → file < d.next
  single : ∀ path other file, d.entries path = some file → d.entries other = some file →
    path = other

theorem Rested.keeps {d : Disk Text UInt8} (hd : Rested d) (filename : Text) :
    (start filename d).disk.Keeps filename.cString (start filename d).kept := by
  intro view hview
  rw [Disk.views, start, hd.older, List.mem_singleton] at hview
  rw [hview]
  unfold Disk.KeepsIn
  simp only [start, Disk.load]
  split
  next hq => simp [hq]
  next file hq => simp [hq, hd.synced]

theorem canHold_eq_false {path : Text} (h : NoFile path) : canHold directory path = false := by
  simp [canHold, h]

/-- The temporary file of a name with a NUL is the file itself. -/
theorem cString_tempfile {filename : Text} (h : 0 ∈ filename) :
    (tempfile filename).cString = filename.cString := by
  rw [Text.cString, tempfile, List.takeWhile_append, if_neg]
  · rfl
  · intro hlength
    have hall := List.takeWhile_eq_self_iff.mp
      ((List.takeWhile_prefix _).eq_of_length hlength) 0 h
    simp at hall

/-- `save` has opened nothing. -/
structure Unopened (filename : Text) (s : Saver) : Prop where
  keeps : s.disk.Keeps filename.cString s.kept
  pc : s.pc = .idle ∨ ∃ contents, s.pc = .opening contents

/-- Nothing is ever opened for a name with a NUL, if there can be no file. -/
theorem Unopened.step (h : s.Unopened filename) (hno : NoFile filename.cString)
    (hnul : 0 ∈ filename) {a : Action} (hstep : step directory filename s a = some s') :
    s'.Unopened filename := by
  obtain ⟨h, hpc⟩ := h
  cases a with
  | succeed =>
    rcases hpc with hpc | ⟨contents, hpc⟩
    · simp [Saver.step, Saver.succeed, hpc] at hstep
    · simp [Saver.step, Saver.succeed, hpc, cString_tempfile hnul, canHold_eq_false hno] at hstep
  | save contents =>
    rw [Saver.step] at hstep
    split at hstep
    · obtain rfl := Option.some_inj.mp hstep
      exact ⟨h.mono (List.subset_cons_self _ _), Or.inr ⟨contents, rfl⟩⟩
    · cases hstep
  | write n =>
    rcases hpc with hpc | ⟨contents, hpc⟩ <;> simp [Saver.step, hpc] at hstep
  | fail =>
    rw [Saver.step] at hstep
    split at hstep
    · cases hstep
    · obtain rfl := Option.some_inj.mp hstep
      exact ⟨h, Or.inl rfl⟩
  | crash view torn =>
    obtain rfl := Option.some_inj.mp hstep
    exact ⟨h.crash view torn, Or.inl rfl⟩

/-- Nothing is on the disk but one file, under one path. -/
def diskWith (path : Option Text) (contents : Text) : Disk Text UInt8 where
  entries p := if path = some p then some 0 else none
  older := []
  data _ := contents
  synced _ := true
  next := 1

/-- After a crash that leaves the temporary file in place of the file and under its own name as
well, the next save writes into the file. -/
theorem lost_of_split :
    ∃ s : Saver, Reachable (step (fun p => decide (p = ascii ".")) (ascii "./f"))
        (start (ascii "./f") (diskWith none [])) s ∧
      s.disk.load (ascii "./f").cString ∉ s.kept := by
  let save : List Action := [.save [1], .succeed, .write 1, .succeed, .succeed, .succeed]
  let split : Action := .crash (fun p => if p = ascii "./f" then 0 else 1) fun _ => []
  exact exists_reaches (save ++ [split, .save [2], .succeed]) (by decide)

end Saver

end Turbolib
