import BhtBhte.Lib.Files
import BhtBhte.Lib.Runs

/-!
# Writing a database file

`writeJSONFile` writes a temporary file and renames it.  When the renaming fails it removes the old
file and tries again; when that fails as well, neither the old content nor the new one is left.
`writeJSONFile_survives_iff` is this one course of events.
-/
namespace BhtBhte.Node

open BhtBhte.Lib

/-- How the calls of one write go: the encoding and its error, the write, the first renaming, the
removal of the old file, the second renaming and the removal of the temporary file. -/
structure Course (D : Type) where
  data : Except String D
  write : WriteOutcome D
  rename : Bool
  removeOld : Bool
  renameAgain : Bool
  removeTemporary : Bool

variable {D : Type}

/-- The file that is written first. -/
def temporary (path : String) : String := path ++ ".tmp"

/-- The renaming, tried again after the old file is removed.  The texts of the errors of the file
system are shortened. -/
def renameOver (path : String) (course : Course D) (fs : FileSystem String D) :
    Except String Unit × FileSystem String D :=
  let tmp := temporary path
  let renamed := fs.rename course.rename tmp path
  if !renamed.1 then
    let removed := renamed.2.remove course.removeOld path
    let again := removed.2.rename course.renameAgain tmp path
    if !again.1 then (.error "rename", (again.2.remove course.removeTemporary tmp).2)
    else (.ok (), again.2)
  else (.ok (), renamed.2)

/-- Write a temporary file and rename it; when that fails, remove the old one and try again. -/
def writeJSONFile (path : String) (course : Course D) (fs : FileSystem String D) :
    Except String Unit × FileSystem String D :=
  match course.data with
  | .error e => (.error e, fs)
  | .ok data =>
    let written := fs.write course.write (temporary path) data
    if !written.1 then (.error "open or write", written.2)
    else renameOver path course written.2

/-- An error leaves the previous content of the file, and without an error it has the new one. -/
def Survives (path : String) (course : Course D) (fs : FileSystem String D) : Prop :=
  match (writeJSONFile path course fs).1 with
  | .error _ => (writeJSONFile path course fs).2 path = fs path
  | .ok _ => ∃ data, course.data = .ok data ∧ (writeJSONFile path course fs).2 path = some data

/-- There is a file, the new content is written, it cannot be renamed, the file is removed, and it
cannot be renamed again. -/
structure Loses (path : String) (course : Course D) (fs : FileSystem String D) : Prop where
  exists_old : (fs path).isSome = true
  encoded : ∃ data, course.data = .ok data
  written : course.write = .done
  rename : course.rename = false
  removeOld : course.removeOld = true
  renameAgain : course.renameAgain = false

theorem temporary_ne (path : String) : temporary path ≠ path := by
  intro h
  have hlength := congrArg (fun s => s.toList.length) h
  simp [temporary] at hlength

variable {path : String} {course : Course D} {fs : FileSystem String D}

/-- A written file gets to its path when one of the renamings works; else the old file is removed
or stays. -/
theorem renameOver_cases (course : Course D) {data : D} (h : fs (temporary path) = some data) :
    ((course.rename = true ∨ course.renameAgain = true) ∧
        (renameOver path course fs).1 = .ok () ∧
        (renameOver path course fs).2 path = some data) ∨
      (course.rename = false ∧ course.renameAgain = false) ∧
        (∃ e, (renameOver path course fs).1 = .error e) ∧
        (renameOver path course fs).2 path = if course.removeOld then none else fs path := by
  have hfirst : (fs.rename course.rename (temporary path) path).1 = course.rename :=
    FileSystem.fst_rename h
  rw [renameOver]
  dsimp only
  rw [hfirst]
  cases hrename : course.rename with
  | true =>
      rw [hrename] at hfirst
      exact .inl ⟨.inl rfl, rfl, (FileSystem.rename_dst hfirst).trans h⟩
  | false =>
      rw [hrename] at hfirst
      rw [FileSystem.rename_of_fails hfirst]
      have hkept : (fs.remove course.removeOld path).2 (temporary path) = some data :=
        (FileSystem.remove_of_ne (temporary_ne path)).trans h
      have hsecond : (((fs.remove course.removeOld path).2.rename course.renameAgain
          (temporary path) path).1) = course.renameAgain := FileSystem.fst_rename hkept
      rw [hsecond]
      cases hagain : course.renameAgain with
      | true =>
          rw [hagain] at hsecond
          exact .inl ⟨.inr rfl, rfl, (FileSystem.rename_dst hsecond).trans hkept⟩
      | false =>
          rw [hagain] at hsecond
          refine .inr ⟨⟨rfl, rfl⟩, ⟨_, rfl⟩, ?_⟩
          rw [FileSystem.rename_of_fails hsecond]
          exact (FileSystem.remove_of_ne (temporary_ne path).symm).trans FileSystem.remove_self

/-- The new content is at the path, or the old one is and the write fails, or the file is lost. -/
theorem writeJSONFile_cases (path : String) (course : Course D) (fs : FileSystem String D) :
    (∃ data, course.data = .ok data ∧ (writeJSONFile path course fs).1 = .ok () ∧
        (writeJSONFile path course fs).2 path = some data ∧ ¬ Loses path course fs) ∨
      (∃ e, (writeJSONFile path course fs).1 = .error e) ∧
        ((writeJSONFile path course fs).2 path = fs path ∧ ¬ Loses path course fs ∨
          (writeJSONFile path course fs).2 path = none ∧ Loses path course fs) := by
  have hne := (temporary_ne path).symm
  rw [writeJSONFile]
  cases hdata : course.data with
  | error e =>
      refine .inr ⟨⟨e, rfl⟩, .inl ⟨rfl, fun h => ?_⟩⟩
      obtain ⟨data, hok⟩ := h.encoded
      cases hdata.symm.trans hok
  | ok data =>
      cases hwrite : course.write with
      | fails left =>
          have hold : (fs.write (.fails left) (temporary path) data).2 path = fs path :=
            FileSystem.write_of_ne hne
          refine .inr ⟨⟨_, rfl⟩, .inl ⟨hold, fun h => ?_⟩⟩
          cases hwrite.symm.trans h.written
      | done =>
          have htemporary : (fs.write .done (temporary path) data).2 (temporary path) = some data :=
            FileSystem.write_done
          have hold : (fs.write .done (temporary path) data).2 path = fs path :=
            FileSystem.write_of_ne hne
          rcases renameOver_cases course htemporary with
            ⟨hworks, hok, hnew⟩ | ⟨⟨hrename, hagain⟩, herror, hpath⟩
          · refine .inl ⟨data, rfl, hok, hnew, fun h => ?_⟩
            rw [h.rename, h.renameAgain] at hworks
            simp at hworks
          · refine .inr ⟨herror, ?_⟩
            rw [hold] at hpath
            cases hremove : course.removeOld with
            | false =>
                rw [hremove] at hpath
                refine .inl ⟨hpath, fun h => ?_⟩
                cases hremove.symm.trans h.removeOld
            | true =>
                rw [hremove] at hpath
                cases hfile : fs path with
                | none =>
                    refine .inl ⟨hpath, fun h => ?_⟩
                    cases (congrArg Option.isSome hfile).symm.trans h.exists_old
                | some old =>
                    exact .inr ⟨hpath, congrArg Option.isSome hfile, ⟨data, hdata⟩, hwrite, hrename,
                      hremove, hagain⟩

/-- **An error leaves the old content and success the new one, unless the one course of events
occurs.** -/
theorem writeJSONFile_survives_iff (path : String) (course : Course D) (fs : FileSystem String D) :
    Survives path course fs ↔ ¬ Loses path course fs := by
  rw [Survives]
  rcases writeJSONFile_cases path course fs with
    ⟨data, hdata, hok, hnew, hkept⟩ | ⟨⟨e, herror⟩, ⟨hold, hkept⟩ | ⟨hnone, hlost⟩⟩
  · rw [hok]
    exact iff_of_true ⟨data, hdata, hnew⟩ hkept
  · rw [herror]
    exact iff_of_true hold hkept
  · rw [herror]
    refine iff_of_false (fun hold => ?_) (not_not.mpr hlost)
    have hsome := hlost.exists_old
    rw [← hold, hnone] at hsome
    cases hsome

/-- A course that loses its file. -/
def losing : Course ℕ where
  data := .ok 2
  write := .done
  rename := false
  removeOld := true
  renameAgain := false
  removeTemporary := true

/-- A data directory with one file. -/
def oneFile : FileSystem String ℕ := fun p => if p = "state.json" then some 1 else none

/-- Two failures with a removal between them leave no file. -/
theorem not_survives_losing :
    oneFile "state.json" = some 1 ∧
      (writeJSONFile "state.json" losing oneFile).1 = .error "rename" ∧
      (writeJSONFile "state.json" losing oneFile).2 "state.json" = none ∧
      ¬ Survives "state.json" losing oneFile := by
  have herror : (writeJSONFile "state.json" losing oneFile).1 = .error "rename" := by decide
  have hnone : (writeJSONFile "state.json" losing oneFile).2 "state.json" = none := by decide
  have hone : oneFile "state.json" = some 1 := by decide
  refine ⟨hone, herror, hnone, fun h => ?_⟩
  rw [Survives, herror] at h
  cases hnone.symm.trans (h.trans hone)

/-! ## Many writes -/

theorem renameOver_of_ne {p : String} (hpath : p ≠ path) (htemporary : p ≠ temporary path) :
    (renameOver path course fs).2 p = fs p := by
  rw [renameOver]
  dsimp only
  have hremoved : ∀ fs' : FileSystem String D, fs' p = fs p →
      ((fs'.remove course.removeOld path).2.rename course.renameAgain (temporary path) path).2 p =
        fs p := by
    intro fs' h
    rw [FileSystem.rename_of_ne htemporary hpath, FileSystem.remove_of_ne hpath, h]
  have hrenamed : (fs.rename course.rename (temporary path) path).2 p = fs p :=
    FileSystem.rename_of_ne htemporary hpath
  split_ifs
  · exact (FileSystem.remove_of_ne htemporary).trans (hremoved _ hrenamed)
  · exact hremoved _ hrenamed
  · exact hrenamed

/-- A write touches its file and its temporary file. -/
theorem writeJSONFile_of_ne {p : String} (hpath : p ≠ path) (htemporary : p ≠ temporary path) :
    (writeJSONFile path course fs).2 p = fs p := by
  rw [writeJSONFile]
  cases course.data with
  | error e => rfl
  | ok data =>
      have hwritten : (fs.write course.write (temporary path) data).2 p = fs p :=
        FileSystem.write_of_ne htemporary
      dsimp only
      split_ifs
      · exact hwritten
      · exact (renameOver_of_ne hpath htemporary).trans hwritten

/-- One of the writes of `save`; its error is ignored. -/
def execWrite (op : String × Course D) (fs : FileSystem String D) : FileSystem String D :=
  (writeJSONFile op.1 op.2 fs).2

theorem isSome_execWrite {p : String} {op : String × Course D} (htemporary : p ≠ temporary op.1)
    (hkept : ¬ Loses op.1 op.2 fs) (h : (fs p).isSome = true) :
    (execWrite op fs p).isSome = true := by
  by_cases hpath : p = op.1
  · subst hpath
    rcases writeJSONFile_cases op.1 op.2 fs with
      ⟨data, -, -, hnew, -⟩ | ⟨-, ⟨hold, -⟩ | ⟨-, hlost⟩⟩
    · rw [execWrite, hnew]
      rfl
    · rwa [execWrite, hold]
    · exact absurd hlost hkept
  · rwa [execWrite, writeJSONFile_of_ne hpath htemporary]

/-- **A run of writes in which the one course of events does not occur loses no file.** -/
theorem isSome_run {p : String} {ops : List (String × Course D)}
    (hkept : Allowed execWrite (fun fs op => p ≠ temporary op.1 ∧ ¬ Loses op.1 op.2 fs) ops fs)
    (h : (fs p).isSome = true) : (runOps execWrite ops fs p).isSome = true :=
  run_induction (P := fun fs : FileSystem String D => (fs p).isSome = true)
    (fun _ _ h hop => isSome_execWrite hop.1 hop.2 h) h hkept

/-- The files of the data directory; one without a name is not written. -/
structure DataFiles where
  stateFile : String
  chainFile : String
  stateDBFile : String
  historyFile : String
  trieFile : String

/-- The writes of `save`, each with its course. -/
def DataFiles.writes (files : DataFiles) (state chain stateDB history trie : Course D) :
    List (String × Course D) :=
  (files.stateFile, state) ::
    [(files.chainFile, chain), (files.stateDBFile, stateDB), (files.historyFile, history),
      (files.trieFile, trie)].filter fun op => op.1 ≠ ""

/-- Write the five files, one after the other. -/
def DataFiles.save (files : DataFiles) (state chain stateDB history trie : Course D)
    (fs : FileSystem String D) : FileSystem String D :=
  runOps execWrite (files.writes state chain stateDB history trie) fs

/-- A save in which no write loses its file loses no database file. -/
theorem isSome_save {p : String} {files : DataFiles} {state chain stateDB history trie : Course D}
    (hkept : Allowed execWrite (fun fs op => p ≠ temporary op.1 ∧ ¬ Loses op.1 op.2 fs)
      (files.writes state chain stateDB history trie) fs)
    (h : (fs p).isSome = true) : (files.save state chain stateDB history trie fs p).isSome = true :=
  isSome_run hkept h

end BhtBhte.Node
