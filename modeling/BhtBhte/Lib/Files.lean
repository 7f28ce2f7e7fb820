import Mathlib.Logic.Function.Basic
import Mathlib.Tactic.Common

/-!
# Files whose operations may fail

A file system gives every path the content of the file there, if there is one.  Each operation is
told how it goes.  A write that fails may leave anything at its own path; a rename or a removal
that fails leaves everything as it was, and both fail when there is no file.
-/
namespace BhtBhte.Lib

variable {P D : Type} [DecidableEq P]

/-- Files by their paths. -/
abbrev FileSystem (P D : Type) := P → Option D

/-- How a write goes, and what it leaves when it fails. -/
inductive WriteOutcome (D : Type) where
  | done
  | fails (left : Option D)

namespace FileSystem

/-- Write a file; the outcome says how much of it arrives when this fails. -/
def write (outcome : WriteOutcome D) (path : P) (data : D) (fs : FileSystem P D) :
    Bool × FileSystem P D :=
  match outcome with
  | .done => (true, Function.update fs path (some data))
  | .fails left => (false, Function.update fs path left)

/-- The file at `dst` is replaced at once. -/
def rename (works : Bool) (src dst : P) (fs : FileSystem P D) : Bool × FileSystem P D :=
  if works && (fs src).isSome then
    (true, fun p => if p = dst then fs src else if p = src then none else fs p)
  else (false, fs)

/-- Remove a file, when that works. -/
def remove (works : Bool) (path : P) (fs : FileSystem P D) : Bool × FileSystem P D :=
  if works && (fs path).isSome then (true, Function.update fs path none) else (false, fs)

variable {outcome : WriteOutcome D} {works : Bool} {path src dst p : P} {data : D}
  {fs : FileSystem P D}

theorem write_done : (fs.write .done path data).2 path = some data := Function.update_self path _ fs

theorem write_of_ne (h : p ≠ path) : (fs.write outcome path data).2 p = fs p := by
  cases outcome with
  | done => exact Function.update_of_ne h _ _
  | fails left => exact Function.update_of_ne h _ _

theorem rename_of_ne (hsrc : p ≠ src) (hdst : p ≠ dst) : (fs.rename works src dst).2 p = fs p := by
  rw [rename]
  split_ifs
  · simp [hsrc, hdst]
  · rfl

/-- A file that is there is renamed when that works. -/
theorem fst_rename (h : fs src = some data) : (fs.rename works src dst).1 = works := by
  rw [rename, h]
  cases works with
  | false => rfl
  | true => rfl

theorem rename_dst (h : (fs.rename works src dst).1 = true) :
    (fs.rename works src dst).2 dst = fs src := by
  rw [rename] at h ⊢
  split_ifs at h ⊢
  exact if_pos rfl

theorem rename_of_fails (h : (fs.rename works src dst).1 = false) :
    (fs.rename works src dst).2 = fs := by
  rw [rename] at h ⊢
  split_ifs at h ⊢
  rfl

theorem remove_of_ne (h : p ≠ path) : (fs.remove works path).2 p = fs p := by
  rw [remove]
  split_ifs
  · exact Function.update_of_ne h _ _
  · rfl

theorem remove_self : (fs.remove works path).2 path = if works then none else fs path := by
  rw [remove]
  cases works with
  | false => rfl
  | true =>
      cases hpath : fs path with
      | none => exact hpath
      | some data => exact Function.update_self path none fs

end FileSystem

end BhtBhte.Lib
