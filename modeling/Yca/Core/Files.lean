import Mathlib.Data.List.TakeDrop
import Mathlib.Logic.Function.Basic
import Mathlib.Tactic.Common

/-!
# Files replaced through a temporary sibling

A text is written to a temporary file, which is then renamed over the one to
replace.  Each operation may fail, and a stream that reports no error may still
lose what it had buffered when it is closed.

The file to replace holds what it held before, or the part of the text that had
reached the temporary file.
-/

namespace Yca
namespace Core

universe u v

/-- The contents of the files that exist. -/
abbrev Files (π : Type u) (β : Type v) : Type (max u v) :=
  π → Option (List β)

/-- How the operations of one replacement turn out. -/
structure Replacement where
  opened : Bool
  written : Bool
  /-- How much of the text has reached the file when its stream is closed. -/
  kept : Nat
  renamed : Bool
  /-- Whether the temporary file of a failed attempt could be removed. -/
  removed : Bool
  deriving DecidableEq

namespace Replacement

/-- What the replacement reports. -/
def reports (r : Replacement) : Bool :=
  r.opened && r.written && r.renamed

variable {π : Type u} {β : Type v} [DecidableEq π]

/-- Writes the text to `tmp` and renames that to `path`. -/
def replace
    (r : Replacement)
    (tmp path : π)
    (text : List β)
    (files : Files π β) : Files π β × Bool :=
  if !r.opened then (files, false)
  else
    let left := Function.update files tmp (some (text.take r.kept))
    let removed := if r.removed then Function.update left tmp none else left
    if !r.written then (removed, false)
    else if !r.renamed then (removed, false)
    else (Function.update (Function.update left path (left tmp)) tmp none, true)

/-- Whether the file to replace, with `old` in it, ends up with the whole text. -/
def Delivers (r : Replacement) (old : Option (List β)) (text : List β) : Prop :=
  if r.reports then text.length ≤ r.kept else old = some text

instance [DecidableEq β] (r : Replacement) (old : Option (List β)) (text : List β) :
    Decidable (r.Delivers old text) := by
  unfold Delivers
  infer_instance

variable {r : Replacement} {tmp path : π} {text : List β} {files : Files π β}

theorem replace_snd : (r.replace tmp path text files).2 = r.reports := by
  cases hopened : r.opened <;> cases hwritten : r.written <;> cases hrenamed : r.renamed <;>
    simp [replace, reports, hopened, hwritten, hrenamed]

/-- A failed attempt leaves at most its temporary file. -/
theorem replace_of_not_reports
    {q : π}
    (h : r.reports = false)
    (htmp : q ≠ tmp) :
    (r.replace tmp path text files).1 q = files q := by
  cases hopened : r.opened with
  | false => simp [replace, hopened]
  | true =>
      have hfailed : r.written = false ∨ r.renamed = false := by
        rw [reports, hopened, Bool.true_and] at h
        exact Bool.and_eq_false_iff.mp h
      rcases hfailed with hfailed | hfailed <;> cases hremoved : r.removed <;>
        simp [replace, hopened, hfailed, hremoved, htmp]

theorem replace_of_reports (h : r.reports = true) :
    (r.replace tmp path text files).1 =
      Function.update
        (Function.update (Function.update files tmp (some (text.take r.kept))) path
          (some (text.take r.kept)))
        tmp none := by
  simp only [reports, Bool.and_eq_true] at h
  simp [replace, h]

/-- No other file changes. -/
theorem replace_other
    {q : π}
    (hpath : q ≠ path)
    (htmp : q ≠ tmp) :
    (r.replace tmp path text files).1 q = files q := by
  cases h : r.reports with
  | false => exact replace_of_not_reports h htmp
  | true => simp [replace_of_reports h, hpath, htmp]

/-- The file to replace holds what had reached the temporary one, or stays. -/
theorem replace_path (h : path ≠ tmp) :
    (r.replace tmp path text files).1 path =
      if r.reports then some (text.take r.kept) else files path := by
  cases hreports : r.reports with
  | false => simpa using replace_of_not_reports hreports h
  | true => simp [replace_of_reports hreports, h]

/-- The file holds the whole text exactly when the replacement delivers it. -/
theorem replace_path_iff (h : path ≠ tmp) :
    (r.replace tmp path text files).1 path = some text ↔ r.Delivers (files path) text := by
  rw [replace_path h]
  unfold Delivers
  cases r.reports with
  | false => simp
  | true => simp

end Replacement

end Core
end Yca
