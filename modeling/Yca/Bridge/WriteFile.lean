import Yca.Bridge.Delivery

/-!
# Writing a file

`write_file` writes a temporary sibling and renames it over the file.  Whether the text
has been taken is asked before the stream is closed; what the stream still holds then
reaches the file on closing, and an error of that is not seen.

So the file is never half replaced, but what replaces it may lack its end.
-/

namespace Yca
namespace Bridge

open Yca.Core

section Steps

/-- What one operation of `write_file` does to the files. -/
inductive FileOp
  /-- Opens the temporary file, which truncates it. -/
  | create
  /-- `set_perms`: a failure is only warned about. -/
  | setPerms (ok : Bool)
  /-- The first `n` bytes of the text have reached the temporary file. -/
  | reach (n : Nat)
  | rename
  | remove (ok : Bool)
  deriving DecidableEq

def FileOp.run (path : String) (text : List UInt8) (files : Files String UInt8) :
    FileOp → Files String UInt8
  | create => Function.update files (temporary path) (some [])
  | setPerms _ => files
  | reach n => Function.update files (temporary path) (some (text.take n))
  | rename =>
      Function.update (Function.update files path (files (temporary path))) (temporary path) none
  | remove ok => if ok then Function.update files (temporary path) none else files

/-- How the operations of one call turn out. -/
structure Attempt where
  opened : Bool
  firstPerms : Bool
  /-- What has reached the file when the stream is asked whether it is good. -/
  flushed : Nat
  good : Bool
  /-- What has reached it when the stream is closed. -/
  kept : Nat
  secondPerms : Bool
  renamed : Bool
  removed : Bool

/-- The operations a call performs, and what it returns after them. -/
def Attempt.plan (a : Attempt) : List FileOp × Bool :=
  if !a.opened then ([], false)
  else
    let writing := [.create, .setPerms a.firstPerms, .reach a.flushed, .reach a.kept]
    if !a.good then (writing ++ [.remove a.removed], false)
    else
      let closed := writing ++ [.setPerms a.secondPerms]
      if !a.renamed then (closed ++ [.remove a.removed], false)
      else (closed ++ [.rename], true)

/-- `write_file`, by a process that is stopped after some operations or not at all.
Only the latter returns. -/
def writeFile
    (a : Attempt)
    (stop : Option Nat)
    (path : String)
    (text : List UInt8)
    (files : Files String UInt8) : Files String UInt8 × Option Bool :=
  match stop with
  | none => (a.plan.1.foldl (FileOp.run path text) files, some a.plan.2)
  | some k => ((a.plan.1.take k).foldl (FileOp.run path text) files, none)

/-- `revoke` from the write of the CRL on: `COMMIT` comes after it, if the operations
between succeed. -/
def writeThenCommit
    (a : Attempt)
    (stop : Option Nat)
    (between : Bool)
    (path : String)
    (text : List UInt8)
    (files : Files String UInt8) : Files String UInt8 × Bool :=
  let written := writeFile a stop path text files
  (written.1, written.2 == some true && between)

end Steps

section Effects

variable {a : Attempt} {path : String} {text : List UInt8} {files : Files String UInt8}

theorem ne_temporary (path : String) : path ≠ temporary path := by
  intro h
  have hlength := congrArg (fun s => s.toList.length) h
  simp [temporary] at hlength

/-- Nothing but the rename touches the file. -/
theorem FileOp.run_path {op : FileOp} (h : op ≠ .rename) : op.run path text files path = files path := by
  have hne := ne_temporary path
  cases op with
  | create => simp [run, hne]
  | setPerms ok => rfl
  | reach n => simp [run, hne]
  | rename => exact absurd rfl h
  | remove ok => cases ok <;> simp [run, hne]

theorem foldl_run_path {ops : List FileOp} (h : .rename ∉ ops) :
    ops.foldl (FileOp.run path text) files path = files path := by
  induction ops generalizing files with
  | nil => rfl
  | cons op ops ih =>
      simp only [List.mem_cons, not_or] at h
      rw [List.foldl_cons, ih h.2]
      exact FileOp.run_path (Ne.symm h.1)

/-- The operations before a rename. -/
def Attempt.closing (a : Attempt) : List FileOp :=
  [.create, .setPerms a.firstPerms, .reach a.flushed, .reach a.kept, .setPerms a.secondPerms]

/-- A call gets as far as the rename, or neither renames nor returns true. -/
theorem Attempt.plan_cases (a : Attempt) :
    (a.opened = true ∧ a.good = true ∧ a.renamed = true ∧ a.plan = (a.closing ++ [.rename], true)) ∨
      ((a.opened && a.good && a.renamed) = false ∧ .rename ∉ a.plan.1 ∧ a.plan.2 = false) := by
  cases hopened : a.opened with
  | false => exact Or.inr (by simp [plan, hopened])
  | true =>
      cases hgood : a.good with
      | false => exact Or.inr (by simp [plan, hopened, hgood])
      | true =>
          cases hrenamed : a.renamed with
          | false => exact Or.inr (by simp [plan, hopened, hgood, hrenamed])
          | true => exact Or.inl (by simp [plan, closing, hopened, hgood, hrenamed])

/-- The rename puts in place what the closed stream has left. -/
theorem foldl_run_closing (a : Attempt) :
    (a.closing ++ [FileOp.rename]).foldl (FileOp.run path text) files path =
      some (text.take a.kept) := by
  have hne := ne_temporary path
  simp [Attempt.closing, FileOp.run, hne]

/-- A call that is not stopped replaces the file as the callers' model of it says. -/
theorem writeFile_eq_replace :
    writeFile a none path text files =
      (((Replacement.mk a.opened a.good a.kept a.renamed a.removed).replace (temporary path) path text
          files).1,
        some ((Replacement.mk a.opened a.good a.kept a.renamed a.removed).replace (temporary path) path
          text files).2) := by
  cases hopened : a.opened with
  | false => simp [writeFile, Attempt.plan, Replacement.replace, hopened]
  | true =>
      cases hgood : a.good <;> cases hrenamed : a.renamed <;> cases hremoved : a.removed <;>
        simp [writeFile, Attempt.plan, FileOp.run, Replacement.replace, Function.update_idem, hopened,
          hgood, hrenamed, hremoved]

end Effects

section Written

/-- What a call promises: if it returns true the file holds the text, otherwise what it
held before; and nothing is committed without the text in place. -/
structure Written
    (a : Attempt)
    (stop : Option Nat)
    (between : Bool)
    (path : String)
    (text : List UInt8)
    (files : Files String UInt8) : Prop where
  success : (writeFile a stop path text files).2 = some true →
    (writeFile a stop path text files).1 path = some text
  failure : (writeFile a stop path text files).2 ≠ some true →
    (writeFile a stop path text files).1 path = files path
  committed : (writeThenCommit a stop between path text files).2 = true →
    (writeThenCommit a stop between path text files).1 path = some text

/-- The rename is performed. -/
structure Attempt.Renames (a : Attempt) (stop : Option Nat) : Prop where
  opened : a.opened = true
  good : a.good = true
  renamed : a.renamed = true
  reached : ∀ k, stop = some k → a.closing.length < k

variable {a : Attempt} {path : String} {text : List UInt8} {files : Files String UInt8}

theorem Attempt.Renames.plan_eq {stop : Option Nat} (h : a.Renames stop) :
    a.plan = (a.closing ++ [.rename], true) := by
  rcases a.plan_cases with ⟨_, _, _, hplan⟩ | ⟨hfailed, _⟩
  · exact hplan
  · simp [h.opened, h.good, h.renamed] at hfailed

/-- With the rename the file holds what the closed stream has left. -/
theorem writeFile_path_of_renames {stop : Option Nat} (h : a.Renames stop) :
    (writeFile a stop path text files).1 path = some (text.take a.kept) := by
  cases stop with
  | none =>
      rw [writeFile_eq_replace, Replacement.replace_path (ne_temporary path), if_pos]
      simp [Replacement.reports, h.opened, h.good, h.renamed]
  | some k =>
      have hlength : (a.closing ++ [FileOp.rename]).length ≤ k := by
        have hreached := h.reached k rfl
        rw [List.length_append, List.length_singleton]
        omega
      rw [writeFile, h.plan_eq, List.take_of_length_le hlength]
      exact foldl_run_closing a

/-- Without the rename the file stays, and the call does not return true. -/
theorem writeFile_of_not_renames {stop : Option Nat} (h : ¬ a.Renames stop) :
    (writeFile a stop path text files).1 path = files path ∧
      (writeFile a stop path text files).2 ≠ some true := by
  rcases a.plan_cases with ⟨hopened, hgood, hrenamed, hplan⟩ | ⟨_, hops, hreturns⟩
  · cases stop with
    | none => exact absurd ⟨hopened, hgood, hrenamed, fun k hk => nomatch hk⟩ h
    | some k =>
        have hearly : k ≤ a.closing.length := by
          by_contra hlate
          refine h ⟨hopened, hgood, hrenamed, fun k' hk => ?_⟩
          obtain rfl := Option.some.inj hk
          omega
        have hops : FileOp.rename ∉ a.closing.take k := by
          intro hmem
          have hclosing := List.mem_of_mem_take hmem
          simp [Attempt.closing] at hclosing
        rw [writeFile, hplan, List.take_append_of_le_length hearly]
        exact ⟨foldl_run_path hops, by simp⟩
  · cases stop with
    | none => exact ⟨foldl_run_path hops, by simp [writeFile, hreturns]⟩
    | some k =>
        exact ⟨foldl_run_path fun hmem => hops (List.mem_of_mem_take hmem), by simp [writeFile]⟩

/-- A call does what it promises exactly when, should the rename be performed, closing
the stream has lost nothing and the call then returns; or, if it is stopped in between,
the file held the same bytes before. -/
theorem written_iff
    (a : Attempt)
    (stop : Option Nat)
    (between : Bool)
    (path : String)
    (text : List UInt8)
    (files : Files String UInt8) :
    Written a stop between path text files ↔
      (a.Renames stop →
        (stop = none → text.length ≤ a.kept) ∧
          (stop ≠ none → files path = some (text.take a.kept))) := by
  constructor
  · intro h hrenames
    have hpath : (writeFile a stop path text files).1 path = some (text.take a.kept) :=
      writeFile_path_of_renames hrenames
    cases stop with
    | none =>
        have hreturns : (writeFile a none path text files).2 = some true := by
          rw [writeFile, hrenames.plan_eq]
        have htext := (h.success hreturns).symm.trans hpath
        refine ⟨fun _ => ?_, fun hstop => absurd rfl hstop⟩
        exact (List.take_eq_self_iff text).mp (Option.some.inj htext).symm
    | some k =>
        have hstays := h.failure (by simp [writeFile])
        exact ⟨nofun, fun _ => hstays.symm.trans hpath⟩
  · intro h
    have hwritten : (writeFile a stop path text files).2 = some true →
        (writeFile a stop path text files).1 path = some text := by
      intro hreturns
      by_cases hrenames : a.Renames stop
      · have hstop : stop = none := by
          cases stop with
          | none => rfl
          | some k => simp [writeFile] at hreturns
        have hkept := (h hrenames).1 hstop
        rw [writeFile_path_of_renames hrenames, List.take_of_length_le hkept]
      · exact absurd hreturns (writeFile_of_not_renames hrenames).2
    constructor
    case success => exact hwritten
    case failure =>
      intro hfails
      by_cases hrenames : a.Renames stop
      · cases stop with
        | none =>
            refine absurd ?_ hfails
            rw [writeFile, hrenames.plan_eq]
        | some k =>
            have hsame := (h hrenames).2 (by simp)
            rw [writeFile_path_of_renames hrenames, hsame]
      · exact (writeFile_of_not_renames hrenames).1
    case committed =>
      intro hcommits
      simp only [writeThenCommit, Bool.and_eq_true, beq_iff_eq] at hcommits
      exact hwritten hcommits.1

/-- The disk is full: a short CRL is taken by the stream and lost on closing. -/
def fullDisk : Attempt :=
  ⟨true, true, 0, true, 0, true, true, true⟩

/-- Success is reported, the CRL is empty, and the revocation is committed. -/
theorem truncated_crl :
    ¬ Written fullDisk none true "ca/ca-e1.crl" [0x30, 0x01, 0x02]
        (fun path => if path = "ca/ca-e1.crl" then some [0x30, 0x00] else none) ∧
      (writeFile fullDisk none "ca/ca-e1.crl" [0x30, 0x01, 0x02]
        (fun path => if path = "ca/ca-e1.crl" then some [0x30, 0x00] else none)).2 = some true ∧
      (writeThenCommit fullDisk none true "ca/ca-e1.crl" [0x30, 0x01, 0x02]
        (fun path => if path = "ca/ca-e1.crl" then some [0x30, 0x00] else none)).2 = true ∧
      (writeFile fullDisk none "ca/ca-e1.crl" [0x30, 0x01, 0x02]
        (fun path => if path = "ca/ca-e1.crl" then some [0x30, 0x00] else none)).1 "ca/ca-e1.crl" =
          some [] := by
  have hlost : (writeFile fullDisk none "ca/ca-e1.crl" [0x30, 0x01, 0x02]
      (fun path => if path = "ca/ca-e1.crl" then some [0x30, 0x00] else none)).1 "ca/ca-e1.crl" =
        some [] := by
    decide
  refine ⟨?_, by decide, by decide, hlost⟩
  intro h
  have htext := h.success (by decide)
  rw [hlost] at htext
  exact absurd htext (by decide)

end Written

end Bridge
end Yca
