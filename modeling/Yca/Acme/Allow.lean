import Yca.Acme.Invariant

/-!
# What an allow list covers

The credential of an account carries a list of allow patterns, stored as one
text and split by `splitAllow` (`acme/main.go`) when the row is read.  A name
ordered may be a wildcard, which covers every host one label below its base;
`allowed` (`acme/account.go`) compares texts.  What it admits covers no host the
same patterns would refuse.
-/

namespace Yca
namespace Acme

section Patterns

/-- `unicode.IsSpace`. -/
def isSpace (c : Char) : Bool :=
  [0x09, 0x0A, 0x0B, 0x0C, 0x0D, 0x20, 0x85, 0xA0, 0x1680, 0x2028, 0x2029, 0x202F, 0x205F,
    0x3000].contains c.toNat || (decide (0x2000 ≤ c.toNat) && decide (c.toNat ≤ 0x200A))

/-- `strings.TrimSpace`. -/
def trimSpace (s : List Char) : String :=
  String.ofList (trim isSpace s)

/-- `splitAllow`: the patterns of a text; the empty text has none. -/
def splitAllow (s : String) : List String :=
  if s = "" then [] else (s.toList.splitOn ',').map trimSpace

/-- `allowed`, given the `allow` column of the credential row, if there is one. -/
def allowed (row : Option String) (name : String) : Bool :=
  match row with
  | none => false
  | some allow => allowAdmits (splitAllow allow) name

/-- A concrete host name an ordered name covers: itself, or one label in place
of the leading `*`. -/
def Covers (name host : String) : Prop :=
  if (splitWildcard name).2 = true then
    ∃ label : List Char, label ≠ [] ∧ '.' ∉ label ∧
      host.toList = label ++ '.' :: (splitWildcard name).1.toList
  else host = name

example : splitAllow "a.ca, *.b.ca ," = ["a.ca", "*.b.ca", ""] := by decide
example : allowed (some " ") "a.ca" = false := by decide
example : allowed (some "") "a.ca" = true := by decide

end Patterns

section Coverage

variable {pat name host : String} {suf base : List Char}

theorem cutPrefix_star (h : pat.toList = '*' :: '.' :: suf) :
    cutPrefix pat "*." = (String.ofList suf, true) := by
  have hpre : "*.".toList = ['*', '.'] := by decide
  rw [cutPrefix, hpre, h, if_pos (by simp [List.isPrefixOf])]
  rfl

theorem cutPrefix_snd (h : (cutPrefix pat "*.").2 = true) :
    pat.toList = '*' :: '.' :: (cutPrefix pat "*.").1.toList := by
  have hpre : "*.".toList = ['*', '.'] := by decide
  rw [cutPrefix, hpre] at h ⊢
  split at h
  · rename_i hstar
    rcases List.isPrefixOf_iff_prefix.mp hstar with ⟨rest, hrest⟩
    rw [if_pos hstar, ← hrest]
    simp
  · simp at h

/-- One pattern, read as the exact name or the names under a suffix. -/
theorem patternAdmits_iff :
    patternAdmits pat name = true ↔
      pat = name ∨ ∃ suf, pat.toList = '*' :: '.' :: suf ∧ ('.' :: suf) <:+ name.toList := by
  rw [patternAdmits, Bool.or_eq_true, beq_iff_eq, Bool.and_eq_true]
  refine or_congr_right ?_
  constructor
  · rintro ⟨hstar, hsuf⟩
    exact ⟨_, cutPrefix_snd hstar, List.isSuffixOf_iff_suffix.mp hsuf⟩
  · rintro ⟨suf, hpat, hsuf⟩
    rw [cutPrefix_star hpat]
    exact ⟨rfl, List.isSuffixOf_iff_suffix.mpr (by simpa using hsuf)⟩

/-- What ends a wildcard name at a label boundary ends the names one label below
its base. -/
theorem suffix_below
    (h : ('.' :: suf) <:+ ('*' :: '.' :: base))
    (label : List Char) :
    ('.' :: suf) <:+ label ++ '.' :: base := by
  rcases List.suffix_cons_iff.mp h with heq | hbelow
  · simp at heq
  · exact hbelow.trans (List.suffix_append label ('.' :: base))

/-- One pattern admits a wildcard name only with all the names it covers. -/
theorem patternAdmits_covers
    (h : patternAdmits pat name = true)
    (hcovers : Covers name host) :
    patternAdmits pat host = true := by
  rw [Covers] at hcovers
  split at hcovers
  · rename_i hstar
    obtain ⟨label, _, _, hhost⟩ := hcovers
    have hname := cutPrefix_snd hstar
    rw [splitWildcard] at hhost
    rw [patternAdmits_iff] at h ⊢
    rcases h with heq | ⟨suf, hpat, hsuf⟩
    · refine Or.inr ⟨(cutPrefix name "*.").1.toList, ?_, ?_⟩
      · rw [heq]
        exact hname
      · rw [hhost]
        exact List.suffix_append label _
    · refine Or.inr ⟨suf, hpat, ?_⟩
      rw [hname] at hsuf
      rw [hhost]
      exact suffix_below hsuf label
  · rw [hcovers]
    exact h

theorem allowAdmits_covers
    {allow : List String}
    (h : allowAdmits allow name = true)
    (hcovers : Covers name host) :
    allowAdmits allow host = true := by
  rw [allowAdmits, Bool.or_eq_true, List.any_eq_true] at h ⊢
  refine h.imp_right ?_
  rintro ⟨pat, hpat, hadmits⟩
  exact ⟨pat, hpat, patternAdmits_covers hadmits hcovers⟩

/-- A suffix pattern needs a label boundary: what stands before the suffix ends
with a dot. -/
theorem boundary_of_patternAdmits
    {suf before : String}
    (h : patternAdmits ("*." ++ suf) (before ++ suf) = true) :
    before.toList.getLast? = some '.' := by
  have hpat : ("*." ++ suf).toList = '*' :: '.' :: suf.toList := by
    rw [String.toList_append]
    rfl
  rcases patternAdmits_iff.mp h with heq | ⟨rest, hrest, t, ht⟩
  · have hlist := congrArg String.toList heq
    rw [String.toList_append, String.toList_append] at hlist
    rw [← List.append_cancel_right hlist]
    decide
  · rw [hpat] at hrest
    have hsuf : rest = suf.toList := by simpa using hrest.symm
    rw [hsuf, String.toList_append, List.append_cons] at ht
    rw [← List.append_cancel_right ht]
    exact List.getLast?_concat

/-- A name is admitted only with every host it covers; and a suffix pattern
alone admits neither the bare suffix nor a name that ends in it without a label
boundary. -/
theorem allowed_closed :
    (∀ row name host, Covers name host → allowed row name = true → allowed row host = true) ∧
      ∀ suf, allowAdmits ["*." ++ suf] suf = false ∧
        ∀ before, before.toList.getLast? ≠ some '.' →
          allowAdmits ["*." ++ suf] (before ++ suf) = false := by
  have halone : ∀ suf before : String, before.toList.getLast? ≠ some '.' →
      allowAdmits ["*." ++ suf] (before ++ suf) = false := by
    intro suf before hbefore
    rw [← Bool.not_eq_true]
    intro hadmits
    have hpat : patternAdmits ("*." ++ suf) (before ++ suf) = true := by
      simpa [allowAdmits] using hadmits
    exact hbefore (boundary_of_patternAdmits hpat)
  refine ⟨?_, fun suf => ⟨?_, halone suf⟩⟩
  · intro row name host hcovers hadmits
    cases row with
    | none => exact hadmits
    | some allow => exact allowAdmits_covers hadmits hcovers
  · have hbare := halone suf "" (by decide)
    rwa [String.empty_append] at hbare

end Coverage

end Acme
end Yca
