import Mathlib.Algebra.Ring.Int.Defs
import Mathlib.Algebra.Ring.Nat
import Mathlib.Data.List.Basic
import Mathlib.Data.List.Perm.Subperm

/-!
# Names the ACME frontend orders and compares

The text functions of the frontend that decide about names: `hostSafe`
(`acme/order.go`), `allowed` (`acme/account.go`), `sameSet`
(`acme/finalize.go`) and the standard-library functions under them.

`strings.ToLower` maps every rune by its simple case mapping.  On ASCII that is
the usual one; beyond ASCII the mapping is left as an argument, so that every
result holds whatever the mapping of the other runes is.
-/

namespace Yca
namespace Acme

/-- The lower case of an ASCII letter, and every other rune as it is. -/
def asciiLower (c : Char) : Char :=
  if 'A' ≤ c ∧ c ≤ 'Z' then Char.ofNat (c.toNat + 32) else c

/-- `strings.ToLower`, given the mapping of the runes beyond ASCII. -/
def toLower (rune : Char → Char) (s : String) : String :=
  String.ofList (s.toList.map fun c => if c.toNat < 128 then asciiLower c else rune c)

/-- `strings.CutPrefix`: what follows the prefix and whether it was there. -/
def cutPrefix (s pre : String) : String × Bool :=
  if pre.toList.isPrefixOf s.toList then
    (String.ofList (s.toList.drop pre.toList.length), true)
  else (s, false)

/-- Both ends of a text without the characters of a set (`strings.Trim`). -/
def trim (cut : Char → Bool) (s : List Char) : List Char :=
  ((s.dropWhile cut).reverse.dropWhile cut).reverse

/-- The length of a text in bytes (`len` of a Go string). -/
def byteLen (s : List Char) : Nat :=
  (s.map Char.utf8Size).sum

def isDigit (c : Char) : Bool :=
  '0' ≤ c && c ≤ '9'

/-- A character of a host-name label. -/
def isLdh (c : Char) : Bool :=
  ('a' ≤ c && c ≤ 'z') || isDigit c || c == '-'

/-- One label of a host name. -/
def labelSafe (l : List Char) : Bool :=
  !(byteLen l == 0 || decide (byteLen l > 63) || l.head? == some '-' ||
      l.getLast? == some '-') &&
    l.all isLdh

/-- `hostSafe`: LDH labels of 1 to 63 characters, at most 253 in all, the last
label not all digits. -/
def hostSafe (s : String) : Bool :=
  if byteLen s.toList == 0 || decide (byteLen s.toList > 253) then false
  else
    let labels := s.toList.splitOn '.'
    labels.all labelSafe && !(trim isDigit (labels.getLast?.getD [])).isEmpty

/-- One allow pattern admits a name: the exact name, or anything under the
suffix of a leading `*.`. -/
def patternAdmits (pat name : String) : Bool :=
  pat == name ||
    ((cutPrefix pat "*.").2 &&
      ('.' :: (cutPrefix pat "*.").1.toList).isSuffixOf name.toList)

/-- The allow list of a credential admits a name; the empty list admits all. -/
def allowAdmits (allow : List String) (name : String) : Bool :=
  allow.isEmpty || allow.any fun pat => patternAdmits pat name

/-- `sameSet`: a duplicate-free list of names equals, as a set, the wanted
list, compared by size and membership. -/
def sameSet (got want : List String) : Bool :=
  got.length == want.length && want.all fun w => got.contains w

/-- The base name and wildcard flag of an identifier. -/
def splitWildcard (name : String) : String × Bool :=
  cutPrefix name "*."

example : hostSafe "www.example-1.ca" = true := by decide
example : hostSafe "10.0.0.1" = false := by decide
example : allowAdmits ["*.example.ca"] "a.b.example.ca" = true := by decide
example : allowAdmits ["*.example.ca"] "example.ca" = false := by decide

/-- A name the size of the wanted list that contains it is no larger. -/
theorem mem_of_sameSet
    {got want : List String}
    (hnodup : want.Nodup)
    (h : sameSet got want = true)
    {n : String} :
    n ∈ got ↔ n ∈ want := by
  simp only [sameSet, Bool.and_eq_true, beq_iff_eq, List.all_eq_true,
    List.contains_iff_mem] at h
  rcases h with ⟨hlen, hsub⟩
  have hperm : want.Subperm got :=
    List.subperm_of_subset hnodup hsub
  have hp : want.Perm got :=
    hperm.perm_of_length_le (Nat.le_of_eq hlen)
  exact hp.mem_iff.symm

end Acme
end Yca
