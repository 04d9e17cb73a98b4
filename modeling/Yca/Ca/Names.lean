import Yca.Acme.Names

/-!
# Names the CA certifies

The host-name, mailbox and URI checks of `src/util.cpp` and the DNS name parser
behind Botan's `AlternativeName::add_dns`, on the characters of a text.  All of
them refuse every non-ASCII byte, so that characters and bytes agree on what
they accept.
-/

namespace Yca
namespace Ca

open Acme (byteLen isDigit asciiLower)

/-- An ASCII letter or digit. -/
def isAlnum (c : Char) : Bool :=
  ('A' ≤ c && c ≤ 'Z') || ('a' ≤ c && c ≤ 'z') || isDigit c

/-- The loop of `valid_hostname`: the length of the current label and the
character before the one at hand. -/
def hostnameLoop : Nat → Option Char → List Char → Bool
  | label, prev, [] => decide (label > 0) && prev != some '-'
  | label, prev, c :: cs =>
      if c = '.' then
        if label == 0 || prev == some '-' then false
        else hostnameLoop 0 (some c) cs
      else if !isAlnum c && c != '-' then false
      else if c == '-' && label == 0 then false
      else if label + 1 > 63 then false
      else hostnameLoop (label + 1) (some c) cs

/-- `valid_hostname`. -/
def validHostname (s : List Char) : Bool :=
  if s.isEmpty || decide (byteLen s > 253) then false
  else hostnameLoop 0 none s

/-- `dns_safe`: a host name, optionally under one leading `*.` label, whose
last label is not all digits. -/
def dnsSafe (s : String) : Bool :=
  let host := if ['*', '.'].isPrefixOf s.toList then s.toList.drop 2 else s.toList
  let last := (host.reverse.takeWhile fun c => c != '.').reverse
  validHostname host && last.any fun c => !isDigit c

/-- `ascii_graphic`: non-empty printable ASCII without blanks. -/
def asciiGraphic (s : String) : Bool :=
  !s.toList.isEmpty && s.toList.all fun c => decide (0x21 ≤ c.toNat ∧ c.toNat ≤ 0x7E)

/-- `uri_safe`: a scheme, a colon and something after it. -/
def uriSafe (s : String) : Bool :=
  let scheme := s.toList.takeWhile fun c => c != ':'
  let rest := s.toList.drop scheme.length
  asciiGraphic s && decide (rest.length > 1) &&
    match scheme with
    | [] => false
    | first :: more =>
        (isAlnum first && !isDigit first) &&
          more.all fun c => isAlnum c || c == '+' || c == '-' || c == '.'

/-- A path segment of a SPIFFE ID. -/
def spiffeSegment (seg : List Char) : Bool :=
  !seg.isEmpty && seg != ['.'] && seg != ['.', '.'] &&
    seg.all fun c => isAlnum c || c == '.' || c == '-' || c == '_'

/-- `spiffe_id_safe`. -/
def spiffeIdSafe (s : String) : Bool :=
  if byteLen s.toList > 2048 || !"spiffe://".toList.isPrefixOf s.toList then false
  else
    match (s.toList.drop 9).splitOn '/' with
    | [] => false
    | td :: path =>
        !td.isEmpty && decide (td.length ≤ 255) &&
          (td.all fun c =>
            ('a' ≤ c && c ≤ 'z') || isDigit c || c == '.' || c == '-' || c == '_') &&
          path.all spiffeSegment

/-- `valid_uri_san`. -/
def validUriSan (s : String) : Bool :=
  uriSafe s && (!"spiffe:".toList.isPrefixOf s.toList || spiffeIdSafe s)

/-- The character table of Botan's DNS parser: lower case, or not allowed. -/
def dnsChar (c : Char) : Option Char :=
  if isAlnum c then some (asciiLower c)
  else if c = '-' ∨ c = '.' ∨ c = '*' then some c
  else none

/-- One label of a DNS name, as Botan's parser counts it. -/
def dnsLabel (l : List Char) : Bool :=
  !l.isEmpty && decide (l.length ≤ 63) && l.head? != some '-' && l.getLast? != some '-'

/-- `check_and_canonicalize_dns_name`. -/
def canonicalDns (s : List Char) : Option (List Char) :=
  if byteLen s > 253 || s.isEmpty || !(s.splitOn '.').all dnsLabel then none
  else
    match s.mapM dnsChar with
    | none => none
    | some canon => if canon.all fun c => isDigit c || c == '.' then none else some canon

/-- The wildcard shape `DNSName::from_san_string` admits. -/
def wildcardShape (canon : List Char) : Bool :=
  if canon.contains '*' then
    decide (canon.count '*' ≤ 1) &&
      (canon.takeWhile fun c => c != '.').contains '*' &&
      !"xn--".toList.isPrefixOf canon &&
      decide (canon.count '.' ≥ 2)
  else true

/-- `DNSName::from_san_string`: the canonical form of a name for a dNSName. -/
def sanDns (s : String) : Option String :=
  match canonicalDns s.toList with
  | none => none
  | some canon => if wildcardShape canon then some (String.ofList canon) else none

example : dnsSafe "*.Example.ca" = true := by decide
example : sanDns "*.Example.ca" = some "*.example.ca" := by decide
example : sanDns "10.0.0.1" = none := by decide

/-- The lower case of an ASCII text. -/
def lowerAscii (s : String) : String :=
  String.ofList (s.toList.map asciiLower)

/-- Host names are compared case-insensitively. -/
def SameName (a b : String) : Prop :=
  lowerAscii a = lowerAscii b

instance (a b : String) : Decidable (SameName a b) :=
  inferInstanceAs (Decidable (lowerAscii a = lowerAscii b))

end Ca
end Yca
