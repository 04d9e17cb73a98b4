import Yca.Acme.Store

/-!
# The request checks of the finalize handler

The name checks of `handleFinalize` (`acme/finalize.go`) on the fields that
`x509.ParseCertificateRequest` fills in.  A refusal carries the problem
document the handler answers with.
-/

namespace Yca
namespace Acme

/-- The fields of a parsed request that the frontend reads.  An address is its
bytes (`net.IP`). -/
structure GoCsr where
  commonName : String
  dnsNames : List String
  emailAddresses : List String
  ipAddresses : List (List UInt8)
  uris : List String
  deriving DecidableEq

/-- What a finalize payload turns out to be. -/
inductive FinalizePayload
  | notJson
  | notBase64
  | unparsable
  | csr (c : GoCsr)
  deriving DecidableEq

/-- The names of a request, lower-cased and without repetition: the keys of
the map the handler fills. -/
def csrNames (rune : Char → Char) (c : GoCsr) : List String :=
  let dns := c.dnsNames.map (toLower rune)
  let cn := toLower rune c.commonName
  (if cn = "" then dns else dns ++ [cn]).dedup

/-- The request checks, in the handler's order; `none` when it passes. -/
def csrProblem (rune : Char → Char) (c : GoCsr) (identifiers : List String) :
    Option Problem :=
  if c.ipAddresses.length > 0 || c.emailAddresses.length > 0 ||
      c.uris.length > 0 then
    some (problem 400 "badCSR" "CSR carries non-dns SANs")
  else if toLower rune c.commonName != "" &&
      !identifiers.contains (toLower rune c.commonName) then
    some (problem 400 "badCSR" "CSR CN is not among the order identifiers")
  else if !sameSet (csrNames rune c) identifiers then
    some (problem 400 "badCSR" "CSR names do not match the order identifiers")
  else none

/-- All checks on a finalize payload. -/
def payloadProblem
    (rune : Char → Char)
    (identifiers : List String) : FinalizePayload → Option Problem
  | .notJson => some (problem 400 "malformed" "finalize payload is not JSON")
  | .notBase64 => some (problem 400 "badCSR" "csr is not base64url")
  | .unparsable => some (problem 400 "badCSR" "unparsable CSR or bad CSR signature")
  | .csr c => csrProblem rune c identifiers

end Acme
end Yca
