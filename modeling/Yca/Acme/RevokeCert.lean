import Yca.Acme.Jws
import Yca.Core.Table

/-!
# Revocation at the frontend

`handleRevokeCert` (`acme/revoke.go`) as one function of the database it finds,
the outcomes of its calls and the request: what it answers, what it asks of the
CA and what becomes of the `certs` table.  Parsing certificates and encoding keys
is `crypto/x509`'s and a parameter of the model (`X509`).

Every way to the CA passes both questions: is the presented certificate, byte for
byte, the leaf of the row with its serial, and is the signer the account of that
row or the holder of the certificate's key.
-/

namespace Yca
namespace Acme
namespace Revoke

open Yca.Core

/-- A row of `certs` as `certRow` reads it; `revoked` is zero without a local
record. -/
structure CertRow where
  id : String
  orderId : String
  accountId : String
  cn : String
  chainPem : String
  serial : String
  ariId : String
  notBefore : Int
  notAfter : Int
  revoked : Int
  revokedReason : String
  deriving DecidableEq

/-- A parsed certificate; `δ` is the type of its public key. -/
structure Leaf (δ : Type) where
  raw : List UInt8
  serialNumber : Int
  publicKey : δ

/-- The payload of a revokeCert request. -/
structure Payload where
  certificate : String
  reason : Option Int

/-- `crypto/x509`, `encoding/pem`, `encoding/base64` and `encoding/json` as the
handler uses them. -/
structure X509 (κ δ : Type) where
  payload : String → Option Payload
  base64url : String → Option (List UInt8)
  parseCertificate : List UInt8 → Option (Leaf δ)
  /-- `pem.Decode`: type and bytes of the first block. -/
  pemDecode : String → Option (String × List UInt8)
  /-- `x509.MarshalPKIXPublicKey` of a JWK's key. -/
  jwkPKIX : κ → Option (List UInt8)
  /-- The same of a certificate's key. -/
  certPKIX : δ → Option (List UInt8)

/-- `revokeReasons`. -/
def revokeReasons : List (Int × String) :=
  [(0, "unspecified"), (1, "keyCompromise"), (4, "superseded"), (5, "cessationOfOperation")]

/-- `strings.ToUpper(n.Text(16))`. -/
def serialText (n : Int) : String :=
  (if n < 0 then "-" else "") ++
    String.ofList ((Nat.toDigits 16 n.natAbs).map Char.toUpper)

/-- `strings.Contains`. -/
def contains (text sub : String) : Bool :=
  text.toList.tails.any fun rest => sub.toList.isPrefixOf rest

/-- How the handler's calls come out: `ConsumeNonce`, the two lookups, the CA (with
the text of its error), `MarkCertRevoked`; and the clock, in seconds. -/
structure Outcomes where
  nonce : Option Bool
  account : Bool
  cert : Bool
  ca : Except String Unit
  mark : Bool
  now : Int

/-- What a request comes to. -/
structure Result where
  /-- `none` is the plain 200. -/
  problem : Option Problem
  /-- The serials and reasons the CA was asked to revoke. -/
  asked : List (String × String)
  certs : List CertRow

variable {κ δ : Type} (J : Jose κ) (S : Server) (X : X509 κ δ)

/-- `leafOf`. -/
def leafOf (chainPem : String) : Option (Leaf δ) :=
  match X.pemDecode chainPem with
  | some ("CERTIFICATE", bytes) => X.parseCertificate bytes
  | _ => none

/-- `CertBySerial`. -/
def certBySerial (certs : List CertRow) (serial : String) : Option CertRow :=
  certs.find? fun c => c.serial == serial

/-- `MarkCertRevoked`. -/
def markCertRevoked
    (serial reason : String)
    (now : Int)
    (certs : List CertRow) : List CertRow :=
  updateWhere (fun c => c.serial == serial)
    (fun c => { c with revoked := now, revokedReason := reason }) certs

/-- The payload: the certificate presented and the name of the reason. -/
def presented (payload : String) : Except Problem (Leaf δ × String) :=
  match X.payload payload with
  | none => .error (problem 400 "malformed" "revokeCert payload is not JSON")
  | some p =>
      match X.base64url p.certificate with
      | none => .error (problem 400 "malformed" "certificate is not base64url")
      | some der =>
          match X.parseCertificate der with
          | none => .error (problem 400 "malformed" "unparsable certificate")
          | some cert =>
              match revokeReasons.lookup (p.reason.getD 0) with
              | none =>
                  .error (problem 400 "badRevocationReason" "allowed reasons: 0, 1, 4, 5")
              | some reasonName => .ok (cert, reasonName)

/-- The row of the presented certificate; the outer `none` is a failed
`CertBySerial`. -/
def knownRow (cert : Leaf δ) : Option (Option CertRow) → Except Problem CertRow
  | none => .error (problem 500 "serverInternal" "certificate lookup")
  | some known =>
      match known with
      | none =>
          .error (problem 403 "unauthorized" "certificate was not issued by this server")
      | some row =>
          match leafOf X row.chainPem with
          | none =>
              .error (problem 403 "unauthorized" "certificate was not issued by this server")
          | some leaf =>
              if leaf.raw ≠ cert.raw then
                .error (problem 403 "unauthorized" "certificate was not issued by this server")
              else .ok row

/-- The ordering account, or the certificate key itself. -/
def authorize (q : VerifiedRequest κ) (row : CertRow) (cert : Leaf δ) : Except Problem Unit :=
  match q.account with
  | some account =>
      if row.accountId ≠ account.id then
        .error (problem 403 "unauthorized" "this account did not order that certificate")
      else .ok ()
  | none =>
      match X.jwkPKIX q.jwk, X.certPKIX cert.publicKey with
      | some got, some want =>
          if got = want then .ok ()
          else .error (problem 403 "unauthorized" "JWS key is not the certificate key")
      | _, _ => .error (problem 403 "unauthorized" "JWS key is not the certificate key")

/-- The end of the handler: the CA is asked, and the table notes it. -/
def revoke (o : Outcomes) (row : CertRow) (serial reason : String) (certs : List CertRow) :
    Result :=
  if row.revoked ≠ 0 then
    ⟨some (problem 400 "alreadyRevoked" "certificate is not active (revoked or expired)"),
      [], certs⟩
  else
    match o.ca with
    | .error err =>
        if contains err "no active" then
          ⟨some (problem 400 "alreadyRevoked" "certificate is not active (revoked or expired)"),
            [(serial, reason)], certs⟩
        else
          ⟨some (problem 500 "serverInternal" "revocation failed"), [(serial, reason)], certs⟩
    | .ok _ =>
        ⟨none, [(serial, reason)],
          if o.mark then markCertRevoked serial reason o.now certs else certs⟩

/-- `handleRevokeCert`. -/
def handleRevokeCert
    (o : Outcomes)
    (accounts : List AccountRow)
    (certs : List CertRow)
    (body : Option String) : Result :=
  let verdict :=
    verifyJWS J S "/acme/revoke-cert" true body (fun _ => o.nonce) fun id =>
      if o.account then some (accounts.find? fun a => a.id == id) else none
  match verdict with
  | .error p => ⟨some p, [], certs⟩
  | .ok q =>
      match presented X q.payload with
      | .error p => ⟨some p, [], certs⟩
      | .ok (cert, reason) =>
          let serial := serialText cert.serialNumber
          match knownRow X cert (if o.cert then some (certBySerial certs serial) else none) with
          | .error p => ⟨some p, [], certs⟩
          | .ok row =>
              match authorize X q row cert with
              | .error p => ⟨some p, [], certs⟩
              | .ok _ => revoke o row serial reason certs

/-- The request is signed under `key` and presents `cert`. -/
def Presents (body : Option String) (key : κ) (cert : Leaf δ) : Prop :=
  ∃ text payload reason,
    body = some text ∧ J.verify text key = some payload ∧
      presented X payload = .ok (cert, reason)

/-- `serial` is the serial of the certificate presented, the row of that serial
holds this very certificate, and the request is signed by the valid account of the
row or by the key of the certificate. -/
def Authorized
    (accounts : List AccountRow)
    (certs : List CertRow)
    (body : Option String)
    (serial : String) : Prop :=
  ∃ key cert row leaf,
    Presents J X body key cert ∧ serial = serialText cert.serialNumber ∧
      row ∈ certs ∧ row.serial = serial ∧
        leafOf X row.chainPem = some leaf ∧ leaf.raw = cert.raw ∧
          ((∃ a ∈ accounts, a.status = "valid" ∧ J.decodeKey a.jwk = some key ∧
              row.accountId = a.id) ∨
            ∃ spki, X.jwkPKIX key = some spki ∧ X.certPKIX cert.publicKey = some spki)

section Facts

variable {J S X}

theorem knownRow_eq_ok
    {cert : Leaf δ}
    {found : Option (Option CertRow)}
    {row : CertRow}
    (h : knownRow X cert found = .ok row) :
    found = some (some row) ∧
      ∃ leaf, leafOf X row.chainPem = some leaf ∧ leaf.raw = cert.raw := by
  rcases found with _ | _ | row'
  · simp [knownRow] at h
  · simp [knownRow] at h
  · simp only [knownRow] at h
    split at h
    · simp at h
    · rename_i leaf hleaf
      by_cases hraw : leaf.raw = cert.raw
      · rw [if_neg (not_not.mpr hraw)] at h
        obtain rfl := Except.ok.inj h
        exact ⟨rfl, leaf, hleaf, hraw⟩
      · rw [if_pos hraw] at h
        simp at h

theorem authorize_eq_ok
    {q : VerifiedRequest κ}
    {row : CertRow}
    {cert : Leaf δ}
    (h : authorize X q row cert = .ok ()) :
    (∃ account, q.account = some account ∧ row.accountId = account.id) ∨
      q.account = none ∧
        ∃ spki, X.jwkPKIX q.jwk = some spki ∧ X.certPKIX cert.publicKey = some spki := by
  unfold authorize at h
  split at h
  · rename_i account haccount
    by_cases hid : row.accountId = account.id
    · exact .inl ⟨account, haccount, hid⟩
    · rw [if_pos hid] at h
      simp at h
  · rename_i hnone
    split at h
    · rename_i got want hgot hwant
      split at h
      · rename_i heq
        exact .inr ⟨hnone, got, hgot, heq ▸ hwant⟩
      · simp at h
    · simp at h

/-- What the handler has established when it comes to `revoke`. -/
theorem handleRevokeCert_cases
    (o : Outcomes)
    (accounts : List AccountRow)
    (certs : List CertRow)
    (body : Option String) :
    (∃ p, handleRevokeCert J S X o accounts certs body = ⟨some p, [], certs⟩) ∨
      ∃ row serial reason,
        Authorized J X accounts certs body serial ∧
          handleRevokeCert J S X o accounts certs body = revoke o row serial reason certs := by
  unfold handleRevokeCert
  dsimp only
  split
  · exact .inl ⟨_, rfl⟩
  · rename_i q hq
    split
    · exact .inl ⟨_, rfl⟩
    · rename_i cert reason hpresented
      split
      · exact .inl ⟨_, rfl⟩
      · rename_i row hrow
        split
        · exact .inl ⟨_, rfl⟩
        · rename_i hauth
          refine .inr ⟨row, serialText cert.serialNumber, reason, ?_, rfl⟩
          obtain ⟨text, hdr, hopen, _, hauthenticate⟩ := verifyJWS_eq_ok hq
          obtain ⟨hverify, hsigner⟩ := authenticate_eq_ok hauthenticate
          obtain ⟨hfound, leaf, hleaf, hraw⟩ := knownRow_eq_ok hrow
          have hlookup : certBySerial certs (serialText cert.serialNumber) = some row := by
            split at hfound
            · exact Option.some.inj hfound
            · simp at hfound
          obtain ⟨hmem, hserial⟩ := mem_of_find?_key hlookup
          refine ⟨q.jwk, cert, row, leaf,
            ⟨text, q.payload, reason, (openJWS_eq_ok hopen).1, hverify, hpresented⟩, rfl, hmem,
            hserial, hleaf, hraw, ?_⟩
          rcases authorize_eq_ok hauth with ⟨account, haccount, hid⟩ | ⟨_, hkey⟩
          · rcases hsigner with ⟨hnone, _⟩ | ⟨id, acct, hacct, hread, hstatus, hdecode⟩
            · rw [hnone] at haccount
              simp at haccount
            · obtain rfl : acct = account := Option.some.inj (hacct.symm.trans haccount)
              have hfind : accounts.find? (fun a => a.id == id) = some acct := by
                split at hread
                · exact Option.some.inj hread
                · simp at hread
              exact .inl ⟨acct, (mem_of_find?_key hfind).1, hstatus, hdecode, hid⟩
          · exact .inr hkey

end Facts

/-- Whatever the database holds and however its calls come out: the frontend asks
the CA about a serial only for an authorized request, once, and then notes it in
the rows of that serial alone; any other request leaves the `certs` table as it
is. -/
theorem revoke_cert_authorized
    (o : Outcomes)
    (accounts : List AccountRow)
    (certs : List CertRow)
    (body : Option String) :
    let r := handleRevokeCert J S X o accounts certs body
    (∀ serial reason, (serial, reason) ∈ r.asked → Authorized J X accounts certs body serial) ∧
      r.asked.length ≤ 1 ∧
      (r.asked = [] → r.certs = certs) ∧
      (r.certs = certs ∨
        ∃ serial reason, r.asked = [(serial, reason)] ∧
          r.certs = markCertRevoked serial reason o.now certs) ∧
      ((∀ serial, ¬ Authorized J X accounts certs body serial) →
        r.asked = [] ∧ r.certs = certs) := by
  intro r
  rcases handleRevokeCert_cases o accounts certs body with
    ⟨p, hrefused⟩ | ⟨row, serial, reason, hauth, hrevoke⟩
  · have hr : r = ⟨some p, [], certs⟩ := hrefused
    rw [hr]
    simp
  · have hr : r = revoke o row serial reason certs := hrevoke
    have hasked : (revoke o row serial reason certs).asked = [] ∧
          (revoke o row serial reason certs).certs = certs ∨
        (revoke o row serial reason certs).asked = [(serial, reason)] ∧
          ((revoke o row serial reason certs).certs = certs ∨
            (revoke o row serial reason certs).certs =
              markCertRevoked serial reason o.now certs) := by
      unfold revoke
      split
      · exact .inl ⟨rfl, rfl⟩
      · split
        · split
          · exact .inr ⟨rfl, .inl rfl⟩
          · exact .inr ⟨rfl, .inl rfl⟩
        · refine .inr ⟨rfl, ?_⟩
          by_cases hmark : o.mark = true
          · simp [hmark]
          · simp [hmark]
    rw [hr]
    rcases hasked with ⟨hnone, hcerts⟩ | ⟨hone, hcerts⟩
    · rw [hnone, hcerts]
      simp
    · rw [hone]
      refine ⟨?_, Nat.le_refl 1, by simp, ?_, ?_⟩
      · intro serial' reason' hmem
        obtain ⟨rfl, rfl⟩ := Prod.mk.inj (List.mem_singleton.mp hmem)
        exact hauth
      · exact hcerts.imp_right fun h => ⟨serial, reason, rfl, h⟩
      · intro hnone
        exact absurd hauth (hnone serial)

end Revoke
end Acme
end Yca
