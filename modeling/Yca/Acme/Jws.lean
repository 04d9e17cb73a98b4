import Yca.Acme.Names
import Yca.Acme.Store

/-!
# Signed requests

`verifyJWS` (`acme/jws.go`): every POST body is a JWS whose protected header
carries a replay nonce, the request URL and either the signer's key or the URL
of an account.  What go-jose and the JSON decoder make of a text is a parameter
of the model (`Jose`); the order of the checks, the two database calls among
them and every error are the source's.

The checks are cut at the database calls, so that a handler that runs among
others can take them in separate steps.
-/

namespace Yca
namespace Acme

/-- The merged header of one signature; `url` is the extra header of that name
when it is a string. -/
structure Header (κ : Type) where
  nonce : String
  url : Option String
  jwk : Option κ
  kid : String

/-- go-jose and `encoding/json` on keys of type `κ`. -/
structure Jose (κ : Type) where
  /-- `jose.ParseSigned` with the account algorithms: the signatures' headers. -/
  parseSigned : String → Except String (List (Header κ))
  /-- `jws.Verify`: the payload signed under a key. -/
  verify : String → κ → Option String
  /-- `json.Unmarshal` into a `JSONWebKey`. -/
  decodeKey : String → Option κ
  /-- `json.Marshal` of a key. -/
  encodeKey : κ → Option String
  /-- `thumbprint`. -/
  thumbprint : κ → Option String

/-- Settings of the server, and `%q` of the `fmt` package. -/
structure Server where
  baseURL : String
  quote : String → String

/-- `strings.TrimSuffix(text, "/")`. -/
def trimSlash (text : String) : String :=
  if text.toList.getLast? = some '/' then String.ofList text.toList.dropLast else text

/-- `server.url`: the external URL of a path. -/
def Server.url (S : Server) (path : String) : String :=
  trimSlash S.baseURL ++ path

/-- A row of `accounts`. -/
structure AccountRow where
  id : String
  thumbprint : String
  jwk : String
  eabKid : String
  status : String
  created : Nat
  deriving DecidableEq

/-- `request`: a verified POST. -/
structure VerifiedRequest (κ : Type) where
  account : Option AccountRow
  jwk : κ
  payload : String

/-- `postAsGet`: the payload is empty. -/
def VerifiedRequest.postAsGet {κ : Type} (q : VerifiedRequest κ) : Bool :=
  q.payload == ""

/-- Who a header says has signed. -/
inductive Signer (κ : Type)
  | jwk (key : κ)
  | account (id : String)

variable {κ : Type} (J : Jose κ) (S : Server)

/-- `verifyJWS` up to the nonce store; `none` is a body that could not be
read. -/
def openJWS : Option String → Except Problem (String × Header κ)
  | none => .error (problem 400 "malformed" "unreadable body")
  | some body =>
      match J.parseSigned body with
      | .error err => .error (problem 400 "malformed" ("body is not a JWS: " ++ err))
      | .ok [hdr] =>
          if hdr.nonce = "" then .error (problem 400 "badNonce" "missing nonce")
          else .ok (body, hdr)
      | .ok _ => .error (problem 400 "malformed" "exactly one JWS signature required")

/-- What `verifyJWS` makes of `ConsumeNonce`; `none` is a failed call. -/
def nonceVerdict : Option Bool → Except Problem Unit
  | none => .error (problem 500 "serverInternal" "nonce store")
  | some false => .error (problem 400 "badNonce" "unknown or reused nonce")
  | some true => .ok ()

/-- URL binding, then jwk or kid and not both. -/
def signerOf (path : String) (allowJWK : Bool) (hdr : Header κ) :
    Except Problem (Signer κ) :=
  let rawURL := hdr.url.getD ""
  if rawURL ≠ S.url path then
    .error (problem 401 "unauthorized"
      ("url header " ++ S.quote rawURL ++ " does not match " ++ S.quote (S.url path)))
  else
    match hdr.jwk with
    | some key =>
        if hdr.kid ≠ "" then
          .error (problem 400 "malformed" "jwk and kid are mutually exclusive")
        else if !allowJWK then
          .error (problem 400 "malformed" "this resource requires kid, not jwk")
        else .ok (.jwk key)
    | none =>
        if hdr.kid ≠ "" then
          match cutPrefix hdr.kid (S.url "/acme/acct/") with
          | (id, true) => .ok (.account id)
          | (_, false) =>
              .error (problem 400 "malformed" "kid is not an account URL of this server")
        else .error (problem 400 "malformed" "one of jwk or kid is required")

/-- The account a kid names and its key; the outer `none` is a failed
`AccountByID`. -/
def accountKey : Option (Option AccountRow) → Except Problem (AccountRow × κ)
  | none => .error (problem 500 "serverInternal" "account lookup")
  | some none => .error (problem 401 "accountDoesNotExist" "unknown account")
  | some (some acct) =>
      if acct.status ≠ "valid" then
        .error (problem 401 "unauthorized" ("account is " ++ acct.status))
      else
        match J.decodeKey acct.jwk with
        | none => .error (problem 500 "serverInternal" "stored account key")
        | some key => .ok (acct, key)

/-- The signature, checked under the key found. -/
def checkSignature (body : String) (account : Option AccountRow) (key : κ) :
    Except Problem (VerifiedRequest κ) :=
  match J.verify body key with
  | none => .error (problem 401 "unauthorized" "JWS verification failed")
  | some payload => .ok ⟨account, key, payload⟩

/-- The checks after the nonce. -/
def authenticate
    (path : String)
    (allowJWK : Bool)
    (body : String)
    (hdr : Header κ)
    (accountByID : String → Option (Option AccountRow)) :
    Except Problem (VerifiedRequest κ) :=
  match signerOf S path allowJWK hdr with
  | .error p => .error p
  | .ok (.jwk key) => checkSignature J body none key
  | .ok (.account id) =>
      match accountKey J (accountByID id) with
      | .error p => .error p
      | .ok (acct, key) => checkSignature J body (some acct) key

/-- `verifyJWS`, given what its two database calls return. -/
def verifyJWS
    (path : String)
    (allowJWK : Bool)
    (body : Option String)
    (consume : String → Option Bool)
    (accountByID : String → Option (Option AccountRow)) :
    Except Problem (VerifiedRequest κ) :=
  match openJWS J body with
  | .error p => .error p
  | .ok (text, hdr) =>
      match nonceVerdict (consume hdr.nonce) with
      | .error p => .error p
      | .ok _ => authenticate J S path allowJWK text hdr accountByID

section Facts

variable {J S}

theorem openJWS_eq_ok
    {body : Option String}
    {text : String}
    {hdr : Header κ}
    (h : openJWS J body = .ok (text, hdr)) :
    body = some text ∧ J.parseSigned text = .ok [hdr] ∧ hdr.nonce ≠ "" := by
  cases body with
  | none => simp [openJWS] at h
  | some body =>
      simp only [openJWS] at h
      split at h
      · simp at h
      · rename_i hdr' hparse
        split at h
        · simp at h
        · rename_i hnonce
          simp only [Except.ok.injEq, Prod.mk.injEq] at h
          obtain ⟨rfl, rfl⟩ := h
          exact ⟨rfl, hparse, hnonce⟩
      · simp at h

theorem nonceVerdict_eq_ok {r : Option Bool} :
    nonceVerdict r = .ok () ↔ r = some true := by
  rcases r with _ | _ | _ <;> simp [nonceVerdict]

theorem accountKey_eq_ok
    {r : Option (Option AccountRow)}
    {acct : AccountRow}
    {key : κ}
    (h : accountKey J r = .ok (acct, key)) :
    r = some (some acct) ∧ acct.status = "valid" ∧ J.decodeKey acct.jwk = some key := by
  rcases r with _ | _ | row
  · simp [accountKey] at h
  · simp [accountKey] at h
  · simp only [accountKey] at h
    split at h
    · simp at h
    · rename_i hstatus
      split at h
      · simp at h
      · rename_i key' hkey
        simp only [Except.ok.injEq, Prod.mk.injEq] at h
        obtain ⟨rfl, rfl⟩ := h
        exact ⟨rfl, not_not.mp hstatus, hkey⟩

theorem checkSignature_eq_ok
    {body : String}
    {account : Option AccountRow}
    {key : κ}
    {q : VerifiedRequest κ}
    (h : checkSignature J body account key = .ok q) :
    ∃ payload, J.verify body key = some payload ∧ q = ⟨account, key, payload⟩ := by
  simp only [checkSignature] at h
  split at h
  · simp at h
  · rename_i payload hpayload
    exact ⟨payload, hpayload, (Except.ok.inj h).symm⟩

/-- A request is verified under the key of a valid account it names, or, where
that is allowed, under the key it carries. -/
theorem authenticate_eq_ok
    {path : String}
    {allowJWK : Bool}
    {body : String}
    {hdr : Header κ}
    {accountByID : String → Option (Option AccountRow)}
    {q : VerifiedRequest κ}
    (h : authenticate J S path allowJWK body hdr accountByID = .ok q) :
    J.verify body q.jwk = some q.payload ∧
      ((q.account = none ∧ allowJWK = true ∧ hdr.jwk = some q.jwk) ∨
        ∃ id acct,
          q.account = some acct ∧ accountByID id = some (some acct) ∧
            acct.status = "valid" ∧ J.decodeKey acct.jwk = some q.jwk) := by
  simp only [authenticate] at h
  split at h
  · simp at h
  · rename_i key hsigner
    obtain ⟨payload, hverify, rfl⟩ := checkSignature_eq_ok h
    refine ⟨hverify, .inl ⟨rfl, ?_⟩⟩
    simp only [signerOf] at hsigner
    split at hsigner
    · simp at hsigner
    · split at hsigner
      · rename_i key' hjwk
        split at hsigner
        · simp at hsigner
        · split at hsigner
          · simp at hsigner
          · rename_i hallow
            simp only [Except.ok.injEq, Signer.jwk.injEq] at hsigner
            subst hsigner
            exact ⟨by simpa using hallow, hjwk⟩
      · split at hsigner
        · split at hsigner <;> simp at hsigner
        · simp at hsigner
  · rename_i id hsigner
    split at h
    · simp at h
    · rename_i acct key hacct
      obtain ⟨payload, hverify, rfl⟩ := checkSignature_eq_ok h
      obtain ⟨hrow, hstatus, hkey⟩ := accountKey_eq_ok hacct
      exact ⟨hverify, .inr ⟨id, acct, rfl, hrow, hstatus, hkey⟩⟩

/-- A request `verifyJWS` accepts has opened, its nonce was consumed, and it
passed the checks after that. -/
theorem verifyJWS_eq_ok
    {path : String}
    {allowJWK : Bool}
    {body : Option String}
    {consume : String → Option Bool}
    {accountByID : String → Option (Option AccountRow)}
    {q : VerifiedRequest κ}
    (h : verifyJWS J S path allowJWK body consume accountByID = .ok q) :
    ∃ text hdr,
      openJWS J body = .ok (text, hdr) ∧
      consume hdr.nonce = some true ∧
      authenticate J S path allowJWK text hdr accountByID = .ok q := by
  simp only [verifyJWS] at h
  split at h
  · simp at h
  · rename_i text hdr hopen
    split at h
    · simp at h
    · rename_i _ hverdict
      exact ⟨text, hdr, hopen, nonceVerdict_eq_ok.mp hverdict, h⟩

end Facts

end Acme
end Yca
