import Yca.Acme.Jws
import Yca.Acme.State
import Yca.Core.Script

/-!
# The account pages

`handleNewAccount` and `handleAccount` (`acme/account.go`), `handleKeyChange`
(`acme/keychange.go`) and the statements they run on `accounts` and `eab_creds`
(`acme/db.go`), each handler as the script of its database calls.  The database
has one connection, so a call is one step; the transaction of `InsertAccountEAB`
is one step too, and takes effect only if it commits.  Other handlers and the
operator's `eab` commands run between any two steps.

What go-jose and the JSON decoder make of a text is a parameter (`Codec`).  What
`ConsumeNonce` answers is left open here.
-/

namespace Yca
namespace Acme
namespace Registry

open Yca.Core

/-- A row of `eab_creds`; `expires` is zero for "never". -/
structure EabRow where
  kid : String
  hmac : String
  allow : String
  created : Nat
  accountId : String
  reusable : Bool
  expires : Int
  deriving DecidableEq

/-- The two tables. -/
structure Tables where
  accounts : List AccountRow
  creds : List EabRow
  deriving DecidableEq

/-- Why `InsertAccountEAB` wrote nothing; `failed` is an error of the
database. -/
inductive EabRefusal
  | used
  | expired
  | gone
  | failed
  deriving DecidableEq

/-- The texts of `errEABUsed`, `errEABExpired` and `errEABGone`. -/
def EabRefusal.text : EabRefusal → String
  | used => "EAB credential already used; request a new one"
  | expired => "EAB credential expired; request a new one"
  | gone => "EAB credential no longer exists"
  | failed => ""

/-- The row that the update of `InsertAccountEAB` matches. -/
def binds (kid : String) (now : Nat) (c : EabRow) : Bool :=
  c.kid == kid && (c.reusable || c.accountId == "") &&
    (c.expires == 0 || decide ((unix now : Int) < c.expires))

/-- `CASE WHEN reusable = 1 THEN account_id ELSE ? END`. -/
def EabRow.bind (id : String) (c : EabRow) : EabRow :=
  if c.reusable then c else { c with accountId := id }

/-- `InsertAccountEAB`: the tables when its transaction has committed. -/
def insertAccountEAB (a : AccountRow) (now : Nat) (t : Tables) : Except EabRefusal Tables :=
  if t.creds.any (binds a.eabKid now) then
    if t.accounts.any fun b => b.id == a.id || b.thumbprint == a.thumbprint then
      .error .failed
    else
      .ok
        { accounts := t.accounts ++ [{ a with created := unix now }]
          creds := updateWhere (binds a.eabKid now) (EabRow.bind a.id) t.creds }
  else
    match t.creds.find? fun c => c.kid == a.eabKid with
    | none => .error .gone
    | some c =>
        if c.expires ≠ 0 ∧ c.expires ≤ unix now then .error .expired else .error .used

/-- `SetAccountKey`; refused when the thumbprint is another account's. -/
def setAccountKey (id jwk thumbprint : String) (t : Tables) : Option Tables :=
  if (t.accounts.any fun a => a.id == id) &&
      t.accounts.any fun a => a.id != id && a.thumbprint == thumbprint then none
  else
    some
      { t with
        accounts :=
          updateWhere (fun a => a.id == id)
            (fun a => { a with jwk, thumbprint }) t.accounts }

/-- `SetAccountStatus`. -/
def setAccountStatus (id status : String) (t : Tables) : Tables :=
  { t with
    accounts := updateWhere (fun a => a.id == id) (fun a => { a with status }) t.accounts }

def Tables.accountByID (t : Tables) (id : String) : Option AccountRow :=
  t.accounts.find? fun a => a.id == id

def Tables.accountByThumbprint (t : Tables) (tp : String) : Option AccountRow :=
  t.accounts.find? fun a => a.thumbprint == tp

def Tables.getEAB (t : Tables) (kid : String) : Option EabRow :=
  t.creds.find? fun c => c.kid == kid

/-- `newAccountPayload`. -/
structure NewAccountPayload where
  onlyReturnExisting : Bool
  externalAccountBinding : String

/-- `keyChangePayload`. -/
structure KeyChangePayload where
  account : String
  oldKey : String

/-- go-jose and `encoding/json` as the account pages use them. -/
structure Codec (κ : Type) extends Jose κ where
  /-- `jose.ParseSigned` with HS256 alone. -/
  parseEab : String → Except String (List (Header κ))
  /-- `eab.Verify` under an HMAC key. -/
  verifyEab : String → String → Option String
  newAccount : String → Option NewAccountPayload
  keyChange : String → Option KeyChangePayload
  /-- The `status` of an account update. -/
  accountStatus : String → Option String

/-- What a client is answered. -/
inductive Answer
  | problem (location : Option String) (p : Problem)
  /-- An account object. -/
  | account (code : Nat) (location : Option String) (status orders : String)
  /-- No fresh nonce could be issued for the answer: a plain 500. -/
  | noNonce
  deriving DecidableEq

/-- What a step of a handler does. -/
inductive Event
  | quiet
  /-- The transaction of `InsertAccountEAB` commits, with the clock read at
  `time`. -/
  | registered (a : AccountRow) (time : Nat)
  /-- `SetAccountKey`, for the row `verifyJWS` read, the key its request names as
  the old one and the new key. -/
  | rolled (row : AccountRow) (old jwk thumbprint : String)
  | statusSet (id status : String)
  | answered (a : Answer)
  deriving DecidableEq

/-- The operator's commands, and time. -/
inductive Outside
  | tick (d : Nat)
  | insertEab (c : EabRow)
  | deleteEab (kid : String)
  deriving DecidableEq

/-- The history: who did what, and when. -/
inductive Entry
  | handler (p : Pid) (e : Event) (time : Nat)
  | operator (x : Outside)
  deriving DecidableEq

/-- The shared state.  `now` is in nanoseconds. -/
structure Desk where
  tables : Tables
  now : Nat
  log : List Entry

/-- What an event does to the tables. -/
def Event.run : Event → Tables → Tables
  | .registered a time, t =>
      match insertAccountEAB a time t with
      | .ok t' => t'
      | .error _ => t
  | .rolled row _ jwk thumbprint, t => (setAccountKey row.id jwk thumbprint t).getD t
  | .statusSet id status, t => setAccountStatus id status t
  | _, t => t

/-- `InsertEAB` refuses a kid that is there. -/
def Outside.run : Outside → Tables → Option Tables
  | .tick _, t => some t
  | .insertEab c, t =>
      if (t.creds.any fun b => b.kid == c.kid) || c.accountId != "" then none
      else some { t with creds := t.creds ++ [c] }
  | .deleteEab kid, t => some { t with creds := t.creds.filter fun c => c.kid != kid }

def Outside.lapse : Outside → Nat
  | .tick d => d
  | _ => 0

/-- The credentials ever made. -/
def credentials (log : List Entry) : List EabRow :=
  log.filterMap fun e =>
    match e with
    | .operator (.insertEab c) => some c
    | _ => none

/-- `newID` does not draw the kid of an earlier credential again. -/
def Outside.fresh (log : List Entry) : Outside → Bool
  | .insertEab c => !(credentials log).any fun b => b.kid == c.kid
  | _ => true

/-- Handlers and the operator at the tables.  A handler that dies leaves nothing
behind: an open transaction is rolled back. -/
def machine : Machine Desk Event Outside where
  apply p e s := { s with tables := e.run s.tables, log := s.log ++ [.handler p e s.now] }
  die _ s := s
  env x s :=
    if x.fresh s.log then
      (x.run s.tables).map fun t => ⟨t, s.now + x.lapse, s.log ++ [.operator x]⟩
    else none

/-- What the state does not determine: whether a database call goes through, what
`ConsumeNonce` returns, and what `newID` draws. -/
structure Choice where
  ok : Bool
  nonce : Option Bool
  id : String

/-- What is left of a handler. -/
abbrev Handler : Type :=
  Script Desk Choice Event

/-- A database call that only reads. -/
def look (next : Choice → Desk → Handler) : Handler :=
  .step (fun _ _ => true) (fun _ _ => .quiet) next

/-- `writeJSON` and `writeProblem`: every answer carries a fresh nonce. -/
def answer (a : Answer) : Handler :=
  .step (fun _ _ => true)
    (fun k _ => .answered (if k.ok then a else .noNonce))
    (fun _ _ => .halt)

/-- `writeProblem(w, problem(...))`. -/
def refuse (status : Nat) (code detail : String) : Handler :=
  answer (.problem none (problem status code detail))

/-- A database call that writes; `next` gets whether it went through. -/
def write (event : Desk → Option Event) (next : Choice → Desk → Handler) : Handler :=
  .step (fun _ _ => true)
    (fun k s => if k.ok then (event s).getD .quiet else .quiet)
    next

variable {κ : Type} (C : Codec κ) (S : Server)

/-- `accountJSON` with its location. -/
def accountPage (code : Nat) (location : Option String) (a : AccountRow) : Answer :=
  .account code location a.status (S.url ("/acme/acct/" ++ a.id ++ "/orders"))

/-- A handler that begins with `verifyJWS`. -/
def verified
    (path : String)
    (allowJWK : Bool)
    (body : Option String)
    (next : VerifiedRequest κ → Handler) : Handler :=
  match openJWS C.toJose body with
  | .error p => answer (.problem none p)
  | .ok (text, hdr) =>
      look fun k _ =>
        match nonceVerdict k.nonce with
        | .error p => answer (.problem none p)
        | .ok _ =>
            look fun k s =>
              match authenticate C.toJose S path allowJWK text hdr fun id =>
                  if k.ok then some (s.tables.accountByID id) else none with
              | .error p => answer (.problem none p)
              | .ok q => next q

/-- `verifyEAB`. -/
def verifyEAB (raw outerURL : String) (acctKey : κ) (next : EabRow → Handler) : Handler :=
  if raw = "" then
    refuse 400 "externalAccountRequired" "this CA requires External Account Binding credentials"
  else
    match C.parseEab raw with
    | .ok [hdr] =>
        if hdr.url.getD "" ≠ outerURL then
          refuse 400 "malformed" "EAB url header does not match the request"
        else
          look fun k s =>
            if !k.ok then refuse 500 "serverInternal" "EAB lookup"
            else
              match s.tables.getEAB hdr.kid with
              | none => refuse 401 "unauthorized" "unknown EAB key id"
              | some cred =>
                  match C.verifyEab raw cred.hmac with
                  | none => refuse 401 "unauthorized" "EAB verification failed"
                  | some payload =>
                      match C.decodeKey payload with
                      | none => refuse 400 "malformed" "EAB payload is not a JWK"
                      | some inner =>
                          match C.thumbprint inner, C.thumbprint acctKey with
                          | some it, some ot =>
                              if it = ot then next cred
                              else
                                refuse 401 "unauthorized"
                                  "EAB payload key does not match the account key"
                          | _, _ =>
                              refuse 401 "unauthorized"
                                "EAB payload key does not match the account key"
    | _ => refuse 400 "malformed" "externalAccountBinding is not a HS256 JWS"

/-- The end of `handleNewAccount`: `InsertAccountEAB` and its answer. -/
def insertAccount (a : AccountRow) (now : Nat) : Handler :=
  write
    (fun s => if (insertAccountEAB a now s.tables).isOk then some (.registered a now) else none)
    fun k s =>
      if !k.ok then refuse 500 "serverInternal" "account insert"
      else
        match insertAccountEAB a now s.tables with
        | .error .failed => refuse 500 "serverInternal" "account insert"
        | .error why => refuse 401 "unauthorized" why.text
        | .ok _ => answer (accountPage S 201 (some (S.url ("/acme/acct/" ++ a.id))) a)

/-- `handleNewAccount` after `verifyJWS`. -/
def newAccountOf (q : VerifiedRequest κ) : Handler :=
  match C.newAccount q.payload with
  | none => refuse 400 "malformed" "newAccount payload is not JSON"
  | some payload =>
      match C.thumbprint q.jwk with
      | none => refuse 500 "serverInternal" "thumbprint"
      | some tp =>
          look fun k s =>
            if !k.ok then refuse 500 "serverInternal" "account lookup"
            else
              match s.tables.accountByThumbprint tp with
              | some existing =>
                  answer
                    (accountPage S 200 (some (S.url ("/acme/acct/" ++ existing.id))) existing)
              | none =>
                  if payload.onlyReturnExisting then
                    refuse 400 "accountDoesNotExist" "no account is registered for this key"
                  else
                    verifyEAB C payload.externalAccountBinding (S.url "/acme/new-account") q.jwk
                      fun cred =>
                        match C.encodeKey q.jwk with
                        | none => refuse 500 "serverInternal" "account key"
                        | some jwk =>
                            -- `newID` and the clock, read before the transaction begins
                            .step (fun k _ => k.id != "") (fun _ _ => .quiet) fun k s =>
                              insertAccount S ⟨k.id, tp, jwk, cred.kid, "valid", 0⟩ s.now

/-- `handleNewAccount`. -/
def handleNewAccount (body : Option String) : Handler :=
  verified C S "/acme/new-account" true body (newAccountOf C S)

/-- The end of `handleKeyChange`: `SetAccountKey` and its answer. -/
def replaceKey (row : AccountRow) (old jwk thumbprint : String) : Handler :=
  write
    (fun s =>
      if (setAccountKey row.id jwk thumbprint s.tables).isSome then
        some (.rolled row old jwk thumbprint)
      else none)
    fun k s =>
      if k.ok && (setAccountKey row.id jwk thumbprint s.tables).isSome then
        answer (accountPage S 200 none row)
      else refuse 500 "serverInternal" "account update"

/-- The checks of `handleKeyChange` on the inner JWS: the old key's thumbprint,
the new key and its thumbprint. -/
def innerKeys (row : AccountRow) (payload : String) : Except Problem (String × κ × String) :=
  match C.parseSigned payload with
  | .ok [hdr] =>
      match hdr.jwk with
      | none => .error (problem 400 "malformed" "inner JWS must carry the new key as jwk")
      | some newKey =>
          if hdr.kid ≠ "" then
            .error (problem 400 "malformed" "inner JWS must carry the new key as jwk")
          else if hdr.nonce ≠ "" then
            .error (problem 400 "malformed" "inner JWS must not have a nonce")
          else if hdr.url.getD "" ≠ S.url "/acme/key-change" then
            .error (problem 400 "malformed" "inner JWS url does not match the request")
          else
            match C.verify payload newKey with
            | none => .error (problem 401 "unauthorized" "inner JWS verification failed")
            | some text =>
                match C.keyChange text with
                | none => .error (problem 400 "malformed" "keyChange object is not JSON")
                | some kc =>
                    if kc.account ≠ S.url ("/acme/acct/" ++ row.id) then
                      .error (problem 400 "malformed"
                        "keyChange account does not match the outer JWS account")
                    else
                      match C.decodeKey kc.oldKey with
                      | none =>
                          .error (problem 400 "malformed" "keyChange oldKey is not a JWK")
                      | some oldKey =>
                          if C.thumbprint oldKey ≠ some row.thumbprint then
                            .error (problem 400 "malformed"
                              "keyChange oldKey does not match the account key")
                          else
                            match C.thumbprint newKey with
                            | none => .error (problem 500 "serverInternal" "thumbprint")
                            | some newTP =>
                                if newTP = row.thumbprint then
                                  .error (problem 400 "malformed"
                                    "new key equals the current account key")
                                else .ok ((C.thumbprint oldKey).getD "", newKey, newTP)
  | _ =>
      .error (problem 400 "malformed" "keyChange payload is not a single-signature JWS")

/-- `handleKeyChange` after `verifyJWS`, for the account it found. -/
def keyChangeOf (row : AccountRow) (payload : String) : Handler :=
  match innerKeys C S row payload with
  | .error p => answer (.problem none p)
  | .ok (old, newKey, newTP) =>
      look fun k s =>
        if !k.ok then refuse 500 "serverInternal" "account lookup"
        else
          match s.tables.accountByThumbprint newTP with
          | some other =>
              answer
                (.problem (some (S.url ("/acme/acct/" ++ other.id)))
                  (problem 409 "malformed" "the new key is already bound to an account"))
          | none =>
              match C.encodeKey newKey with
              | none => refuse 500 "serverInternal" "account key"
              | some jwk => replaceKey S row old jwk newTP

/-- `handleKeyChange`.  Without `allowJWK` a verified request has an account. -/
def handleKeyChange (body : Option String) : Handler :=
  verified C S "/acme/key-change" false body fun q =>
    match q.account with
    | none => .halt
    | some row => keyChangeOf C S row q.payload

/-- `handleAccount` after `verifyJWS`, for the account it found. -/
def accountOf (id : String) (row : AccountRow) (q : VerifiedRequest κ) : Handler :=
  if row.id ≠ id then refuse 401 "unauthorized" "account mismatch"
  else if q.postAsGet then answer (accountPage S 200 none row)
  else
    match C.accountStatus q.payload with
    | none => refuse 400 "malformed" "account update payload is not JSON"
    | some status =>
        if status = "" ∨ status = "valid" then answer (accountPage S 200 none row)
        else if status = "deactivated" then
          write (fun _ => some (.statusSet row.id "deactivated")) fun k _ =>
            if k.ok then answer (accountPage S 200 none { row with status := "deactivated" })
            else refuse 500 "serverInternal" "account update"
        else refuse 400 "malformed" "status can only be set to 'deactivated'"

/-- `handleAccount`. -/
def handleAccount (id : String) (body : Option String) : Handler :=
  verified C S ("/acme/acct/" ++ id) false body fun q =>
    match q.account with
    | none => .halt
    | some row => accountOf C S id row q

/-- A request to one of the account pages. -/
inductive Call
  | newAccount (body : Option String)
  | keyChange (body : Option String)
  | account (id : String) (body : Option String)

/-- The handler of a request. -/
def handle : Call → Handler
  | .newAccount body => handleNewAccount C S body
  | .keyChange body => handleKeyChange C S body
  | .account id body => handleAccount C S id body

/-- The handlers at work. -/
abbrev program : Program Desk Handler Choice Call Outside :=
  machine.program (handle C S)

/-- Empty tables and no history. -/
def Fresh (s : Desk) : Prop :=
  s.tables = ⟨[], []⟩ ∧ s.log = []

end Registry
end Acme
end Yca
