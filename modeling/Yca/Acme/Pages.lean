import Yca.Acme.Handlers
import Yca.Core.Observer

/-!
# The pages of the frontend

`handleOrder`, `handleAuthz` and `handleCert`: what they read, statement by
statement, and the documents they answer with.  They write nothing but the
nonce of the response, so they are readers beside the handlers: other handlers
may run between any two of their statements.  The URLs on a page are kept as
what they name.
-/

namespace Yca
namespace Acme

open Yca.Core

/-- What the frontend's URLs name: `/acme/order/{id}` and so on. -/
inductive Link
  | finalize (order : Nat)
  | authz (id : Nat)
  | challenge (id : Nat)
  | cert (id : Nat)
  deriving DecidableEq

/-- An order object. -/
structure OrderPage where
  status : OrderStatus
  expires : Nat
  identifiers : List Identifier
  authorizations : List Link
  finalize : Link
  certificate : Option Link
  error : Option Problem
  deriving DecidableEq

/-- `orderJSON`. -/
def orderJson (o : Order) (authzs : List Authz) : OrderPage where
  status := o.status
  expires := o.expires
  identifiers := o.identifiers.map fun v => ⟨"dns", v⟩
  authorizations := authzs.map fun a => .authz a.id
  finalize := .finalize o.id
  certificate := if o.status = .valid then o.certId.map .cert else none
  error := o.error

/-- A challenge object; `validated` is there once the challenge is valid. -/
structure ChallengePage where
  type : ChallengeType
  url : Link
  token : Nat
  status : ChallengeStatus
  validated : Option Nat
  error : Option Problem
  deriving DecidableEq

/-- `challengeJSON`. -/
def challengeJson (c : Challenge) : ChallengePage where
  type := c.type
  url := .challenge c.id
  token := c.token
  status := c.status
  validated := if c.status = .valid then some c.validated else none
  error := c.error

/-- An authorization object. -/
structure AuthzPage where
  identifier : Identifier
  status : AuthzStatus
  expires : Nat
  challenges : List ChallengePage
  wildcard : Bool
  deriving DecidableEq

/-- `authzJSON`. -/
def authzJson (a : Authz) (challs : List Challenge) : AuthzPage where
  identifier := ⟨"dns", a.identifier⟩
  status := a.status
  expires := a.expires
  challenges := challs.map challengeJson
  wildcard := a.wildcard

/-- A response. -/
inductive Page
  | order (p : OrderPage)
  | authz (p : AuthzPage)
  | certificate (chain : String)
  /-- The handler's own problem document. -/
  | problem (p : Problem)
  /-- The problem document of a request that `verifyJWS` refused. -/
  | refused (p : Problem)
  /-- No nonce could be issued for the response. -/
  | internalError
  deriving DecidableEq

/-- `ChallengesByAuthz`. -/
def Db.challengesByAuthz (d : Db) (authzId : Nat) : List Challenge :=
  d.challenges.filter fun c => c.authzId == authzId

/-- `CertByID`. -/
def Db.certById (d : Db) (id : Nat) : Option Cert :=
  d.certs.find? fun c => c.id == id

/-- Where a reading handler stands. -/
inductive Reader
  | orderAuth (account order : Nat)
  | order (acct : Account) (order : Nat)
  /-- `AuthzsByOrder`. -/
  | orderAuthzs (acct : Account) (o : Order)
  | authzAuth (account authz : Nat)
  | authz (acct : Account) (authz : Nat)
  /-- `ChallengesByAuthz`. -/
  | authzChallenges (acct : Account) (a : Authz)
  | certAuth (account cert : Nat)
  | cert (acct : Account) (cert : Nat)
  /-- The response gets its nonce. -/
  | write (p : Page)
  | done (p : Page)

/-- The handler ends with a problem document. -/
def Reader.refuse (status : Nat) (code detail : String) : Reader :=
  .write (.problem (Acme.problem status code detail))

/-- `verifyJWS` on the account table, as the other handlers run it. -/
def Reader.verifyJws (k : Choice) (s : State) (account : Nat) (go : Account → Reader) :
    Option Reader :=
  match k with
  | .refused p => some (.write (.refused p))
  | .fail _ => some (.write (.refused (problem 500 "serverInternal" "account lookup")))
  | .ok =>
      match s.db.accountById account with
      | none =>
          some (.write (.refused (problem 401 "accountDoesNotExist" "unknown account")))
      | some a =>
          if a.status = "valid" then some (go a)
          else some (.write (.refused
            (problem 401 "unauthorized" ("account is " ++ a.status))))
  | _ => none

/-- One statement of `handleOrder`, `handleAuthz` or `handleCert`. -/
def read (k : Choice) (s : State) : Reader → Option Reader
  | .orderAuth account id => Reader.verifyJws k s account fun a => .order a id
  | .order acct id =>
      match k with
      | .ok =>
          match s.db.orderById id with
          | none => some (.refuse 404 "malformed" "no such order")
          | some o =>
              if o.accountId ≠ acct.id then some (.refuse 404 "malformed" "no such order")
              else some (.orderAuthzs acct o)
      | .fail _ => some (.refuse 500 "serverInternal" "order lookup")
      | _ => none
  | .orderAuthzs _ o =>
      match k with
      | .ok => some (.write (.order (orderJson o (s.db.authzsByOrder o.id))))
      | .fail _ => some (.refuse 500 "serverInternal" "authz lookup")
      | _ => none
  | .authzAuth account id => Reader.verifyJws k s account fun a => .authz a id
  | .authz acct id =>
      match k with
      | .ok =>
          match s.db.authzById id with
          | none => some (.refuse 404 "malformed" "no such authorization")
          | some a =>
              if a.accountId ≠ acct.id then
                some (.refuse 404 "malformed" "no such authorization")
              else some (.authzChallenges acct a)
      | .fail _ => some (.refuse 500 "serverInternal" "authz lookup")
      | _ => none
  | .authzChallenges _ a =>
      match k with
      | .ok => some (.write (.authz (authzJson a (s.db.challengesByAuthz a.id))))
      | .fail _ => some (.refuse 500 "serverInternal" "challenge lookup")
      | _ => none
  | .certAuth account id => Reader.verifyJws k s account fun a => .cert a id
  | .cert acct id =>
      match k with
      | .ok =>
          match s.db.certById id with
          | none => some (.refuse 404 "malformed" "no such certificate")
          | some c =>
              if c.accountId ≠ acct.id then
                some (.refuse 404 "malformed" "no such certificate")
              else some (.write (.certificate c.chainPem))
      | .fail _ => some (.refuse 500 "serverInternal" "certificate lookup")
      | _ => none
  | .write p =>
      match k with
      | .ok => some (.done p)
      | .fail _ => some (.done .internalError)
      | _ => none
  | .done _ => none

/-- The frontend and one request that reads. -/
abbrev reading : Automaton (World State Handler × Reader)
    (Action Choice Request Outside ⊕ Choice) :=
  server.beside fun k w r => read k w.shared r

end Acme
end Yca
