import Yca.Acme.Names
import Yca.Core.Table

/-!
# The database of the ACME frontend

The tables of `acme/db.go` that orders go through, and the statements the
handlers run on them, each with the effect of its SQL text.  Rows keep the
columns the handlers read.  Identifiers (`newID`) are drawn at random and
assumed distinct: here they are numbers from a counter.

A statement is data (`Stmt`), so that a handler's step can be described by the
statement it runs, and a fact about the database is proved statement by
statement.
-/

namespace Yca
namespace Acme

open Yca.Core

/-- An ACME problem document. -/
structure Problem where
  status : Nat
  type : String
  detail : String
  deriving DecidableEq

/-- `problem`: the error namespace is prefixed to the code. -/
def problem (status : Nat) (code detail : String) : Problem :=
  ⟨status, "urn:ietf:params:acme:error:" ++ code, detail⟩

/-- The columns of `eab_creds` that ordering reads. -/
structure EabCred where
  kid : String
  allow : List String
  deriving DecidableEq

/-- The columns of `accounts` that ordering reads. -/
structure Account where
  id : Nat
  thumbprint : String
  eabKid : String
  status : String
  deriving DecidableEq

/-- Order states, "pending -> ready -> processing -> valid | invalid". -/
inductive OrderStatus
  | pending
  | ready
  | processing
  | valid
  | invalid
  deriving DecidableEq

/-- The text of an order state. -/
def OrderStatus.text : OrderStatus → String
  | pending => "pending"
  | ready => "ready"
  | processing => "processing"
  | valid => "valid"
  | invalid => "invalid"

/-- A row of `orders`; `certId` and `error` are empty (`none`) until set. -/
structure Order where
  id : Nat
  accountId : Nat
  status : OrderStatus
  identifiers : List String
  expires : Nat
  certId : Option Nat
  error : Option Problem
  deriving DecidableEq

/-- Authorization states, "pending -> valid | invalid". -/
inductive AuthzStatus
  | pending
  | valid
  | invalid
  deriving DecidableEq

/-- The text of an authorization state. -/
def AuthzStatus.text : AuthzStatus → String
  | pending => "pending"
  | valid => "valid"
  | invalid => "invalid"

/-- A row of `authzs`; a wildcard authorization stores the base name. -/
structure Authz where
  id : Nat
  orderId : Nat
  accountId : Nat
  identifier : String
  status : AuthzStatus
  expires : Nat
  wildcard : Bool
  deriving DecidableEq

/-- Challenge states, "pending -> processing -> valid | invalid". -/
inductive ChallengeStatus
  | pending
  | processing
  | valid
  | invalid
  deriving DecidableEq

inductive ChallengeType
  | http01
  | dns01
  deriving DecidableEq

/-- A row of `challenges`. -/
structure Challenge where
  id : Nat
  authzId : Nat
  type : ChallengeType
  token : Nat
  status : ChallengeStatus
  validated : Nat
  error : Option Problem
  deriving DecidableEq

/-- What `certMeta` reads from an issued chain. -/
structure CertMeta where
  serial : String
  ariId : String
  notBefore : Int
  notAfter : Int
  deriving DecidableEq

/-- A row of `certs`. -/
structure Cert where
  id : Nat
  orderId : Nat
  accountId : Nat
  cn : String
  chainPem : String
  info : CertMeta
  deriving DecidableEq

/-- The tables. -/
structure Db where
  creds : List EabCred
  accounts : List Account
  orders : List Order
  authzs : List Authz
  challenges : List Challenge
  certs : List Cert

namespace Db

/-- `GetEAB`. -/
def getEab (d : Db) (kid : String) : Option EabCred :=
  d.creds.find? fun c => c.kid == kid

/-- `AccountByID`. -/
def accountById (d : Db) (id : Nat) : Option Account :=
  d.accounts.find? fun a => a.id == id

/-- `OrderByID`. -/
def orderById (d : Db) (id : Nat) : Option Order :=
  d.orders.find? fun o => o.id == id

/-- `AuthzByID`. -/
def authzById (d : Db) (id : Nat) : Option Authz :=
  d.authzs.find? fun a => a.id == id

/-- `AuthzsByOrder`, whose `ORDER BY id` goes by random ids: no result below says
in what order the rows come. -/
def authzsByOrder (d : Db) (orderId : Nat) : List Authz :=
  d.authzs.filter fun a => a.orderId == orderId

/-- `ChallengeByID`. -/
def challengeById (d : Db) (id : Nat) : Option Challenge :=
  d.challenges.find? fun c => c.id == id

/-- The `WHERE` clause of `ClaimOrder`: ready and unexpired. -/
def orderClaimable (d : Db) (id : Nat) (now : Nat) : Bool :=
  d.orders.any fun o =>
    o.id == id && o.status == OrderStatus.ready && decide (o.expires > now)

/-- The `WHERE` clause of `ClaimChallenge`: the challenge is pending, no
sibling was attempted and the authorization is pending. -/
def challengeClaimable (d : Db) (c : Challenge) : Bool :=
  (d.challenges.any fun x =>
      x.id == c.id && x.status == ChallengeStatus.pending) &&
    !(d.challenges.any fun x =>
      x.authzId == c.authzId && x.status != ChallengeStatus.pending) &&
    d.authzs.any fun a =>
      a.id == c.authzId && a.status == AuthzStatus.pending

end Db

/-- The statements the handlers run. -/
inductive Stmt
  | none
  | insertOrder (o : Order)
  | insertAuthz (a : Authz)
  | insertChallenge (c : Challenge)
  | claimChallenge (c : Challenge)
  | setChallengeStatus
      (id : Nat) (status : ChallengeStatus) (error : Option Problem) (now : Nat)
  | setAuthzStatus (id : Nat) (status : AuthzStatus)
  | setOrderStatus
      (id : Nat) (status : OrderStatus) (certId : Option Nat) (error : Option Problem)
  | claimOrder (id : Nat) (now : Nat)
  | insertCert (c : Cert)
  | gcOrders (cutoff : Int)
  | gcAuthzs (cutoff : Int)
  | gcChallenges

/-- The effect of a statement. -/
def Stmt.run (d : Db) : Stmt → Db
  | .none => d
  | .insertOrder o => { d with orders := d.orders ++ [o] }
  | .insertAuthz a => { d with authzs := d.authzs ++ [a] }
  | .insertChallenge c => { d with challenges := d.challenges ++ [c] }
  | .claimChallenge c =>
      if d.challengeClaimable c then
        { d with
          challenges := updateWhere
            (fun x => x.id == c.id && x.status == ChallengeStatus.pending)
            (fun x => { x with status := .processing }) d.challenges }
      else d
  | .setChallengeStatus id status error now =>
      { d with
        challenges := updateWhere (fun x => x.id == id)
          (fun x => { x with status := status, error := error, validated := now })
          d.challenges }
  | .setAuthzStatus id status =>
      { d with
        authzs := updateWhere (fun a => a.id == id)
          (fun a => { a with status := status }) d.authzs }
  | .setOrderStatus id status certId error =>
      { d with
        orders := updateWhere (fun o => o.id == id)
          (fun o => { o with status := status, certId := certId, error := error })
          d.orders }
  | .claimOrder id now =>
      { d with
        orders := updateWhere
          (fun o =>
            o.id == id && o.status == OrderStatus.ready && decide (o.expires > now))
          (fun o => { o with status := .processing }) d.orders }
  | .insertCert c => { d with certs := d.certs ++ [c] }
  | .gcOrders cutoff =>
      { d with orders := d.orders.filter fun o => !decide ((o.expires : Int) < cutoff) }
  | .gcAuthzs cutoff =>
      { d with authzs := d.authzs.filter fun a => !decide ((a.expires : Int) < cutoff) }
  | .gcChallenges =>
      { d with
        challenges := d.challenges.filter fun c =>
          d.authzs.any fun a => a.id == c.authzId }

end Acme
end Yca
