import Yca.Acme.Csr
import Yca.Acme.State
import Mathlib.Data.List.Infix

/-!
# The ACME handlers as processes

`handleNewOrder`, `handleChallenge`, `handleFinalize` and `GC`, cut at their
database statements: one step of a handler is one statement (or one reading of
the clock, or one call of a validator or of the CA), together with the pure
code up to the next one.  A statement may fail; where the source ignores the
error (`_ =`), the handler goes on.  `verifyJWS` is its account lookup, the
statement whose result the handlers use.
-/

namespace Yca
namespace Acme

open Yca.Core

/-- Where a newOrder handler stands. -/
inductive NewOrder
  /-- `verifyJWS`. -/
  | auth (account : Nat) (identifiers : List Identifier)
  /-- The loop over the payload's identifiers. -/
  | check (account : Account) (todo : List Identifier) (grants : List Grant)
  /-- `InsertOrder`. -/
  | insert (account : Account) (grants : List Grant) (expires : Nat)
  /-- `InsertAuthz` for the next name. -/
  | authz (order : Order) (made : List Authz) (todo : List String)
  /-- `InsertChallenge` for the next type. -/
  | challenge
      (order : Order) (made : List Authz) (a : Authz) (types : List ChallengeType)
      (todo : List String)

/-- Where a challenge handler stands. -/
inductive ChallengePost
  | auth (account challenge : Nat) (postAsGet : Bool)
  | load (account : Account) (challenge : Nat) (postAsGet : Bool)
  | loadAuthz (account : Account) (c : Challenge) (postAsGet : Bool)
  /-- The expiry check. -/
  | clock (account : Account) (c : Challenge) (a : Authz)
  | claim (account : Account) (c : Challenge) (a : Authz)
  /-- The validator runs. -/
  | validate (account : Account) (c : Challenge) (a : Authz)
  | failChallenge (c : Challenge) (a : Authz) (err : Problem)
  | failAuthz (c : Challenge) (a : Authz) (err : Problem)
  | failOrder (c : Challenge) (a : Authz) (err : Problem)
  | okChallenge (c : Challenge) (a : Authz)
  | okAuthz (c : Challenge) (a : Authz)
  /-- `AuthzsByOrder`. -/
  | scan (c : Challenge) (a : Authz)
  | ready (c : Challenge) (a : Authz)
  /-- Reading the challenge again after a lost claim. -/
  | stale (c : Challenge)
  /-- Reading the challenge again for the answer. -/
  | reload (c : Challenge)

/-- Where a finalize handler stands. -/
inductive Finalize
  | auth (account order : Nat) (payload : FinalizePayload)
  | load (account : Account) (order : Nat) (payload : FinalizePayload)
  | loadAuthzs (account : Account) (order : Order) (payload : FinalizePayload)
  | claim (account : Account) (order : Order) (authzs : List Authz) (time : Nat)
  /-- `ycaRunner.issue`. -/
  | issue (account : Account) (order : Order) (authzs : List Authz)
  | refused (order : Order) (err : Problem)
  | certMeta
      (account : Account) (order : Order) (authzs : List Authz) (chain cn : String)
  | store (order : Order) (authzs : List Authz) (cert : Cert)
  | finish (order : Order) (authzs : List Authz) (cert : Cert)
  | reload (order : Order) (authzs : List Authz)

/-- Where a garbage collection stands. -/
inductive Collect
  | start (grace : Nat)
  | orders (cutoff : Int)
  | authzs (cutoff : Int)
  | challenges

/-- A running, or finished, handler. -/
inductive Handler
  | newOrder (pc : NewOrder)
  | challenge (pc : ChallengePost)
  | finalize (pc : Finalize)
  | gc (pc : Collect)
  | replied (r : Reply)

/-- What a handler is started with. -/
inductive Request
  | newOrder (account : Nat) (identifiers : List Identifier)
  | challenge (account challenge : Nat) (postAsGet : Bool)
  | finalize (account order : Nat) (payload : FinalizePayload)
  | gc (grace : Nat)

/-- The first state of a handler. -/
def start : Request → Handler
  | .newOrder account ids => .newOrder (.auth account ids)
  | .challenge account c get => .challenge (.auth account c get)
  | .finalize account o payload => .finalize (.auth account o payload)
  | .gc grace => .gc (.start grace)

/-- The outcome of a step: what it does and where the handler goes. -/
abbrev Outcome : Type :=
  Effect × Handler

/-- A step that only moves the handler on. -/
def goto (h : Handler) : Outcome :=
  ({}, h)

/-- The handler answers with a problem. -/
def refuse (p : Problem) : Outcome :=
  goto (.replied (.problem p))

/-- `serverInternal` with the given detail. -/
def internal (detail : String) : Outcome :=
  refuse (problem 500 "serverInternal" detail)

/-- `verifyJWS`: the account of the request, or the refusal. -/
def verifyJws (k : Choice) (s : State) (account : Nat) (go : Account → Outcome) :
    Option Outcome :=
  match k with
  | .refused p => some (refuse p)
  | .fail _ => some (internal "account lookup")
  | .ok =>
      match s.db.accountById account with
      | none => some (refuse (problem 401 "accountDoesNotExist" "unknown account"))
      | some a =>
          if a.status = "valid" then some (go a)
          else some (refuse (problem 401 "unauthorized" ("account is " ++ a.status)))
  | _ => none

/-- The challenge types an authorization is given. -/
def challengeTypes (wildcard : Bool) : List ChallengeType :=
  if wildcard then [.dns01] else [.http01, .dns01]

/-- The checks of one identifier object before its allow patterns. -/
def identifierProblem (cfg : Config) (id : Identifier) : Option Problem :=
  let name := toLower cfg.rune id.value
  let base := (splitWildcard name).1
  let wildcard := (splitWildcard name).2
  if id.type ≠ "dns" then
    some (problem 400 "unsupportedIdentifier" "only dns identifiers are supported")
  else if base = "" ∨ hostSafe base = false ∨ base.toList.contains '*' = true then
    some (problem 400 "malformed" ("invalid dns identifier: " ++ id.value))
  else if wildcard = true ∧ cfg.dns01 = false then
    some (problem 400 "unsupportedIdentifier" "wildcards require dns-01")
  else none

/-- `handleNewOrder`. -/
def newOrderStep (p : Pid) (k : Choice) (s : State) : NewOrder → Option Outcome
  | .auth account ids =>
      verifyJws k s account fun a =>
        if ids.isEmpty then
          refuse (problem 400 "malformed" "newOrder needs a non-empty identifiers array")
        else goto (.newOrder (.check a ids []))
  | .check acct [] grants =>
      match k with
      | .ok => some (goto (.newOrder (.insert acct grants (unix (s.now + orderTtl)))))
      | _ => none
  | .check acct (id :: rest) grants =>
      let name := toLower s.cfg.rune id.value
      let rejected := refuse (problem 403 "rejectedIdentifier"
        (name ++ " is outside this account's allowed identifiers"))
      match identifierProblem s.cfg id, k with
      | some pr, .ok => some (refuse pr)
      | none, .ok =>
          match s.db.getEab acct.eabKid with
          | none => some rejected
          | some cred =>
              if allowAdmits cred.allow name then
                some (goto (.newOrder (.check acct rest
                  (if grants.any fun g => g.name == name then grants
                    else grants ++ [⟨name, cred⟩]))))
              else some rejected
      | none, .fail _ => some rejected
      | _, _ => none
  | .insert acct grants expires =>
      match k with
      | .ok =>
          let names := grants.map Grant.name
          let order : Order := ⟨s.nextId, acct.id, .pending, names, expires, none, none⟩
          some ({ stmt := .insertOrder order,
                  events := [.opened order acct grants p s.now],
                  draws := 1 },
            .newOrder (.authz order [] names))
      | .fail _ => some (internal "order insert")
      | _ => none
  | .authz order made [] =>
      match k with
      | .ok =>
          some ({ events := [.settled order.id, .disclosed order.id] },
            .replied (.order 201 order made))
      | _ => none
  | .authz order made (name :: rest) =>
      match k with
      | .ok =>
          let a : Authz := ⟨s.nextId, order.id, order.accountId, (splitWildcard name).1,
            .pending, order.expires, (splitWildcard name).2⟩
          some ({ stmt := .insertAuthz a, draws := 1 },
            .newOrder (.challenge order made a (challengeTypes a.wildcard) rest))
      | .fail _ =>
          some ({ events := [.settled order.id] },
            .replied (.problem (problem 500 "serverInternal" "authz insert")))
      | _ => none
  | .challenge order made a [] rest =>
      match k with
      | .ok => some (goto (.newOrder (.authz order (made ++ [a]) rest)))
      | _ => none
  | .challenge order made a (t :: types) rest =>
      match k with
      | .ok =>
          let c : Challenge := ⟨s.nextId, a.id, t, s.nextId + 1, .pending, 0, none⟩
          some ({ stmt := .insertChallenge c, draws := 2 },
            .newOrder (.challenge order made a types rest))
      | .fail _ =>
          some ({ events := [.settled order.id] },
            .replied (.problem (problem 500 "serverInternal" "challenge insert")))
      | _ => none

/-- The answer `handleChallenge` gives when it does not validate. -/
def noSuchChallenge : Outcome :=
  refuse (problem 404 "malformed" "no such challenge")

/-- `handleChallenge`. -/
def challengeStep (p : Pid) (k : Choice) (s : State) : ChallengePost → Option Outcome
  | .auth account c get =>
      verifyJws k s account fun a => goto (.challenge (.load a c get))
  | .load acct id get =>
      match k with
      | .ok =>
          match s.db.challengeById id with
          | none => some noSuchChallenge
          | some c => some (goto (.challenge (.loadAuthz acct c get)))
      | .fail _ => some (internal "challenge lookup")
      | _ => none
  | .loadAuthz acct c get =>
      match k with
      | .ok =>
          match s.db.authzById c.authzId with
          | none => some noSuchChallenge
          | some a =>
              if a.accountId ≠ acct.id then some noSuchChallenge
              else if get = true ∨ c.status ≠ .pending then
                some (goto (.replied (.challenge c)))
              else if a.status ≠ .pending then
                some (refuse (problem 403 "malformed"
                  ("authorization is already " ++ a.status.text)))
              else some (goto (.challenge (.clock acct c a)))
      | .fail _ => some (internal "authz lookup")
      | _ => none
  | .clock acct c a =>
      match k with
      | .ok =>
          if s.now > a.expires * 1000000000 then
            some (refuse (problem 403 "malformed"
              "authorization expired; submit a new order"))
          else some (goto (.challenge (.claim acct c a)))
      | _ => none
  | .claim acct c a =>
      match k with
      | .ok =>
          if s.db.challengeClaimable c then
            some ({ stmt := .claimChallenge c,
                    events := [.claimed c.authzId c.id a.orderId p] },
              .challenge (.validate acct c a))
          else some (goto (.challenge (.stale c)))
      | .fail _ => some (internal "challenge update")
      | _ => none
  | .validate acct c a =>
      match k with
      | .ok =>
          some ({ events := [.proved ⟨c, acct, a.identifier,
                    keyAuthorization c.token acct⟩] },
            .challenge (.okChallenge c a))
      | .fail err =>
          some (goto (.challenge (.failChallenge c a (problem 403 "unauthorized" err))))
      | _ => none
  | .failChallenge c a err =>
      match k with
      | .ok =>
          some ({ stmt := .setChallengeStatus c.id .invalid (some err) (unix s.now) },
            .challenge (.failAuthz c a err))
      | .fail _ => some (goto (.challenge (.failAuthz c a err)))
      | _ => none
  | .failAuthz c a err =>
      match k with
      | .ok =>
          some ({ stmt := .setAuthzStatus a.id .invalid }, .challenge (.failOrder c a err))
      | .fail _ => some (goto (.challenge (.failOrder c a err)))
      | _ => none
  | .failOrder c a err =>
      match k with
      | .ok =>
          some ({ stmt := .setOrderStatus a.orderId .invalid none (some err) },
            .challenge (.reload c))
      | .fail _ => some (goto (.challenge (.reload c)))
      | _ => none
  | .okChallenge c a =>
      match k with
      | .ok =>
          some ({ stmt := .setChallengeStatus c.id .valid none (unix s.now) },
            .challenge (.okAuthz c a))
      | .fail _ => some (goto (.challenge (.okAuthz c a)))
      | _ => none
  | .okAuthz c a =>
      match k with
      | .ok => some ({ stmt := .setAuthzStatus a.id .valid }, .challenge (.scan c a))
      | .fail _ => some (goto (.challenge (.scan c a)))
      | _ => none
  | .scan c a =>
      match k with
      | .ok =>
          if (s.db.authzsByOrder a.orderId).all fun x => x.status == .valid then
            some (goto (.challenge (.ready c a)))
          else some (goto (.challenge (.reload c)))
      | .fail _ => some (goto (.challenge (.reload c)))
      | _ => none
  | .ready c a =>
      match k with
      | .ok =>
          some ({ stmt := .setOrderStatus a.orderId .ready none none },
            .challenge (.reload c))
      | .fail _ => some (goto (.challenge (.reload c)))
      | _ => none
  | .stale c =>
      match k with
      | .ok => some (goto (.replied (.challenge ((s.db.challengeById c.id).getD c))))
      | .fail _ => some (goto (.replied (.challenge c)))
      | _ => none
  | .reload c =>
      match k with
      | .ok =>
          match s.db.challengeById c.id with
          | none => some (goto (.replied .panicked))
          | some x => some (goto (.replied (.challenge x)))
      -- the error is dropped, and `ChallengeByID` returns an empty row with it
      | .fail _ => some (goto (.replied .blank))
      | _ => none

/-- The error text contains "renewal window". -/
def blockedByWindow (err : String) : Bool :=
  decide ("renewal window".toList <:+: err.toList)

/-- What the order keeps, and the client gets, when the CA does not issue. -/
def issueProblem (err : String) : Problem :=
  if blockedByWindow err then
    problem 403 "rejectedIdentifier"
      ("an active certificate already exists for this identifier; " ++
        "a successor may only be issued once it is within the CA's renewal window")
  else problem 500 "serverInternal" "issuance failed"

/-- `handleFinalize`. -/
def finalizeStep (p : Pid) (k : Choice) (s : State) : Finalize → Option Outcome
  | .auth account o payload =>
      verifyJws k s account fun a => goto (.finalize (.load a o payload))
  | .load acct id payload =>
      match k with
      | .ok =>
          match s.db.orderById id with
          | none => some (refuse (problem 404 "malformed" "no such order"))
          | some o =>
              if o.accountId ≠ acct.id then
                some (refuse (problem 404 "malformed" "no such order"))
              else some (goto (.finalize (.loadAuthzs acct o payload)))
      | .fail _ => some (internal "order lookup")
      | _ => none
  | .loadAuthzs acct o payload =>
      match k with
      | .ok =>
          if o.status ≠ .ready then
            some (refuse (problem 403 "orderNotReady" ("order status is " ++ o.status.text)))
          else
            match payloadProblem s.cfg.rune o.identifiers payload with
            | some pr => some (refuse pr)
            | none =>
                some (goto (.finalize
                  (.claim acct o (s.db.authzsByOrder o.id) (unix s.now))))
      | .fail _ => some (internal "authz lookup")
      | _ => none
  | .claim acct o authzs time =>
      match k with
      | .ok =>
          if s.db.orderClaimable o.id time then
            some ({ stmt := .claimOrder o.id time, events := [.orderClaimed o.id p] },
              .finalize (.issue acct o authzs))
          else
            some (refuse (problem 403 "orderNotReady"
              "order is no longer ready (finalized concurrently, or expired)"))
      | .fail _ => some (internal "order update")
      | _ => none
  | .issue acct o authzs =>
      match k with
      | .issued chain cn =>
          some ({ events := [.asked o.id] }, .finalize (.certMeta acct o authzs chain cn))
      | .fail err =>
          some ({ events := [.asked o.id] },
            .finalize (.refused o (issueProblem err)))
      | _ => none
  | .refused o err =>
      match k with
      | .ok =>
          some ({ stmt := .setOrderStatus o.id .invalid none (some err) },
            .replied (.problem err))
      | .fail _ => some (goto (.replied (.problem err)))
      | _ => none
  | .certMeta acct o authzs chain cn =>
      match k with
      | .parsed info =>
          some ({ draws := 1 },
            .finalize (.store o authzs ⟨s.nextId, o.id, acct.id, cn, chain, info⟩))
      | .fail _ => some (internal "issued chain unparsable")
      | _ => none
  | .store o authzs cert =>
      match k with
      | .ok => some ({ stmt := .insertCert cert }, .finalize (.finish o authzs cert))
      | .fail _ => some (internal "certificate store")
      | _ => none
  | .finish o authzs cert =>
      match k with
      | .ok =>
          some ({ stmt := .setOrderStatus o.id .valid (some cert.id) none },
            .finalize (.reload o authzs))
      | .fail _ => some (goto (.finalize (.reload o authzs)))
      | _ => none
  | .reload o authzs =>
      match k with
      | .ok =>
          match s.db.orderById o.id with
          | none => some (goto (.replied .panicked))
          | some x => some (goto (.replied (.order 200 x authzs)))
      | .fail _ => some (goto (.replied .panicked))
      | _ => none

/-- `GC`. -/
def collectStep (k : Choice) (s : State) : Collect → Option Outcome
  | .start grace =>
      match k with
      | .ok => some (goto (.gc (.orders (gcCutoff s.now grace))))
      | _ => none
  | .orders cutoff =>
      match k with
      | .ok => some ({ stmt := .gcOrders cutoff }, .gc (.authzs cutoff))
      | .fail _ => some (goto (.replied .collected))
      | _ => none
  | .authzs cutoff =>
      match k with
      | .ok => some ({ stmt := .gcAuthzs cutoff }, .gc .challenges)
      | .fail _ => some (goto (.replied .collected))
      | _ => none
  | .challenges =>
      match k with
      | .ok => some ({ stmt := .gcChallenges }, .replied .collected)
      | .fail _ => some (goto (.replied .collected))
      | _ => none

/-- One step of any handler. -/
def next (p : Pid) (k : Choice) (s : State) : Handler → Option Outcome
  | .newOrder pc => newOrderStep p k s pc
  | .challenge pc => challengeStep p k s pc
  | .finalize pc => finalizeStep p k s pc
  | .gc pc => collectStep k s pc
  | .replied _ => none

/-- The order a newOrder handler is filling in. -/
def Handler.filling : Handler → Option Nat
  | .newOrder (.authz o _ _) => some o.id
  | .newOrder (.challenge o _ _ _ _) => some o.id
  | _ => none

/-- A handler that dies leaves the database as it is. -/
def die (h : Handler) (s : State) : State :=
  match h.filling with
  | none => s
  | some o => { s with log := s.log ++ [.settled o] }

/-- The frontend: handlers interleaved statement by statement. -/
def frontend : Program State Handler Choice Request Outside where
  start := start
  act p k s h :=
    match next p k s h with
    | none => none
    | some (e, h') => some (s.apply e, some h')
  crash _ h s := die h s
  env e s := some (outside s e)

/-- A fresh server: empty order tables, any accounts and credentials. -/
def Initial (s : State) : Prop :=
  s.db.orders = [] ∧ s.db.authzs = [] ∧ s.db.challenges = [] ∧ s.log = []

/-- The automaton of all interleavings. -/
def server : Automaton (World State Handler) (Action Choice Request Outside) :=
  frontend.system Initial

end Acme
end Yca
