import Yca.Acme.Store
import Yca.Core.Interleaving

/-!
# The frontend's state, its history and its replies

The shared state of the handlers is the database, the clock and the counter
behind `newID`.  Next to it runs a history: the events of the run that the
properties of the protocol are about (which check admitted a name, which
handler won a claim, which challenge was proved, which order was sent to the
CA).  The history is written only, no handler reads it.
-/

namespace Yca
namespace Acme

open Yca.Core

/-- Server settings the modelled handlers read, and the case mapping of the
runes beyond ASCII. -/
structure Config where
  dns01 : Bool
  rune : Char → Char

/-- An identifier object of a newOrder payload. -/
structure Identifier where
  type : String
  value : String
  deriving DecidableEq

/-- A name that `allowed` admitted, with the credential row it read. -/
structure Grant where
  name : String
  cred : EabCred
  deriving DecidableEq

/-- The names a newOrder handler has collected: without repetition, and host
names under at most one wildcard label. -/
structure Granted (grants : List Grant) : Prop where
  nodup : (grants.map Grant.name).Nodup
  host : ∀ g ∈ grants, hostSafe (splitWildcard g.name).1 = true

/-- `keyAuthorization`: the token and the account key's thumbprint. -/
def keyAuthorization (token : Nat) (account : Account) : String :=
  toString token ++ "." ++ account.thumbprint

/-- A validated challenge: the name it was fetched for, and the account whose
key authorization the answer was compared with. -/
structure Evidence where
  challenge : Challenge
  account : Account
  name : String
  keyAuth : String
  deriving DecidableEq

/-- The evidence is for this authorization: one of its challenges, its account
and its name, and a dns-01 challenge if it is a wildcard. -/
structure Evidence.Supports (e : Evidence) (a : Authz) : Prop where
  authz : e.challenge.authzId = a.id
  account : e.account.id = a.accountId
  name : e.name = a.identifier
  keyAuth : e.keyAuth = keyAuthorization e.challenge.token e.account
  wildcard : a.wildcard = true → e.challenge.type = .dns01

/-- What the history records. -/
inductive Event
  /-- A newOrder handler inserted an order for names it had checked. -/
  | opened (order : Order) (account : Account) (grants : List Grant) (p : Pid) (time : Nat)
  /-- The newOrder handler of an order ended. -/
  | settled (order : Nat)
  /-- The client was given the ids of an order. -/
  | disclosed (order : Nat)
  /-- A handler won `ClaimChallenge`. -/
  | claimed (authz challenge order : Nat) (p : Pid)
  /-- A challenge was validated. -/
  | proved (e : Evidence)
  /-- A handler won `ClaimOrder`. -/
  | orderClaimed (order : Nat) (p : Pid)
  /-- The CA was asked for a certificate on behalf of an order. -/
  | asked (order : Nat)
  deriving DecidableEq

/-- The shared state.  `now` is in nanoseconds. -/
structure State where
  cfg : Config
  db : Db
  now : Nat
  nextId : Nat
  log : List Event

/-- `time.Time.Unix`: whole seconds. -/
def unix (now : Nat) : Nat :=
  now / 1000000000

/-- `orderTTL`, 24 hours. -/
def orderTtl : Nat :=
  24 * 60 * 60 * 1000000000

/-- `gcGrace`, 24 hours. -/
def gcGrace : Nat :=
  24 * 60 * 60 * 1000000000

/-- `time.Now().Add(-grace).Unix()`, which may lie before the epoch. -/
def gcCutoff (now grace : Nat) : Int :=
  Int.fdiv ((now : Int) - grace) 1000000000

theorem gcCutoff_le (now grace : Nat) :
    gcCutoff now grace ≤ unix now := by
  have h : Int.fdiv ((now : Int) - grace) 1000000000 = ((now : Int) - grace) / 1000000000 :=
    Int.fdiv_eq_ediv_of_nonneg _ (by omega)
  simp only [gcCutoff, unix, h]
  omega

theorem unix_mono
    {a b : Nat}
    (h : a ≤ b) :
    unix a ≤ unix b :=
  Nat.div_le_div_right h

/-- One step's doing: the statement it runs, the events it records and how
many ids it draws. -/
structure Effect where
  stmt : Stmt := .none
  events : List Event := []
  draws : Nat := 0

/-- The state after a step. -/
def State.apply (s : State) (e : Effect) : State :=
  { s with
    db := e.stmt.run s.db
    log := s.log ++ e.events
    nextId := s.nextId + e.draws }

section Apply

variable (s : State) (e : Effect)

@[simp] theorem State.apply_cfg :
    (s.apply e).cfg = s.cfg := by
  rfl

@[simp] theorem State.apply_db :
    (s.apply e).db = e.stmt.run s.db := by
  rfl

@[simp] theorem State.apply_now :
    (s.apply e).now = s.now := by
  rfl

@[simp] theorem State.apply_log :
    (s.apply e).log = s.log ++ e.events := by
  rfl

@[simp] theorem State.apply_nextId :
    (s.apply e).nextId = s.nextId + e.draws := by
  rfl

@[simp] theorem State.apply_empty :
    s.apply {} = s := by
  simp [State.apply, Stmt.run]

/-- The history only grows. -/
theorem State.mem_apply_log
    {s : State}
    {e : Effect}
    {ev : Event}
    (h : ev ∈ s.log) :
    ev ∈ (s.apply e).log := by
  simp [h]

end Apply

/-- What a handler answers. -/
inductive Reply
  | problem (p : Problem)
  | order (status : Nat) (o : Order) (authzs : List Authz)
  | challenge (c : Challenge)
  /-- A challenge object with nothing in it: its row could not be read. -/
  | blank
  /-- The handler dereferenced a row that is gone; the server recovers. -/
  | panicked
  /-- A garbage collection returned. -/
  | collected

/-- How a step's nondeterminism is resolved. -/
inductive Choice
  /-- The statement, or the outside call, succeeds. -/
  | ok
  /-- It fails with this error text. -/
  | fail (err : String)
  /-- `verifyJWS` refuses the request. -/
  | refused (p : Problem)
  /-- The CA issued this chain and named this common name. -/
  | issued (chain cn : String)
  /-- `certMeta` read this from the chain. -/
  | parsed (info : CertMeta)

/-- Steps of the surroundings: the clock, the account pages and the operator's
credential commands. -/
inductive Outside
  | tick (d : Nat)
  | setAccount (a : Account)
  | insertEab (c : EabCred)
  | deleteEab (kid : String)

/-- What the surroundings do to the state. -/
def outside (s : State) : Outside → State
  | .tick d => { s with now := s.now + d }
  | .setAccount a =>
      { s with
        db := { s.db with
          accounts := a :: s.db.accounts.filter fun b => b.id != a.id } }
  | .insertEab c =>
      if s.db.creds.any fun b => b.kid == c.kid then s
      else { s with db := { s.db with creds := s.db.creds ++ [c] } }
  | .deleteEab kid =>
      { s with
        db := { s.db with creds := s.db.creds.filter fun b => b.kid != kid } }

end Acme
end Yca
