import Yca.Acme.Handlers

/-!
# What one step of a handler can do

For each kind of handler the steps it can take, with the guard that was passed
and the outcome, and the one lemma that takes its code apart.  Everything said of
single steps later on is a case analysis on these.
-/

namespace Yca
namespace Acme

open Yca.Core

section Relations

variable (p : Pid) (s : State)

/-- A newOrder handler that has no order in the table yet. -/
def NewOrder.Early : NewOrder → Prop
  | .auth .. => True
  | .check .. => True
  | .insert .. => True
  | _ => False

/-- The steps of `handleNewOrder`. -/
inductive NewOrder.Step : Choice → NewOrder → Outcome → Prop
  | refused {k : Choice} {pc : NewOrder} (pr : Problem) (hpc : pc.Early) :
      Step k pc (refuse pr)
  | accepted {account : Nat} {ids : List Identifier} {a : Account}
      (hrow : s.db.accountById account = some a) (hvalid : a.status = "valid")
      (hids : ids.isEmpty = false) :
      Step .ok (.auth account ids) (goto (.newOrder (.check a ids [])))
  | granted {acct : Account} {id : Identifier} {rest : List Identifier} {grants : List Grant}
      {cred : EabCred} (hshape : identifierProblem s.cfg id = none)
      (hcred : s.db.getEab acct.eabKid = some cred)
      (hallow : allowAdmits cred.allow (toLower s.cfg.rune id.value) = true) :
      Step .ok (.check acct (id :: rest) grants)
        (goto (.newOrder (.check acct rest
          (if grants.any fun g => g.name == toLower s.cfg.rune id.value then grants
            else grants ++ [⟨toLower s.cfg.rune id.value, cred⟩]))))
  | cleared {acct : Account} {grants : List Grant} :
      Step .ok (.check acct [] grants)
        (goto (.newOrder (.insert acct grants (unix (s.now + orderTtl)))))
  | inserted {acct : Account} {grants : List Grant} {expires : Nat} {order : Order}
      (horder : order =
        ⟨s.nextId, acct.id, .pending, grants.map Grant.name, expires, none, none⟩) :
      Step .ok (.insert acct grants expires)
        ({ stmt := .insertOrder order, events := [.opened order acct grants p s.now], draws := 1 },
          .newOrder (.authz order [] (grants.map Grant.name)))
  | settled {order : Order} {made : List Authz} :
      Step .ok (.authz order made [])
        ({ events := [.settled order.id, .disclosed order.id] },
          .replied (.order 201 order made))
  | authz {order : Order} {made : List Authz} {name : String} {rest : List String} {a : Authz}
      (ha : a = ⟨s.nextId, order.id, order.accountId, (splitWildcard name).1, .pending,
        order.expires, (splitWildcard name).2⟩) :
      Step .ok (.authz order made (name :: rest))
        ({ stmt := .insertAuthz a, draws := 1 },
          .newOrder (.challenge order made a (challengeTypes a.wildcard) rest))
  | added {order : Order} {made : List Authz} {a : Authz} {rest : List String} :
      Step .ok (.challenge order made a [] rest)
        (goto (.newOrder (.authz order (made ++ [a]) rest)))
  | challenge {order : Order} {made : List Authz} {a : Authz} {t : ChallengeType}
      {types : List ChallengeType} {rest : List String} {c : Challenge}
      (hc : c = ⟨s.nextId, a.id, t, s.nextId + 1, .pending, 0, none⟩) :
      Step .ok (.challenge order made a (t :: types) rest)
        ({ stmt := .insertChallenge c, draws := 2 },
          .newOrder (.challenge order made a types rest))
  | failed {err : String} {pc : NewOrder} {o : Nat} (pr : Problem)
      (hpc : (Handler.newOrder pc).filling = some o) :
      Step (.fail err) pc ({ events := [.settled o] }, .replied (.problem pr))

/-- An answer that shows no order. -/
def Reply.Bare : Reply → Prop
  | .order .. => False
  | _ => True

/-- A challenge handler that may answer without having claimed the challenge, or
has recorded the outcome. -/
def ChallengePost.Answering : ChallengePost → Prop
  | .auth .. => True
  | .load .. => True
  | .loadAuthz .. => True
  | .clock .. => True
  | .claim .. => True
  | .stale .. => True
  | .reload .. => True
  | _ => False

/-- Where a challenge handler goes on when a statement fails whose error it
ignores. -/
def ChallengePost.onward : ChallengePost → Option ChallengePost
  | .failChallenge c a err => some (.failAuthz c a err)
  | .failAuthz c a err => some (.failOrder c a err)
  | .failOrder c _ _ => some (.reload c)
  | .okChallenge c a => some (.okAuthz c a)
  | .okAuthz c a => some (.scan c a)
  | .scan c _ => some (.reload c)
  | .ready c _ => some (.reload c)
  | _ => none

/-- The steps of `handleChallenge`. -/
inductive ChallengePost.Step : Choice → ChallengePost → Outcome → Prop
  | answered {k : Choice} {pc : ChallengePost} (r : Reply) (hr : r.Bare) (hpc : pc.Answering) :
      Step k pc (goto (.replied r))
  | accepted {account id : Nat} {get : Bool} {a : Account}
      (hrow : s.db.accountById account = some a) (hvalid : a.status = "valid") :
      Step .ok (.auth account id get) (goto (.challenge (.load a id get)))
  | loaded {acct : Account} {id : Nat} {get : Bool} {c : Challenge}
      (hc : s.db.challengeById id = some c) :
      Step .ok (.load acct id get) (goto (.challenge (.loadAuthz acct c get)))
  | owned {acct : Account} {c : Challenge} {get : Bool} {a : Authz}
      (ha : s.db.authzById c.authzId = some a) (hacct : a.accountId = acct.id)
      (hc : c.status = .pending) (hpending : a.status = .pending) :
      Step .ok (.loadAuthz acct c get) (goto (.challenge (.clock acct c a)))
  | timely {acct : Account} {c : Challenge} {a : Authz}
      (hclock : ¬ s.now > a.expires * 1000000000) :
      Step .ok (.clock acct c a) (goto (.challenge (.claim acct c a)))
  | won {acct : Account} {c : Challenge} {a : Authz}
      (hclaim : s.db.challengeClaimable c = true) :
      Step .ok (.claim acct c a)
        ({ stmt := .claimChallenge c, events := [.claimed c.authzId c.id a.orderId p] },
          .challenge (.validate acct c a))
  | lost {acct : Account} {c : Challenge} {a : Authz}
      (hclaim : s.db.challengeClaimable c = false) :
      Step .ok (.claim acct c a) (goto (.challenge (.stale c)))
  | proved {acct : Account} {c : Challenge} {a : Authz} :
      Step .ok (.validate acct c a)
        ({ events := [.proved ⟨c, acct, a.identifier, keyAuthorization c.token acct⟩] },
          .challenge (.okChallenge c a))
  | disproved {err : String} {acct : Account} {c : Challenge} {a : Authz} :
      Step (.fail err) (.validate acct c a)
        (goto (.challenge (.failChallenge c a (problem 403 "unauthorized" err))))
  | failChallenge {c : Challenge} {a : Authz} {err : Problem} :
      Step .ok (.failChallenge c a err)
        ({ stmt := .setChallengeStatus c.id .invalid (some err) (unix s.now) },
          .challenge (.failAuthz c a err))
  | failAuthz {c : Challenge} {a : Authz} {err : Problem} :
      Step .ok (.failAuthz c a err)
        ({ stmt := .setAuthzStatus a.id .invalid }, .challenge (.failOrder c a err))
  | failOrder {c : Challenge} {a : Authz} {err : Problem} :
      Step .ok (.failOrder c a err)
        ({ stmt := .setOrderStatus a.orderId .invalid none (some err) }, .challenge (.reload c))
  | okChallenge {c : Challenge} {a : Authz} :
      Step .ok (.okChallenge c a)
        ({ stmt := .setChallengeStatus c.id .valid none (unix s.now) },
          .challenge (.okAuthz c a))
  | okAuthz {c : Challenge} {a : Authz} :
      Step .ok (.okAuthz c a) ({ stmt := .setAuthzStatus a.id .valid }, .challenge (.scan c a))
  | complete {c : Challenge} {a : Authz}
      (hall : ((s.db.authzsByOrder a.orderId).all fun x => x.status == .valid) = true) :
      Step .ok (.scan c a) (goto (.challenge (.ready c a)))
  | incomplete {c : Challenge} {a : Authz}
      (hall : ((s.db.authzsByOrder a.orderId).all fun x => x.status == .valid) = false) :
      Step .ok (.scan c a) (goto (.challenge (.reload c)))
  | ready {c : Challenge} {a : Authz} :
      Step .ok (.ready c a)
        ({ stmt := .setOrderStatus a.orderId .ready none none }, .challenge (.reload c))
  | skipped {err : String} {pc pc' : ChallengePost} (hpc : pc.onward = some pc') :
      Step (.fail err) pc (goto (.challenge pc'))

/-- A finalize handler that may answer. -/
def Finalize.Answering : Finalize → Prop
  | .issue .. => False
  | .finish .. => False
  | _ => True

/-- The steps of `handleFinalize`. -/
inductive Finalize.Step : Choice → Finalize → Outcome → Prop
  | answered {k : Choice} {pc : Finalize} (r : Reply) (hr : r.Bare) (hpc : pc.Answering) :
      Step k pc (goto (.replied r))
  | accepted {account id : Nat} {payload : FinalizePayload} {a : Account}
      (hrow : s.db.accountById account = some a) (hvalid : a.status = "valid") :
      Step .ok (.auth account id payload) (goto (.finalize (.load a id payload)))
  | loaded {acct : Account} {id : Nat} {payload : FinalizePayload} {o : Order}
      (ho : s.db.orderById id = some o) (hacct : o.accountId = acct.id) :
      Step .ok (.load acct id payload) (goto (.finalize (.loadAuthzs acct o payload)))
  | checked {acct : Account} {o : Order} {payload : FinalizePayload}
      (hready : o.status = .ready)
      (hpayload : payloadProblem s.cfg.rune o.identifiers payload = none) :
      Step .ok (.loadAuthzs acct o payload)
        (goto (.finalize (.claim acct o (s.db.authzsByOrder o.id) (unix s.now))))
  | claimed {acct : Account} {o : Order} {authzs : List Authz} {time : Nat}
      (hclaim : s.db.orderClaimable o.id time = true) :
      Step .ok (.claim acct o authzs time)
        ({ stmt := .claimOrder o.id time, events := [.orderClaimed o.id p] },
          .finalize (.issue acct o authzs))
  | issued {chain cn : String} {acct : Account} {o : Order} {authzs : List Authz} :
      Step (.issued chain cn) (.issue acct o authzs)
        ({ events := [.asked o.id] }, .finalize (.certMeta acct o authzs chain cn))
  | blocked {err : String} {acct : Account} {o : Order} {authzs : List Authz} :
      Step (.fail err) (.issue acct o authzs)
        ({ events := [.asked o.id] }, .finalize (.refused o (issueProblem err)))
  | refused {o : Order} {err : Problem} :
      Step .ok (.refused o err)
        ({ stmt := .setOrderStatus o.id .invalid none (some err) }, .replied (.problem err))
  | parsed {info : CertMeta} {acct : Account} {o : Order} {authzs : List Authz}
      {chain cn : String} :
      Step (.parsed info) (.certMeta acct o authzs chain cn)
        ({ draws := 1 },
          .finalize (.store o authzs ⟨s.nextId, o.id, acct.id, cn, chain, info⟩))
  | stored {o : Order} {authzs : List Authz} {cert : Cert} :
      Step .ok (.store o authzs cert)
        ({ stmt := .insertCert cert }, .finalize (.finish o authzs cert))
  | finished {o : Order} {authzs : List Authz} {cert : Cert} :
      Step .ok (.finish o authzs cert)
        ({ stmt := .setOrderStatus o.id .valid (some cert.id) none },
          .finalize (.reload o authzs))
  | skipped {err : String} {o : Order} {authzs : List Authz} {cert : Cert} :
      Step (.fail err) (.finish o authzs cert) (goto (.finalize (.reload o authzs)))
  | reloaded {o r : Order} {authzs : List Authz} (hr : s.db.orderById o.id = some r) :
      Step .ok (.reload o authzs) (goto (.replied (.order 200 r authzs)))

/-- The steps of `GC`. -/
inductive Collect.Step : Choice → Collect → Outcome → Prop
  | started {grace : Nat} :
      Step .ok (.start grace) (goto (.gc (.orders (gcCutoff s.now grace))))
  | orders {cutoff : Int} :
      Step .ok (.orders cutoff) ({ stmt := .gcOrders cutoff }, .gc (.authzs cutoff))
  | authzs {cutoff : Int} :
      Step .ok (.authzs cutoff) ({ stmt := .gcAuthzs cutoff }, .gc .challenges)
  | challenges :
      Step .ok .challenges ({ stmt := .gcChallenges }, .replied .collected)
  | failed {err : String} {pc : Collect} :
      Step (.fail err) pc (goto (.replied .collected))

end Relations

variable {p : Pid} {k : Choice} {s : State} {out : Outcome}

/-- A request is refused, or its handler goes on with the row of a valid account. -/
theorem verifyJws_cases
    {account : Nat}
    {go : Account → Outcome}
    (hx : verifyJws k s account go = some out) :
    (∃ pr, out = refuse pr) ∨
    ∃ a, k = .ok ∧ s.db.accountById account = some a ∧ a.status = "valid" ∧ out = go a := by
  cases k with
  | ok =>
      simp only [verifyJws] at hx
      split at hx
      · exact Or.inl ⟨_, (Option.some.inj hx).symm⟩
      · rename_i a ha
        split at hx
        · rename_i hvalid
          exact Or.inr ⟨a, rfl, ha, hvalid, (Option.some.inj hx).symm⟩
        · exact Or.inl ⟨_, (Option.some.inj hx).symm⟩
  | fail err => exact Or.inl ⟨_, (Option.some.inj hx).symm⟩
  | refused pr => exact Or.inl ⟨pr, (Option.some.inj hx).symm⟩
  | issued _ _ => simp [verifyJws] at hx
  | parsed _ => simp [verifyJws] at hx

theorem newOrder_step
    {pc : NewOrder}
    (hx : newOrderStep p k s pc = some out) :
    pc.Step p s k out := by
  cases pc with
  | auth account ids =>
      rcases verifyJws_cases hx with ⟨pr, rfl⟩ | ⟨a, rfl, ha, hvalid, rfl⟩
      · exact .refused pr trivial
      · split
        · exact .refused _ trivial
        · rename_i hids
          exact .accepted ha hvalid (by simpa using hids)
  | check acct todo grants =>
      cases todo with
      | nil =>
          cases k <;> simp only [newOrderStep] at hx <;> cases hx
          exact .cleared
      | cons id rest =>
          simp only [newOrderStep] at hx
          split at hx
          · cases hx
            exact .refused _ trivial
          · rename_i hshape
            split at hx
            · cases hx
              exact .refused _ trivial
            · rename_i cred hcred
              split at hx <;> cases hx
              · rename_i hallow
                exact .granted hshape hcred hallow
              · exact .refused _ trivial
          · cases hx
            exact .refused _ trivial
          · cases hx
  | insert acct grants expires =>
      cases k <;> simp only [newOrderStep] at hx <;> cases hx
      · exact .inserted rfl
      · exact .refused _ trivial
  | authz order made todo =>
      cases todo <;> cases k <;> simp only [newOrderStep] at hx <;> cases hx
      · exact .settled
      · exact .authz rfl
      · exact .failed _ rfl
  | challenge order made a types rest =>
      cases types <;> cases k <;> simp only [newOrderStep] at hx <;> cases hx
      · exact .added
      · exact .challenge rfl
      · exact .failed _ rfl

theorem challenge_step
    {pc : ChallengePost}
    (hx : challengeStep p k s pc = some out) :
    pc.Step p s k out := by
  cases pc with
  | auth account id get =>
      rcases verifyJws_cases hx with ⟨pr, rfl⟩ | ⟨a, rfl, ha, hvalid, rfl⟩
      · exact .answered _ trivial trivial
      · exact .accepted ha hvalid
  | load acct id get =>
      cases k <;> simp only [challengeStep] at hx
      · split at hx <;> cases hx
        · exact .answered _ trivial trivial
        · rename_i c hc
          exact .loaded hc
      · cases hx
        exact .answered _ trivial trivial
      all_goals cases hx
  | loadAuthz acct c get =>
      cases k <;> simp only [challengeStep] at hx
      · split at hx
        · cases hx
          exact .answered _ trivial trivial
        · rename_i a ha
          split at hx
          · cases hx
            exact .answered _ trivial trivial
          · rename_i hacct
            split at hx
            · cases hx
              exact .answered _ trivial trivial
            · rename_i hposted
              split at hx <;> cases hx
              · exact .answered _ trivial trivial
              · rename_i hpending
                rw [not_or] at hposted
                exact .owned ha (not_not.mp hacct) (not_not.mp hposted.2) (not_not.mp hpending)
      · cases hx
        exact .answered _ trivial trivial
      all_goals cases hx
  | clock acct c a =>
      cases k <;> simp only [challengeStep] at hx
      · split at hx <;> cases hx
        · exact .answered _ trivial trivial
        · rename_i hclock
          exact .timely hclock
      all_goals cases hx
  | claim acct c a =>
      cases k <;> simp only [challengeStep] at hx
      · split at hx <;> cases hx
        · rename_i hclaim
          exact .won hclaim
        · rename_i hclaim
          exact .lost (by simpa using hclaim)
      · cases hx
        exact .answered _ trivial trivial
      all_goals cases hx
  | validate acct c a =>
      cases k <;> simp only [challengeStep] at hx <;> cases hx
      · exact .proved
      · exact .disproved
  | failChallenge c a err =>
      cases k <;> simp only [challengeStep] at hx <;> cases hx
      · exact .failChallenge
      · exact .skipped rfl
  | failAuthz c a err =>
      cases k <;> simp only [challengeStep] at hx <;> cases hx
      · exact .failAuthz
      · exact .skipped rfl
  | failOrder c a err =>
      cases k <;> simp only [challengeStep] at hx <;> cases hx
      · exact .failOrder
      · exact .skipped rfl
  | okChallenge c a =>
      cases k <;> simp only [challengeStep] at hx <;> cases hx
      · exact .okChallenge
      · exact .skipped rfl
  | okAuthz c a =>
      cases k <;> simp only [challengeStep] at hx <;> cases hx
      · exact .okAuthz
      · exact .skipped rfl
  | scan c a =>
      cases k <;> simp only [challengeStep] at hx
      · split at hx <;> cases hx
        · rename_i hall
          exact .complete hall
        · rename_i hall
          exact .incomplete (by simpa using hall)
      · cases hx
        exact .skipped rfl
      all_goals cases hx
  | ready c a =>
      cases k <;> simp only [challengeStep] at hx <;> cases hx
      · exact .ready
      · exact .skipped rfl
  | stale c =>
      cases k <;> simp only [challengeStep] at hx <;> cases hx
      · exact .answered _ trivial trivial
      · exact .answered _ trivial trivial
  | reload c =>
      cases k <;> simp only [challengeStep] at hx
      · split at hx <;> cases hx
        · exact .answered _ trivial trivial
        · exact .answered _ trivial trivial
      · cases hx
        exact .answered _ trivial trivial
      all_goals cases hx

theorem finalize_step
    {pc : Finalize}
    (hx : finalizeStep p k s pc = some out) :
    pc.Step p s k out := by
  cases pc with
  | auth account id payload =>
      rcases verifyJws_cases hx with ⟨pr, rfl⟩ | ⟨a, rfl, ha, hvalid, rfl⟩
      · exact .answered _ trivial trivial
      · exact .accepted ha hvalid
  | load acct id payload =>
      cases k <;> simp only [finalizeStep] at hx
      · split at hx
        · cases hx
          exact .answered _ trivial trivial
        · rename_i o ho
          split at hx <;> cases hx
          · exact .answered _ trivial trivial
          · rename_i hacct
            exact .loaded ho (not_not.mp hacct)
      · cases hx
        exact .answered _ trivial trivial
      all_goals cases hx
  | loadAuthzs acct o payload =>
      cases k <;> simp only [finalizeStep] at hx
      · split at hx
        · cases hx
          exact .answered _ trivial trivial
        · rename_i hready
          split at hx <;> cases hx
          · exact .answered _ trivial trivial
          · rename_i hpayload
            exact .checked (not_not.mp hready) hpayload
      · cases hx
        exact .answered _ trivial trivial
      all_goals cases hx
  | claim acct o authzs time =>
      cases k <;> simp only [finalizeStep] at hx
      · split at hx <;> cases hx
        · rename_i hclaim
          exact .claimed hclaim
        · exact .answered _ trivial trivial
      · cases hx
        exact .answered _ trivial trivial
      all_goals cases hx
  | issue acct o authzs =>
      cases k <;> simp only [finalizeStep] at hx <;> cases hx
      · exact .blocked
      · exact .issued
  | refused o err =>
      cases k <;> simp only [finalizeStep] at hx <;> cases hx
      · exact .refused
      · exact .answered _ trivial trivial
  | certMeta acct o authzs chain cn =>
      cases k <;> simp only [finalizeStep] at hx <;> cases hx
      · exact .answered _ trivial trivial
      · exact .parsed
  | store o authzs cert =>
      cases k <;> simp only [finalizeStep] at hx <;> cases hx
      · exact .stored
      · exact .answered _ trivial trivial
  | finish o authzs cert =>
      cases k <;> simp only [finalizeStep] at hx <;> cases hx
      · exact .finished
      · exact .skipped
  | reload o authzs =>
      cases k <;> simp only [finalizeStep] at hx
      · split at hx <;> cases hx
        · exact .answered _ trivial trivial
        · rename_i r hr
          exact .reloaded hr
      · cases hx
        exact .answered _ trivial trivial
      all_goals cases hx

theorem collect_step
    {pc : Collect}
    (hx : collectStep k s pc = some out) :
    pc.Step s k out := by
  cases pc <;> cases k <;> simp only [collectStep] at hx <;> cases hx
  · exact .started
  · exact .orders
  · exact .failed
  · exact .authzs
  · exact .failed
  · exact .challenges
  · exact .failed

end Acme
end Yca
