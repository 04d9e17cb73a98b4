import Yca.Acme.Handlers

/-!
# What one step of a handler can do

`Change` says, table by table, everything that a step of handler `h` of
process `p` can do to the state: which rows can appear, which can go, how a row
can move, and which events can be recorded.  Every invariant of the frontend is
derived from it, so the handlers' code is unfolded only where a `Change` is
established.
-/

namespace Yca
namespace Acme

open Yca.Core

/-- The order was inserted after its own expiry: a newOrder handler paused for
longer than `orderTTL` before its first statement. -/
def Late (log : List Event) (o : Nat) : Prop :=
  ∃ order acct grants p t,
    Event.opened order acct grants p t ∈ log ∧
    order.id = o ∧
    order.expires < unix t

/-- What a client has to know of an order: that its newOrder handler has ended,
or (strictly) that it was given the order's ids. -/
def known (strict : Bool) (o : Nat) : Event :=
  if strict then .disclosed o else .settled o

/-- Every authorization the order has is valid, and it gets no others. -/
structure Covered (strict : Bool) (s : State) (o : Nat) : Prop where
  known : known strict o ∈ s.log
  valid : ∀ a ∈ s.db.authzs, a.orderId = o → a.status = .valid

/-- An authorization of the given order for a name. -/
def HasAuthz (s : State) (o : Nat) (name : String) : Prop :=
  ∃ a ∈ s.db.authzs, a.orderId = o ∧ (a.identifier, a.wildcard) = splitWildcard name

/-- How a step can move a row of `orders`. -/
inductive OrderMove
    (strict : Bool) (p : Pid) (h : Handler) (s s' : State) (r : Order) : Order → Prop
  | same :
      OrderMove strict p h s s' r r
  | failed {authz c : Nat} {err : Problem} :
      Event.claimed authz c r.id p ∈ s.log →
      (∀ a ∈ s.db.authzs, a.id = authz → a.status ≠ .valid) →
      OrderMove strict p h s s' r
        { r with status := .invalid, certId := none, error := some err }
  | ready {c : Challenge} {a : Authz} :
      h = .challenge (.ready c a) →
      a.orderId = r.id →
      Covered strict s r.id →
      OrderMove strict p h s s' r
        { r with status := .ready, certId := none, error := none }
  | claim :
      r.status = .ready →
      Event.orderClaimed r.id p ∈ s'.log →
      OrderMove strict p h s s' r { r with status := .processing }
  | refused {o : Order} {err : Problem} :
      h = .finalize (.refused o err) →
      o.id = r.id →
      OrderMove strict p h s s' r
        { r with status := .invalid, certId := none, error := some err }
  | finish {o : Order} {authzs : List Authz} {cert : Cert} :
      h = .finalize (.finish o authzs cert) →
      o.id = r.id →
      Covered strict s r.id →
      OrderMove strict p h s s' r
        { r with status := .valid, certId := some cert.id, error := none }

/-- How a step can move a row of `authzs`. -/
inductive AuthzMove (p : Pid) (s : State) (a : Authz) : Authz → Prop
  | same :
      AuthzMove p s a a
  | invalid {c o : Nat} :
      Event.claimed a.id c o p ∈ s.log →
      a.status = .pending →
      AuthzMove p s a { a with status := .invalid }
  | valid {c o : Nat} {e : Evidence} :
      Event.claimed a.id c o p ∈ s.log →
      a.status = .pending →
      Event.proved e ∈ s.log →
      e.challenge.id = c →
      e.Supports a →
      AuthzMove p s a { a with status := .valid }

/-- How a step can move a row of `challenges`. -/
structure ChallengeMove (p : Pid) (s' : State) (c c' : Challenge) : Prop where
  id : c'.id = c.id
  authzId : c'.authzId = c.authzId
  type : c'.type = c.type
  token : c'.token = c.token
  status :
    c'.status = c.status ∨
      c'.status ≠ .pending ∧ ∃ o, Event.claimed c.authzId c.id o p ∈ s'.log

/-- The events a step can record. -/
inductive NewEvent (p : Pid) (h : Handler) (s s' : State) : Event → Prop
  | opened {o : Order} {acct : Account} {grants : List Grant} :
      o.id = s.nextId →
      s.nextId < s'.nextId →
      o.accountId = acct.id →
      o.identifiers = grants.map Grant.name →
      Granted grants →
      s'.log = s.log ++ [.opened o acct grants p s.now] →
      NewEvent p h s s' (.opened o acct grants p s.now)
  | settled {o : Order} {acct : Account} {grants : List Grant} {t : Nat} :
      Event.opened o acct grants p t ∈ s.log →
      NewEvent p h s s' (.settled o.id)
  | disclosed {o : Order} {acct : Account} {grants : List Grant} {t : Nat} :
      Event.opened o acct grants p t ∈ s.log →
      Event.settled o.id ∈ s'.log →
      (¬ Late s.log o.id →
        ∀ r ∈ s.db.orders, r.id = o.id →
        ∀ name ∈ o.identifiers, HasAuthz s o.id name) →
      NewEvent p h s s' (.disclosed o.id)
  | claimed {a : Authz} {c : Challenge} :
      a ∈ s.db.authzs →
      a.status = .pending →
      c.authzId = a.id →
      ¬ Late s.log a.orderId →
      (∀ x ∈ s.db.challenges, x.authzId = a.id → x.status = .pending) →
      (∃ x ∈ s'.db.challenges,
        x.id = c.id ∧ x.authzId = a.id ∧ x.status = .processing) →
      s'.log = s.log ++ [.claimed a.id c.id a.orderId p] →
      NewEvent p h s s' (.claimed a.id c.id a.orderId p)
  | proved (e : Evidence) :
      NewEvent p h s s' (.proved e)
  | orderClaimed {r : Order} :
      r ∈ s.db.orders →
      r.status = .ready →
      (∀ r' ∈ s'.db.orders, r'.id = r.id → r'.status = .processing) →
      s'.log = s.log ++ [.orderClaimed r.id p] →
      NewEvent p h s s' (.orderClaimed r.id p)
  | asked {acct : Account} {o : Order} {authzs : List Authz} :
      h = .finalize (.issue acct o authzs) →
      s'.log = s.log ++ [.asked o.id] →
      NewEvent p h s s' (.asked o.id)

/-- A row a step can insert into `orders`. -/
structure FreshOrder (s s' : State) (r : Order) : Prop where
  id : r.id = s.nextId
  drawn : s.nextId < s'.nextId
  status : r.status = .pending
  certId : r.certId = none
  opened : ∃ acct grants p, Event.opened r acct grants p s.now ∈ s'.log

/-- A row a step can insert into `authzs`. -/
structure FreshAuthz (p : Pid) (s s' : State) (a : Authz) : Prop where
  id : a.id = s.nextId
  drawn : s.nextId < s'.nextId
  status : a.status = .pending
  filling : ∃ o acct grants t,
    Event.opened o acct grants p t ∈ s.log ∧
    Event.settled o.id ∉ s.log ∧
    a.orderId = o.id ∧ a.accountId = o.accountId ∧ a.expires = o.expires

/-- A row a step can insert into `challenges`. -/
structure FreshChallenge (s s' : State) (c : Challenge) : Prop where
  id : c.id = s.nextId
  drawn : s.nextId < s'.nextId
  status : c.status = .pending
  authzId : c.authzId < s.nextId
  wildcard : ∀ a ∈ s.db.authzs, a.id = c.authzId → a.wildcard = true → c.type = .dns01

/-- Everything a step can do.  An authorization goes only after its order,
unless the order came late, and a challenge only after its authorization. -/
structure Change
    (strict : Bool) (p : Pid) (h : Handler) (s s' : State) : Prop where
  now : s.now ≤ s'.now
  nextId : s.nextId ≤ s'.nextId
  history : ∃ events, s'.log = s.log ++ events ∧ ∀ ev ∈ events, NewEvent p h s s' ev
  orders : RowsChange Order.id s.nextId (OrderMove strict p h s s') (FreshOrder s s')
    (fun _ => True) s.db.orders s'.db.orders
  authzs : RowsChange Authz.id s.nextId (AuthzMove p s) (FreshAuthz p s s')
    (fun a => ∀ r ∈ s'.db.orders, r.id = a.orderId → Late s.log r.id)
    s.db.authzs s'.db.authzs
  challenges : RowsChange Challenge.id s.nextId (ChallengeMove p s') (FreshChallenge s s')
    (fun c => ∀ a ∈ s'.db.authzs, a.id ≠ c.authzId)
    s.db.challenges s'.db.challenges

theorem ChallengeMove.same (p : Pid) (s' : State) (c : Challenge) :
    ChallengeMove p s' c c :=
  ⟨rfl, rfl, rfl, rfl, Or.inl rfl⟩

namespace Change

section Build

variable {strict : Bool} {p : Pid} {h : Handler} {s s' : State}

/-- The history only grows. -/
theorem log
    (hc : Change strict p h s s')
    (ev : Event)
    (hev : ev ∈ s.log) :
    ev ∈ s'.log := by
  rcases hc.history with ⟨events, hlog, _⟩
  rw [hlog]
  exact List.mem_append_left _ hev

/-- Every event was there or is one a step can record. -/
theorem event
    (hc : Change strict p h s s')
    (ev : Event)
    (hev : ev ∈ s'.log) :
    ev ∈ s.log ∨ NewEvent p h s s' ev := by
  rcases hc.history with ⟨events, hlog, hnew⟩
  rw [hlog] at hev
  rcases List.mem_append.mp hev with hold | hmem
  · exact Or.inl hold
  · exact Or.inr (hnew ev hmem)

theorem ordersSame
    (hrows : s'.db.orders = s.db.orders) :
    RowsChange Order.id s.nextId (OrderMove strict p h s s') (FreshOrder s s')
      (fun _ => True) s.db.orders s'.db.orders := by
  rw [hrows]
  exact RowsChange.same fun r _ => OrderMove.same

theorem authzsSame
    (hrows : s'.db.authzs = s.db.authzs) :
    RowsChange Authz.id s.nextId (AuthzMove p s) (FreshAuthz p s s')
      (fun a => ∀ r ∈ s'.db.orders, r.id = a.orderId → Late s.log r.id)
      s.db.authzs s'.db.authzs := by
  rw [hrows]
  exact RowsChange.same fun a _ => AuthzMove.same

theorem challengesSame
    (hrows : s'.db.challenges = s.db.challenges) :
    RowsChange Challenge.id s.nextId (ChallengeMove p s') (FreshChallenge s s')
      (fun c => ∀ a ∈ s'.db.authzs, a.id ≠ c.authzId)
      s.db.challenges s'.db.challenges := by
  rw [hrows]
  exact RowsChange.same fun c _ => ChallengeMove.same p s' c

/-- Nothing the handlers work on is touched. -/
theorem untouched
    (hnow : s.now ≤ s'.now)
    (hnextId : s'.nextId = s.nextId)
    (hlog : s'.log = s.log)
    (horders : s'.db.orders = s.db.orders)
    (hauthzs : s'.db.authzs = s.db.authzs)
    (hchallenges : s'.db.challenges = s.db.challenges) :
    Change strict p h s s' where
  now := hnow
  nextId := Nat.le_of_eq hnextId.symm
  history := ⟨[], by simp [hlog], by simp⟩
  orders := ordersSame horders
  authzs := authzsSame hauthzs
  challenges := challengesSame hchallenges

/-- A step's change, from its effect. -/
theorem ofEffect
    {e : Effect}
    (hs' : s' = s.apply e)
    (hevent : ∀ ev ∈ e.events, NewEvent p h s s' ev)
    (horders : RowsChange Order.id s.nextId (OrderMove strict p h s s') (FreshOrder s s')
      (fun _ => True) s.db.orders s'.db.orders)
    (hauthzs : RowsChange Authz.id s.nextId (AuthzMove p s) (FreshAuthz p s s')
      (fun a => ∀ r ∈ s'.db.orders, r.id = a.orderId → Late s.log r.id)
      s.db.authzs s'.db.authzs)
    (hchallenges : RowsChange Challenge.id s.nextId (ChallengeMove p s')
      (FreshChallenge s s') (fun c => ∀ a ∈ s'.db.authzs, a.id ≠ c.authzId)
      s.db.challenges s'.db.challenges) :
    Change strict p h s s' where
  now := by simp [hs']
  nextId := by simp [hs']
  history := ⟨e.events, by simp [hs'], hevent⟩
  orders := horders
  authzs := hauthzs
  challenges := hchallenges

variable (strict p h s)

/-- A step that runs no statement. -/
theorem quiet
    {events : List Event}
    {draws : Nat}
    (hevent : ∀ ev ∈ events,
      NewEvent p h s (s.apply { events := events, draws := draws }) ev) :
    Change strict p h s (s.apply { events := events, draws := draws }) :=
  ofEffect rfl hevent (ordersSame rfl) (authzsSame rfl) (challengesSame rfl)

theorem insertOrder
    {o : Order}
    {acct : Account}
    {grants : List Grant}
    (hid : o.id = s.nextId)
    (hstatus : o.status = .pending)
    (hcert : o.certId = none)
    (hacct : o.accountId = acct.id)
    (hnames : o.identifiers = grants.map Grant.name)
    (hgrants : Granted grants) :
    Change strict p h s (s.apply
      { stmt := .insertOrder o, events := [.opened o acct grants p s.now], draws := 1 }) := by
  refine ofEffect rfl ?_ ?_ (authzsSame rfl) (challengesSame rfl)
  · intro ev hev
    rw [List.mem_singleton] at hev
    subst hev
    exact NewEvent.opened hid (by simp) hacct hnames hgrants rfl
  · refine RowsChange.insert (fun r _ => OrderMove.same) hid ?_
    refine ⟨hid, by simp, hstatus, hcert, acct, grants, p, ?_⟩
    simp

theorem insertAuthz
    {a : Authz}
    {o : Order}
    {acct : Account}
    {grants : List Grant}
    {t : Nat}
    (hid : a.id = s.nextId)
    (hstatus : a.status = .pending)
    (hopened : Event.opened o acct grants p t ∈ s.log)
    (hopen : Event.settled o.id ∉ s.log)
    (horder : a.orderId = o.id)
    (hacct : a.accountId = o.accountId)
    (hexpires : a.expires = o.expires) :
    Change strict p h s (s.apply { stmt := .insertAuthz a, draws := 1 }) := by
  refine ofEffect rfl (by simp) (ordersSame rfl) ?_ (challengesSame rfl)
  refine RowsChange.insert (fun a _ => AuthzMove.same) hid ?_
  exact ⟨hid, by simp, hstatus, o, acct, grants, t, hopened, hopen, horder, hacct, hexpires⟩

theorem insertChallenge
    {c : Challenge}
    (hid : c.id = s.nextId)
    (hstatus : c.status = .pending)
    (hauthz : c.authzId < s.nextId)
    (hwild : ∀ a ∈ s.db.authzs, a.id = c.authzId → a.wildcard = true → c.type = .dns01) :
    Change strict p h s (s.apply { stmt := .insertChallenge c, draws := 2 }) := by
  refine ofEffect rfl (by simp) (ordersSame rfl) (authzsSame rfl) ?_
  refine RowsChange.insert (fun c _ => ChallengeMove.same p _ c) hid ?_
  exact ⟨hid, by simp, hstatus, hauthz, hwild⟩

theorem insertCert (c : Cert) :
    Change strict p h s (s.apply { stmt := .insertCert c }) :=
  ofEffect rfl (by simp) (ordersSame rfl) (authzsSame rfl) (challengesSame rfl)

theorem setChallengeStatus
    {id : Nat}
    {status : ChallengeStatus}
    {err : Option Problem}
    {time : Nat}
    (hstatus : status ≠ .pending)
    (hclaimed : ∀ c ∈ s.db.challenges, c.id = id →
      ∃ o, Event.claimed c.authzId c.id o p ∈ s.log) :
    Change strict p h s (s.apply { stmt := .setChallengeStatus id status err time }) := by
  refine ofEffect rfl (by simp) (ordersSame rfl) (authzsSame rfl) ?_
  refine RowsChange.update (fun c _ => ChallengeMove.same p _ c) ?_ ?_
  · intro c
    rfl
  · intro c hc hid
    rcases hclaimed c hc (by simpa using hid) with ⟨o, ho⟩
    exact ⟨rfl, rfl, rfl, rfl, Or.inr ⟨hstatus, o, State.mem_apply_log ho⟩⟩

theorem setAuthzStatus
    {id : Nat}
    {status : AuthzStatus}
    (hmove : ∀ a ∈ s.db.authzs, a.id = id → AuthzMove p s a { a with status := status }) :
    Change strict p h s (s.apply { stmt := .setAuthzStatus id status }) := by
  refine ofEffect rfl (by simp) (ordersSame rfl) ?_ (challengesSame rfl)
  refine RowsChange.update (fun a _ => AuthzMove.same) ?_ ?_
  · intro a
    rfl
  · intro a ha hid
    exact hmove a ha (by simpa using hid)

theorem setOrderStatus
    {id : Nat}
    {status : OrderStatus}
    {certId : Option Nat}
    {err : Option Problem}
    (hmove : ∀ r ∈ s.db.orders, r.id = id →
      OrderMove strict p h s (s.apply { stmt := .setOrderStatus id status certId err }) r
        { r with status := status, certId := certId, error := err }) :
    Change strict p h s (s.apply { stmt := .setOrderStatus id status certId err }) := by
  refine ofEffect rfl (by simp) ?_ (authzsSame rfl) (challengesSame rfl)
  refine RowsChange.update (fun r _ => OrderMove.same) ?_ ?_
  · intro r
    rfl
  · intro r hr hid
    exact hmove r hr (by simpa using hid)

/-- Winning `ClaimChallenge`. -/
theorem claimChallenge
    {c : Challenge}
    {o : Nat}
    (hclaim : s.db.challengeClaimable c = true)
    (hc : ∀ x ∈ s.db.challenges, x.id = c.id → x.authzId = c.authzId)
    (ho : ∀ a ∈ s.db.authzs, a.id = c.authzId → a.orderId = o)
    (hlate : ¬ Late s.log o) :
    Change strict p h s (s.apply
      { stmt := .claimChallenge c, events := [.claimed c.authzId c.id o p] }) := by
  have hrun : (Stmt.claimChallenge c).run s.db =
      { s.db with
        challenges := updateWhere
          (fun x => x.id == c.id && x.status == ChallengeStatus.pending)
          (fun x => { x with status := .processing }) s.db.challenges } := by
    simp [Stmt.run, hclaim]
  have hwhere := hclaim
  simp only [Db.challengeClaimable, Bool.and_eq_true, List.any_eq_true, beq_iff_eq,
    Bool.not_eq_true', List.any_eq_false, bne_iff_ne, ne_eq, not_and, not_not] at hwhere
  rcases hwhere with ⟨⟨⟨x, hx, hxid, hxpending⟩, hsiblings⟩, a, ha, haid, hapending⟩
  refine ofEffect rfl ?_ (ordersSame ?_) (authzsSame ?_) ?_
  · intro ev hev
    rw [List.mem_singleton] at hev
    subst hev
    rw [← haid, ← ho a ha haid]
    refine NewEvent.claimed ha hapending haid.symm ?_ ?_ ?_ ?_
    · rw [ho a ha haid]
      exact hlate
    · intro y hy hyauthz
      exact hsiblings y hy (hyauthz.trans haid)
    · refine ⟨{ x with status := .processing }, ?_, hxid, (hc x hx hxid).trans haid.symm, rfl⟩
      rw [State.apply_db, hrun]
      exact mem_updateWhere.mpr ⟨x, hx, Or.inl ⟨by simp [hxid, hxpending], rfl⟩⟩
    · rw [haid, ho a ha haid]
      rfl
  · rw [State.apply_db, hrun]
  · rw [State.apply_db, hrun]
  · rw [State.apply_db, hrun]
    refine RowsChange.update (fun c _ => ChallengeMove.same p _ c) ?_ ?_
    · intro y
      rfl
    · intro y hy hyid
      simp only [Bool.and_eq_true, beq_iff_eq] at hyid
      refine ⟨rfl, rfl, rfl, rfl, Or.inr ⟨by simp, o, ?_⟩⟩
      rw [hc y hy hyid.1, hyid.1]
      simp

/-- Winning `ClaimOrder`. -/
theorem claimOrder
    {id : Nat}
    {time : Nat}
    (hkey : UniqueKey Order.id s.db.orders)
    (hclaim : s.db.orderClaimable id time = true) :
    Change strict p h s (s.apply
      { stmt := .claimOrder id time, events := [.orderClaimed id p] }) := by
  refine ofEffect rfl ?_ ?_ (authzsSame rfl) (challengesSame rfl)
  · intro ev hev
    rw [List.mem_singleton] at hev
    subst hev
    simp only [Db.orderClaimable, List.any_eq_true, Bool.and_eq_true, beq_iff_eq,
      decide_eq_true_eq] at hclaim
    rcases hclaim with ⟨r, hr, ⟨rfl, hready⟩, hexp⟩
    refine NewEvent.orderClaimed hr hready ?_ rfl
    intro r' hr' hid
    rcases mem_updateWhere.mp hr' with ⟨r₀, _, ⟨_, rfl⟩ | ⟨hno, rfl⟩⟩
    · rfl
    · rw [hkey.eq ‹_› hr hid] at hno
      simp [hready, hexp] at hno
  · refine RowsChange.update (fun r _ => OrderMove.same) ?_ ?_
    · intro r
      rfl
    · intro r hr hid
      simp only [Bool.and_eq_true, beq_iff_eq, decide_eq_true_eq] at hid
      rcases hid with ⟨⟨rfl, hready⟩, _⟩
      exact OrderMove.claim hready (by simp)

theorem gcOrders (cutoff : Int) :
    Change strict p h s (s.apply { stmt := .gcOrders cutoff }) := by
  refine ofEffect rfl (by simp) ?_ (authzsSame rfl) (challengesSame rfl)
  exact RowsChange.delete (fun r _ => OrderMove.same) fun r _ _ => trivial

theorem gcAuthzs
    {cutoff : Int}
    (hgone : ∀ a ∈ s.db.authzs, (a.expires : Int) < cutoff →
      ∀ r ∈ s.db.orders, r.id = a.orderId → Late s.log r.id) :
    Change strict p h s (s.apply { stmt := .gcAuthzs cutoff }) := by
  refine ofEffect rfl (by simp) (ordersSame rfl) ?_ (challengesSame rfl)
  refine RowsChange.delete (fun a _ => AuthzMove.same) ?_
  intro a ha hexp
  exact hgone a ha (by simpa using hexp)

theorem gcChallenges :
    Change strict p h s (s.apply { stmt := .gcChallenges }) := by
  refine ofEffect rfl (by simp) (ordersSame rfl) (authzsSame rfl) ?_
  refine RowsChange.delete (fun c _ => ChallengeMove.same p _ c) ?_
  intro c _ hgone a ha hid
  have hno : ∀ a ∈ s.db.authzs, a.id ≠ c.authzId := by
    simpa using hgone
  exact hno a ha hid

end Build
end Change

end Acme
end Yca
