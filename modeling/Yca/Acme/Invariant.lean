import Yca.Acme.Change

/-!
# The invariant of the order tables

`Inv` holds in every reachable state of the frontend.  It links each row to the
event that created it, says that an authorization is claimed at most once and
decided only by the winner of the claim, and that an order is `ready`,
`processing` or `valid` only while every authorization it has is valid.

Each group of facts is kept by any `Change`; the handlers' code is not looked
at here.
-/

namespace Yca
namespace Acme

open Yca.Core

theorem OrderMove.fixed
    {strict : Bool} {p : Pid} {h : Handler} {s s' : State} {r r' : Order}
    (hm : OrderMove strict p h s s' r r') :
    r'.id = r.id ∧ r'.accountId = r.accountId ∧
      r'.identifiers = r.identifiers ∧ r'.expires = r.expires := by
  cases hm <;> exact ⟨rfl, rfl, rfl, rfl⟩

theorem AuthzMove.fixed
    {p : Pid} {s : State} {a a' : Authz}
    (hm : AuthzMove p s a a') :
    a'.id = a.id ∧ a'.orderId = a.orderId ∧ a'.accountId = a.accountId ∧
      a'.identifier = a.identifier ∧ a'.expires = a.expires ∧
      a'.wildcard = a.wildcard := by
  cases hm <;> exact ⟨rfl, rfl, rfl, rfl, rfl, rfl⟩

/-- A valid authorization stays valid. -/
theorem AuthzMove.valid_stays
    {p : Pid} {s : State} {a a' : Authz}
    (hm : AuthzMove p s a a')
    (hvalid : a.status = .valid) :
    a'.status = .valid := by
  cases hm with
  | same => exact hvalid
  | invalid _ hpending => simp [hvalid] at hpending
  | valid _ _ _ _ _ => rfl

/-- Evidence depends only on the columns of an authorization that never move. -/
theorem Evidence.Supports.move
    {e : Evidence} {p : Pid} {s : State} {a a' : Authz}
    (he : e.Supports a)
    (hm : AuthzMove p s a a') :
    e.Supports a' := by
  rcases hm.fixed with ⟨hid, _, hacct, hname, _, hwild⟩
  refine ⟨he.authz.trans hid.symm, he.account.trans hacct.symm, he.name.trans hname.symm,
    he.keyAuth, ?_⟩
  intro hw
  exact he.wildcard (hwild ▸ hw)

/-- Ids come from the counter, and each names one row. -/
structure Ids (s : State) : Prop where
  order : ∀ r ∈ s.db.orders, r.id < s.nextId
  authz : ∀ a ∈ s.db.authzs, a.id < s.nextId
  challenge : ∀ c ∈ s.db.challenges, c.id < s.nextId ∧ c.authzId < s.nextId
  orderKey : UniqueKey Order.id s.db.orders
  authzKey : UniqueKey Authz.id s.db.authzs
  challengeKey : UniqueKey Challenge.id s.db.challenges

/-- Every row goes back to the newOrder handler that inserted it. -/
structure Origins (s : State) : Prop where
  opened : ∀ o acct grants p t, Event.opened o acct grants p t ∈ s.log →
    o.id < s.nextId ∧ t ≤ s.now ∧ o.accountId = acct.id ∧
      o.identifiers = grants.map Grant.name ∧ Granted grants
  once : ∀ o acct grants p t o' acct' grants' p' t',
    Event.opened o acct grants p t ∈ s.log →
    Event.opened o' acct' grants' p' t' ∈ s.log →
    o.id = o'.id → o = o' ∧ p = p' ∧ t = t'
  order : ∀ r ∈ s.db.orders, ∃ o acct grants p t,
    Event.opened o acct grants p t ∈ s.log ∧
    o.id = r.id ∧ o.accountId = r.accountId ∧
    o.identifiers = r.identifiers ∧ o.expires = r.expires
  authz : ∀ a ∈ s.db.authzs, ∃ o acct grants p t,
    Event.opened o acct grants p t ∈ s.log ∧
    o.id = a.orderId ∧ o.accountId = a.accountId ∧ o.expires = a.expires
  wildcard : ∀ a ∈ s.db.authzs, ∀ c ∈ s.db.challenges,
    c.authzId = a.id → a.wildcard = true → c.type = .dns01

/-- An authorization is claimed once, and only its claim moves a challenge. -/
structure Claims (s : State) : Prop where
  ids : ∀ a c o p, Event.claimed a c o p ∈ s.log →
    a < s.nextId ∧ c < s.nextId ∧ o < s.nextId
  once : ∀ a c o p c' o' p',
    Event.claimed a c o p ∈ s.log →
    Event.claimed a c' o' p' ∈ s.log →
    c = c' ∧ o = o' ∧ p = p'
  row : ∀ c ∈ s.db.challenges, c.status ≠ .pending →
    ∃ o p, Event.claimed c.authzId c.id o p ∈ s.log
  used : ∀ a c o p, Event.claimed a c o p ∈ s.log →
    ∀ x ∈ s.db.authzs, x.id = a →
      x.orderId = o ∧
      ∃ y ∈ s.db.challenges, y.id = c ∧ y.authzId = a ∧ y.status ≠ .pending
  kept : ∀ a c o p, Event.claimed a c o p ∈ s.log →
    ∀ r ∈ s.db.orders, r.id = o → ∃ x ∈ s.db.authzs, x.id = a
  late : ∀ a c o p, Event.claimed a c o p ∈ s.log → ¬ Late s.log o

/-- An authorization is decided by its claim, and valid only on evidence. -/
structure Decisions (s : State) : Prop where
  claimed : ∀ a ∈ s.db.authzs, a.status ≠ .pending →
    ∃ c o p, Event.claimed a.id c o p ∈ s.log
  proved : ∀ a ∈ s.db.authzs, a.status = .valid →
    ∃ e o p, Event.proved e ∈ s.log ∧ e.Supports a ∧
      Event.claimed a.id e.challenge.id o p ∈ s.log

/-- The order states that only a full set of valid authorizations leads to. -/
def OrderStatus.Earned (st : OrderStatus) : Prop :=
  st = .ready ∨ st = .processing ∨ st = .valid

/-- An order's progress rests on its authorizations. -/
structure Progress (strict : Bool) (s : State) : Prop where
  settled : ∀ o, Event.disclosed o ∈ s.log → Event.settled o ∈ s.log
  ids : ∀ o, Event.settled o ∈ s.log → o < s.nextId
  covered : ∀ r ∈ s.db.orders, r.status.Earned → Covered strict s r.id
  complete : ∀ r ∈ s.db.orders, Event.disclosed r.id ∈ s.log → ¬ Late s.log r.id →
    ∀ name ∈ r.identifiers, HasAuthz s r.id name

/-- The invariant of the frontend. -/
structure Inv (strict : Bool) (s : State) : Prop where
  ids : Ids s
  origins : Origins s
  claims : Claims s
  decisions : Decisions s
  progress : Progress strict s

/-- What is known of an order implies that its newOrder handler has ended. -/
theorem Progress.settled_of_known
    {strict : Bool} {s : State}
    (hp : Progress strict s)
    {o : Nat}
    (hk : known strict o ∈ s.log) :
    Event.settled o ∈ s.log := by
  cases strict with
  | false => exact hk
  | true => exact hp.settled o hk

section Step

variable {strict : Bool} {p : Pid} {h : Handler} {s s' : State}

theorem Ids.change
    (hs : Ids s)
    (hc : Change strict p h s s') :
    Ids s' where
  order r' hr' := by
    rcases hc.orders.row r' hr' with ⟨r, hr, hm⟩ | hnew
    · rw [hm.fixed.1]
      exact Nat.lt_of_lt_of_le (hs.order r hr) hc.nextId
    · rw [hnew.id]
      exact hnew.drawn
  authz a' ha' := by
    rcases hc.authzs.row a' ha' with ⟨a, ha, hm⟩ | hnew
    · rw [hm.fixed.1]
      exact Nat.lt_of_lt_of_le (hs.authz a ha) hc.nextId
    · rw [hnew.id]
      exact hnew.drawn
  challenge c' hc' := by
    rcases hc.challenges.row c' hc' with ⟨c, hc₀, hm⟩ | hnew
    · rw [hm.id, hm.authzId]
      have hids := hs.challenge c hc₀
      exact ⟨Nat.lt_of_lt_of_le hids.1 hc.nextId, Nat.lt_of_lt_of_le hids.2 hc.nextId⟩
    · refine ⟨?_, Nat.lt_trans hnew.authzId hnew.drawn⟩
      rw [hnew.id]
      exact hnew.drawn
  orderKey := hc.orders.unique (fun r hr => Nat.ne_of_lt (hs.order r hr)) hs.orderKey
  authzKey := hc.authzs.unique (fun a ha => Nat.ne_of_lt (hs.authz a ha)) hs.authzKey
  challengeKey := hc.challenges.unique 
    (fun c hc₀ => Nat.ne_of_lt (hs.challenge c hc₀).1) hs.challengeKey

/-- Whether an order came late is decided when it is inserted. -/
theorem Change.late
    (hc : Change strict p h s s')
    {o : Nat}
    (ho : o < s.nextId)
    (hlate : Late s'.log o) :
    Late s.log o := by
  rcases hlate with ⟨order, acct, grants, q, t, hev, hid, hexp⟩
  rcases hc.event _ hev with hold | hnew
  · exact ⟨order, acct, grants, q, t, hold, hid, hexp⟩
  · cases hnew with
    | opened hfresh _ _ _ _ _ => omega

/-- An order that came late stays so. -/
theorem Change.late_mono
    (hc : Change strict p h s s')
    {o : Nat}
    (hlate : Late s.log o) :
    Late s'.log o := by
  rcases hlate with ⟨order, acct, grants, q, t, hev, hid, hexp⟩
  exact ⟨order, acct, grants, q, t, hc.log _ hev, hid, hexp⟩

theorem Origins.change
    (hs : Inv strict s)
    (hc : Change strict p h s s') :
    Origins s' where
  opened o acct grants q t hev := by
    rcases hc.event _ hev with hold | hnew
    · rcases hs.origins.opened o acct grants q t hold with ⟨hid, ht, hrest⟩
      exact ⟨Nat.lt_of_lt_of_le hid hc.nextId, Nat.le_trans ht hc.now, hrest⟩
    · cases hnew with
      | opened hid hdrawn hacct hnames hgrants _ =>
          refine ⟨?_, hc.now, hacct, hnames, hgrants⟩
          rw [hid]
          exact hdrawn
  once o acct grants q t o' acct' grants' q' t' hev hev' hid := by
    rcases hc.event _ hev with hold | hnew
    · have hlt := (hs.origins.opened o acct grants q t hold).1
      rcases hc.event _ hev' with hold' | hnew'
      · exact hs.origins.once o acct grants q t o' acct' grants' q' t' hold hold' hid
      · cases hnew' with
        | opened hid' _ _ _ _ _ => omega
    · cases hnew with
      | opened hfresh _ _ _ _ hlog =>
          rcases hc.event _ hev' with hold' | hnew'
          · have hlt := (hs.origins.opened o' acct' grants' q' t' hold').1
            omega
          · cases hnew' with
            | opened _ _ _ _ _ hlog' =>
                have heq := List.append_cancel_left (hlog.symm.trans hlog')
                simp only [List.cons.injEq, Event.opened.injEq, and_true] at heq
                exact ⟨heq.1, rfl, rfl⟩
  order r' hr' := by
    rcases hc.orders.row r' hr' with ⟨r, hr, hm⟩ | hnew
    · rcases hs.origins.order r hr with ⟨o, acct, grants, q, t, hev, hid, hacct, hnames, hexp⟩
      rcases hm.fixed with ⟨hid', hacct', hnames', hexp'⟩
      exact ⟨o, acct, grants, q, t, hc.log _ hev, hid.trans hid'.symm, hacct.trans hacct'.symm,
        hnames.trans hnames'.symm, hexp.trans hexp'.symm⟩
    · rcases hnew.opened with ⟨acct, grants, q, hev⟩
      exact ⟨r', acct, grants, q, s.now, hev, rfl, rfl, rfl, rfl⟩
  authz a' ha' := by
    rcases hc.authzs.row a' ha' with ⟨a, ha, hm⟩ | hnew
    · rcases hs.origins.authz a ha with ⟨o, acct, grants, q, t, hev, hid, hacct, hexp⟩
      rcases hm.fixed with ⟨_, hid', hacct', _, hexp', _⟩
      exact ⟨o, acct, grants, q, t, hc.log _ hev, hid.trans hid'.symm, hacct.trans hacct'.symm,
        hexp.trans hexp'.symm⟩
    · rcases hnew.filling with ⟨o, acct, grants, t, hev, _, hid, hacct, hexp⟩
      exact ⟨o, acct, grants, p, t, hc.log _ hev, hid.symm, hacct.symm, hexp.symm⟩
  wildcard a' ha' c' hc' hauthz hw := by
    rcases hc.authzs.row a' ha' with ⟨a, ha, hm⟩ | hnew
    · rcases hm.fixed with ⟨hid, _, _, _, _, hwild⟩
      rcases hc.challenges.row c' hc' with ⟨c, hc₀, hmc⟩ | hnew
      · rw [hmc.type]
        refine hs.origins.wildcard a ha c hc₀ ?_ (hwild ▸ hw)
        rw [← hmc.authzId, hauthz, hid]
      · exact hnew.wildcard a ha (hid ▸ hauthz.symm) (hwild ▸ hw)
    · -- A fresh authorization has no challenge yet: their ids are older.
      have hid := hnew.id
      rcases hc.challenges.row c' hc' with ⟨c, hc₀, hmc⟩ | hnewc
      · have hlt := (hs.ids.challenge c hc₀).2
        have := hmc.authzId
        omega
      · have hlt := hnewc.authzId
        omega

/-- The order of an authorization has an id that was drawn. -/
theorem Origins.authz_order_lt
    (hs : Origins s)
    {a : Authz}
    (ha : a ∈ s.db.authzs) :
    a.orderId < s.nextId := by
  rcases hs.authz a ha with ⟨o, acct, grants, q, t, hev, hid, _, _⟩
  rw [← hid]
  exact (hs.opened o acct grants q t hev).1

theorem Claims.change
    (hs : Inv strict s)
    (hc : Change strict p h s s') :
    Claims s' where
  ids a c o q hev := by
    rcases hc.event _ hev with hold | hnew
    · rcases hs.claims.ids a c o q hold with ⟨ha, hc₀, ho⟩
      exact ⟨Nat.lt_of_lt_of_le ha hc.nextId, Nat.lt_of_lt_of_le hc₀ hc.nextId,
        Nat.lt_of_lt_of_le ho hc.nextId⟩
    · cases hnew with
      | claimed ha _ _ _ _ hrow _ =>
          rcases hrow with ⟨x, hx, hxid, _, _⟩
          refine ⟨Nat.lt_of_lt_of_le (hs.ids.authz _ ha) hc.nextId, ?_,
            Nat.lt_of_lt_of_le (hs.origins.authz_order_lt ha) hc.nextId⟩
          rw [← hxid]
          exact ((hs.ids.change hc).challenge x hx).1
  once a c o q c' o' q' hev hev' := by
    -- Two claims of one authorization: the later one would have found the
    -- challenge of the earlier one already moved.
    rcases hc.event _ hev with hold | hnew
    · rcases hc.event _ hev' with hold' | hnew'
      · exact hs.claims.once a c o q c' o' q' hold hold'
      · cases hnew' with
        | claimed ha _ _ _ hsiblings _ _ =>
            rcases hs.claims.used _ c o q hold _ ha rfl with ⟨_, y, hy, _, hya, hyst⟩
            exact absurd (hsiblings y hy hya) hyst
    · cases hnew with
      | claimed ha _ _ _ hsiblings _ hlog =>
          rcases hc.event _ hev' with hold' | hnew'
          · rcases hs.claims.used _ c' o' q' hold' _ ha rfl with ⟨_, y, hy, _, hya, hyst⟩
            exact absurd (hsiblings y hy hya) hyst
          · generalize hx : Event.claimed _ c' o' q' = ev' at hnew'
            cases hnew' with
            | claimed _ _ _ _ _ _ hlog' =>
                have heq := List.append_cancel_left (hlog.symm.trans hlog')
                rw [← hx] at heq
                simp only [List.cons.injEq, Event.claimed.injEq, and_true] at heq
                exact heq.2
            | _ => simp at hx
  row c' hc' hst := by
    rcases hc.challenges.row c' hc' with ⟨c, hc₀, hm⟩ | hnew
    · rw [hm.authzId, hm.id]
      rcases hm.status with hsame | ⟨_, o, ho⟩
      · rcases hs.claims.row c hc₀ (hsame ▸ hst) with ⟨o, q, ho⟩
        exact ⟨o, q, hc.log _ ho⟩
      · exact ⟨o, p, ho⟩
    · exact absurd hnew.status hst
  used a c o q hev x' hx' hid := by
    rcases hc.event _ hev with hold | hnew
    · rcases hc.authzs.row x' hx' with ⟨x, hx, hm⟩ | hnew
      · rcases hm.fixed with ⟨hxid, hxorder, _⟩
        rcases hs.claims.used a c o q hold x hx (hxid ▸ hid) with ⟨ho, y, hy, hyid, hya, hyst⟩
        refine ⟨hxorder.trans ho, ?_⟩
        rcases hc.challenges.kept y hy with ⟨y', hy', hmy⟩ | hgone
        · refine ⟨y', hy', hmy.id.trans hyid, hmy.authzId.trans hya, ?_⟩
          rcases hmy.status with hsame | ⟨hne, _⟩
          · rw [hsame]
            exact hyst
          · exact hne
        · exact absurd (hid.trans hya.symm) (hgone x' hx')
      · have hlt := (hs.claims.ids a c o q hold).1
        have := hnew.id
        omega
    · cases hnew with
      | claimed ha _ _ _ _ hrow _ =>
          rcases hc.authzs.row x' hx' with ⟨x, hx, hm⟩ | hnew
          · rcases hm.fixed with ⟨hxid, hxorder, _⟩
            have hxa := hs.ids.authzKey.eq hx ha (hxid.symm.trans hid)
            subst hxa
            rcases hrow with ⟨y, hy, hyid, hya, hyst⟩
            refine ⟨hxorder, y, hy, hyid, hya, ?_⟩
            simp [hyst]
          · have hlt := hs.ids.authz _ ha
            have := hnew.id
            omega
  kept a c o q hev r' hr' hid := by
    rcases hc.event _ hev with hold | hnew
    · rcases hc.orders.row r' hr' with ⟨r, hr, hm⟩ | hnew
      · rcases hs.claims.kept a c o q hold r hr (hm.fixed.1 ▸ hid) with ⟨x, hx, hxid⟩
        rcases hc.authzs.kept x hx with ⟨x', hx', hmx⟩ | hgone
        · exact ⟨x', hx', hmx.fixed.1.trans hxid⟩
        · have ho := (hs.claims.used a c o q hold x hx hxid).1
          have hlate := hgone r' hr' (hid.trans ho.symm)
          rw [hid] at hlate
          exact absurd hlate (hs.claims.late a c o q hold)
      · have hlt := (hs.claims.ids a c o q hold).2.2
        have := hnew.id
        omega
    · cases hnew with
      | claimed ha _ _ hnotlate _ _ _ =>
          rcases hc.authzs.kept _ ha with ⟨x', hx', hmx⟩ | hgone
          · exact ⟨x', hx', hmx.fixed.1⟩
          · have hlate := hgone r' hr' hid
            rw [hid] at hlate
            exact absurd hlate hnotlate
  late a c o q hev hlate := by
    rcases hc.event _ hev with hold | hnew
    · have hlt := (hs.claims.ids a c o q hold).2.2
      exact hs.claims.late a c o q hold (hc.late hlt hlate)
    · cases hnew with
      | claimed ha _ _ hnotlate _ _ _ =>
          exact hnotlate (hc.late (hs.origins.authz_order_lt ha) hlate)

theorem Decisions.change
    (hs : Decisions s)
    (hc : Change strict p h s s') :
    Decisions s' where
  claimed a' ha' hst := by
    rcases hc.authzs.row a' ha' with ⟨a, ha, hm⟩ | hnew
    · cases hm with
      | same =>
          rcases hs.claimed a' ha hst with ⟨c, o, q, hev⟩
          exact ⟨c, o, q, hc.log _ hev⟩
      | invalid hev _ => exact ⟨_, _, _, hc.log _ hev⟩
      | valid hev _ _ _ _ => exact ⟨_, _, _, hc.log _ hev⟩
    · exact absurd hnew.status hst
  proved a' ha' hst := by
    rcases hc.authzs.row a' ha' with ⟨a, ha, hm⟩ | hnew
    · have hsupp : ∀ e : Evidence, e.Supports a → e.Supports a' :=
        fun e he => he.move hm
      cases hm with
      | same =>
          rcases hs.proved a' ha hst with ⟨e, o, q, he, hsup, hev⟩
          exact ⟨e, o, q, hc.log _ he, hsup, hc.log _ hev⟩
      | invalid _ _ => simp at hst
      | valid hev _ he hchal hsup =>
          subst hchal
          exact ⟨_, _, _, hc.log _ he, hsupp _ hsup, hc.log _ hev⟩
    · simp [hnew.status] at hst

/-- An order stays covered: nothing is added to it and nothing valid moves. -/
theorem Covered.change
    (hs : Progress strict s)
    (hc : Change strict p h s s')
    {o : Nat}
    (ho : Covered strict s o) :
    Covered strict s' o where
  known := hc.log _ ho.known
  valid a' ha' horder := by
    rcases hc.authzs.row a' ha' with ⟨a, ha, hm⟩ | hnew
    · exact hm.valid_stays (ho.valid a ha (hm.fixed.2.1 ▸ horder))
    · rcases hnew.filling with ⟨r, acct, grants, t, _, hopen, horder', _⟩
      rw [← horder', horder] at hopen
      exact absurd (hs.settled_of_known ho.known) hopen

/-- An authorization of an order that did not come late outlives the order. -/
theorem HasAuthz.change
    (hc : Change strict p h s s')
    {o : Nat}
    {name : String}
    (hname : HasAuthz s o name)
    {r' : Order}
    (hr' : r' ∈ s'.db.orders)
    (hid : r'.id = o)
    (hlate : ¬ Late s.log o) :
    HasAuthz s' o name := by
  rcases hname with ⟨a, ha, horder, hsplit⟩
  rcases hc.authzs.kept a ha with ⟨a', ha', hm⟩ | hgone
  · rcases hm.fixed with ⟨_, horder', _, hname', _, hwild'⟩
    exact ⟨a', ha', horder'.trans horder, by rw [hname', hwild']; exact hsplit⟩
  · have hl := hgone r' hr' (hid.trans horder.symm)
    rw [hid] at hl
    exact absurd hl hlate

/-- An order is disclosed after it was inserted. -/
theorem disclosed_lt
    (hs : Inv strict s)
    (hc : Change strict p h s s')
    {o : Nat}
    (hdis : Event.disclosed o ∈ s'.log) :
    o < s.nextId := by
  rcases hc.event _ hdis with hold | hnew
  · exact hs.progress.ids o (hs.progress.settled o hold)
  · cases hnew with
    | disclosed hop _ _ => exact (hs.origins.opened _ _ _ _ _ hop).1

theorem Progress.change
    (hs : Inv strict s)
    (hc : Change strict p h s s') :
    Progress strict s' where
  settled o hev := by
    rcases hc.event _ hev with hold | hnew
    · exact hc.log _ (hs.progress.settled o hold)
    · cases hnew with
      | disclosed _ hset _ => exact hset
  ids o hev := by
    rcases hc.event _ hev with hold | hnew
    · exact Nat.lt_of_lt_of_le (hs.progress.ids o hold) hc.nextId
    · cases hnew with
      | settled hop =>
          exact Nat.lt_of_lt_of_le (hs.origins.opened _ _ _ _ _ hop).1 hc.nextId
  covered r' hr' hearned := by
    rcases hc.orders.row r' hr' with ⟨r, hr, hm⟩ | hnew
    · cases hm with
      | same => exact (hs.progress.covered r' hr hearned).change hs.progress hc
      | failed _ _ => simp [OrderStatus.Earned] at hearned
      | ready _ _ hcov => exact hcov.change hs.progress hc
      | claim hready _ =>
          have hcov := hs.progress.covered r hr (Or.inl hready)
          exact hcov.change hs.progress hc
      | refused _ _ => simp [OrderStatus.Earned] at hearned
      | finish _ _ hcov => exact hcov.change hs.progress hc
    · simp [OrderStatus.Earned, hnew.status] at hearned
  complete r' hr' hdis hlate name hname := by
    have hlate₀ : ¬ Late s.log r'.id := fun hl => hlate (hc.late_mono hl)
    rcases hc.orders.row r' hr' with ⟨r, hr, hm⟩ | hnew
    · rcases hm.fixed with ⟨hid, _, hnames, _⟩
      rw [hid] at hdis hlate₀ ⊢
      rw [hnames] at hname
      refine HasAuthz.change hc ?_ hr' hid hlate₀
      rcases hc.event _ hdis with hold | hnew
      · exact hs.progress.complete r hr hold hlate₀ name hname
      · generalize hx : Event.disclosed r.id = ev at hnew
        cases hnew with
        | disclosed hop _ hall =>
            rcases hs.origins.order r hr with ⟨o, acct, grants, q, t, hev, hoid, _, honames, _⟩
            simp only [Event.disclosed.injEq] at hx
            have hoo := (hs.origins.once _ _ _ _ _ _ _ _ _ _ hev hop (hoid.trans hx)).1
            rw [hx]
            refine hall (hx ▸ hlate₀) r hr hx name ?_
            rw [← hoo, honames]
            exact hname
        | _ => simp at hx
    · -- A fresh order has not been disclosed.
      have hlt := disclosed_lt hs hc hdis
      have := hnew.id
      omega

/-- The invariant is kept by whatever a step can do. -/
theorem Inv.change
    (hs : Inv strict s)
    (hc : Change strict p h s s') :
    Inv strict s' where
  ids := hs.ids.change hc
  origins := Origins.change hs hc
  claims := Claims.change hs hc
  decisions := hs.decisions.change hc
  progress := Progress.change hs hc

end Step

/-- A fresh server meets the invariant. -/
theorem Inv.init
    (strict : Bool)
    {s : State}
    (hs : Initial s) :
    Inv strict s := by
  rcases hs with ⟨horders, hauthzs, hchallenges, hlog⟩
  refine ⟨?_, ?_, ?_, ?_, ?_⟩ <;> constructor <;>
    simp [horders, hauthzs, hchallenges, hlog]

end Acme
end Yca
