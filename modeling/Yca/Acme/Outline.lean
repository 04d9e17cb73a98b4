import Yca.Acme.Assertions
import Yca.Acme.Steps

/-!
# Proof outline of the frontend

Each handler, standing at a statement with what it knows there, makes one of
the steps `Change` allows and knows what it should at its next statement.  With
the stability of the assertions this is an outline of the whole frontend:
`holds_of_reachable` gives the invariant and the assertions in every reachable
world.

The guard restricts only which challenge ids a client may present: ids of
orders whose newOrder handler has ended or, strictly, ids the client was given.
-/

namespace Yca
namespace Acme

open Yca.Core

section Step

variable {strict : Bool} {p : Pid} {k : Choice} {s : State}

/-- What a step owes: a lawful change, and the next assertion. -/
def Owes (strict : Bool) (p : Pid) (s : State) (h : Handler) (out : Outcome) : Prop :=
  Change strict p h s (s.apply out.1) ∧ Asserts strict p (s.apply out.1) out.2

theorem owes_goto
    {h h' : Handler}
    (hJ : Asserts strict p s h') :
    Owes strict p s h (goto h') := by
  refine ⟨Change.quiet strict p h s (by simp), ?_⟩
  show Asserts strict p (s.apply {}) h'
  rw [State.apply_empty]
  exact hJ

theorem owes_reply (h : Handler) (r : Reply) :
    Owes strict p s h (goto (.replied r)) :=
  owes_goto trivial

/-- A new authorization covers its name. -/
theorem Filling.insertAuthz
    {o : Order} {name : String} {rest : List String} {a : Authz}
    (hf : Filling p s o (name :: rest))
    (horder : a.orderId = o.id)
    (hname : (a.identifier, a.wildcard) = splitWildcard name)
    {d : Nat} :
    Filling p (s.apply { stmt := .insertAuthz a, draws := d }) o rest where
  opened := by
    rcases hf.opened with ⟨acct, grants, t, hev⟩
    exact ⟨acct, grants, t, State.mem_apply_log hev⟩
  unsettled := by simpa using hf.unsettled
  names hlate r hr hid n hn := by
    have hlate₀ : ¬ Late s.log o.id := by simpa using hlate
    rcases hf.names hlate₀ r hr hid n hn with htodo | ⟨x, hx, hxo, hxn⟩
    · rcases List.mem_cons.mp htodo with rfl | hrest
      · exact Or.inr ⟨a, by simp [Stmt.run], horder, hname⟩
      · exact Or.inl hrest
    · exact Or.inr ⟨x, by simp [Stmt.run, hx], hxo, hxn⟩

theorem Filling.insertChallenge
    {o : Order} {todo : List String} {c : Challenge}
    (hf : Filling p s o todo)
    {d : Nat} :
    Filling p (s.apply { stmt := .insertChallenge c, draws := d }) o todo where
  opened := by
    rcases hf.opened with ⟨acct, grants, t, hev⟩
    exact ⟨acct, grants, t, State.mem_apply_log hev⟩
  unsettled := by simpa using hf.unsettled
  names hlate := by
    have hlate₀ : ¬ Late s.log o.id := by simpa using hlate
    exact hf.names hlate₀

/-- A new authorization is given the challenge types its kind allows. -/
theorem Adding.insertAuthz
    (hs : Ids s)
    {a : Authz}
    (hid : a.id = s.nextId) :
    Adding (s.apply { stmt := .insertAuthz a, draws := 1 }) a
      (challengeTypes a.wildcard) where
  id := by simp [hid]
  row x hx hxid := by
    rcases List.mem_append.mp hx with hold | hnew
    · have := hs.authz x hold
      omega
    · rw [List.mem_singleton] at hnew
      rw [hnew]
  types hw t ht := by
    simpa [challengeTypes, hw] using ht

/-- A name that passes the identifier checks is a host name. -/
theorem host_of_identifierProblem
    {cfg : Config} {id : Identifier}
    (h : identifierProblem cfg id = none) :
    hostSafe (splitWildcard (toLower cfg.rune id.value)).1 = true := by
  simp only [identifierProblem] at h
  split at h
  · simp at h
  · split at h
    · simp at h
    · rename_i hshape
      simp only [not_or, Bool.not_eq_false] at hshape
      exact hshape.2.1

/-- One more name, if it is new. -/
theorem Granted.add
    {grants : List Grant} {g : Grant}
    (hg : Granted grants)
    (hhost : hostSafe (splitWildcard g.name).1 = true) :
    Granted (if grants.any fun x => x.name == g.name then grants else grants ++ [g]) := by
  split
  · exact hg
  · rename_i hnew
    refine ⟨?_, ?_⟩
    · rw [List.map_append, List.nodup_append]
      refine ⟨hg.nodup, by simp, ?_⟩
      intro n hn m hm
      simp only [List.map_cons, List.map_nil, List.mem_singleton] at hm
      subst hm
      rintro rfl
      rcases List.mem_map.mp hn with ⟨x, hx, hxn⟩
      exact hnew (List.any_eq_true.mpr ⟨x, hx, by simp [hxn]⟩)
    · intro x hx
      rcases List.mem_append.mp hx with hold | hx
      · exact hg.host x hold
      · rw [List.mem_singleton] at hx
        exact hx ▸ hhost

/-- The end of a newOrder handler that has given up. -/
theorem settled_owes
    {h : Handler} {o : Order} {acct : Account} {grants : List Grant} {t : Nat} {r : Reply}
    (hop : Event.opened o acct grants p t ∈ s.log) :
    Owes strict p s h ({ events := [.settled o.id] }, .replied r) := by
  refine ⟨Change.quiet strict p _ s ?_, trivial⟩
  intro ev hev
  rw [List.mem_singleton] at hev
  subst hev
  exact NewEvent.settled hop

/-- The end of one that has not. -/
theorem disclosed_owes
    {o : Order} {made : List Authz}
    (hJ : Filling p s o []) :
    Owes strict p s (.newOrder (.authz o made []))
      ({ events := [.settled o.id, .disclosed o.id] }, .replied (.order 201 o made)) := by
  rcases hJ.opened with ⟨acct, grants, t, hop⟩
  refine ⟨Change.quiet strict p _ s ?_, trivial⟩
  intro ev hev
  simp only [List.mem_cons, List.not_mem_nil, or_false] at hev
  rcases hev with rfl | rfl
  · exact NewEvent.settled hop
  · refine NewEvent.disclosed hop (by simp) ?_
    intro hlate r hr hid n hn
    rcases hJ.names hlate r hr hid n hn with hnil | hdone
    · simp at hnil
    · exact hdone

/-- `InsertOrder`. -/
theorem insertOrder_owes
    (hs : Inv strict s)
    {acct : Account} {grants : List Grant} {expires : Nat}
    (hJ : Granted grants)
    {order : Order}
    (horder : order =
      ⟨s.nextId, acct.id, .pending, grants.map Grant.name, expires, none, none⟩) :
    Owes strict p s (.newOrder (.insert acct grants expires))
      ({ stmt := .insertOrder order, events := [.opened order acct grants p s.now], draws := 1 },
        .newOrder (.authz order [] (grants.map Grant.name))) := by
  subst horder
  refine ⟨Change.insertOrder strict p _ s rfl rfl rfl rfl rfl hJ, ?_⟩
  refine ⟨⟨acct, grants, s.now, by simp⟩, ?_, fun _ _ _ _ n hn => Or.inl hn⟩
  intro hev
  rcases List.mem_append.mp hev with hold | hnew
  · exact Nat.lt_irrefl _ (hs.progress.ids _ hold)
  · simp at hnew

/-- `InsertChallenge`. -/
theorem insertChallenge_owes
    {o : Order} {made : List Authz} {a : Authz} {ty : ChallengeType}
    {types : List ChallengeType} {todo : List String}
    (hfill : Filling p s o todo)
    (hadd : Adding s a (ty :: types))
    {c : Challenge}
    (hc : c = ⟨s.nextId, a.id, ty, s.nextId + 1, .pending, 0, none⟩) :
    Owes strict p s (.newOrder (.challenge o made a (ty :: types) todo))
      ({ stmt := .insertChallenge c, draws := 2 },
        .newOrder (.challenge o made a types todo)) := by
  subst hc
  refine ⟨Change.insertChallenge strict p _ s rfl rfl hadd.id ?_, ?_⟩
  · intro x hx hid hw
    exact hadd.types (hadd.row x hx hid ▸ hw) ty (by simp)
  · refine ⟨hfill.insertChallenge, Nat.lt_of_lt_of_le hadd.id (by simp), hadd.row, ?_⟩
    intro hw t' ht'
    exact hadd.types hw t' (by simp [ht'])

theorem newOrder_owes
    (hs : Inv strict s)
    {pc : NewOrder}
    (hJ : pc.Asserts p s)
    {out : Outcome}
    (hx : newOrderStep p k s pc = some out) :
    Owes strict p s (.newOrder pc) out := by
  cases newOrder_step hx with
  | refused pr _ => exact owes_reply _ _
  | accepted _ _ _ =>
      refine owes_goto ?_
      constructor <;> simp
  | @granted _ id _ _ cred hshape =>
      have hhost := host_of_identifierProblem hshape
      exact owes_goto (Granted.add (g := ⟨toLower s.cfg.rune id.value, cred⟩) hJ hhost)
  | cleared => exact owes_goto hJ
  | inserted horder => exact insertOrder_owes hs hJ horder
  | settled => exact disclosed_owes hJ
  | authz ha =>
      subst ha
      rcases hJ.opened with ⟨acct, grants, t, hop⟩
      refine ⟨Change.insertAuthz strict p _ s rfl rfl hop hJ.unsettled rfl rfl rfl, ?_⟩
      exact ⟨hJ.insertAuthz rfl rfl, Adding.insertAuthz hs.ids rfl⟩
  | added => exact owes_goto hJ.1
  | challenge hc => exact insertChallenge_owes hJ.1 hJ.2 hc
  | @failed _ pc o pr hpc =>
      cases pc with
      | authz order made todo =>
          rcases hJ.opened with ⟨acct, grants, t, hop⟩
          cases hpc
          exact settled_owes hop
      | challenge order made a types todo =>
          rcases hJ.1.opened with ⟨acct, grants, t, hop⟩
          cases hpc
          exact settled_owes hop
      | _ => cases hpc

/-- Reading a challenge row by an id the client may present. -/
theorem Loaded.of_row
    (hs : Inv strict s)
    {id : Nat} {c : Challenge}
    (hid : Presented strict s id)
    (hc : s.db.challengeById id = some c) :
    Loaded strict s c := by
  rcases mem_of_find?_key hc with ⟨hmem, rfl⟩
  refine ⟨hid.id, (hs.ids.challenge c hmem).2, ?_, ?_, ?_⟩
  · intro x hx hxid
    rw [hs.ids.challengeKey.eq hx hmem hxid]
  · intro a ha haid hw
    exact hs.origins.wildcard a ha c hmem haid.symm hw
  · intro a ha haid
    exact hid.known c hmem rfl a ha haid

/-- Reading its authorization. -/
theorem Target.of_row
    (hs : Inv strict s)
    {c : Challenge} {a : Authz}
    (hc : Loaded strict s c)
    (ha : s.db.authzById c.authzId = some a) :
    Target strict s c a := by
  rcases mem_of_find?_key ha with ⟨hmem, hid⟩
  refine ⟨hc.id, hid.symm, hs.ids.authz a hmem, hc.row, ?_, hc.wildcard a hmem hid,
    hc.known a hmem hid, ?_⟩
  · intro x hx hxid
    rw [hs.ids.authzKey.eq hx hmem hxid]
    exact ⟨rfl, rfl, rfl, rfl⟩
  · rcases hs.origins.authz a hmem with ⟨o, acct, grants, q, t, hev, hoid, _, hexp⟩
    exact ⟨o, acct, grants, q, t, hev, hoid, hexp⟩

/-- An authorization that has not expired belongs to an order that did not
come late. -/
theorem Target.not_late
    (hs : Inv strict s)
    {c : Challenge} {a : Authz}
    (ht : Target strict s c a)
    (hclock : ¬ s.now > a.expires * 1000000000) :
    ¬ Late s.log a.orderId := by
  rintro ⟨o, acct, grants, q, t, hev, hid, hexp⟩
  rcases ht.opened with ⟨o', acct', grants', q', t', hev', hid', hexp'⟩
  have heq := (hs.origins.once _ _ _ _ _ _ _ _ _ _ hev hev' (hid.trans hid'.symm)).1
  subst heq
  have htime := (hs.origins.opened _ _ _ _ _ hev).2.1
  rw [hexp'] at hexp
  simp only [unix] at hexp
  omega

/-- The winner's knowledge survives its own steps on other tables. -/
theorem Won.own
    {h : Handler} {s' : State} {c : Challenge} {a : Authz}
    (hw : Won strict p s c a)
    (hc : Change strict p h s s')
    (hauthzs : s'.db.authzs = s.db.authzs) :
    Won strict p s' c a where
  target := hw.target.stable hc
  claimed := hc.log _ hw.claimed
  pending := by
    rw [hauthzs]
    exact hw.pending

/-- Winning `ClaimChallenge`. -/
theorem claim_owes
    (hs : Inv strict s)
    {acct : Account} {c : Challenge} {a : Authz}
    (ht : Target strict s c a)
    (hacct : acct.id = a.accountId)
    (hlate : ¬ Late s.log a.orderId)
    (hclaim : s.db.challengeClaimable c = true) :
    Owes strict p s (.challenge (.claim acct c a))
      ({ stmt := .claimChallenge c, events := [.claimed c.authzId c.id a.orderId p] },
        .challenge (.validate acct c a)) := by
  have hc := Change.claimChallenge strict p (.challenge (.claim acct c a)) s hclaim
    ht.challengeRow (fun x hx hid => (ht.authzRow x hx (hid.trans ht.authz)).1) hlate
  refine ⟨hc, ⟨ht.stable hc, ?_, ?_⟩, hacct⟩
  · rw [ht.authz]
    simp
  · intro x hx hid
    have hrows : (s.apply
        { stmt := .claimChallenge c,
          events := [.claimed c.authzId c.id a.orderId p] }).db.authzs = s.db.authzs := by
      simp [Stmt.run, hclaim]
    rw [hrows] at hx
    simp only [Db.challengeClaimable, Bool.and_eq_true, List.any_eq_true, beq_iff_eq] at hclaim
    rcases hclaim with ⟨_, y, hy, hyid, hypending⟩
    rw [hs.ids.authzKey.eq hx hy (hid.trans (ht.authz.symm.trans hyid.symm))]
    exact hypending

/-- Recording the outcome in the challenge row. -/
theorem setChallenge_change
    (h : Handler)
    {c : Challenge} {a : Authz}
    (hw : Won strict p s c a)
    {status : ChallengeStatus}
    (err : Option Problem)
    (time : Nat)
    (hstatus : status ≠ .pending) :
    Change strict p h s
      (s.apply { stmt := .setChallengeStatus c.id status err time }) := by
  refine Change.setChallengeStatus strict p h s hstatus ?_
  intro x hx hid
  refine ⟨a.orderId, ?_⟩
  rw [hw.target.challengeRow x hx hid, hid, hw.target.authz]
  exact hw.claimed

/-- Evidence for the authorization as it was read is evidence for its row. -/
theorem Target.supports_row
    {c : Challenge} {a : Authz} {e : Evidence}
    (ht : Target strict s c a)
    (he : e.Supports a)
    {x : Authz}
    (hx : x ∈ s.db.authzs)
    (hid : x.id = a.id) :
    e.Supports x := by
  rcases ht.authzRow x hx hid with ⟨_, hacct, hname, hwild⟩
  refine ⟨he.authz.trans hid.symm, he.account.trans hacct.symm, he.name.trans hname.symm,
    he.keyAuth, ?_⟩
  intro hw
  exact he.wildcard (hwild ▸ hw)

/-- Rejecting the authorization. -/
theorem failAuthz_owes
    {c : Challenge} {a : Authz} {err : Problem}
    (hw : Won strict p s c a) :
    Owes strict p s (.challenge (.failAuthz c a err))
      ({ stmt := .setAuthzStatus a.id .invalid }, .challenge (.failOrder c a err)) := by
  refine ⟨Change.setAuthzStatus strict p _ s ?_, ?_, ?_⟩
  · intro x hx hid
    exact AuthzMove.invalid (hid ▸ hw.claimed) (hw.pending x hx hid)
  · exact State.mem_apply_log hw.claimed
  · intro x hx hid
    rcases mem_updateWhere.mp hx with ⟨x₀, _, ⟨_, rfl⟩ | ⟨hno, rfl⟩⟩
    · simp
    · simp [hid] at hno

/-- Accepting the authorization. -/
theorem okAuthz_owes
    {c : Challenge} {a : Authz}
    (hw : Won strict p s c a)
    (hv : Validated s c a) :
    Owes strict p s (.challenge (.okAuthz c a))
      ({ stmt := .setAuthzStatus a.id .valid }, .challenge (.scan c a)) := by
  rcases hv with ⟨e, hev, hchal, hsup⟩
  refine ⟨Change.setAuthzStatus strict p _ s ?_, State.mem_apply_log hw.target.known⟩
  intro x hx hid
  exact AuthzMove.valid (hid ▸ hw.claimed) (hw.pending x hx hid) hev hchal
    (hw.target.supports_row hsup hx hid)

/-- The validator has answered. -/
theorem proved_owes
    {acct : Account} {c : Challenge} {a : Authz}
    (hw : Won strict p s c a)
    (hacct : acct.id = a.accountId) :
    Owes strict p s (.challenge (.validate acct c a))
      ({ events := [.proved ⟨c, acct, a.identifier, keyAuthorization c.token acct⟩] },
        .challenge (.okChallenge c a)) := by
  have hc : Change strict p (.challenge (.validate acct c a)) s
      (s.apply { events := [.proved ⟨c, acct, a.identifier,
        keyAuthorization c.token acct⟩] }) := by
    refine Change.quiet strict p _ s ?_
    intro ev hev
    rw [List.mem_singleton] at hev
    subst hev
    exact NewEvent.proved _
  exact ⟨hc, hw.own hc rfl, ⟨c, acct, a.identifier, keyAuthorization c.token acct⟩,
    by simp, rfl, hw.target.authz, hacct, rfl, rfl, hw.target.wildcard⟩

/-- A failed statement is passed over with what is known. -/
theorem skipped_asserts
    {pc pc' : ChallengePost}
    (hpc : pc.onward = some pc')
    (hJ : pc.Asserts strict p s) :
    pc'.Asserts strict p s := by
  cases pc with
  | failChallenge c a err =>
      cases hpc
      exact hJ
  | failAuthz c a err =>
      cases hpc
      refine ⟨hJ.claimed, ?_⟩
      intro x hx hid
      simp [hJ.pending x hx hid]
  | okChallenge c a =>
      cases hpc
      exact hJ
  | okAuthz c a =>
      cases hpc
      exact hJ.1.target.known
  | _ => cases hpc <;> trivial

theorem challenge_owes
    (hs : Inv strict s)
    {pc : ChallengePost}
    (hJ : pc.Asserts strict p s)
    {out : Outcome}
    (hx : challengeStep p k s pc = some out) :
    Owes strict p s (.challenge pc) out := by
  cases challenge_step hx with
  | answered r => exact owes_reply _ _
  | accepted _ _ => exact owes_goto hJ
  | loaded hc => exact owes_goto (Loaded.of_row hs hJ hc)
  | owned ha hacct _ _ => exact owes_goto ⟨Target.of_row hs hJ ha, hacct.symm⟩
  | timely hclock => exact owes_goto ⟨hJ.1, hJ.2, hJ.1.not_late hs hclock⟩
  | won hclaim => exact claim_owes hs hJ.1 hJ.2.1 hJ.2.2 hclaim
  | lost _ => exact owes_goto trivial
  | proved => exact proved_owes hJ.1 hJ.2
  | disproved => exact owes_goto hJ.1
  | @failChallenge c a err =>
      have hc := setChallenge_change (.challenge (.failChallenge c a err)) hJ
        (some err) (unix s.now) (by simp : ChallengeStatus.invalid ≠ .pending)
      exact ⟨hc, Won.own hJ hc rfl⟩
  | failAuthz => exact failAuthz_owes hJ
  | failOrder =>
      refine ⟨Change.setOrderStatus strict p _ s ?_, trivial⟩
      intro r hr hid
      exact OrderMove.failed (hid ▸ hJ.claimed) hJ.row
  | @okChallenge c a =>
      have hc := setChallenge_change (.challenge (.okChallenge c a)) hJ.1
        none (unix s.now) (by simp : ChallengeStatus.valid ≠ .pending)
      exact ⟨hc, hJ.1.own hc rfl, hJ.2.stable hc⟩
  | okAuthz => exact okAuthz_owes hJ.1 hJ.2
  | complete hall =>
      refine owes_goto ⟨hJ, ?_⟩
      intro x hx hid
      simp only [Db.authzsByOrder, List.all_eq_true, List.mem_filter, beq_iff_eq, and_imp] at hall
      exact hall x hx hid
  | incomplete _ => exact owes_goto trivial
  | ready =>
      refine ⟨Change.setOrderStatus strict p _ s ?_, trivial⟩
      intro r hr hid
      refine OrderMove.ready rfl hid.symm ?_
      rw [hid]
      exact hJ
  | skipped hpc => exact owes_goto (skipped_asserts hpc hJ)

/-- Winning `ClaimOrder`. -/
theorem claimOrder_owes
    (hs : Inv strict s)
    {acct : Account} {o : Order} {authzs : List Authz} {time : Nat}
    (hclaim : s.db.orderClaimable o.id time = true) :
    Owes strict p s (.finalize (.claim acct o authzs time))
      ({ stmt := .claimOrder o.id time, events := [.orderClaimed o.id p] },
        .finalize (.issue acct o authzs)) := by
  have hc := Change.claimOrder strict p (.finalize (.claim acct o authzs time)) s
    hs.ids.orderKey hclaim
  have hcov : Covered strict s o.id := by
    simp only [Db.orderClaimable, List.any_eq_true, Bool.and_eq_true, beq_iff_eq,
      decide_eq_true_eq] at hclaim
    rcases hclaim with ⟨r, hr, ⟨hid, hready⟩, _⟩
    rw [← hid]
    exact hs.progress.covered r hr (Or.inl hready)
  exact ⟨hc, hcov.change hs.progress hc, by simp⟩

/-- Asking the CA. -/
theorem issue_owes
    (hs : Inv strict s)
    {acct : Account} {o : Order} {authzs : List Authz}
    (hJ : Claimant strict p s o)
    {h' : Handler}
    (hnext : ∀ s', Claimant strict p s' o → Asserts strict p s' h') :
    Owes strict p s (.finalize (.issue acct o authzs)) ({ events := [.asked o.id] }, h') := by
  have hc : Change strict p (.finalize (.issue acct o authzs)) s
      (s.apply { events := [.asked o.id] }) := by
    refine Change.quiet strict p _ s ?_
    intro ev hev
    rw [List.mem_singleton] at hev
    subst hev
    exact NewEvent.asked rfl rfl
  exact ⟨hc, hnext _ (hJ.stable hs hc)⟩

theorem finalize_owes
    (hs : Inv strict s)
    {pc : Finalize}
    (hJ : pc.Asserts strict p s)
    {out : Outcome}
    (hx : finalizeStep p k s pc = some out) :
    Owes strict p s (.finalize pc) out := by
  cases finalize_step hx with
  | answered r => exact owes_reply _ _
  | accepted _ _ => exact owes_goto trivial
  | @loaded acct id payload o ho hacct =>
      refine owes_goto ?_
      rcases hs.origins.order o (mem_of_find?_key ho).1 with
        ⟨o₀, acct₀, grants, q, t, hev, hid, _⟩
      exact ⟨o₀, acct₀, grants, q, t, hev, hid,
        unix_mono (hs.origins.opened _ _ _ _ _ hev).2.1⟩
  | checked _ _ => exact owes_goto hJ
  | claimed hclaim => exact claimOrder_owes hs hclaim
  | issued => exact issue_owes hs hJ fun _ h => h
  | blocked => exact issue_owes hs hJ fun _ h => h
  | refused =>
      refine ⟨Change.setOrderStatus strict p _ s ?_, trivial⟩
      intro r _ hid
      exact OrderMove.refused rfl hid.symm
  | @parsed info acct o authzs chain cn =>
      have hc : Change strict p (.finalize (.certMeta acct o authzs chain cn)) s
          (s.apply { draws := 1 }) := by
        refine Change.quiet strict p _ s ?_
        simp
      exact ⟨hc, Claimant.stable hs hc hJ⟩
  | @stored o authzs cert =>
      have hc := Change.insertCert strict p (.finalize (.store o authzs cert)) s cert
      exact ⟨hc, Claimant.stable hs hc hJ⟩
  | finished =>
      refine ⟨Change.setOrderStatus strict p _ s ?_, trivial⟩
      intro r _ hid
      refine OrderMove.finish rfl hid.symm ?_
      rw [hid]
      exact hJ.covered
  | skipped => exact owes_goto trivial
  | reloaded => exact owes_reply _ _

/-- Deleting authorizations spares those of a younger order. -/
theorem gcAuthzs_owes
    (hs : Inv strict s)
    {cutoff : Int}
    (hJ : Swept s cutoff) :
    Owes strict p s (.gc (.authzs cutoff)) ({ stmt := .gcAuthzs cutoff }, .gc .challenges) := by
  refine ⟨Change.gcAuthzs strict p _ s ?_, trivial⟩
  intro a ha hexp r hr hid
  refine hJ.late r hr ?_
  rcases hs.origins.order r hr with ⟨o, acct, grants, q, t, hev, hoid, _, _, hoexp⟩
  rcases hs.origins.authz a ha with ⟨o', acct', grants', q', t', hev', hoid', _, hoexp'⟩
  have heq := (hs.origins.once _ _ _ _ _ _ _ _ _ _ hev hev'
    (hoid.trans (hid.trans hoid'.symm))).1
  rw [← hoexp, heq, hoexp']
  exact hexp

theorem collect_owes
    (hs : Inv strict s)
    {pc : Collect}
    (hJ : pc.Asserts s)
    {out : Outcome}
    (hx : collectStep k s pc = some out) :
    Owes strict p s (.gc pc) out := by
  cases collect_step hx with
  | @started grace => exact owes_goto (gcCutoff_le s.now grace)
  | @orders cutoff =>
      refine ⟨Change.gcOrders strict p _ s cutoff, hJ, ?_⟩
      intro r hr hexp
      have hkept := (List.mem_filter.mp hr).2
      simp [hexp] at hkept
  | authzs => exact gcAuthzs_owes hs hJ
  | challenges => exact ⟨Change.gcChallenges strict p _ s, trivial⟩
  | failed => exact owes_reply _ _

/-- Every step of every handler meets its obligations. -/
theorem next_owes
    (hs : Inv strict s)
    {h : Handler}
    (hJ : Asserts strict p s h)
    {out : Outcome}
    (hx : next p k s h = some out) :
    Owes strict p s h out := by
  cases h with
  | newOrder pc => exact newOrder_owes hs hJ hx
  | challenge pc => exact challenge_owes hs hJ hx
  | finalize pc => exact finalize_owes hs hJ hx
  | gc pc => exact collect_owes hs hJ hx
  | replied r => simp [next] at hx

/-- The order a newOrder handler is filling in is its own. -/
theorem Asserts.filling
    {h : Handler} {o : Nat}
    (hJ : Asserts strict p s h)
    (hfill : h.filling = some o) :
    ∃ order acct grants t, Event.opened order acct grants p t ∈ s.log ∧ order.id = o := by
  cases h with
  | newOrder pc =>
      cases pc with
      | authz order made todo =>
          rcases hJ.opened with ⟨acct, grants, t, hev⟩
          exact ⟨order, acct, grants, t, hev, Option.some.inj hfill⟩
      | challenge order made a types todo =>
          rcases hJ.1.opened with ⟨acct, grants, t, hev⟩
          exact ⟨order, acct, grants, t, hev, Option.some.inj hfill⟩
      | _ => simp [Handler.filling] at hfill
  | _ => simp [Handler.filling] at hfill

/-- The death of a handler changes nothing but the history. -/
theorem die_change
    {h : Handler}
    (hJ : Asserts strict p s h)
    (h₀ : Handler) :
    Change strict p h₀ s (die h s) := by
  cases hfill : h.filling with
  | none =>
      simp only [die, hfill]
      exact Change.untouched (Nat.le_refl _) rfl rfl rfl rfl rfl
  | some o =>
      rcases hJ.filling hfill with ⟨order, acct, grants, t, hev, rfl⟩
      have hc : Change strict p h₀ s (s.apply { events := [.settled order.id] }) := by
        refine Change.quiet strict p h₀ s ?_
        intro ev hmem
        rw [List.mem_singleton] at hmem
        subst hmem
        exact NewEvent.settled hev
      simp only [die, hfill]
      exact hc

end Step

/-- The surroundings touch no table that orders go through. -/
theorem outside_change
    (strict : Bool)
    (p : Pid)
    (h : Handler)
    (s : State)
    (e : Outside) :
    Change strict p h s (outside s e) := by
  cases e with
  | tick d => exact Change.untouched (Nat.le_add_right _ _) rfl rfl rfl rfl rfl
  | setAccount a => exact Change.untouched (Nat.le_refl _) rfl rfl rfl rfl rfl
  | insertEab c =>
      simp only [outside]
      split
      · exact Change.untouched (Nat.le_refl _) rfl rfl rfl rfl rfl
      · exact Change.untouched (Nat.le_refl _) rfl rfl rfl rfl rfl
  | deleteEab kid => exact Change.untouched (Nat.le_refl _) rfl rfl rfl rfl rfl

/-- A client presents a challenge id only when the order behind it is known. -/
def Presents (strict : Bool) : Guard (World State Handler) (Action Choice Request Outside)
  | w, .spawn _ (.challenge _ c _) => Presented strict w.shared c
  | _, _ => True

instance (strict : Bool) (s : State) (c : Nat) : Decidable (Presented strict s c) :=
  decidable_of_iff
    (c < s.nextId ∧ ∀ x ∈ s.db.challenges, x.id = c →
      ∀ a ∈ s.db.authzs, a.id = x.authzId → known strict a.orderId ∈ s.log)
    ⟨fun h => ⟨h.1, h.2⟩, fun h => ⟨h.id, h.known⟩⟩

instance (strict : Bool) (w : World State Handler) (a : Action Choice Request Outside) :
    Decidable (Presents strict w a) := by
  unfold Presents
  split <;> infer_instance

/-- What the program's step function computes. -/
theorem frontend_act
    {p : Pid} {k : Choice} {s s' : State} {h : Handler} {l : Option Handler}
    (hx : frontend.act p k s h = some (s', l)) :
    ∃ e h', next p k s h = some (e, h') ∧ s' = s.apply e ∧ l = some h' := by
  simp only [frontend] at hx
  split at hx
  · simp at hx
  · rename_i e h' hnext
    simp only [Option.some.injEq, Prod.mk.injEq] at hx
    exact ⟨e, h', hnext, hx.1.symm, hx.2.symm⟩

/-- The proof outline of the frontend. -/
theorem outline (strict : Bool) :
    Program.Outline frontend Initial (Presents strict) (Inv strict) (Asserts strict) where
  init _ hs := Inv.init strict hs
  spawn w p r _ hG _ := by
    cases r with
    | challenge account c get => exact hG
    | _ => trivial
  act w p k h s' l hw _ hp hx := by
    rcases frontend_act hx with ⟨e, h', hnext, rfl, rfl⟩
    rcases next_owes hw.shared (hw.local_ p h hp) hnext with ⟨hc, hJ⟩
    refine ⟨hw.shared.change hc, ?_, ?_⟩
    · intro m hm
      rw [← Option.some.inj hm]
      exact hJ
    · intro q m hqp _ hq
      exact hq.stable hw.shared hc hqp.symm
  crash w p h hw hp := by
    have hc := die_change (hw.local_ p h hp) h
    refine ⟨hw.shared.change hc, ?_⟩
    intro q m hqp _ hq
    exact hq.stable hw.shared hc hqp.symm
  env w e s' hw _ hx := by
    have hs' : s' = outside w.shared e := (Option.some.inj hx).symm
    subst hs'
    refine ⟨hw.shared.change (outside_change strict 0 (.replied .collected) _ e), ?_⟩
    intro q m _ hq
    exact hq.stable hw.shared
      (outside_change strict (q + 1) (.replied .collected) _ e) (Nat.succ_ne_self q)

/-- The invariant and the assertions hold in every reachable world. -/
theorem holds_of_reachable
    {strict : Bool}
    {w : World State Handler}
    (hw : server.Reachable (Presents strict) w) :
    Program.Holds (Inv strict) (Asserts strict) w :=
  (outline strict).sound hw

/-- Every step of the system is one of the changes described above. -/
theorem change_of_exec
    {strict : Bool}
    {w w' : World State Handler}
    {a : Action Choice Request Outside}
    (hw : Program.Holds (Inv strict) (Asserts strict) w)
    (hx : frontend.exec w a = some w') :
    ∃ p h, Change strict p h w.shared w'.shared := by
  cases a with
  | spawn p r =>
      rcases Program.exec_spawn hx with ⟨_, rfl⟩
      exact ⟨p, start r, Change.untouched (Nat.le_refl _) rfl rfl rfl rfl rfl⟩
  | act p k =>
      rcases Program.exec_act hx with ⟨h, s', l, hp, hact, rfl⟩
      rcases frontend_act hact with ⟨e, h', hnext, rfl, rfl⟩
      exact ⟨p, h, (next_owes hw.shared (hw.local_ p h hp) hnext).1⟩
  | crash p =>
      rcases Program.exec_crash hx with ⟨h, hp, rfl⟩
      exact ⟨p, h, die_change (hw.local_ p h hp) h⟩
  | env e =>
      rcases Program.exec_env hx with ⟨s', hs, rfl⟩
      have hs' : s' = outside w.shared e := (Option.some.inj hs).symm
      subst hs'
      exact ⟨0, .replied .collected, outside_change strict _ _ _ e⟩

end Acme
end Yca
