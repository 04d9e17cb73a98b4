import Yca.Acme.Authorizations
import Yca.Acme.Certificates

/-!
# What a client reads

A page is read in several statements, between which any handler may run.  Two
results hold all the same.  A page shows its account nothing that belongs to
another account.  And a certificate link that a client has been shown, on an
order's page or in the answer of a finalize, leads from then on to one and the
same chain.
-/

namespace Yca
namespace Acme

open Yca.Core

/-- The account that a reading request is signed by, and the id in its path. -/
def Reader.request : Reader → Option (Nat × Nat)
  | .orderAuth account id => some (account, id)
  | .authzAuth account id => some (account, id)
  | .certAuth account id => some (account, id)
  | _ => none

/-- The order was opened for this account. -/
def OpenedFor (s : State) (account : Nat) (o : Order) : Prop :=
  ∃ acct grants p t, Event.opened o acct grants p t ∈ s.log ∧ o.accountId = account

/-- In one of the states seen there was an authorization of the order under this
id, and no other authorization has it now. -/
structure PartOf (seen : State → Prop) (s : State) (account order authz : Nat) : Prop where
  row : ∃ v, seen v ∧ ∃ a ∈ v.db.authzs,
    a.id = authz ∧ a.orderId = order ∧ a.accountId = account
  id : authz < s.nextId
  only : ∀ a ∈ s.db.authzs, a.id = authz → a.orderId = order ∧ a.accountId = account

/-- In one of the states seen there was a challenge of the authorization under
this id, and no other challenge has it now. -/
structure ChallengeOf (seen : State → Prop) (s : State) (authz challenge : Nat) : Prop where
  row : ∃ v, seen v ∧ ∃ c ∈ v.db.challenges, c.id = challenge ∧ c.authzId = authz
  id : challenge < s.nextId
  only : ∀ c ∈ s.db.challenges, c.id = challenge → c.authzId = authz

/-- The page of an order that was opened for the account: its names, its
authorizations and its certificate. -/
structure OrderPage.Belongs (p : OrderPage) (seen : State → Prop) (s : State) (account : Nat)
    (o : Order) : Prop where
  opened : OpenedFor s account o
  finalize : p.finalize = .finalize o.id
  identifiers : p.identifiers = o.identifiers.map fun v => ⟨"dns", v⟩
  expires : p.expires = o.expires
  authorizations : ∀ l ∈ p.authorizations, ∃ a, l = .authz a ∧ PartOf seen s account o.id a
  certificate : ∀ l, p.certificate = some l →
    ∃ c ∈ s.db.certs, l = .cert c.id ∧ c.orderId = o.id ∧ c.accountId = account

/-- The page of an authorization of such an order. -/
structure AuthzPage.Belongs (p : AuthzPage) (seen : State → Prop) (s : State) (account : Nat)
    (o : Order) (a : Nat) : Prop where
  opened : OpenedFor s account o
  authz : PartOf seen s account o.id a
  expires : p.expires = o.expires
  challenges : ∀ c ∈ p.challenges, ∃ i, c.url = .challenge i ∧ ChallengeOf seen s a i

/-- The page shows what was asked for, and nothing of another account. -/
def Page.Belongs (seen : State → Prop) (s : State) (account id : Nat) : Page → Prop
  | .order p => ∃ o, o.id = id ∧ p.Belongs seen s account o
  | .authz p => ∃ o, p.Belongs seen s account o id
  | .certificate chain =>
      ∃ c ∈ s.db.certs, c.id = id ∧ c.accountId = account ∧ c.chainPem = chain
  | _ => True

/-- What a reading handler knows. -/
def Reader.Asserts (account id : Nat) (seen : State → Prop) (s : State) : Reader → Prop
  | .orderAuth a i => a = account ∧ i = id
  | .order acct i => acct.id = account ∧ i = id
  | .orderAuthzs _ r =>
      ∃ o, OpenedFor s account o ∧ o.id = id ∧ o.id = r.id ∧
        o.identifiers = r.identifiers ∧ o.expires = r.expires ∧
        r.accountId = account ∧ Named s r
  | .authzAuth a i => a = account ∧ i = id
  | .authz acct i => acct.id = account ∧ i = id
  | .authzChallenges _ a =>
      a.id = id ∧ ∃ o, OpenedFor s account o ∧ PartOf seen s account o.id a.id ∧
        a.expires = o.expires
  | .certAuth a i => a = account ∧ i = id
  | .cert acct i => acct.id = account ∧ i = id
  | .write p => p.Belongs seen s account id
  | .done p => p.Belongs seen s account id

section Stable

variable
  {strict : Bool} {q : Pid} {h : Handler} {seen seen' : State → Prop} {s s' : State}
  {account id : Nat}

theorem OpenedFor.stable
    (hlog : ∀ ev ∈ s.log, ev ∈ s'.log)
    {o : Order}
    (ho : OpenedFor s account o) :
    OpenedFor s' account o := by
  rcases ho with ⟨acct, grants, p, t, hev, hrest⟩
  exact ⟨acct, grants, p, t, hlog _ hev, hrest⟩

theorem PartOf.stable
    (hc : Change strict q h s s')
    {order authz : Nat}
    (ha : PartOf seen s account order authz) :
    PartOf seen s' account order authz := by
  refine ⟨ha.row, Nat.lt_of_lt_of_le ha.id hc.nextId, hc.authz_row ha.id ?_ ha.only⟩
  intro a a' hm hx
  rcases hm.fixed with ⟨_, horder, hacct, _⟩
  exact ⟨horder.trans hx.1, hacct.trans hx.2⟩

theorem ChallengeOf.stable
    (hc : Change strict q h s s')
    {authz challenge : Nat}
    (hx : ChallengeOf seen s authz challenge) :
    ChallengeOf seen s' authz challenge :=
  ⟨hx.row, Nat.lt_of_lt_of_le hx.id hc.nextId,
    hc.challenge_row hx.id (fun _ _ hm hrow => hm.authzId.trans hrow) hx.only⟩

/-- More states are seen as time goes on. -/
theorem PartOf.mono
    (hseen : ∀ v, seen v → seen' v)
    {order authz : Nat}
    (ha : PartOf seen s account order authz) :
    PartOf seen' s account order authz := by
  rcases ha.row with ⟨v, hv, hrow⟩
  exact ⟨⟨v, hseen v hv, hrow⟩, ha.id, ha.only⟩

theorem ChallengeOf.mono
    (hseen : ∀ v, seen v → seen' v)
    {authz challenge : Nat}
    (hx : ChallengeOf seen s authz challenge) :
    ChallengeOf seen' s authz challenge := by
  rcases hx.row with ⟨v, hv, hrow⟩
  exact ⟨⟨v, hseen v hv, hrow⟩, hx.id, hx.only⟩

theorem Page.Belongs.mono
    (hseen : ∀ v, seen v → seen' v)
    {p : Page}
    (hp : p.Belongs seen s account id) :
    p.Belongs seen' s account id := by
  cases p with
  | order p =>
      rcases hp with ⟨o, hid, hp⟩
      refine ⟨o, hid, { hp with authorizations := ?_ }⟩
      intro l hl
      rcases hp.authorizations l hl with ⟨a, ha, hpart⟩
      exact ⟨a, ha, hpart.mono hseen⟩
  | authz p =>
      rcases hp with ⟨o, hp⟩
      refine ⟨o, { hp with authz := hp.authz.mono hseen, challenges := ?_ }⟩
      intro c hc
      rcases hp.challenges c hc with ⟨i, hi, hx⟩
      exact ⟨i, hi, hx.mono hseen⟩
  | _ => exact hp

theorem Reader.Asserts.mono
    (hseen : ∀ v, seen v → seen' v)
    {r : Reader}
    (hr : r.Asserts account id seen s) :
    r.Asserts account id seen' s := by
  cases r with
  | authzChallenges acct a =>
      rcases hr with ⟨hid, o, ho, ha, hexp⟩
      exact ⟨hid, o, ho, ha.mono hseen, hexp⟩
  | write p => exact Page.Belongs.mono hseen hr
  | done p => exact Page.Belongs.mono hseen hr
  | _ => exact hr

theorem OrderPage.Belongs.stable
    (hc : Change strict q h s s')
    (hcerts : ∀ c ∈ s.db.certs, c ∈ s'.db.certs)
    {p : OrderPage} {o : Order}
    (hp : p.Belongs seen s account o) :
    p.Belongs seen s' account o where
  opened := hp.opened.stable hc.log
  finalize := hp.finalize
  identifiers := hp.identifiers
  expires := hp.expires
  authorizations l hl := by
    rcases hp.authorizations l hl with ⟨a, rfl, ha⟩
    exact ⟨a, rfl, ha.stable hc⟩
  certificate l hl := by
    rcases hp.certificate l hl with ⟨c, hmem, hrest⟩
    exact ⟨c, hcerts c hmem, hrest⟩

theorem AuthzPage.Belongs.stable
    (hc : Change strict q h s s')
    {p : AuthzPage} {o : Order} {a : Nat}
    (hp : p.Belongs seen s account o a) :
    p.Belongs seen s' account o a where
  opened := hp.opened.stable hc.log
  authz := hp.authz.stable hc
  expires := hp.expires
  challenges c hmem := by
    rcases hp.challenges c hmem with ⟨i, hi, hx⟩
    exact ⟨i, hi, hx.stable hc⟩

theorem Page.Belongs.stable
    (hc : Change strict q h s s')
    (hcerts : ∀ c ∈ s.db.certs, c ∈ s'.db.certs)
    {p : Page}
    (hp : p.Belongs seen s account id) :
    p.Belongs seen s' account id := by
  cases p with
  | order p =>
      rcases hp with ⟨o, hid, hp⟩
      exact ⟨o, hid, OrderPage.Belongs.stable hc hcerts hp⟩
  | authz p =>
      rcases hp with ⟨o, hp⟩
      exact ⟨o, AuthzPage.Belongs.stable hc hp⟩
  | certificate chain =>
      rcases hp with ⟨c, hmem, hrest⟩
      exact ⟨c, hcerts c hmem, hrest⟩
  | _ => trivial

/-- What a reader knows survives every step of the frontend. -/
theorem Reader.Asserts.stable
    (hc : Change strict q h s s')
    (hcerts : ∀ c ∈ s.db.certs, c ∈ s'.db.certs)
    {r : Reader}
    (hr : r.Asserts account id seen s) :
    r.Asserts account id seen s' := by
  cases r with
  | orderAuthzs acct x =>
      rcases hr with ⟨o, ho, hid, hxid, hnames, hexp, hacct, hcert⟩
      exact ⟨o, ho.stable hc.log, hid, hxid, hnames, hexp, hacct, hcert.grow hcerts⟩
  | authzChallenges acct a =>
      rcases hr with ⟨hid, o, ho, ha, hexp⟩
      exact ⟨hid, o, ho.stable hc.log, ha.stable hc, hexp⟩
  | write p => exact Page.Belongs.stable hc hcerts hr
  | done p => exact Page.Belongs.stable hc hcerts hr
  | _ => exact hr

end Stable

section Read

variable {k : Choice} {seen : State → Prop} {s : State} {account id : Nat}

/-- The account that passed `verifyJWS` is the requester. -/
theorem verifyJws_asserts
    {requester : Nat}
    {go : Account → Reader}
    (hgo : ∀ a, a.id = requester → (go a).Asserts account id seen s)
    {r : Reader}
    (hx : Reader.verifyJws k s requester go = some r) :
    r.Asserts account id seen s := by
  cases k with
  | ok =>
      simp only [Reader.verifyJws] at hx
      split at hx
      · cases hx
        trivial
      · rename_i a ha
        split at hx <;> cases hx
        · exact hgo a (mem_of_find?_key ha).2
        · trivial
  | fail _ => cases hx; trivial
  | refused _ => cases hx; trivial
  | issued _ _ => cases hx
  | parsed _ => cases hx

/-- The authorizations of an order are its account's. -/
theorem PartOf.of_row
    (hs : Inv false s)
    (hseen : seen s)
    {o : Order}
    (ho : OpenedFor s account o)
    {a : Authz}
    (ha : a ∈ s.db.authzs)
    (horder : a.orderId = o.id) :
    PartOf seen s account o.id a.id := by
  have hown : a.orderId = o.id ∧ a.accountId = account := ?_
  · refine ⟨⟨s, hseen, a, ha, rfl, hown⟩, hs.ids.authz a ha, ?_⟩
    intro x hx hid
    rw [hs.ids.authzKey.eq hx ha hid]
    exact hown
  rcases ho with ⟨acct, grants, p, t, hev, haccount⟩
  rcases hs.origins.authz a ha with ⟨o', acct', grants', p', t', hev', hid', hacct', _⟩
  have heq := (hs.origins.once _ _ _ _ _ _ _ _ _ _ hev' hev (hid'.trans horder)).1
  subst heq
  exact ⟨horder, hacct'.symm.trans haccount⟩

/-- The row of an order leads to its opening. -/
theorem OpenedFor.of_row
    (hs : Inv false s)
    {r : Order}
    (hr : r ∈ s.db.orders) :
    ∃ o, OpenedFor s r.accountId o ∧ o.id = r.id ∧ o.identifiers = r.identifiers ∧
      o.expires = r.expires := by
  rcases hs.origins.order r hr with ⟨o, acct, grants, p, t, hev, hid, hacct, hnames, hexp⟩
  exact ⟨o, ⟨acct, grants, p, t, hev, hacct⟩, hid, hnames, hexp⟩

/-- The row of an authorization leads to the opening of its order. -/
theorem OpenedFor.of_authz
    (hs : Inv false s)
    (hseen : seen s)
    {a : Authz}
    (ha : a ∈ s.db.authzs) :
    ∃ o, OpenedFor s a.accountId o ∧ PartOf seen s a.accountId o.id a.id ∧
      a.expires = o.expires := by
  rcases hs.origins.authz a ha with ⟨o, acct, grants, p, t, hev, hid, hacct, hexp⟩
  have ho : OpenedFor s a.accountId o := ⟨acct, grants, p, t, hev, hacct⟩
  exact ⟨o, ho, PartOf.of_row hs hseen ho ha hid.symm, hexp.symm⟩

/-- The order's page, from what was read of it. -/
theorem orderJson_belongs
    (hs : Inv false s)
    (hseen : seen s)
    {o r : Order}
    (ho : OpenedFor s account o)
    (hid : o.id = r.id)
    (hnames : o.identifiers = r.identifiers)
    (hexp : o.expires = r.expires)
    (hacct : r.accountId = account)
    (hnamed : Named s r) :
    (orderJson r (s.db.authzsByOrder r.id)).Belongs seen s account o where
  opened := ho
  finalize := by rw [orderJson, hid]
  identifiers := by rw [orderJson, hnames]
  expires := hexp.symm
  authorizations l hl := by
    rcases List.mem_map.mp hl with ⟨a, ha, rfl⟩
    rcases List.mem_filter.mp ha with ⟨hmem, horder⟩
    exact ⟨a.id, rfl, PartOf.of_row hs hseen ho hmem ((beq_iff_eq.mp horder).trans hid.symm)⟩
  certificate l hl := by
    simp only [orderJson] at hl
    split at hl
    · rcases Option.map_eq_some_iff.mp hl with ⟨i, hi, rfl⟩
      rcases hnamed i hi with ⟨c, hc, rfl, horder, hcacct⟩
      exact ⟨c, hc, rfl, horder.trans hid.symm, hcacct.trans hacct⟩
    · simp at hl

/-- The authorization's page, from what was read of it. -/
theorem authzJson_belongs
    (hs : Inv false s)
    (hseen : seen s)
    {o : Order} {a : Authz}
    (ho : OpenedFor s account o)
    (ha : PartOf seen s account o.id a.id)
    (hexp : a.expires = o.expires) :
    (authzJson a (s.db.challengesByAuthz a.id)).Belongs seen s account o a.id where
  opened := ho
  authz := ha
  expires := hexp
  challenges p hp := by
    rcases List.mem_map.mp hp with ⟨c, hc, rfl⟩
    rcases List.mem_filter.mp hc with ⟨hmem, hauthz⟩
    have hown := beq_iff_eq.mp hauthz
    refine ⟨c.id, rfl, ⟨s, hseen, c, hmem, rfl, hown⟩, (hs.ids.challenge c hmem).1, ?_⟩
    intro x hx hid
    rw [hs.ids.challengeKey.eq hx hmem hid]
    exact hown

/-- Each statement of a reader. -/
theorem read_asserts
    (hs : Inv false s)
    (hfiled : Filed s)
    (hseen : seen s)
    {r r' : Reader}
    (hr : r.Asserts account id seen s)
    (hx : read k s r = some r') :
    r'.Asserts account id seen s := by
  cases r with
  | orderAuth a i =>
      refine verifyJws_asserts ?_ hx
      intro acct hacct
      exact ⟨hacct.trans hr.1, hr.2⟩
  | order acct i =>
      rcases hr with ⟨hacct, rfl⟩
      cases k with
      | ok =>
          simp only [read] at hx
          split at hx
          · cases hx
            trivial
          · rename_i r hrow
            split at hx <;> cases hx
            · trivial
            · rename_i hown
              rcases mem_of_find?_key hrow with ⟨hmem, hrid⟩
              have haccount : r.accountId = account := (not_not.mp hown).trans hacct
              rcases OpenedFor.of_row hs hmem with ⟨o, ho, hid, hnames, hexp⟩
              exact ⟨o, haccount ▸ ho, hid.trans hrid, hid, hnames, hexp, haccount,
                hfiled r hmem⟩
      | fail _ => cases hx; trivial
      | _ => cases hx
  | orderAuthzs acct x =>
      cases k with
      | ok =>
          cases hx
          rcases hr with ⟨o, ho, hid, hxid, hnames, hexp, hacct, hnamed⟩
          exact ⟨o, hid, orderJson_belongs hs hseen ho hxid hnames hexp hacct hnamed⟩
      | fail _ => cases hx; trivial
      | _ => cases hx
  | authzAuth a i =>
      refine verifyJws_asserts ?_ hx
      intro acct hacct
      exact ⟨hacct.trans hr.1, hr.2⟩
  | authz acct i =>
      rcases hr with ⟨hacct, rfl⟩
      cases k with
      | ok =>
          simp only [read] at hx
          split at hx
          · cases hx
            trivial
          · rename_i a hrow
            split at hx <;> cases hx
            · trivial
            · rename_i hown
              rcases mem_of_find?_key hrow with ⟨hmem, haid⟩
              have haccount : a.accountId = account := (not_not.mp hown).trans hacct
              rcases OpenedFor.of_authz hs hseen hmem with ⟨o, ho, ha, hexp⟩
              rw [haccount] at ho ha
              exact ⟨haid, o, ho, ha, hexp⟩
      | fail _ => cases hx; trivial
      | _ => cases hx
  | authzChallenges acct a =>
      cases k with
      | ok =>
          cases hx
          rcases hr with ⟨rfl, o, ho, ha, hexp⟩
          exact ⟨o, authzJson_belongs hs hseen ho ha hexp⟩
      | fail _ => cases hx; trivial
      | _ => cases hx
  | certAuth a i =>
      refine verifyJws_asserts ?_ hx
      intro acct hacct
      exact ⟨hacct.trans hr.1, hr.2⟩
  | cert acct i =>
      rcases hr with ⟨hacct, rfl⟩
      cases k with
      | ok =>
          simp only [read] at hx
          split at hx
          · cases hx
            trivial
          · rename_i c hrow
            split at hx <;> cases hx
            · trivial
            · rename_i hown
              rcases mem_of_find?_key hrow with ⟨hmem, hcid⟩
              exact ⟨c, hmem, hcid, (not_not.mp hown).trans hacct, rfl⟩
      | fail _ => cases hx; trivial
      | _ => cases hx
  | write p =>
      cases k with
      | ok => cases hx; exact hr
      | fail _ => cases hx; trivial
      | _ => cases hx
  | done p => cases hx

end Read

/-- No step takes a certificate away. -/
theorem certs_of_exec
    {w w' : World State Handler} {a : Action Choice Request Outside}
    (hx : frontend.exec w a = some w') :
    w.shared.db.certs <+: w'.shared.db.certs := by
  cases a with
  | spawn p r =>
      rcases Program.exec_spawn hx with ⟨_, rfl⟩
      exact List.prefix_rfl
  | act p k =>
      rcases Program.exec_act hx with ⟨h, s', l, _, hact, rfl⟩
      rcases frontend_act hact with ⟨e, h', _, rfl, rfl⟩
      exact e.stmt.certs_prefix _
  | crash p =>
      rcases Program.exec_crash hx with ⟨h, _, rfl⟩
      exact (die_rows h w.shared).certs.symm ▸ List.prefix_rfl
  | env e =>
      rcases Program.exec_env hx with ⟨s', hs, rfl⟩
      have hs' : s' = outside w.shared e := (Option.some.inj hs).symm
      subst hs'
      exact (outside_rows w.shared e).1.certs.symm ▸ List.prefix_rfl

section Runs

variable
  {w w' : World State Handler} {r : Reader} {as : List (Action Choice Request Outside ⊕ Choice)}

/-- The run passed this state of the frontend. -/
def Seen (x : World State Handler × Reader)
    (as : List (Action Choice Request Outside ⊕ Choice)) (s : State) : Prop :=
  ∃ v, server.Passed (fun k w r => read k w.shared r) (Presents false) x as v ∧ v.shared = s

/-- What a reading request knows, whatever the other handlers do between its
statements. -/
theorem reader_asserts
    {account id : Nat} {r' : Reader}
    (hw : server.Reachable (Presents false) w)
    (hrun : reading.Run (Automaton.watched (Presents false)) (w, r) as (w', r'))
    (hr : r.request = some (account, id)) :
    r'.Asserts account id (Seen (w, r) as) w'.shared := by
  have hstart : ∀ seen, r.Asserts account id seen w.shared := by
    intro seen
    cases r <;> simp only [Reader.request] at hr <;> cases hr <;> exact ⟨rfl, rfl⟩
  have hI : ∀ v, server.Reachable (Presents false) v →
      Program.Holds (fun s => Inv false s ∧ Filed s)
        (fun p s h => Asserts false p s h ∧ Filing s h) v :=
    fun v hv => filedOutline.sound hv
  refine hrun.observe_past
    (J := fun P v x => x.Asserts account id (fun s => ∃ u, P u ∧ u.shared = s) v.shared)
    hI ?_ ?_ ?_ hw fun P => hstart _
  · intro P Q v x hPQ hJ
    refine hJ.mono ?_
    rintro s ⟨u, hu, hs⟩
    exact ⟨u, hPQ u hu, hs⟩
  · intro P v a v' x hv _ _ hx hJ
    have hv' : Program.Holds (Inv false) (Asserts false) v :=
      ⟨hv.shared.1, fun p l hl => (hv.local_ p l hl).1⟩
    rcases change_of_exec hv' hx with ⟨q, h, hc⟩
    exact hJ.stable hc fun c hmem => (certs_of_exec hx).subset hmem
  · intro P v k x x' hv hP hx hJ
    exact read_asserts hv.shared.1 hv.shared.2 ⟨v, hP, rfl⟩ hJ hx

/-- Whatever the other handlers do between its statements, a request that reads
is answered with the page of the order, authorization or certificate it asked
for, which belongs to its account, and every link on the page leads to a row of
that same order or authorization, which was there in a state of the run. -/
theorem page_belongs
    {account id : Nat} {page : Page}
    (hw : server.Reachable (Presents false) w)
    (hrun : reading.Run (Automaton.watched (Presents false)) (w, r) as (w', .done page))
    (hr : r.request = some (account, id)) :
    page.Belongs (Seen (w, r) as) w'.shared account id :=
  reader_asserts hw hrun hr

end Runs

/-- An order for one name, proved and finalized. -/
def sampleFinalized : List (Action Choice Request Outside) :=
  sampleOrder ++ .spawn 1 (.challenge 0 3 false) :: oks 1 11 ++
    .spawn 2 (.finalize 0 1 (.csr ⟨"a.ca", [], [], [], []⟩)) :: oks 2 4 ++
    [.act 2 (.issued "chain" "a.ca"), .act 2 (.parsed ⟨"40", "ari", 0, 1⟩)] ++ oks 2 3

/-- Its page is read afterwards. -/
def sampleReading : List (Action Choice Request Outside ⊕ Choice) :=
  sampleFinalized.map .inl ++ List.replicate 4 (.inr .ok)

/-- The reader has been answered with an order's page with this certificate. -/
def readsCert (i : Nat) (x : World State Handler × Reader) : Bool :=
  match x.2 with
  | .done (.order p) => decide (p.certificate = some (.cert i))
  | _ => false

theorem readsCert_spec
    {i : Nat} {x : World State Handler × Reader}
    (h : readsCert i x = true) :
    ∃ p, x.2 = .done (.order p) ∧ p.certificate = some (.cert i) := by
  rw [readsCert] at h
  split at h
  · rename_i p hp
    exact ⟨p, hp, of_decide_eq_true h⟩
  · simp at h

theorem sampleReading_run :
    ∃ w p, p.certificate = some (.cert 7) ∧
      reading.Run (Automaton.watched (Presents false)) (World.idle sampleState, .orderAuth 0 1)
        sampleReading (w, .done (.order p)) := by
  have hcheck :
      (reading.follow (Automaton.watched (Presents false))
        (World.idle sampleState, .orderAuth 0 1) sampleReading).any (readsCert 7) = true := by
    decide
  rcases Automaton.Run.exists_of_follow hcheck with ⟨⟨w, r⟩, hrun, hread⟩
  rcases readsCert_spec hread with ⟨p, rfl, hp⟩
  exact ⟨w, p, hp, hrun⟩

theorem page_belongs_sample :
    ∃ w : World State Handler, ∃ p : OrderPage,
      p.certificate = some (.cert 7) ∧
      (Page.order p).Belongs (Seen (World.idle sampleState, .orderAuth 0 1) sampleReading)
        w.shared 0 1 := by
  rcases sampleReading_run with ⟨w, p, hp, hrun⟩
  exact ⟨w, p, hp,
    page_belongs (Automaton.Reachable.of_init sampleState_init) hrun rfl⟩

/-- A certificate table from before the start: ids are distinct, and none is
drawn again. -/
structure Stocked (s : State) : Prop where
  ids : ∀ c ∈ s.db.certs, c.id < s.nextId
  key : UniqueKey Cert.id s.db.certs

/-- A world that the frontend reaches from such a table. -/
def Serving (w : World State Handler) : Prop :=
  ∃ w₀ as, server.init w₀ ∧ Stocked w₀.shared ∧ server.Run (Presents false) w₀ as w

/-- A client of the account has been shown certificate `i` for the order: on
the page of the order, or in the answer of a finalize. -/
inductive Shown (w : World State Handler) (account order i : Nat) : Prop
  | page {w₀ : World State Handler} {as : List (Action Choice Request Outside ⊕ Choice)}
      {p : OrderPage} :
      Serving w₀ →
      reading.Run (Automaton.watched (Presents false)) (w₀, .orderAuth account order) as
        (w, .done (.order p)) →
      p.certificate = some (.cert i) →
      Shown w account order i
  | reply {p : Pid} {status : Nat} {o : Order} {authzs : List Authz} :
      Serving w →
      w.procs p = some (.replied (.order status o authzs)) →
      o.id = order →
      o.accountId = account →
      (orderJson o authzs).certificate = some (.cert i) →
      Shown w account order i

/-- What following a certificate link can end with: the chain, a refusal by
`verifyJWS`, or a database that could not be asked. -/
inductive Page.Download (chain : String) : Page → Prop
  | chain : Page.Download chain (.certificate chain)
  | refused (p : Problem) : Page.Download chain (.refused p)
  | lookup :
      Page.Download chain (.problem (Acme.problem 500 "serverInternal" "certificate lookup"))
  | internalError : Page.Download chain .internalError

section Serving

variable {w w' : World State Handler}

theorem Serving.reachable
    (hw : Serving w) :
    server.Reachable (Presents false) w := by
  rcases hw with ⟨w₀, as, hinit, _, hrun⟩
  exact Automaton.Reachable.of_run hinit hrun

theorem Serving.run
    {as : List (Action Choice Request Outside)}
    (hw : Serving w)
    (hrun : server.Run (Presents false) w as w') :
    Serving w' := by
  rcases hw with ⟨w₀, bs, hinit, hstock, hrun₀⟩
  exact ⟨w₀, bs ++ as, hinit, hstock, hrun₀.append hrun⟩

/-- Certificate ids are distinct in every world of a run. -/
theorem Serving.distinct
    (hw : Serving w) :
    Distinct w := by
  rcases hw with ⟨w₀, as, hinit, hstock, hrun⟩
  refine hrun.invariant (fun v a v' hv _ hx => hv.exec hx) ?_
  refine ⟨hstock.ids, hstock.key, ?_, ?_⟩
  · intro p h c hp
    simp [hinit.2 p] at hp
  · intro p q h m c d _ hp
    simp [hinit.2 p] at hp

/-- What was shown to a client is in the table, under its id. -/
theorem Shown.row
    {account order i : Nat}
    (hshown : Shown w account order i) :
    Serving w ∧ ∃ c, w.shared.db.certById i = some c ∧
      c.orderId = order ∧ c.accountId = account := by
  cases hshown with
  | page hw₀ hrun hlink =>
      rcases hrun.system with ⟨ks, hks⟩
      have hw := hw₀.run hks
      rcases reader_asserts hw₀.reachable hrun rfl with ⟨o, hid, hp⟩
      rcases hp.certificate _ hlink with ⟨c, hc, heq, horder, hacct⟩
      cases heq
      exact ⟨hw, c, hw.distinct.key.find?_eq hc, horder.trans hid, hacct⟩
  | @reply p status o authzs hw hp hid hacct hlink =>
      refine ⟨hw, ?_⟩
      have hnamed : Named w.shared o := ((filedOutline.sound hw.reachable).local_ p _ hp).2
      simp only [orderJson] at hlink
      split at hlink
      · rcases Option.map_eq_some_iff.mp hlink with ⟨j, hj, heq⟩
        cases heq
        rcases hnamed _ hj with ⟨c, hc, rfl, horder, hcacct⟩
        exact ⟨c, hw.distinct.key.find?_eq hc, horder.trans hid, hcacct.trans hacct⟩
      · simp at hlink

/-- A lookup by id finds the same certificate ever after. -/
theorem certById_of_run
    {as : List (Action Choice Request Outside)}
    (hrun : server.Run (Presents false) w as w')
    {i : Nat} {c : Cert}
    (hc : w.shared.db.certById i = some c) :
    w'.shared.db.certById i = some c :=
  hrun.invariant (I := fun v => v.shared.db.certById i = some c)
    (fun _ _ _ hv _ hx => (certs_of_exec hx).find?_eq_some hv) hc

end Serving

/-- Where a download of the certificate stands. -/
def Reader.Downloading (account : Nat) (c : Cert) : Reader → Prop
  | .certAuth a i => a = account ∧ i = c.id
  | .cert acct i => acct.id = account ∧ i = c.id
  | .write p => p.Download c.chainPem
  | .done p => p.Download c.chainPem
  | _ => False

/-- Each statement of a download. -/
theorem read_downloading
    {k : Choice} {s : State} {account : Nat} {c : Cert}
    (hc : s.db.certById c.id = some c)
    (hacct : c.accountId = account)
    {r r' : Reader}
    (hr : r.Downloading account c)
    (hx : read k s r = some r') :
    r'.Downloading account c := by
  cases r with
  | certAuth a i =>
      rcases hr with ⟨rfl, rfl⟩
      cases k with
      | ok =>
          simp only [read, Reader.verifyJws] at hx
          split at hx
          · cases hx
            exact .refused _
          · rename_i x hrow
            split at hx <;> cases hx
            · exact ⟨(mem_of_find?_key hrow).2, rfl⟩
            · exact .refused _
      | fail _ => cases hx; exact .refused _
      | refused _ => cases hx; exact .refused _
      | issued _ _ => cases hx
      | parsed _ => cases hx
  | cert acct i =>
      rcases hr with ⟨rfl, rfl⟩
      cases k with
      | ok =>
          simp only [read, hc, hacct, ne_eq, not_true_eq_false, if_false] at hx
          cases hx
          exact .chain
      | fail _ => cases hx; exact .lookup
      | _ => cases hx
  | write p =>
      cases k with
      | ok => cases hx; exact hr
      | fail _ => cases hx; exact .internalError
      | _ => cases hx
  | done p => cases hx
  | _ => exact hr.elim

/-- A certificate link that a client has been shown names a certificate of that
order and account, and from then on leads to its chain: no download of it is
ever answered otherwise, save for a refused signature or a database that could
not be asked, and for as long as the account is valid the download is there to
be had. -/
theorem certificate_link_lasts
    {w : World State Handler} {account order i : Nat}
    (hshown : Shown w account order i) :
    ∃ c ∈ w.shared.db.certs, c.id = i ∧ c.orderId = order ∧ c.accountId = account ∧
      ∀ w' as, server.Run (Presents false) w as w' →
        (∀ v bs page,
          reading.Run (Automaton.watched (Presents false)) (w', .certAuth account i) bs
            (v, .done page) →
          page.Download c.chainPem)
        ∧
        (∀ acct, w'.shared.db.accountById account = some acct → acct.status = "valid" →
          reading.Run (Automaton.watched (Presents false)) (w', .certAuth account i)
            [.inr .ok, .inr .ok, .inr .ok] (w', .done (.certificate c.chainPem))) := by
  rcases hshown.row with ⟨hw, c, hc, horder, hacct⟩
  rcases mem_of_find?_key hc with ⟨hmem, rfl⟩
  refine ⟨c, hmem, rfl, horder, hacct, ?_⟩
  intro w' as hrun
  have hw' := hw.run hrun
  have hc' := certById_of_run hrun hc
  refine ⟨?_, ?_⟩
  · intro v bs page hread
    have hI : ∀ v, server.Reachable (Presents false) v → True := fun _ _ => trivial
    have hdone := hread.observe
      (J := fun v x => v.shared.db.certById c.id = some c ∧ x.Downloading account c) hI ?_ ?_
      hw'.reachable ⟨hc', rfl, rfl⟩
    · exact hdone.2
    · intro v a v' x _ _ _ hx hJ
      exact ⟨(certs_of_exec hx).find?_eq_some hJ.1, hJ.2⟩
    · intro v k x x' _ hx hJ
      exact ⟨hJ.1, read_downloading hJ.1 hacct hJ.2 hx⟩
  · intro acct hrow hvalid
    have hid : acct.id = account := (mem_of_find?_key hrow).2
    refine Automaton.Run.looks (m := .cert acct c.id) ?_ ?_
    · simp [read, Reader.verifyJws, hrow, hvalid]
    · refine Automaton.Run.looks (m := .write (.certificate c.chainPem)) ?_ ?_
      · simp [read, hc', hacct, hid]
      · exact Automaton.Run.looks rfl (Automaton.Run.nil _)

/-- The certificate on the page of the sample order is downloaded later. -/
theorem certificate_link_lasts_sample :
    ∃ w : World State Handler, ∃ c ∈ w.shared.db.certs, c.id = 7 ∧
      c.orderId = 1 ∧ c.accountId = 0 ∧
      ∀ w' as, server.Run (Presents false) w as w' →
        (∀ v bs page,
          reading.Run (Automaton.watched (Presents false)) (w', .certAuth 0 7) bs
            (v, .done page) →
          page.Download c.chainPem)
        ∧
        (∀ acct, w'.shared.db.accountById 0 = some acct → acct.status = "valid" →
          reading.Run (Automaton.watched (Presents false)) (w', .certAuth 0 7)
            [.inr .ok, .inr .ok, .inr .ok] (w', .done (.certificate c.chainPem))) := by
  rcases sampleReading_run with ⟨w, p, hp, hrun⟩
  have hserving : Serving (World.idle sampleState) :=
    ⟨_, [], sampleState_init, ⟨by simp [sampleState], UniqueKey.nil⟩, Automaton.Run.nil _⟩
  exact ⟨w, certificate_link_lasts (Shown.page hserving hrun hp)⟩

end Acme
end Yca
