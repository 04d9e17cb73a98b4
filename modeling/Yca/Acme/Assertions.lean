import Yca.Acme.Invariant

/-!
# What each handler knows at each of its statements

The assertions of the proof outline: what holds of the shared state whenever a
handler stands at a given statement, whatever the other handlers have done in
between.  The section `Stable` shows that no step of another process can
destroy them.
-/

namespace Yca
namespace Acme

open Yca.Core

/-- A newOrder handler is filling in an order: it is the one that inserted it,
and each name has its authorization or is still to do. -/
structure Filling (p : Pid) (s : State) (o : Order) (todo : List String) : Prop where
  opened : ∃ acct grants t, Event.opened o acct grants p t ∈ s.log
  unsettled : Event.settled o.id ∉ s.log
  names : ¬ Late s.log o.id → ∀ r ∈ s.db.orders, r.id = o.id →
    ∀ name ∈ o.identifiers, name ∈ todo ∨ HasAuthz s o.id name

/-- The authorization a newOrder handler adds challenges to. -/
structure Adding (s : State) (a : Authz) (types : List ChallengeType) : Prop where
  id : a.id < s.nextId
  row : ∀ x ∈ s.db.authzs, x.id = a.id → x.wildcard = a.wildcard
  types : a.wildcard = true → ∀ t ∈ types, t = .dns01

/-- A challenge id a client may present: what it belongs to is known. -/
structure Presented (strict : Bool) (s : State) (c : Nat) : Prop where
  id : c < s.nextId
  known : ∀ x ∈ s.db.challenges, x.id = c →
    ∀ a ∈ s.db.authzs, a.id = x.authzId → known strict a.orderId ∈ s.log

/-- A challenge row that was read. -/
structure Loaded (strict : Bool) (s : State) (c : Challenge) : Prop where
  id : c.id < s.nextId
  authzId : c.authzId < s.nextId
  row : ∀ x ∈ s.db.challenges, x.id = c.id → x.authzId = c.authzId
  wildcard : ∀ a ∈ s.db.authzs, a.id = c.authzId → a.wildcard = true → c.type = .dns01
  known : ∀ a ∈ s.db.authzs, a.id = c.authzId → known strict a.orderId ∈ s.log

/-- A challenge and its authorization, both read. -/
structure Target (strict : Bool) (s : State) (c : Challenge) (a : Authz) : Prop where
  id : c.id < s.nextId
  authz : c.authzId = a.id
  authzId : a.id < s.nextId
  challengeRow : ∀ x ∈ s.db.challenges, x.id = c.id → x.authzId = c.authzId
  authzRow : ∀ x ∈ s.db.authzs, x.id = a.id →
    x.orderId = a.orderId ∧ x.accountId = a.accountId ∧
      x.identifier = a.identifier ∧ x.wildcard = a.wildcard
  wildcard : a.wildcard = true → c.type = .dns01
  known : known strict a.orderId ∈ s.log
  opened : ∃ o acct grants p t,
    Event.opened o acct grants p t ∈ s.log ∧ o.id = a.orderId ∧ o.expires = a.expires

/-- The winner of a claim, before it has decided the authorization. -/
structure Won (strict : Bool) (p : Pid) (s : State) (c : Challenge) (a : Authz) :
    Prop where
  target : Target strict s c a
  claimed : Event.claimed a.id c.id a.orderId p ∈ s.log
  pending : ∀ x ∈ s.db.authzs, x.id = a.id → x.status = .pending

/-- The winner of a claim, after a failed validation. -/
structure Lost (p : Pid) (s : State) (c : Challenge) (a : Authz) : Prop where
  claimed : Event.claimed a.id c.id a.orderId p ∈ s.log
  row : ∀ x ∈ s.db.authzs, x.id = a.id → x.status ≠ .valid

/-- The validator has accepted the challenge. -/
def Validated (s : State) (c : Challenge) (a : Authz) : Prop :=
  ∃ e, Event.proved e ∈ s.log ∧ e.challenge.id = c.id ∧ e.Supports a

/-- An order that a finalize handler has read, at or after its insertion. -/
def Read (s : State) (o : Order) (time : Nat) : Prop :=
  ∃ o₀ acct grants p t,
    Event.opened o₀ acct grants p t ∈ s.log ∧ o₀.id = o.id ∧ unix t ≤ time

/-- The winner of `ClaimOrder`. -/
structure Claimant (strict : Bool) (p : Pid) (s : State) (o : Order) : Prop where
  covered : Covered strict s o.id
  claimed : Event.orderClaimed o.id p ∈ s.log

/-- After the first `DELETE`, an expired order is one that came late. -/
structure Swept (s : State) (cutoff : Int) : Prop where
  past : cutoff ≤ unix s.now
  late : ∀ r ∈ s.db.orders, (r.expires : Int) < cutoff → Late s.log r.id

/-- What a newOrder handler knows. -/
def NewOrder.Asserts (p : Pid) (s : State) : NewOrder → Prop
  | .auth _ _ => True
  | .check _ _ grants => Granted grants
  | .insert _ grants _ => Granted grants
  | .authz o _ todo => Filling p s o todo
  | .challenge o _ a types todo => Filling p s o todo ∧ Adding s a types

/-- What a challenge handler knows. -/
def ChallengePost.Asserts (strict : Bool) (p : Pid) (s : State) : ChallengePost → Prop
  | .auth _ c _ => Presented strict s c
  | .load _ c _ => Presented strict s c
  | .loadAuthz _ c _ => Loaded strict s c
  | .clock acct c a => Target strict s c a ∧ acct.id = a.accountId
  | .claim acct c a =>
      Target strict s c a ∧ acct.id = a.accountId ∧ ¬ Late s.log a.orderId
  | .validate acct c a => Won strict p s c a ∧ acct.id = a.accountId
  | .failChallenge c a _ => Won strict p s c a
  | .failAuthz c a _ => Won strict p s c a
  | .failOrder c a _ => Lost p s c a
  | .okChallenge c a => Won strict p s c a ∧ Validated s c a
  | .okAuthz c a => Won strict p s c a ∧ Validated s c a
  | .scan _ a => known strict a.orderId ∈ s.log
  | .ready _ a => Covered strict s a.orderId
  | .stale _ => True
  | .reload _ => True

/-- What a finalize handler knows. -/
def Finalize.Asserts (strict : Bool) (p : Pid) (s : State) : Finalize → Prop
  | .auth _ _ _ => True
  | .load _ _ _ => True
  | .loadAuthzs _ o _ => Read s o (unix s.now)
  | .claim _ o _ time => Read s o time
  | .issue _ o _ => Claimant strict p s o
  | .refused o _ => Claimant strict p s o
  | .certMeta _ o _ _ _ => Claimant strict p s o
  | .store o _ _ => Claimant strict p s o
  | .finish o _ _ => Claimant strict p s o
  | .reload _ _ => True

/-- What a garbage collection knows. -/
def Collect.Asserts (s : State) : Collect → Prop
  | .start _ => True
  | .orders cutoff => cutoff ≤ unix s.now
  | .authzs cutoff => Swept s cutoff
  | .challenges => True

/-- What a handler knows. -/
def Asserts (strict : Bool) (p : Pid) (s : State) : Handler → Prop
  | .newOrder pc => pc.Asserts p s
  | .challenge pc => pc.Asserts strict p s
  | .finalize pc => pc.Asserts strict p s
  | .gc pc => pc.Asserts s
  | .replied _ => True

section Stable

variable {strict : Bool} {p q : Pid} {h : Handler} {s s' : State}

/-- Facts about an authorization's fixed columns survive any step. -/
theorem Change.authz_row
    (hc : Change strict q h s s')
    {P : Authz → Prop}
    {id : Nat}
    (hid : id < s.nextId)
    (hfixed : ∀ a a', AuthzMove q s a a' → P a → P a')
    (hs : ∀ a ∈ s.db.authzs, a.id = id → P a) :
    ∀ a ∈ s'.db.authzs, a.id = id → P a := by
  intro a' ha' hid'
  rcases hc.authzs.row a' ha' with ⟨a, ha, hm⟩ | hnew
  · exact hfixed a a' hm (hs a ha (hm.fixed.1 ▸ hid'))
  · have := hnew.id
    omega

/-- Facts about a challenge's fixed columns survive any step. -/
theorem Change.challenge_row
    (hc : Change strict q h s s')
    {P : Challenge → Prop}
    {id : Nat}
    (hid : id < s.nextId)
    (hfixed : ∀ c c', ChallengeMove q s' c c' → P c → P c')
    (hs : ∀ c ∈ s.db.challenges, c.id = id → P c) :
    ∀ c ∈ s'.db.challenges, c.id = id → P c := by
  intro c' hc' hid'
  rcases hc.challenges.row c' hc' with ⟨c, hc₀, hm⟩ | hnew
  · exact hfixed c c' hm (hs c hc₀ (hm.id ▸ hid'))
  · have := hnew.id
    omega

theorem Filling.stable
    (hs : Inv strict s)
    (hc : Change strict q h s s')
    (hqp : q ≠ p)
    {o : Order}
    {todo : List String}
    (hf : Filling p s o todo) :
    Filling p s' o todo where
  opened := by
    rcases hf.opened with ⟨acct, grants, t, hev⟩
    exact ⟨acct, grants, t, hc.log _ hev⟩
  unsettled hev := by
    rcases hf.opened with ⟨acct, grants, t, hop⟩
    rcases hc.event _ hev with hold | hnew
    · exact hf.unsettled hold
    · generalize hx : Event.settled o.id = ev at hnew
      cases hnew with
      | settled hop' =>
          simp only [Event.settled.injEq] at hx
          exact hqp (hs.origins.once _ _ _ _ _ _ _ _ _ _ hop hop' hx).2.1.symm
      | _ => simp at hx
  names hlate r' hr' hid name hname := by
    have hlate₀ : ¬ Late s.log o.id := fun hl => hlate (hc.late_mono hl)
    rcases hc.orders.row r' hr' with ⟨r, hr, hm⟩ | hnew
    · rcases hf.names hlate₀ r hr (hm.fixed.1 ▸ hid) name hname with htodo | hdone
      · exact Or.inl htodo
      · exact Or.inr (hdone.change hc hr' hid hlate₀)
    · rcases hf.opened with ⟨acct, grants, t, hop⟩
      have hlt := (hs.origins.opened _ _ _ _ _ hop).1
      have := hnew.id
      omega

theorem Adding.stable
    (hc : Change strict q h s s')
    {a : Authz}
    {types : List ChallengeType}
    (hf : Adding s a types) :
    Adding s' a types where
  id := Nat.lt_of_lt_of_le hf.id hc.nextId
  row := hc.authz_row hf.id (fun _ _ hm hx => hm.fixed.2.2.2.2.2.trans hx) hf.row
  types := hf.types

theorem Presented.stable
    (hs : Inv strict s)
    (hc : Change strict q h s s')
    {c : Nat}
    (hf : Presented strict s c) :
    Presented strict s' c where
  id := Nat.lt_of_lt_of_le hf.id hc.nextId
  known x' hx' hid a' ha' hauthz := by
    rcases hc.challenges.row x' hx' with ⟨x, hx, hmx⟩ | hnew
    · rcases hc.authzs.row a' ha' with ⟨a, ha, hma⟩ | hnew
      · rcases hma.fixed with ⟨haid, horder, _⟩
        rw [horder]
        refine hc.log _ (hf.known x hx (hmx.id ▸ hid) a ha ?_)
        rw [← haid, hauthz, hmx.authzId]
      · have hlt := (hs.ids.challenge x hx).2
        have := hnew.id
        have := hmx.authzId
        omega
    · have hlt := hf.id
      have := hnew.id
      omega

theorem Loaded.stable
    (hc : Change strict q h s s')
    {c : Challenge}
    (hf : Loaded strict s c) :
    Loaded strict s' c where
  id := Nat.lt_of_lt_of_le hf.id hc.nextId
  authzId := Nat.lt_of_lt_of_le hf.authzId hc.nextId
  row := hc.challenge_row hf.id (fun _ _ hm hx => hm.authzId.trans hx) hf.row
  wildcard :=
    hc.authz_row hf.authzId
      (fun _ _ hm hx hw => hx (hm.fixed.2.2.2.2.2.symm.trans hw)) hf.wildcard
  known :=
    hc.authz_row hf.authzId
      (fun _ _ hm hx => hm.fixed.2.1 ▸ hx) fun a ha hid => hc.log _ (hf.known a ha hid)

theorem Target.stable
    (hc : Change strict q h s s')
    {c : Challenge}
    {a : Authz}
    (hf : Target strict s c a) :
    Target strict s' c a where
  id := Nat.lt_of_lt_of_le hf.id hc.nextId
  authz := hf.authz
  authzId := Nat.lt_of_lt_of_le hf.authzId hc.nextId
  challengeRow := hc.challenge_row hf.id (fun _ _ hm hx => hm.authzId.trans hx) hf.challengeRow
  authzRow := by
    refine hc.authz_row hf.authzId ?_ hf.authzRow
    intro x x' hm hx
    rcases hm.fixed with ⟨_, horder, hacct, hname, _, hwild⟩
    exact ⟨horder.trans hx.1, hacct.trans hx.2.1, hname.trans hx.2.2.1, hwild.trans hx.2.2.2⟩
  wildcard := hf.wildcard
  known := hc.log _ hf.known
  opened := by
    rcases hf.opened with ⟨o, acct, grants, r, t, hev, hrest⟩
    exact ⟨o, acct, grants, r, t, hc.log _ hev, hrest⟩

/-- Only the winner of a claim moves the authorization. -/
theorem AuthzMove.eq_of_claimed
    (hs : Inv strict s)
    (hqp : q ≠ p)
    {a a' : Authz}
    {c o : Nat}
    (hev : Event.claimed a.id c o p ∈ s.log)
    (hm : AuthzMove q s a a') :
    a' = a := by
  cases hm with
  | same => rfl
  | invalid hev' _ => exact absurd (hs.claims.once _ _ _ _ _ _ _ hev' hev).2.2 hqp
  | valid hev' _ _ _ _ => exact absurd (hs.claims.once _ _ _ _ _ _ _ hev' hev).2.2 hqp

theorem Won.stable
    (hs : Inv strict s)
    (hc : Change strict q h s s')
    (hqp : q ≠ p)
    {c : Challenge}
    {a : Authz}
    (hf : Won strict p s c a) :
    Won strict p s' c a where
  target := hf.target.stable hc
  claimed := hc.log _ hf.claimed
  pending x' hx' hid := by
    rcases hc.authzs.row x' hx' with ⟨x, hx, hm⟩ | hnew
    · have hxid : x.id = a.id := hm.fixed.1.symm.trans hid
      rw [hm.eq_of_claimed hs hqp (hxid ▸ hf.claimed)]
      exact hf.pending x hx hxid
    · have := hf.target.authzId
      have := hnew.id
      omega

theorem Lost.stable
    (hs : Inv strict s)
    (hc : Change strict q h s s')
    (hqp : q ≠ p)
    {c : Challenge}
    {a : Authz}
    (hf : Lost p s c a) :
    Lost p s' c a where
  claimed := hc.log _ hf.claimed
  row x' hx' hid := by
    rcases hc.authzs.row x' hx' with ⟨x, hx, hm⟩ | hnew
    · have hxid : x.id = a.id := hm.fixed.1.symm.trans hid
      rw [hm.eq_of_claimed hs hqp (hxid ▸ hf.claimed)]
      exact hf.row x hx hxid
    · have hlt := (hs.claims.ids _ _ _ _ hf.claimed).1
      have := hnew.id
      omega

theorem Validated.stable
    (hc : Change strict q h s s')
    {c : Challenge}
    {a : Authz}
    (hf : Validated s c a) :
    Validated s' c a := by
  rcases hf with ⟨e, hev, hrest⟩
  exact ⟨e, hc.log _ hev, hrest⟩

theorem Read.stable
    (hc : Change strict q h s s')
    {o : Order}
    {time time' : Nat}
    (htime : time ≤ time')
    (hf : Read s o time) :
    Read s' o time' := by
  rcases hf with ⟨o₀, acct, grants, r, t, hev, hid, ht⟩
  exact ⟨o₀, acct, grants, r, t, hc.log _ hev, hid, Nat.le_trans ht htime⟩

theorem Claimant.stable
    (hs : Inv strict s)
    (hc : Change strict q h s s')
    {o : Order}
    (hf : Claimant strict p s o) :
    Claimant strict p s' o where
  covered := hf.covered.change hs.progress hc
  claimed := hc.log _ hf.claimed

theorem Swept.stable
    (hc : Change strict q h s s')
    {cutoff : Int}
    (hf : Swept s cutoff) :
    Swept s' cutoff where
  past := by
    have hle := hf.past
    have := unix_mono hc.now
    omega
  late r' hr' hexp := by
    rcases hc.orders.row r' hr' with ⟨r, hr, hm⟩ | hnew
    · rcases hm.fixed with ⟨hid, _, _, hexp'⟩
      rw [hid]
      exact hc.late_mono (hf.late r hr (hexp' ▸ hexp))
    · rcases hnew.opened with ⟨acct, grants, r, hev⟩
      have hpast := hf.past
      exact ⟨r', acct, grants, r, s.now, hev, rfl, by omega⟩

/-- No step of another process destroys what a handler knows. -/
theorem Asserts.stable
    (hs : Inv strict s)
    (hc : Change strict q h s s')
    (hqp : q ≠ p)
    {m : Handler}
    (hf : Asserts strict p s m) :
    Asserts strict p s' m := by
  cases m with
  | newOrder pc =>
      cases pc with
      | auth _ _ => trivial
      | check _ _ _ => exact hf
      | insert _ _ _ => exact hf
      | authz o _ todo => exact Filling.stable hs hc hqp hf
      | challenge o _ a types todo => exact ⟨hf.1.stable hs hc hqp, hf.2.stable hc⟩
  | challenge pc =>
      cases pc with
      | auth _ c _ => exact Presented.stable hs hc hf
      | load _ c _ => exact Presented.stable hs hc hf
      | loadAuthz _ c _ => exact Loaded.stable hc hf
      | clock _ c a => exact ⟨hf.1.stable hc, hf.2⟩
      | claim _ c a =>
          refine ⟨hf.1.stable hc, hf.2.1, ?_⟩
          intro hlate
          rcases hf.1.opened with ⟨o, acct, grants, r, t, hev, hid, _⟩
          have hlt := (hs.origins.opened _ _ _ _ _ hev).1
          exact hf.2.2 (hc.late (hid ▸ hlt) hlate)
      | validate _ c a => exact ⟨hf.1.stable hs hc hqp, hf.2⟩
      | failChallenge c a _ => exact Won.stable hs hc hqp hf
      | failAuthz c a _ => exact Won.stable hs hc hqp hf
      | failOrder c a _ => exact Lost.stable hs hc hqp hf
      | okChallenge c a => exact ⟨hf.1.stable hs hc hqp, hf.2.stable hc⟩
      | okAuthz c a => exact ⟨hf.1.stable hs hc hqp, hf.2.stable hc⟩
      | scan _ a => exact hc.log _ hf
      | ready _ a => exact Covered.change hs.progress hc hf
      | stale _ => trivial
      | reload _ => trivial
  | finalize pc =>
      cases pc with
      | auth _ _ _ => trivial
      | load _ _ _ => trivial
      | loadAuthzs _ o _ => exact Read.stable hc (unix_mono hc.now) hf
      | claim _ o _ time => exact Read.stable hc (Nat.le_refl _) hf
      | issue _ o _ => exact Claimant.stable hs hc hf
      | refused o _ => exact Claimant.stable hs hc hf
      | certMeta _ o _ _ _ => exact Claimant.stable hs hc hf
      | store o _ _ => exact Claimant.stable hs hc hf
      | finish o _ _ => exact Claimant.stable hs hc hf
      | reload _ _ => trivial
  | gc pc =>
      cases pc with
      | start _ => trivial
      | orders cutoff =>
          have hle : cutoff ≤ unix s.now := hf
          have := unix_mono hc.now
          show cutoff ≤ unix s'.now
          omega
      | authzs cutoff => exact Swept.stable hc hf
      | challenges => trivial
  | replied _ => trivial

end Stable

end Acme
end Yca
