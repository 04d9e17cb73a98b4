import Yca.Acme.Authorizations
import Yca.Acme.Pages
import Yca.Acme.Statements

/-!
# What an order offers

A newOrder handler inserts an order, then an authorization for each of its
names, then the challenges of each authorization, one statement at a time,
while other handlers, garbage collections among them, run in between.  When it
answers, the order has exactly one authorization for each of its names, and
each of them exactly the challenges of its kind; and that stays so for as long
as the order's row exists.  In what order the rows are read is left open.
-/

namespace Yca
namespace Acme

open Yca.Core

/-- An order's authorizations: id, base name and wildcard flag. -/
def Db.authzView (d : Db) (order : Nat) : List (Nat × String × Bool) :=
  (d.authzsByOrder order).map fun a => (a.id, a.identifier, a.wildcard)

/-- An authorization's challenges: id, type and token. -/
def Db.challengeView (d : Db) (authz : Nat) : List (Nat × ChallengeType × Nat) :=
  (d.challengesByAuthz authz).map fun c => (c.id, c.type, c.token)

/-- The types of an authorization's challenges. -/
def Db.offeredTypes (d : Db) (authz : Nat) : List ChallengeType :=
  (d.challengeView authz).map fun c => c.2.1

section Views

variable {d : Db}

theorem mem_authzView
    {order : Nat}
    {v : Nat × String × Bool}
    (hv : v ∈ d.authzView order) :
    ∃ a ∈ d.authzs, a.orderId = order ∧ a.id = v.1 := by
  rcases List.mem_map.mp hv with ⟨a, ha, rfl⟩
  rcases List.mem_filter.mp ha with ⟨hmem, horder⟩
  exact ⟨a, hmem, beq_iff_eq.mp horder, rfl⟩

/-- A statement leaves an order's authorizations alone unless it inserts one
of them or collects them. -/
theorem Stmt.authzView_run
    {stmt : Stmt}
    {order : Nat}
    (hinsert : ∀ a, stmt = .insertAuthz a → a.orderId ≠ order)
    (hgc : ∀ cutoff, stmt = .gcAuthzs cutoff →
      ∀ a ∈ d.authzs, a.orderId = order → ¬ (a.expires : Int) < cutoff) :
    (stmt.run d).authzView order = d.authzView order := by
  cases stmt with
  | insertAuthz a =>
      have hne : (a.orderId == order) = false := by simpa using hinsert a rfl
      simp [Stmt.run, Db.authzView, Db.authzsByOrder, List.filter_append, hne]
  | setAuthzStatus id status =>
      simp only [Stmt.run, Db.authzView, Db.authzsByOrder]
      refine updateWhere_filter_map ?_ ?_ d.authzs <;> (intro a; rfl)
  | gcAuthzs cutoff =>
      simp only [Stmt.run, Db.authzView, Db.authzsByOrder, List.filter_filter]
      congr 1
      refine List.filter_congr ?_
      intro a ha
      by_cases horder : a.orderId = order
      · simpa [horder] using hgc cutoff rfl a ha horder
      · simp [horder]
  | claimChallenge c =>
      simp only [Stmt.run]
      split <;> rfl
  | _ => rfl

/-- The same for an authorization's challenges; they are collected after it. -/
theorem Stmt.challengeView_run
    {stmt : Stmt}
    {authz : Nat}
    (hinsert : ∀ c, stmt = .insertChallenge c → c.authzId ≠ authz)
    (hgc : stmt = .gcChallenges → ∃ a ∈ d.authzs, a.id = authz) :
    (stmt.run d).challengeView authz = d.challengeView authz := by
  cases stmt with
  | insertChallenge c =>
      have hne : (c.authzId == authz) = false := by simpa using hinsert c rfl
      simp [Stmt.run, Db.challengeView, Db.challengesByAuthz, List.filter_append, hne]
  | setChallengeStatus id status error now =>
      simp only [Stmt.run, Db.challengeView, Db.challengesByAuthz]
      refine updateWhere_filter_map ?_ ?_ d.challenges <;> (intro c; rfl)
  | claimChallenge c =>
      simp only [Stmt.run]
      split
      · simp only [Db.challengeView, Db.challengesByAuthz]
        refine updateWhere_filter_map ?_ ?_ d.challenges <;> (intro c; rfl)
      · rfl
  | gcChallenges =>
      rcases hgc rfl with ⟨a, ha, rfl⟩
      simp only [Stmt.run, Db.challengeView, Db.challengesByAuthz, List.filter_filter]
      congr 1
      refine List.filter_congr ?_
      intro c _
      by_cases hauthz : c.authzId = a.id
      · have hany : (d.authzs.any fun x => x.id == c.authzId) = true :=
          List.any_eq_true.mpr ⟨a, ha, by simp [hauthz]⟩
        simp [hauthz, hauthz ▸ hany]
      · simp [hauthz]
  | _ => rfl

theorem authzView_insert (d : Db) (a : Authz) :
    ((Stmt.insertAuthz a).run d).authzView a.orderId =
      d.authzView a.orderId ++ [(a.id, a.identifier, a.wildcard)] := by
  simp [Stmt.run, Db.authzView, Db.authzsByOrder, List.filter_append]

theorem challengeView_insert (d : Db) (c : Challenge) :
    ((Stmt.insertChallenge c).run d).challengeView c.authzId =
      d.challengeView c.authzId ++ [(c.id, c.type, c.token)] := by
  simp [Stmt.run, Db.challengeView, Db.challengesByAuthz, List.filter_append]

/-- No id is listed twice. -/
theorem authzView_nodup
    (hkey : UniqueKey Authz.id d.authzs)
    (order : Nat) :
    ((d.authzView order).map Prod.fst).Nodup := by
  have hview : (d.authzView order).map Prod.fst = (d.authzsByOrder order).map Authz.id := by
    simp [Db.authzView]
  rw [hview]
  exact hkey.filter _

/-- An order that was just inserted has no authorization. -/
theorem authzView_fresh
    {order : Nat}
    (hfresh : ∀ a ∈ d.authzs, a.orderId < order) :
    d.authzView order = [] := by
  simp only [Db.authzView, Db.authzsByOrder, List.map_eq_nil_iff, List.filter_eq_nil_iff]
  intro a ha horder
  have := hfresh a ha
  have := beq_iff_eq.mp horder
  omega

/-- An authorization that was just inserted has no challenge. -/
theorem challengeView_fresh
    {authz : Nat}
    (hfresh : ∀ c ∈ d.challenges, c.authzId < authz) :
    d.challengeView authz = [] := by
  simp only [Db.challengeView, Db.challengesByAuthz, List.map_eq_nil_iff,
    List.filter_eq_nil_iff]
  intro c hc hauthz
  have := hfresh c hc
  have := beq_iff_eq.mp hauthz
  omega

end Views

/-- The order's row exists, and it was not inserted after its own expiry. -/
structure Live (s : State) (o : Nat) : Prop where
  row : ∃ r ∈ s.db.orders, r.id = o
  onTime : ¬ Late s.log o

/-- The order has an authorization for each of the names, as they come, each
with the challenges of its kind. -/
structure Built (d : Db) (order : Nat) (names : List String) : Prop where
  authzs : (d.authzView order).map Prod.snd = names.map splitWildcard
  challenges : ∀ v ∈ d.authzView order, d.offeredTypes v.1 = challengeTypes v.2.2

/-- The order has the authorizations of `done`, complete, and then `a` with the
challenge types `made`. -/
structure Adds (d : Db) (order : Nat) (done : List String) (a : Authz)
    (made : List ChallengeType) : Prop where
  authzs : ∃ view,
    d.authzView order = view ++ [(a.id, a.identifier, a.wildcard)] ∧
    view.map Prod.snd = done.map splitWildcard ∧
    ∀ v ∈ view, d.offeredTypes v.1 = challengeTypes v.2.2
  challenges : d.offeredTypes a.id = made

/-- What a newOrder handler knows of its order and the names still to do. -/
def NewOrder.Offering (s : State) : NewOrder → Prop
  | .authz o _ todo =>
      ∃ done, o.identifiers = done ++ todo ∧ (Live s o.id → Built s.db o.id done)
  | .challenge o _ a types todo =>
      ∃ done name made,
        o.identifiers = done ++ name :: todo ∧
        (a.identifier, a.wildcard) = splitWildcard name ∧
        challengeTypes a.wildcard = made ++ types ∧
        (a.id < s.nextId ∧ ∀ x ∈ s.db.authzs, x.id = a.id → x.orderId = o.id) ∧
        (Live s o.id → Adds s.db o.id done a made)
  | _ => True

/-- What a handler knows of the order it is filling in. -/
def Offering (s : State) : Handler → Prop
  | .newOrder pc => pc.Offering s
  | _ => True

/-- Every order whose ids were given to its client is complete. -/
def Offered (s : State) : Prop :=
  ∀ r ∈ s.db.orders, Event.disclosed r.id ∈ s.log → ¬ Late s.log r.id →
    Built s.db r.id r.identifiers

/-- The order's authorizations and their challenges are as they were. -/
structure SameView (d d' : Db) (order : Nat) : Prop where
  authzs : d'.authzView order = d.authzView order
  challenges : ∀ v ∈ d.authzView order, d'.challengeView v.1 = d.challengeView v.1

section View

variable {d d' : Db} {order : Nat}

theorem SameView.of_tables
    (hauthzs : d'.authzs = d.authzs)
    (hchallenges : d'.challenges = d.challenges) :
    SameView d d' order where
  authzs := by simp only [Db.authzView, Db.authzsByOrder, hauthzs]
  challenges _ _ := by simp only [Db.challengeView, Db.challengesByAuthz, hchallenges]

theorem SameView.of_rows
    {s s' : State}
    (hrows : SameRows s s') :
    SameView s.db s'.db order :=
  SameView.of_tables hrows.authzs hrows.challenges

theorem Built.kept
    (hv : SameView d d' order)
    {names : List String}
    (hb : Built d order names) :
    Built d' order names where
  authzs := by
    rw [hv.authzs]
    exact hb.authzs
  challenges v hmem := by
    rw [hv.authzs] at hmem
    rw [Db.offeredTypes, hv.challenges v hmem]
    exact hb.challenges v hmem

theorem Adds.kept
    (hv : SameView d d' order)
    {done : List String} {a : Authz} {made : List ChallengeType}
    (ha : Adds d order done a made) :
    Adds d' order done a made := by
  rcases ha.authzs with ⟨view, heq, hnames, htypes⟩
  have hmem : ∀ v ∈ view, v ∈ d.authzView order := by
    intro v hv
    rw [heq]
    exact List.mem_append_left _ hv
  refine ⟨⟨view, hv.authzs.trans heq, hnames, ?_⟩, ?_⟩
  · intro v hview
    rw [Db.offeredTypes, hv.challenges v (hmem v hview)]
    exact htypes v hview
  · have hlast : (a.id, a.identifier, a.wildcard) ∈ d.authzView order := by simp [heq]
    rw [Db.offeredTypes, hv.challenges _ hlast]
    exact ha.challenges

end View

section Step

variable {p q : Pid} {k : Choice} {h : Handler} {s s' : State} {o : Nat}

/-- An order that is live was so before. -/
theorem Live.before
    (hc : Change false q h s s')
    (ho : o < s.nextId)
    (hl : Live s' o) :
    Live s o where
  row := by
    rcases hl.row with ⟨r', hr', hid⟩
    rcases hc.orders.row r' hr' with ⟨r, hr, hm⟩ | hnew
    · exact ⟨r, hr, hm.fixed.1.symm.trans hid⟩
    · have := hnew.id
      omega
  onTime hlate := hl.onTime (hc.late_mono hlate)

/-- The authorizations of a live order are not due for collection. -/
theorem Live.not_due
    (hs : Inv false s)
    (hl : Live s o)
    {cutoff : Int}
    (hswept : Swept s cutoff)
    {a : Authz}
    (ha : a ∈ s.db.authzs)
    (horder : a.orderId = o) :
    ¬ (a.expires : Int) < cutoff := by
  intro hdue
  rcases hl.row with ⟨r, hr, rfl⟩
  rcases hs.origins.order r hr with ⟨o₁, _, _, _, _, hev₁, hid₁, _, _, hexp₁⟩
  rcases hs.origins.authz a ha with ⟨o₂, _, _, _, _, hev₂, hid₂, _, hexp₂⟩
  have heq := (hs.origins.once _ _ _ _ _ _ _ _ _ _ hev₁ hev₂
    (hid₁.trans (horder.symm.trans hid₂.symm))).1
  rw [← hexp₂, ← heq, hexp₁] at hdue
  exact hl.onTime (hswept.late r hr hdue)

/-- A step of a handler that is not filling in the order leaves it as it is. -/
theorem sameView_of_next
    (hs : Inv false s)
    (hJ : Asserts false q s h)
    (hO : Offering s h)
    {out : Outcome}
    (hx : next q k s h = some out)
    (hl : Live s o)
    (hfill : h.filling ≠ some o) :
    SameView s.db (s.apply out.1).db o := by
  have hruns := next_runs hx
  refine ⟨Stmt.authzView_run ?_ ?_, ?_⟩
  · intro a hstmt horder
    rw [hstmt] at hruns
    rcases hruns with ⟨x, made, name, rest, rfl, rfl⟩
    exact hfill (congrArg some horder)
  · intro cutoff hstmt a ha horder
    rw [hstmt] at hruns
    cases hruns
    exact hl.not_due hs hJ ha horder
  · intro v hv
    rcases mem_authzView hv with ⟨a, ha, horder, hid⟩
    refine Stmt.challengeView_run ?_ fun _ => ⟨a, ha, hid⟩
    intro c hstmt hauthz
    rw [hstmt] at hruns
    rcases hruns with ⟨x, made, b, t, types, rest, rfl, rfl⟩
    rcases hO with ⟨_, _, _, _, _, _, ⟨_, hrow⟩, _⟩
    have hx := hrow a ha (hid.trans hauthz.symm)
    exact hfill (congrArg some (hx.symm.trans horder))

/-- An order that is being filled in was inserted. -/
theorem Filling.lt
    (hs : Inv false s)
    {x : Order} {todo : List String}
    (hf : Filling p s x todo) :
    x.id < s.nextId := by
  rcases hf.opened with ⟨acct, grants, t, hev⟩
  exact (hs.origins.opened _ _ _ _ _ hev).1

/-- What a newOrder handler knows of its order, after a step that left the order
as it is. -/
theorem Offering.kept
    (hs : Inv false s)
    (hc : Change false q h s s')
    {m : Handler}
    (hview : ∀ o, m.filling = some o → Live s o → SameView s.db s'.db o)
    (hJ : Asserts false p s m)
    (hO : Offering s m) :
    Offering s' m := by
  cases m with
  | newOrder pc =>
      cases pc with
      | authz x made todo =>
          rcases hO with ⟨done, hsplit, hbuilt⟩
          refine ⟨done, hsplit, ?_⟩
          intro hl'
          have hl := hl'.before hc (Filling.lt hs hJ)
          exact (hbuilt hl).kept (hview x.id rfl hl)
      | challenge x made a types todo =>
          rcases hO with ⟨done, name, made', hsplit, hname, htypes, ⟨hid, hrow⟩, hadds⟩
          refine ⟨done, name, made', hsplit, hname, htypes,
            ⟨Nat.lt_of_lt_of_le hid hc.nextId, ?_⟩, ?_⟩
          · exact hc.authz_row hid (fun _ _ hm hx => hm.fixed.2.1.trans hx) hrow
          · intro hl'
            have hl := hl'.before hc (hJ.1.lt hs)
            exact (hadds hl).kept (hview x.id rfl hl)
      | _ => trivial
  | _ => trivial

/-- Two handlers never fill in one order. -/
theorem filling_apart
    (hs : Inv false s)
    {m : Handler}
    (hqp : q ≠ p)
    (hJq : Asserts false q s h)
    (hJp : Asserts false p s m)
    (ho : m.filling = some o) :
    h.filling ≠ some o := by
  intro hq
  rcases hJp.filling ho with ⟨x, _, _, _, hev, hid⟩
  rcases hJq.filling hq with ⟨y, _, _, _, hev', hid'⟩
  exact hqp (hs.origins.once _ _ _ _ _ _ _ _ _ _ hev' hev (hid'.trans hid.symm)).2.1

/-- No handler fills in an order whose ids were given away. -/
theorem filling_undisclosed
    (hs : Inv false s)
    (hJ : Asserts false p s h)
    (ho : Event.disclosed o ∈ s.log) :
    h.filling ≠ some o := by
  intro hfill
  have hsettled := hs.progress.settled o ho
  cases h with
  | newOrder pc =>
      cases pc with
      | authz x made todo =>
          cases hfill
          exact hJ.unsettled hsettled
      | challenge x made a types todo =>
          cases hfill
          exact hJ.1.unsettled hsettled
      | _ => cases hfill
  | _ => cases hfill

/-- `InsertOrder`: the new order has nothing yet. -/
theorem offering_insertOrder
    (hs : Inv false s)
    {order : Order}
    (hid : order.id = s.nextId)
    {e : Effect}
    (hstmt : e.stmt = .insertOrder order) :
    NewOrder.Offering (s.apply e) (.authz order [] order.identifiers) := by
  refine ⟨[], rfl, ?_⟩
  intro _
  have hempty : s.db.authzView order.id = [] := by
    rw [hid]
    exact authzView_fresh fun a ha => hs.origins.authz_order_lt ha
  have hbuilt : Built s.db order.id [] := by
    refine ⟨by rw [hempty]; rfl, ?_⟩
    rw [hempty]
    intro v hv
    cases hv
  refine Built.kept ?_ hbuilt
  rw [State.apply_db, hstmt]
  exact SameView.of_tables rfl rfl

/-- `InsertAuthz`: the new authorization has no challenge yet. -/
theorem offering_insertAuthz
    (hs : Inv false s)
    {order : Order} {made : List Authz} {name : String} {rest : List String}
    (hJ : Filling p s order (name :: rest))
    (hO : NewOrder.Offering s (.authz order made (name :: rest)))
    {a : Authz}
    (hid : a.id = s.nextId)
    (horder : a.orderId = order.id)
    (hname : (a.identifier, a.wildcard) = splitWildcard name)
    {e : Effect}
    (hc : Change false p h s (s.apply e))
    (hstmt : e.stmt = .insertAuthz a)
    (hnext : a.id < (s.apply e).nextId) :
    NewOrder.Offering (s.apply e)
      (.challenge order made a (challengeTypes a.wildcard) rest) := by
  rcases hO with ⟨done, hsplit, hbuilt⟩
  refine ⟨done, name, [], hsplit, hname, rfl, ⟨hnext, ?_⟩, ?_⟩
  · intro b hb hbid
    rw [State.apply_db, hstmt] at hb
    rcases List.mem_append.mp hb with hold | hnew
    · exact absurd (hbid.trans hid) (Nat.ne_of_lt (hs.ids.authz b hold))
    · rw [List.mem_singleton.mp hnew, horder]
  · intro hl'
    have hb := hbuilt (hl'.before hc (Filling.lt hs hJ))
    rw [State.apply_db, hstmt, ← horder]
    rw [← horder] at hb
    refine ⟨⟨s.db.authzView a.orderId, authzView_insert s.db a, hb.authzs, hb.challenges⟩, ?_⟩
    have hempty : s.db.challengeView a.id = [] := by
      rw [hid]
      exact challengeView_fresh fun c hmem => (hs.ids.challenge c hmem).2
    exact congrArg (List.map fun c => c.2.1) hempty

/-- The last challenge of an authorization is in: one more name is done. -/
theorem offering_added
    {order : Order} {made : List Authz} {a : Authz} {rest : List String}
    (hO : NewOrder.Offering s (.challenge order made a [] rest)) :
    NewOrder.Offering s (.authz order (made ++ [a]) rest) := by
  rcases hO with ⟨done, name, made', hsplit, hname, htypes, hrow, hadds⟩
  refine ⟨done ++ [name], by simp [hsplit], ?_⟩
  intro hl
  have ha := hadds hl
  rcases ha.authzs with ⟨view, heq, hnames, hviews⟩
  refine ⟨by simp [heq, hnames, hname], ?_⟩
  intro v hv
  rw [heq] at hv
  rcases List.mem_append.mp hv with hv | hv
  · exact hviews v hv
  · rw [List.mem_singleton] at hv
    subst hv
    simpa [htypes] using ha.challenges

/-- `InsertChallenge`: one more type is done. -/
theorem offering_insertChallenge
    (hs : Inv false s)
    {order : Order} {made : List Authz} {a : Authz} {t : ChallengeType}
    {types : List ChallengeType} {rest : List String}
    (hJ : Filling p s order rest)
    (hO : NewOrder.Offering s (.challenge order made a (t :: types) rest))
    {c : Challenge}
    (hauthz : c.authzId = a.id)
    (htype : c.type = t)
    {e : Effect}
    (hc : Change false p h s (s.apply e))
    (hstmt : e.stmt = .insertChallenge c) :
    NewOrder.Offering (s.apply e) (.challenge order made a types rest) := by
  rcases hO with ⟨done, name, made', hsplit, hname, htypes, hrow, hadds⟩
  refine ⟨done, name, made' ++ [t], hsplit, hname, by simp [htypes],
    ⟨Nat.lt_of_lt_of_le hrow.1 hc.nextId, ?_⟩, ?_⟩
  · intro x hx hid
    rw [State.apply_db, hstmt] at hx
    exact hrow.2 x hx hid
  · intro hl'
    have ha := hadds (hl'.before hc (hJ.lt hs))
    rcases ha.authzs with ⟨view, heq, hnames, hviews⟩
    rw [State.apply_db, hstmt]
    refine ⟨⟨view, heq, hnames, ?_⟩, ?_⟩
    · intro v hv
      -- The other authorizations of the order have other ids.
      have hnodup := authzView_nodup hs.ids.authzKey order.id
      rw [heq, List.map_append, List.nodup_append] at hnodup
      have hne : v.1 ≠ a.id :=
        hnodup.2.2 v.1 (List.mem_map_of_mem hv) a.id (by simp)
      rw [← hviews v hv]
      refine congrArg (List.map fun c => c.2.1) (Stmt.challengeView_run ?_ ?_)
      · intro c' hc'
        cases hc'
        exact hauthz.trans_ne hne.symm
      · intro hgc
        cases hgc
    · rw [← ha.challenges, ← hauthz, ← htype]
      refine (congrArg (List.map fun c => c.2.1) (challengeView_insert s.db c)).trans ?_
      exact List.map_append

/-- What a newOrder handler knows after its own step. -/
theorem offering_newOrder_next
    (hs : Inv false s)
    {pc : NewOrder} {out : Outcome}
    (hJ : pc.Asserts p s)
    (hO : pc.Offering s)
    (hc : Change false p (.newOrder pc) s (s.apply out.1))
    (hx : newOrderStep p k s pc = some out) :
    Offering (s.apply out.1) out.2 := by
  cases newOrder_step hx with
  | inserted horder =>
      subst horder
      exact offering_insertOrder hs rfl rfl
  | authz ha =>
      subst ha
      exact offering_insertAuthz hs hJ hO rfl rfl rfl hc rfl (Nat.lt_succ_self _)
  | added =>
      rw [goto, State.apply_empty]
      exact offering_added hO
  | challenge hnew =>
      subst hnew
      exact offering_insertChallenge hs hJ.1 hO rfl rfl hc rfl
  | _ => trivial

/-- What any handler knows after its own step. -/
theorem offering_next
    (hs : Inv false s)
    (hJ : Asserts false p s h)
    (hO : Offering s h)
    {out : Outcome}
    (hc : Change false p h s (s.apply out.1))
    (hx : next p k s h = some out) :
    Offering (s.apply out.1) out.2 := by
  cases h with
  | newOrder pc => exact offering_newOrder_next hs hJ hO hc hx
  | challenge pc =>
      rcases challenge_goes hx with ⟨pc', hout⟩ | ⟨r, hout⟩ <;> (rw [hout]; trivial)
  | finalize pc =>
      rcases finalize_goes hx with ⟨pc', hout⟩ | ⟨r, hout⟩ <;> (rw [hout]; trivial)
  | gc pc =>
      rcases collect_goes hx with ⟨pc', hout⟩ | ⟨r, hout⟩ <;> (rw [hout]; trivial)
  | replied r => simp [next] at hx

/-- Complete orders stay complete, and an order is complete when its handler
gives its ids away. -/
theorem Offered.next
    (hs : Inv false s)
    (hoff : Offered s)
    (hJ : Asserts false p s h)
    (hO : Offering s h)
    {out : Outcome}
    (hc : Change false p h s (s.apply out.1))
    (hx : next p k s h = some out) :
    Offered (s.apply out.1) := by
  intro r' hr' hdis hlate
  rcases hc.orders.row r' hr' with ⟨r, hr, hm⟩ | hnew
  · rcases hm.fixed with ⟨hid, _, hnames, _⟩
    have hlive : Live s r.id := ⟨⟨r, hr, rfl⟩, fun hl => hlate (hid ▸ hc.late_mono hl)⟩
    rw [hid, hnames]
    rw [hid] at hdis
    rcases List.mem_append.mp hdis with hold | hnew
    · have hsame := sameView_of_next hs hJ hO hx hlive (filling_undisclosed hs hJ hold)
      exact (hoff r hr hold hlive.onTime).kept hsame
    · rcases next_discloses hx hnew with ⟨x, made, rfl, hxid⟩
      rcases hO with ⟨done, hsplit, hbuilt⟩
      rcases hJ.opened with ⟨acct, grants, t, hev⟩
      rcases hs.origins.order r hr with ⟨o₁, _, _, _, _, hev₁, hid₁, _, hnames₁, _⟩
      have heq := (hs.origins.once _ _ _ _ _ _ _ _ _ _ hev₁ hev (hid₁.trans hxid.symm)).1
      rw [← hnames₁, heq, hsplit, List.append_nil, ← hxid]
      have hstep := hbuilt (hxid ▸ hlive)
      refine Built.kept ?_ hstep
      cases k <;> simp only [Acme.next, newOrderStep] at hx <;> cases hx
      exact SameView.of_tables rfl rfl
  · have hlt := disclosed_lt hs hc hdis
    have := hnew.id
    omega

/-- Complete orders stay complete while nothing is inserted or collected. -/
theorem Offered.quiet
    (hoff : Offered s)
    (hc : Change false q h s s')
    (hrows : SameRows s s')
    (hs : Inv false s)
    (hlog : ∀ o, Event.disclosed o ∈ s'.log → Event.disclosed o ∈ s.log) :
    Offered s' := by
  intro r' hr' hdis hlate
  rcases hc.orders.row r' hr' with ⟨r, hr, hm⟩ | hnew
  · rcases hm.fixed with ⟨hid, _, hnames, _⟩
    rw [hid, hnames]
    rw [hid] at hdis hlate
    have hb := hoff r hr (hlog _ hdis) fun hl => hlate (hc.late_mono hl)
    exact hb.kept (SameView.of_rows hrows)
  · have hlt := disclosed_lt hs hc hdis
    have := hnew.id
    omega

end Step

/-- The proof outline of what orders offer. -/
theorem offeredOutline :
    Program.Outline frontend Initial (Presents false)
      (fun s => Inv false s ∧ Offered s)
      (fun p s h => Asserts false p s h ∧ Offering s h) where
  init s hs := by
    refine ⟨Inv.init false hs, ?_⟩
    intro r hr
    rw [hs.1] at hr
    cases hr
  spawn w p r _ hG _ := by
    cases r with
    | challenge account c get => exact ⟨hG, trivial⟩
    | _ => exact ⟨trivial, trivial⟩
  act w p k h s' l hw _ hp hx := by
    rcases frontend_act hx with ⟨e, h', hnext, rfl, rfl⟩
    rcases hw.local_ p h hp with ⟨hJ, hO⟩
    rcases hw.shared with ⟨hs, hoff⟩
    rcases next_owes hs hJ hnext with ⟨hc, hJ'⟩
    refine ⟨⟨hs.change hc, hoff.next hs hJ hO hc hnext⟩, ?_, ?_⟩
    · intro m hm
      rw [← Option.some.inj hm]
      exact ⟨hJ', offering_next hs hJ hO hc hnext⟩
    · intro q m hqp _ hq
      refine ⟨hq.1.stable hs hc hqp.symm, hq.2.kept hs hc ?_ hq.1⟩
      intro o ho hl
      exact sameView_of_next hs hJ hO hnext hl (filling_apart hs hqp.symm hJ hq.1 ho)
  crash w p h hw hp := by
    rcases hw.shared with ⟨hs, hoff⟩
    have hc := die_change (hw.local_ p h hp).1 (.replied .collected)
    have hrows := die_rows h w.shared
    refine ⟨⟨hs.change hc, hoff.quiet hc hrows hs fun o ho => die_disclosed ho⟩, ?_⟩
    intro q m hqp _ hq
    refine ⟨hq.1.stable hs hc hqp.symm, hq.2.kept hs hc ?_ hq.1⟩
    intro o _ _
    exact SameView.of_rows hrows
  env w e s' hw _ hx := by
    have hs' : s' = outside w.shared e := (Option.some.inj hx).symm
    subst hs'
    rcases hw.shared with ⟨hs, hoff⟩
    rcases outside_rows w.shared e with ⟨hrows, hlog⟩
    have hc := fun q => outside_change false q (.replied .collected) w.shared e
    refine ⟨⟨hs.change (hc 0),
      hoff.quiet (hc 0) hrows hs fun o ho => hlog ▸ ho⟩, ?_⟩
    intro q m _ hq
    refine ⟨hq.1.stable hs (hc (q + 1)) (Nat.succ_ne_self q), hq.2.kept hs (hc 0) ?_ hq.1⟩
    intro o _ _
    exact SameView.of_rows hrows

theorem SameView.trans
    {d d' d'' : Db} {order : Nat}
    (h : SameView d d' order)
    (h' : SameView d' d'' order) :
    SameView d d'' order where
  authzs := h'.authzs.trans h.authzs
  challenges v hv := by
    rw [h'.challenges v (h.authzs.symm ▸ hv)]
    exact h.challenges v hv

/-- One step of the frontend leaves a live order alone once its ids were given
away. -/
theorem sameView_of_exec
    {w w' : World State Handler} {a : Action Choice Request Outside} {o : Nat}
    (hw : Program.Holds (fun s => Inv false s ∧ Offered s)
      (fun p s h => Asserts false p s h ∧ Offering s h) w)
    (hx : frontend.exec w a = some w')
    (hdis : Event.disclosed o ∈ w.shared.log)
    (hl : Live w.shared o) :
    SameView w.shared.db w'.shared.db o := by
  cases a with
  | spawn p r =>
      rcases Program.exec_spawn hx with ⟨_, rfl⟩
      exact SameView.of_tables rfl rfl
  | act p k =>
      rcases Program.exec_act hx with ⟨h, s', l, hp, hact, rfl⟩
      rcases frontend_act hact with ⟨e, h', hnext, rfl, rfl⟩
      rcases hw.local_ p h hp with ⟨hJ, hO⟩
      exact sameView_of_next hw.shared.1 hJ hO hnext hl
        (filling_undisclosed hw.shared.1 hJ hdis)
  | crash p =>
      rcases Program.exec_crash hx with ⟨h, _, rfl⟩
      exact SameView.of_rows (die_rows h w.shared)
  | env e =>
      rcases Program.exec_env hx with ⟨s', hs, rfl⟩
      have hs' : s' = outside w.shared e := (Option.some.inj hs).symm
      subst hs'
      exact SameView.of_rows (outside_rows w.shared e).1

/-- The same over a run at whose end the order is live. -/
theorem sameView_of_run
    {w w' : World State Handler} {as : List (Action Choice Request Outside)} {o : Nat}
    (hw : server.Reachable (Presents false) w)
    (hrun : server.Run (Presents false) w as w')
    (hdis : Event.disclosed o ∈ w.shared.log)
    (hl : Live w'.shared o) :
    Live w.shared o ∧ SameView w.shared.db w'.shared.db o := by
  induction hrun with
  | nil w => exact ⟨hl, SameView.of_tables rfl rfl⟩
  | @cons w v w' a as hG hx _ ih =>
      have hholds := offeredOutline.sound hw
      have hasserts : Program.Holds (Inv false) (Asserts false) w :=
        ⟨hholds.shared.1, fun p l hl => (hholds.local_ p l hl).1⟩
      rcases change_of_exec hasserts hx with ⟨q, h, hc⟩
      rcases ih (hw.step hG hx) (hc.log _ hdis) hl with ⟨hlv, hsame⟩
      have hlt := hholds.shared.1.progress.ids o (hholds.shared.1.progress.settled o hdis)
      have hlw := hlv.before hc hlt
      exact ⟨hlw, (sameView_of_exec hholds hx hdis hlw).trans hsame⟩

/-- Take an order whose ids its client was given, and any later moment at which
its row still exists (and was not inserted after its own expiry).  The order
then has exactly one authorization for each of its identifiers, each of them
exactly the challenges of its kind; and they are the same authorizations and
challenges, with the same tokens, as when the ids were given. -/
theorem disclosed_order_complete
    {w w' : World State Handler} {as : List (Action Choice Request Outside)}
    (hw : server.Reachable (Presents false) w)
    (hrun : server.Run (Presents false) w as w')
    {r : Order}
    (hr : r ∈ w'.shared.db.orders)
    (hdis : Event.disclosed r.id ∈ w.shared.log)
    (hlate : ¬ Late w'.shared.log r.id) :
    ((w'.shared.db.authzsByOrder r.id).map fun a => (a.identifier, a.wildcard)).Perm
      (r.identifiers.map splitWildcard)
    ∧
    (∀ a ∈ w'.shared.db.authzsByOrder r.id,
      ((w'.shared.db.challengesByAuthz a.id).map Challenge.type).Perm
        (challengeTypes a.wildcard))
    ∧
    (w'.shared.db.authzView r.id).Perm (w.shared.db.authzView r.id)
    ∧
    ∀ a ∈ w'.shared.db.authzsByOrder r.id,
      (w'.shared.db.challengeView a.id).Perm (w.shared.db.challengeView a.id) := by
  have hdis' := log_of_run hw hrun hdis
  have hbuilt := (offeredOutline.sound (hw.run hrun)).shared.2 r hr hdis' hlate
  have hsame := (sameView_of_run hw hrun hdis ⟨⟨r, hr, rfl⟩, hlate⟩).2
  have hmem : ∀ a ∈ w'.shared.db.authzsByOrder r.id,
      (a.id, a.identifier, a.wildcard) ∈ w'.shared.db.authzView r.id :=
    fun a ha => List.mem_map_of_mem ha
  refine ⟨?_, ?_, List.Perm.of_eq hsame.authzs, ?_⟩
  · rw [← hbuilt.authzs, Db.authzView, List.map_map]
    exact List.Perm.refl _
  · intro a ha
    rw [← hbuilt.challenges _ (hmem a ha), Db.offeredTypes, Db.challengeView, List.map_map]
    exact List.Perm.refl _
  · intro a ha
    exact List.Perm.of_eq (hsame.challenges _ (hsame.authzs ▸ hmem a ha))

/-- An order for two names, one of them under a wildcard. -/
theorem disclosed_order_complete_sample :
    ∃ w : World State Handler, ∃ r ∈ w.shared.db.orders,
      r.identifiers = ["a.ca", "*.b.ca"] ∧
      ((w.shared.db.authzsByOrder r.id).map fun a => (a.identifier, a.wildcard)).Perm
        (r.identifiers.map splitWildcard) := by
  have hcheck :
      (server.follow (Presents false) (World.idle sampleState)
        (.spawn 0 (.newOrder 0 [⟨"dns", "a.ca"⟩, ⟨"dns", "*.b.ca"⟩]) :: oks 0 13)).any
        (fun w => decide (w.shared.now = 0 ∧ ∃ r ∈ w.shared.db.orders,
          r.identifiers = ["a.ca", "*.b.ca"] ∧ Event.disclosed r.id ∈ w.shared.log)) = true := by
    decide
  rcases Automaton.Run.exists_of_follow hcheck with ⟨w, hrun, hw⟩
  rcases of_decide_eq_true hw with ⟨hnow, r, hr, hnames, hdis⟩
  have hreach := Automaton.Reachable.of_run sampleState_init hrun
  have hlate : ¬ Late w.shared.log r.id := by
    rintro ⟨o, acct, grants, p, t, hev, _, hexp⟩
    have ht := ((holds_of_reachable hreach).shared.origins.opened _ _ _ _ _ hev).2.1
    rw [hnow] at ht
    have hzero : unix t = 0 := by simp [unix, Nat.le_zero.mp ht]
    omega
  exact ⟨w, r, hr, hnames,
    (disclosed_order_complete hreach (Automaton.Run.nil w) hr hdis hlate).1⟩

end Acme
end Yca
