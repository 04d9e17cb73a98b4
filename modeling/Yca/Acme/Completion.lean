import Yca.Acme.Offers
import Yca.Core.Solo

/-!
# An order can be completed

Wherever the other handlers have stopped, the account of an order can take it to
its certificate by itself: newOrder, one challenge for each authorization, and
finalize, each a new handler that runs alone.  None of them waits for anything
that another handler holds.
-/

namespace Yca
namespace Acme

open Yca.Core

section Acting

variable {p : Pid} {s : State} {Q : State → Option Handler → Prop}

end Acting

/-- After one of its challenges was posted: the authorization is valid, and the
order is ready if it was the last. -/
structure Posted (s : State) (a : Authz) (s' : State) : Prop where
  now : s'.now = s.now
  cfg : s'.cfg = s.cfg
  accounts : s'.db.accounts = s.db.accounts
  log : ∀ ev ∈ s.log, ev ∈ s'.log
  authzs : s'.db.authzs =
    updateWhere (fun x => x.id == a.id) (fun x => { x with status := .valid }) s.db.authzs
  challenges : ∀ x ∈ s'.db.challenges, x.authzId ≠ a.id → x ∈ s.db.challenges
  orders :
    ((s'.db.authzsByOrder a.orderId).all fun x => x.status == .valid) = true ∧
      s'.db.orders = updateWhere (fun r => r.id == a.orderId)
        (fun r => { r with status := .ready, certId := none, error := none }) s.db.orders ∨
    ((s'.db.authzsByOrder a.orderId).all fun x => x.status == .valid) = false ∧
      s'.db.orders = s.db.orders

section Posting

variable {p : Pid} {s : State}

/-- The tables after a claimed challenge was validated. -/
def validated (s : State) (c : Challenge) (a : Authz) (acct : Account) (p : Pid) : State :=
  (((s.apply { stmt := .claimChallenge c, events := [.claimed c.authzId c.id a.orderId p] }).apply
    { events := [.proved ⟨c, acct, a.identifier, keyAuthorization c.token acct⟩] }).apply
      { stmt := .setChallengeStatus c.id .valid none (unix s.now) }).apply
        { stmt := .setAuthzStatus a.id .valid }

end Posting

/-- Whoever was given an order's ids comes after its newOrder handler. -/
theorem Presents.settled
    {w : World State Handler} {a : Action Choice Request Outside}
    (hs : Inv true w.shared)
    (hG : Presents true w a) :
    Presents false w a := by
  cases a with
  | spawn p r =>
      cases r with
      | challenge account c get =>
          refine ⟨hG.id, ?_⟩
          intro x hx hid y hy hauthz
          exact hs.progress.settled _ (hG.known x hx hid y hy hauthz)
      | _ => trivial
  | _ => trivial

/-- New handlers of these requests, each alone, one after the other, and in no
time, bring the frontend from one world to the other. -/
structure Onward (rs : List Request) (w w' : World State Handler) : Prop where
  calls : frontend.InTurn Initial (Presents true) rs w w'
  now : w'.shared.now = w.shared.now
  cfg : w'.shared.cfg = w.shared.cfg
  accounts : w'.shared.db.accounts = w.shared.db.accounts

section Onward

variable {w w' w'' : World State Handler} {rs rs' : List Request}

theorem Onward.trans
    (h : Onward rs w w')
    (h' : Onward rs' w' w'') :
    Onward (rs ++ rs') w w'' where
  calls := h.calls.append h'.calls
  now := h'.now.trans h.now
  cfg := h'.cfg.trans h.cfg
  accounts := h'.accounts.trans h.accounts

theorem Onward.reachable
    (h : Onward rs w w')
    (hw : server.Reachable (Presents true) w) :
    server.Reachable (Presents true) w' := by
  obtain ⟨as, hrun⟩ := h.calls.run
  exact hw.run hrun

end Onward

/-- A pending order that its client knows, in time, each of whose authorizations
is valid or was never attempted. -/
structure Underway (s : State) (r : Order) (acct : Account) : Prop where
  row : r ∈ s.db.orders
  pending : r.status = .pending
  disclosed : Event.disclosed r.id ∈ s.log
  account : s.db.accountById r.accountId = some acct
  active : acct.status = "valid"
  time : unix s.now < r.expires
  authzs : ∀ a ∈ s.db.authzs, a.orderId = r.id → a.status = .valid ∨
    a.status = .pending ∧ ∀ c ∈ s.db.challenges, c.authzId = a.id → c.status = .pending

section Underway

variable {s s' : State} {r : Order} {acct : Account} {a : Authz}

theorem Underway.accountId
    (h : Underway s r acct) :
    acct.id = r.accountId :=
  (mem_of_find?_key h.account).2

theorem Underway.not_late
    (hs : Inv true s)
    (h : Underway s r acct) :
    ¬ Late s.log r.id := by
  rintro ⟨o, acct₁, grants, p, t, hev, hid, hlate⟩
  obtain ⟨o', _, _, _, _, hev', hid', _, _, hexp⟩ := hs.origins.order r h.row
  have hsame := (hs.origins.once _ _ _ _ _ _ _ _ _ _ hev hev' (hid.trans hid'.symm)).1
  rw [hsame, hexp] at hlate
  have hunix := unix_mono (hs.origins.opened _ _ _ _ _ hev).2.1
  have htime := h.time
  omega

/-- An authorization is its order's. -/
theorem Underway.authz
    (hs : Inv true s)
    (h : Underway s r acct)
    (ha : a ∈ s.db.authzs)
    (horder : a.orderId = r.id) :
    a.accountId = acct.id ∧ a.expires = r.expires := by
  obtain ⟨o, _, _, _, _, hev, hid, hacct, _, hexp⟩ := hs.origins.order r h.row
  obtain ⟨o', _, _, _, _, hev', hid', hacct', hexp'⟩ := hs.origins.authz a ha
  have hsame := (hs.origins.once _ _ _ _ _ _ _ _ _ _ hev' hev
    (hid'.trans (horder.trans hid.symm))).1
  rw [h.accountId, ← hacct', ← hexp', hsame]
  exact ⟨hacct, hexp⟩

end Underway

/-- One challenge for each authorization with `P`. -/
structure OneEach (s : State) (P : Authz → Prop) (cs : List Challenge) : Prop where
  rows : ∀ c ∈ cs, c ∈ s.db.challenges
  nodup : (cs.map Challenge.authzId).Nodup
  authzs : ∀ i, i ∈ cs.map Challenge.authzId ↔ ∃ a ∈ s.db.authzs, P a ∧ a.id = i

section OneEach

variable {s s' : State} {a : Authz} {o : Nat}

/-- A pending authorization is another than the one posted, and was there. -/
theorem Posted.pending
    (h : Posted s a s')
    {x : Authz}
    (hx : x ∈ s'.db.authzs)
    (hpending : x.status = .pending) :
    x.id ≠ a.id ∧ x ∈ s.db.authzs := by
  rw [h.authzs] at hx
  rcases mem_updateWhere.mp hx with ⟨y, hy, ⟨_, rfl⟩ | ⟨hne, rfl⟩⟩
  · cases hpending
  · exact ⟨by simpa using hne, hy⟩

theorem Posted.kept
    (h : Posted s a s')
    {x : Authz}
    (hx : x ∈ s.db.authzs)
    (hne : x.id ≠ a.id) :
    x ∈ s'.db.authzs := by
  rw [h.authzs]
  exact mem_updateWhere.mpr ⟨x, hx, Or.inr ⟨by simpa using hne, rfl⟩⟩

/-- One more challenge, for the authorization that was posted first. -/
theorem OneEach.cons
    {cs : List Challenge} {c : Challenge}
    (ha : a ∈ s.db.authzs)
    (hP : a.orderId = o ∧ a.status = .pending)
    (hc : c ∈ s.db.challenges)
    (hauthz : c.authzId = a.id)
    (hposted : Posted s a s')
    (h : OneEach s' (fun x => x.orderId = o ∧ x.status = .pending) cs) :
    OneEach s (fun x => x.orderId = o ∧ x.status = .pending) (c :: cs) := by
  have hothers : ∀ d ∈ cs, d.authzId ≠ a.id := by
    intro d hd
    obtain ⟨x, hx, ⟨_, hpending⟩, hid⟩ := (h.authzs _).mp (List.mem_map_of_mem hd)
    rw [← hid]
    exact (hposted.pending hx hpending).1
  refine ⟨?_, ?_, ?_⟩
  · intro d hd
    rcases List.mem_cons.mp hd with rfl | hd
    · exact hc
    · exact hposted.challenges d (h.rows d hd) (hothers d hd)
  · rw [List.map_cons, List.nodup_cons, hauthz]
    refine ⟨?_, h.nodup⟩
    intro hmem
    obtain ⟨d, hd, hid⟩ := List.mem_map.mp hmem
    exact hothers d hd hid
  · intro i
    rw [List.map_cons, List.mem_cons, hauthz, h.authzs]
    constructor
    · rintro (rfl | ⟨x, hx, hxP, rfl⟩)
      · exact ⟨a, ha, hP, rfl⟩
      · exact ⟨x, (hposted.pending hx hxP.2).2, hxP, rfl⟩
    · rintro ⟨x, hx, hxP, rfl⟩
      by_cases hid : x.id = a.id
      · exact Or.inl hid
      · exact Or.inr ⟨x, hposted.kept hx hid, hxP, rfl⟩

end OneEach

section Ready

variable {w : World State Handler} {r : Order} {acct : Account} {a : Authz}

end Ready

section Finalizing

variable {p : Pid} {s : State}

/-- After the order was finalized. -/
structure Issued (s : State) (r : Order) (chain cn : String) (info : CertMeta) (s' : State) :
    Prop where
  now : s'.now = s.now
  cfg : s'.cfg = s.cfg
  accounts : s'.db.accounts = s.db.accounts
  row : ∃ cert ∈ s'.db.certs,
    { r with status := .valid, certId := some cert.id, error := none } ∈ s'.db.orders ∧
      cert.orderId = r.id ∧ cert.accountId = r.accountId ∧ cert.cn = cn ∧
      cert.chainPem = chain ∧ cert.info = info

end Finalizing

/-- One more name, unless it is there already. -/
def addName (rune : Char → Char) (names : List String) (id : Identifier) : List String :=
  if toLower rune id.value ∈ names then names else names ++ [toLower rune id.value]

/-- The names of a request, each once. -/
def requestNames (rune : Char → Char) (ids : List Identifier) : List String :=
  ids.foldl (addName rune) []

/-- While a newOrder handler fills its order in. -/
structure Fills (s s' : State) : Prop where
  now : s'.now = s.now
  cfg : s'.cfg = s.cfg
  accounts : s'.db.accounts = s.db.accounts
  orders : s'.db.orders = s.db.orders
  log : s'.log = s.log

theorem Fills.trans
    {s s' s'' : State}
    (h : Fills s s')
    (h' : Fills s' s'') :
    Fills s s'' :=
  ⟨h'.now.trans h.now, h'.cfg.trans h.cfg, h'.accounts.trans h.accounts,
    h'.orders.trans h.orders, h'.log.trans h.log⟩

section Ordering

variable {p : Pid} {s : State} {Q : State → Option Handler → Prop}

/-- After an order was opened: it is there, known, and new. -/
structure Ordered (s : State) (acct : Account) (ids : List Identifier) (r : Order) (s' : State) :
    Prop where
  now : s'.now = s.now
  cfg : s'.cfg = s.cfg
  accounts : s'.db.accounts = s.db.accounts
  row : r ∈ s'.db.orders
  pending : r.status = .pending
  account : r.accountId = acct.id
  names : r.identifiers = requestNames s.cfg.rune ids
  expires : r.expires = unix (s.now + orderTtl)
  disclosed : Event.disclosed r.id ∈ s'.log
  fresh : r.id = s.nextId
  unclaimed : ∀ a c o q, Event.claimed a c o q ∈ s'.log → Event.claimed a c o q ∈ s.log

end Ordering

section Ordered

variable
  {w w' : World State Handler} {acct : Account} {ids : List Identifier} {r : Order}

/-- Nobody has touched a new order: whatever is claimed is older. -/
theorem Ordered.untouched
    (hw : server.Reachable (Presents true) w)
    (hw' : server.Reachable (Presents true) w')
    (h : Ordered w.shared acct ids r w'.shared)
    {a : Authz}
    (ha : a ∈ w'.shared.db.authzs)
    (horder : a.orderId = r.id) :
    a.status = .pending ∧
      ∀ c ∈ w'.shared.db.challenges, c.authzId = a.id → c.status = .pending := by
  have hs := (holds_of_reachable hw).shared
  have hs' := (holds_of_reachable hw').shared
  have hnone : ∀ c o q, Event.claimed a.id c o q ∉ w'.shared.log := by
    intro c o q hev
    have hlt := (hs.claims.ids _ _ _ _ (h.unclaimed _ _ _ _ hev)).2.2
    have ho := (hs'.claims.used _ _ _ _ hev a ha rfl).1
    have hfresh := h.fresh
    omega
  constructor
  · by_contra hdecided
    obtain ⟨c, o, q, hev⟩ := hs'.decisions.claimed a ha hdecided
    exact hnone c o q hev
  · intro c hc hauthz
    by_contra hmoved
    obtain ⟨o, q, hev⟩ := hs'.claims.row c hc hmoved
    rw [hauthz] at hev
    exact hnone c.id o q hev

end Ordered

end Acme
end Yca
