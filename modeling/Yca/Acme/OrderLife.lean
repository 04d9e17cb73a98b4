import Yca.Acme.Lifecycle
import Yca.Acme.Orders
import Yca.Acme.Statements
import Yca.Core.Refinement

/-!
# The frontend keeps to the life of an order

Seen as a ledger, the tables and the history of the frontend go through the
lives of `Lifecycle`: every step of every handler, of the surroundings and of a
process that dies is a deed of the ledger, several of them (a garbage
collection), or none.  This holds of the runs in which `ready` is written on
open orders only; it is what the handlers, statement by statement and among each
other, are for.
-/

namespace Yca
namespace Acme

open Yca.Core

/-- Where an order stands that has this status and this certificate. -/
def OrderStatus.phase (certId : Option Nat) : OrderStatus → Phase (Option Nat)
  | .pending => .pending
  | .ready => .ready
  | .processing => .processing
  | .valid => .valid certId
  | .invalid => .invalid

/-- What a row says of its order. -/
def Order.entry (r : Order) : Entry Nat String (Option Nat) :=
  ⟨r.accountId, r.identifiers, r.status.phase r.certId⟩

def Event.opens : Event → Option Nat
  | .opened order .. => some order.id
  | _ => none

def Event.attempt : Event → Option (Nat × Nat)
  | .claimed authz _ order _ => some (authz, order)
  | _ => none

def Event.proof : Event → Option (Nat × Evidence)
  | .proved e => some (e.challenge.authzId, e)
  | _ => none

def Event.claiming : Event → Option Nat
  | .orderClaimed order _ => some order
  | _ => none

def Event.asking : Event → Option Nat
  | .asked order => some order
  | _ => none

/-- The frontend's orders. -/
def ledger (s : State) : Ledger Nat Nat Nat String Evidence (Option Nat) where
  orders o := (s.db.orderById o).map Order.entry
  opened := s.log.filterMap Event.opens
  attempts := s.log.filterMap Event.attempt
  proofs := s.log.filterMap Event.proof
  claimed := s.log.filterMap Event.claiming
  asked := s.log.filterMap Event.asking

/-- The answer to a challenge for this name, compared with the key authorization
of this account; over dns-01 for a wildcard. -/
structure Evidence.Shows (e : Evidence) (account : Nat) (identifier : String) : Prop where
  account : e.account.id = account
  name : e.name = (splitWildcard identifier).1
  keyAuth : e.keyAuth = keyAuthorization e.challenge.token e.account
  wildcard : (splitWildcard identifier).2 = true → e.challenge.type = .dns01

/-- The orders can have this life between the two states. -/
def Lives (s s' : State) : Prop :=
  ∃ ds, (lifecycle Evidence.Shows).Run Guard.free (ledger s) ds (ledger s')

section Events

variable {s : State}

theorem mem_opened {o : Nat} :
    o ∈ (ledger s).opened ↔
      ∃ order acct grants p t, Event.opened order acct grants p t ∈ s.log ∧ order.id = o := by
  simp only [ledger, List.mem_filterMap]
  constructor
  · rintro ⟨ev, hev, ho⟩
    cases ev with
    | opened order acct grants p t => exact ⟨order, acct, grants, p, t, hev, Option.some.inj ho⟩
    | _ => simp [Event.opens] at ho
  · rintro ⟨order, acct, grants, p, t, hev, rfl⟩
    exact ⟨_, hev, rfl⟩

theorem mem_attempts {a o : Nat} :
    (a, o) ∈ (ledger s).attempts ↔ ∃ c p, Event.claimed a c o p ∈ s.log := by
  simp only [ledger, List.mem_filterMap]
  constructor
  · rintro ⟨ev, hev, ho⟩
    cases ev with
    | claimed a' c o' p =>
        simp only [Event.attempt, Option.some.injEq, Prod.mk.injEq] at ho
        obtain ⟨rfl, rfl⟩ := ho
        exact ⟨c, p, hev⟩
    | _ => simp [Event.attempt] at ho
  · rintro ⟨c, p, hev⟩
    exact ⟨_, hev, rfl⟩

theorem mem_proofs {a : Nat} {e : Evidence} :
    (a, e) ∈ (ledger s).proofs ↔ Event.proved e ∈ s.log ∧ e.challenge.authzId = a := by
  simp only [ledger, List.mem_filterMap]
  constructor
  · rintro ⟨ev, hev, ho⟩
    cases ev with
    | proved e' =>
        simp only [Event.proof, Option.some.injEq, Prod.mk.injEq] at ho
        obtain ⟨rfl, rfl⟩ := ho
        exact ⟨hev, rfl⟩
    | _ => simp [Event.proof] at ho
  · rintro ⟨hev, rfl⟩
    exact ⟨_, hev, rfl⟩

theorem mem_claimed {o : Nat} :
    o ∈ (ledger s).claimed ↔ ∃ p, Event.orderClaimed o p ∈ s.log := by
  simp only [ledger, List.mem_filterMap]
  constructor
  · rintro ⟨ev, hev, ho⟩
    cases ev with
    | orderClaimed o' p =>
        obtain rfl : o' = o := Option.some.inj ho
        exact ⟨p, hev⟩
    | _ => simp [Event.claiming] at ho
  · rintro ⟨p, hev⟩
    exact ⟨_, hev, rfl⟩

theorem mem_asked {o : Nat} :
    o ∈ (ledger s).asked ↔ Event.asked o ∈ s.log := by
  simp only [ledger, List.mem_filterMap]
  constructor
  · rintro ⟨ev, hev, ho⟩
    cases ev with
    | asked o' =>
        obtain rfl : o' = o := Option.some.inj ho
        exact hev
    | _ => simp [Event.asking] at ho
  · intro hev
    exact ⟨_, hev, rfl⟩

end Events

section Rows

variable {s : State}

theorem orders_some
    (hkey : UniqueKey Order.id s.db.orders)
    {r : Order}
    (hr : r ∈ s.db.orders) :
    (ledger s).orders r.id = some r.entry := by
  show ((s.db.orders.find? fun o => o.id == r.id).map Order.entry) = _
  rw [hkey.find?_eq hr]
  rfl

/-- An order's row, or none. -/
theorem orders_cases (s : State) (o : Nat) :
    (∃ r ∈ s.db.orders, r.id = o ∧ (ledger s).orders o = some r.entry) ∨
      (ledger s).orders o = none := by
  cases hfind : s.db.orderById o with
  | none => exact Or.inr (by simp [ledger, hfind])
  | some r =>
      obtain ⟨hr, hid⟩ := mem_of_find?_key hfind
      exact Or.inl ⟨r, hr, hid, by simp [ledger, hfind]⟩

end Rows

section Deeds

variable {s s' : State}

theorem Lives.same
    (h : ledger s' = ledger s) :
    Lives s s' :=
  ⟨[], h ▸ Automaton.Run.nil _⟩

theorem Lives.deed
    {d : Deed Nat Nat Nat String Evidence (Option Nat)}
    (hallows : (ledger s).Allows Evidence.Shows d)
    (h : ledger s' = (ledger s).apply d) :
    Lives s s' :=
  ⟨[d], h ▸ run_deed hallows⟩

/-- The ledger after a step, from the rows and the events. -/
theorem ledger_apply (s : State) (e : Effect) :
    ledger (s.apply e) =
      ⟨fun o => ((e.stmt.run s.db).orderById o).map Order.entry,
        (ledger s).opened ++ e.events.filterMap Event.opens,
        (ledger s).attempts ++ e.events.filterMap Event.attempt,
        (ledger s).proofs ++ e.events.filterMap Event.proof,
        (ledger s).claimed ++ e.events.filterMap Event.claiming,
        (ledger s).asked ++ e.events.filterMap Event.asking⟩ := by
  simp only [ledger, State.apply_db, State.apply_log, List.filterMap_append]

/-- A step that leaves the orders as they are. -/
theorem ledger_aside
    {e : Effect}
    (horders : (e.stmt.run s.db).orders = s.db.orders) :
    ledger (s.apply e) =
      { ledger s with
        opened := (ledger s).opened ++ e.events.filterMap Event.opens
        attempts := (ledger s).attempts ++ e.events.filterMap Event.attempt
        proofs := (ledger s).proofs ++ e.events.filterMap Event.proof
        claimed := (ledger s).claimed ++ e.events.filterMap Event.claiming
        asked := (ledger s).asked ++ e.events.filterMap Event.asking } := by
  rw [ledger_apply]
  simp only [Db.orderById, horders]
  rfl

/-- The step changes no order and tells nothing of one. -/
structure Effect.Silent (e : Effect) : Prop where
  orders : ∀ d : Db, (e.stmt.run d).orders = d.orders
  events : ∀ ev ∈ e.events, (∃ o, ev = .settled o) ∨ ∃ o, ev = .disclosed o

theorem Effect.Silent.lives
    {e : Effect}
    (he : e.Silent) :
    Lives s (s.apply e) := by
  have hnone : ∀ (α : Type) (f : Event → Option α),
      (∀ o, f (.settled o) = none) → (∀ o, f (.disclosed o) = none) →
        e.events.filterMap f = [] := by
    intro α f hsettled hdisclosed
    refine List.filterMap_eq_nil_iff.mpr ?_
    intro ev hev
    rcases he.events ev hev with ⟨o, rfl⟩ | ⟨o, rfl⟩
    · exact hsettled o
    · exact hdisclosed o
  refine Lives.same ?_
  rw [ledger_aside (he.orders s.db)]
  simp only [hnone _ Event.opens (fun _ => rfl) (fun _ => rfl),
    hnone _ Event.attempt (fun _ => rfl) (fun _ => rfl),
    hnone _ Event.proof (fun _ => rfl) (fun _ => rfl),
    hnone _ Event.claiming (fun _ => rfl) (fun _ => rfl),
    hnone _ Event.asking (fun _ => rfl) (fun _ => rfl), List.append_nil]

/-- `SetOrderStatus` moves an order. -/
theorem ledger_setOrder
    (s : State)
    (id : Nat)
    (status : OrderStatus)
    (certId : Option Nat)
    (error : Option Problem) :
    ledger (s.apply { stmt := .setOrderStatus id status certId error }) =
      { ledger s with
        orders := (ledger s).move id (status.phase certId) } := by
  rw [ledger_apply]
  simp only [List.filterMap_nil, List.append_nil, Ledger.mk.injEq, and_true]
  funext o
  have hid : ∀ r : Order,
      Order.id { r with status := status, certId := certId, error := error } = r.id :=
    fun _ => rfl
  have hlook := find?_updateWhere (p := fun r => r.id == id) hid o s.db.orders
  simp only [Stmt.run, Db.orderById, hlook, Ledger.move, ledger]
  by_cases ho : o = id
  · subst ho
    rw [Function.update_self, Option.map_map, Option.map_map]
    refine Option.map_congr ?_
    intro r hr
    have hid : r.id = o := (mem_of_find?_key hr).2
    simp only [Function.comp, hid, beq_self_eq_true, if_true]
    rfl
  · rw [Function.update_of_ne ho, Option.map_map]
    refine Option.map_congr ?_
    intro r hr
    have hid : r.id = o := (mem_of_find?_key hr).2
    simp [Function.comp, hid, ho]

end Deeds

section Moves

variable {s : State}

/-- Writing the status an order has already changes nothing. -/
theorem move_again
    {o : Nat}
    {x : Entry Nat String (Option Nat)}
    (hx : (ledger s).orders o = some x) :
    (ledger s).move o x.phase = (ledger s).orders := by
  funext k
  by_cases hk : k = o
  · subst hk
    rw [Ledger.move, Function.update_self, hx]
    rfl
  · rw [Ledger.move, Function.update_of_ne hk]

/-- Nor does writing that of an order that is gone. -/
theorem move_gone
    {o : Nat}
    (hnone : (ledger s).orders o = none)
    (phase : Phase (Option Nat)) :
    (ledger s).move o phase = (ledger s).orders := by
  rw [Ledger.move, hnone, Option.map_none, ← hnone, Function.update_eq_self]

/-- `SetOrderStatus` on an order that may be moved so, or that is there no
more. -/
theorem setOrder_lives
    {id : Nat}
    {status : OrderStatus}
    {certId : Option Nat}
    {error : Option Problem}
    (hmove : ∀ r ∈ s.db.orders, r.id = id →
      r.status.phase r.certId = status.phase certId ∨
        ∃ d, (ledger s).Allows Evidence.Shows d ∧
          (ledger s).apply d =
            { ledger s with orders := (ledger s).move id (status.phase certId) }) :
    Lives s (s.apply { stmt := .setOrderStatus id status certId error }) := by
  have hledger := ledger_setOrder s id status certId error
  rcases orders_cases s id with ⟨r, hr, rfl, horders⟩ | hnone
  · rcases hmove r hr rfl with hsame | ⟨d, hallows, happly⟩
    · have hagain := move_again horders
      refine Lives.same ?_
      rw [hledger, ← hsame]
      exact congrArg (fun orders => { ledger s with orders := orders }) hagain
    · exact Lives.deed hallows (hledger.trans happly.symm)
  · refine Lives.same ?_
    rw [hledger, move_gone hnone]

end Moves

section Handlers

variable {p : Pid} {k : Choice} {s : State}

/-- The statements by which an order is worked on. -/
def Handler.Works : Handler → Choice → Prop
  | .newOrder (.insert ..), .ok => True
  | .challenge (.claim ..), .ok => True
  | .challenge (.validate ..), .ok => True
  | .challenge (.failOrder ..), .ok => True
  | .challenge (.ready ..), .ok => True
  | .finalize (.claim ..), .ok => True
  | .finalize (.issue ..), _ => True
  | .finalize (.refused ..), .ok => True
  | .finalize (.finish ..), .ok => True
  | .gc (.orders _), .ok => True
  | _, _ => False

theorem silent_goto (h : Handler) :
    (goto h).1.Silent :=
  ⟨fun _ => rfl, by simp [goto]⟩

theorem silent_refuse (pr : Problem) :
    (refuse pr).1.Silent :=
  silent_goto _

theorem silent_newOrder
    {pc : NewOrder} {out : Outcome}
    (hx : newOrderStep p k s pc = some out)
    (hidle : ¬ (Handler.newOrder pc).Works k) :
    out.1.Silent := by
  cases newOrder_step hx with
  | inserted => exact absurd trivial hidle
  | _ => exact ⟨fun _ => rfl, by simp [goto, refuse]⟩

theorem silent_challenge
    {pc : ChallengePost} {out : Outcome}
    (hx : challengeStep p k s pc = some out)
    (hidle : ¬ (Handler.challenge pc).Works k) :
    out.1.Silent := by
  cases challenge_step hx with
  | won | proved | failOrder | ready => exact absurd trivial hidle
  | _ => exact ⟨fun _ => rfl, by simp [goto]⟩

theorem silent_finalize
    {pc : Finalize} {out : Outcome}
    (hx : finalizeStep p k s pc = some out)
    (hidle : ¬ (Handler.finalize pc).Works k) :
    out.1.Silent := by
  cases finalize_step hx with
  | claimed | issued | blocked | refused | finished => exact absurd trivial hidle
  | _ => exact ⟨fun _ => rfl, by simp [goto]⟩

theorem silent_collect
    {pc : Collect} {out : Outcome}
    (hx : collectStep k s pc = some out)
    (hidle : ¬ (Handler.gc pc).Works k) :
    out.1.Silent := by
  cases collect_step hx with
  | orders => exact absurd trivial hidle
  | _ => exact ⟨fun _ => rfl, by simp [goto]⟩

/-- Every other step leaves the orders alone. -/
theorem silent_of_idle
    {h : Handler} {out : Outcome}
    (hx : next p k s h = some out)
    (hidle : ¬ h.Works k) :
    out.1.Silent := by
  cases h with
  | newOrder pc => exact silent_newOrder hx hidle
  | challenge pc => exact silent_challenge hx hidle
  | finalize pc => exact silent_finalize hx hidle
  | gc pc => exact silent_collect hx hidle
  | replied r => simp [next] at hx

end Handlers

section Steps

variable {p : Pid} {s : State}

/-- `InsertOrder`. -/
theorem lives_insert
    (hs : Inv false s)
    {order : Order}
    (hid : order.id = s.nextId)
    (hpending : order.status = .pending)
    (acct : Account)
    (grants : List Grant) :
    Lives s (s.apply
      { stmt := .insertOrder order, events := [.opened order acct grants p s.now],
        draws := 1 }) := by
  refine Lives.deed (d := .opens order.id order.accountId order.identifiers) ?_ ?_
  · intro hopened
    obtain ⟨o, acct', grants', q, t, hev, ho⟩ := mem_opened.mp hopened
    have := (hs.origins.opened _ _ _ _ _ hev).1
    omega
  · rw [ledger_apply]
    simp only [Ledger.apply, List.filterMap_cons, List.filterMap_nil, Event.opens,
      Event.attempt, Event.proof, Event.claiming, Event.asking, List.append_nil,
      Ledger.mk.injEq, and_true]
    funext o
    have hnew : ∀ r ∈ s.db.orders, (r.id == order.id) = false := by
      intro r hr
      have := hs.ids.order r hr
      simp only [beq_eq_false_iff_ne]
      omega
    simp only [Stmt.run, Db.orderById, List.find?_append]
    by_cases ho : o = order.id
    · subst ho
      rw [Function.update_self, List.find?_eq_none.mpr fun r hr => by simp [hnew r hr]]
      simp [Order.entry, hpending, OrderStatus.phase]
    · have hne : (order.id == o) = false := by simpa using Ne.symm ho
      rw [Function.update_of_ne ho]
      simp [ledger, Db.orderById, hne]

/-- `ClaimChallenge`: the authorization was not attempted before. -/
theorem lives_attempt
    (hs : Inv false s)
    {c : Challenge}
    (hclaim : s.db.challengeClaimable c = true)
    (order : Nat) :
    Lives s (s.apply
      { stmt := .claimChallenge c, events := [.claimed c.authzId c.id order p] }) := by
  refine Lives.deed (d := .attempts c.authzId order) ?_ ?_
  · intro o hattempt
    obtain ⟨c', q, hev⟩ := mem_attempts.mp hattempt
    simp only [Db.challengeClaimable, Bool.and_eq_true, Bool.not_eq_true',
      List.any_eq_true, List.any_eq_false, beq_iff_eq, bne_iff_ne, ne_eq] at hclaim
    obtain ⟨⟨_, hsiblings⟩, a, ha, hid, _⟩ := hclaim
    obtain ⟨_, y, hy, _, hya, hyst⟩ := hs.claims.used _ _ _ _ hev a ha hid
    exact hsiblings y hy ⟨hya, hyst⟩
  · rw [ledger_aside (by simp only [Stmt.run]; split <;> rfl)]
    simp [Ledger.apply, Event.opens, Event.attempt, Event.proof, Event.claiming,
      Event.asking]

/-- A validator accepts a challenge. -/
theorem lives_prove
    {c : Challenge} {a : Authz}
    (hwon : Won false p s c a)
    (acct : Account)
    (name keyAuth : String) :
    Lives s (s.apply { events := [.proved ⟨c, acct, name, keyAuth⟩] }) := by
  refine Lives.deed (d := .proves c.authzId ⟨c, acct, name, keyAuth⟩) ?_ ?_
  · refine ⟨a.orderId, mem_attempts.mpr ⟨c.id, p, ?_⟩⟩
    rw [hwon.target.authz]
    exact hwon.claimed
  · rw [ledger_aside rfl]
    simp [Ledger.apply, Event.opens, Event.attempt, Event.proof, Event.claiming,
      Event.asking]

/-- After a failed challenge the order is refused, unless it is already. -/
theorem lives_fail
    (hs : Inv false s)
    {c : Challenge} {a : Authz}
    (hlost : Lost p s c a)
    (err : Problem) :
    Lives s (s.apply { stmt := .setOrderStatus a.orderId .invalid none (some err) }) := by
  refine setOrder_lives ?_
  intro r hr hid
  have hnot := not_earned_of_lost hs hr (hid ▸ hlost.claimed) hlost.row
  cases hst : r.status with
  | pending =>
      refine Or.inr ⟨.refuses a.orderId, ⟨r.entry, ?_, ?_⟩, rfl⟩
      · rw [← hid]
        exact orders_some hs.ids.orderKey hr
      · simp [Order.entry, hst, OrderStatus.phase]
  | invalid => exact Or.inl rfl
  | ready => exact absurd (Or.inl hst) hnot
  | processing => exact absurd (Or.inr (Or.inl hst)) hnot
  | valid => exact absurd (Or.inr (Or.inr hst)) hnot

/-- The last challenge of an order makes it ready. -/
theorem lives_ready
    (hs : Inv false s)
    {o : Nat}
    (hopen : ∀ r ∈ s.db.orders, r.id = o → r.status.Open) :
    Lives s (s.apply { stmt := .setOrderStatus o .ready none none }) := by
  refine setOrder_lives ?_
  intro r hr hid
  refine Or.inr ⟨.readies o, ⟨r.entry, ?_, ?_⟩, rfl⟩
  · rw [← hid]
    exact orders_some hs.ids.orderKey hr
  · rcases hopen r hr hid with hst | hst <;> simp [Order.entry, hst, OrderStatus.phase]

/-- `ClaimOrder` moves one order on. -/
theorem ledger_claim
    (hs : Inv false s)
    {r : Order}
    (hr : r ∈ s.db.orders)
    {time : Nat}
    (hready : r.status = .ready)
    (hexpires : r.expires > time) :
    ledger (s.apply { stmt := .claimOrder r.id time, events := [.orderClaimed r.id p] }) =
      (ledger s).apply (.claims r.id) := by
  rw [ledger_apply]
  simp only [Ledger.apply, List.filterMap_cons, List.filterMap_nil, Event.opens,
    Event.attempt, Event.proof, Event.claiming, Event.asking, List.append_nil,
    Ledger.mk.injEq, and_true]
  funext o
  have hid : ∀ x : Order, Order.id { x with status := .processing } = x.id := fun _ => rfl
  have hlook := find?_updateWhere
    (p := fun x => x.id == r.id && x.status == OrderStatus.ready && decide (x.expires > time))
    hid o s.db.orders
  simp only [Stmt.run, Db.orderById, hlook, Ledger.move, ledger]
  by_cases ho : o = r.id
  · subst ho
    rw [Function.update_self, hs.ids.orderKey.find?_eq hr]
    simp [hready, hexpires, Order.entry, OrderStatus.phase]
  · rw [Function.update_of_ne ho, Option.map_map]
    refine Option.map_congr ?_
    intro x hx
    have hxid : x.id = o := (mem_of_find?_key hx).2
    simp [Function.comp, hxid, ho]

/-- Every name of an order that `ClaimOrder` takes is proved. -/
theorem proved_of_authorized
    (hs : Inv false s)
    {r : Order}
    (hauthorized : ∀ name ∈ r.identifiers, Authorized s r name) :
    (ledger s).Proved Evidence.Shows r.id r.entry := by
  intro name hname
  obtain ⟨a, ha, horder, hacct, hsplit, _, e, o, q, he, hsup, hev⟩ := hauthorized name hname
  have ho := (hs.claims.used _ _ _ _ hev a ha rfl).1
  rw [← ho, horder] at hev
  have hfirst : a.identifier = (splitWildcard name).1 := congrArg Prod.fst hsplit
  have hsecond : a.wildcard = (splitWildcard name).2 := congrArg Prod.snd hsplit
  refine ⟨a.id, e, mem_attempts.mpr ⟨_, q, hev⟩, mem_proofs.mpr ⟨he, hsup.authz⟩, ?_⟩
  exact ⟨hsup.account.trans hacct, hsup.name.trans hfirst, hsup.keyAuth,
    fun hwild => hsup.wildcard (hsecond.trans hwild)⟩

/-- `ycaRunner.issue`. -/
theorem lives_ask
    {o : Nat}
    (hholder : Holder p s o)
    (hunasked : Event.asked o ∉ s.log) :
    Lives s (s.apply { events := [.asked o] }) := by
  refine Lives.deed (d := .asks o) ?_ ?_
  · exact ⟨mem_claimed.mpr ⟨p, hholder.claimed⟩, fun hasked => hunasked (mem_asked.mp hasked)⟩
  · rw [ledger_aside rfl]
    simp [Ledger.apply, Event.opens, Event.attempt, Event.proof, Event.claiming,
      Event.asking]

theorem Holder.stands
    (hs : Inv false s)
    {o : Nat}
    (hholder : Holder p s o)
    {r : Order}
    (hr : r ∈ s.db.orders)
    (hid : r.id = o) :
    (ledger s).orders o = some r.entry ∧ r.entry.phase = .processing := by
  constructor
  · rw [← hid]
    exact orders_some hs.ids.orderKey hr
  · simp [Order.entry, hholder.processing r hr hid, OrderStatus.phase]

/-- The CA did not issue. -/
theorem lives_refuse
    (hs : Inv false s)
    {o : Nat}
    (hholder : Holder p s o)
    (err : Problem) :
    Lives s (s.apply { stmt := .setOrderStatus o .invalid none (some err) }) := by
  refine setOrder_lives ?_
  intro r hr hid
  obtain ⟨horders, hphase⟩ := hholder.stands hs hr hid
  exact Or.inr ⟨.refuses o, ⟨r.entry, horders, Or.inr hphase⟩, rfl⟩

/-- The certificate is there. -/
theorem lives_finish
    (hs : Inv false s)
    {o : Nat}
    (hholder : Holder p s o)
    (hasked : Event.asked o ∈ s.log)
    (cert : Nat) :
    Lives s (s.apply { stmt := .setOrderStatus o .valid (some cert) none }) := by
  refine setOrder_lives ?_
  intro r hr hid
  obtain ⟨horders, hphase⟩ := hholder.stands hs hr hid
  exact Or.inr ⟨.issues o (some cert), ⟨mem_asked.mpr hasked, r.entry, horders, hphase⟩, rfl⟩

/-- Expired orders go. -/
theorem lives_collect
    (hs : Inv false s)
    (cutoff : Int) :
    Lives s (s.apply { stmt := .gcOrders cutoff }) := by
  have hkey := hs.ids.orderKey
  let expired : List Nat :=
    (s.db.orders.filter fun r => decide ((r.expires : Int) < cutoff)).map Order.id
  have hmem : ∀ r ∈ s.db.orders, r.id ∈ expired ↔ (r.expires : Int) < cutoff := by
    intro r hr
    constructor
    · intro h
      obtain ⟨x, hx, hid⟩ := List.mem_map.mp h
      obtain ⟨hxmem, hexp⟩ := List.mem_filter.mp hx
      rw [← hkey.eq hxmem hr hid]
      exact of_decide_eq_true hexp
    · intro h
      exact List.mem_map.mpr ⟨r, List.mem_filter.mpr ⟨hr, decide_eq_true h⟩, rfl⟩
  have hthere : ∀ o ∈ expired, ((ledger s).orders o).isSome = true := by
    intro o ho
    obtain ⟨r, hr, rfl⟩ := List.mem_map.mp ho
    rw [orders_some hkey (List.mem_of_mem_filter hr)]
    rfl
  have hend : ledger (s.apply { stmt := .gcOrders cutoff }) =
      { ledger s with orders := fun o => if o ∈ expired then none else (ledger s).orders o } := by
    rw [ledger_apply]
    simp only [List.filterMap_nil, List.append_nil, Ledger.mk.injEq, and_true]
    funext o
    simp only [Stmt.run, Db.orderById, ledger,
      hkey.find?_filter (fun r => !decide ((r.expires : Int) < cutoff)) o]
    cases hfind : s.db.orders.find? fun r => r.id == o with
    | none => simp
    | some r =>
        obtain ⟨hr, rfl⟩ := mem_of_find?_key hfind
        by_cases hexp : (r.expires : Int) < cutoff
        · rw [if_pos ((hmem r hr).mpr hexp)]
          simp [Option.filter, hexp]
        · rw [if_neg fun h => hexp ((hmem r hr).mp h)]
          simp [Option.filter, hexp]
  rw [Lives, hend]
  exact run_remove expired (hkey.filter _) hthere

end Steps

/-- The order the CA has issued for, and whose handler is filing the
certificate. -/
def Handler.answered : Handler → Option Nat
  | .finalize (.certMeta _ o _ _ _) => some o.id
  | .finalize (.store o _ _) => some o.id
  | .finalize (.finish o _ _) => some o.id
  | _ => none

theorem answered_next
    {p : Pid} {k : Choice} {s : State} {h : Handler} {out : Outcome}
    (hx : next p k s h = some out)
    {o : Nat}
    (ho : out.2.answered = some o) :
    h.answered = some o ∨ Event.asked o ∈ out.1.events := by
  cases h with
  | newOrder pc =>
      rcases newOrder_goes hx with ⟨pc', hout⟩ | ⟨r, hout⟩ <;> rw [hout] at ho <;> cases ho
  | challenge pc =>
      rcases challenge_goes hx with ⟨pc', hout⟩ | ⟨r, hout⟩ <;> rw [hout] at ho <;> cases ho
  | gc pc =>
      rcases collect_goes hx with ⟨pc', hout⟩ | ⟨r, hout⟩ <;> rw [hout] at ho <;> cases ho
  | replied r => simp [next] at hx
  | finalize pc =>
      cases finalize_step hx with
      | issued =>
          cases ho
          exact Or.inr List.mem_cons_self
      | parsed => exact Or.inl ho
      | stored => exact Or.inl ho
      | _ => cases ho

/-- The history only grows. -/
theorem die_log
    {h : Handler} {s : State} {ev : Event}
    (hev : ev ∈ s.log) :
    ev ∈ (die h s).log := by
  simp only [die]
  split
  · exact hev
  · exact List.mem_append_left _ hev

/-- A handler files a certificate for an order the CA was asked about. -/
theorem answeredOutline :
    Program.Outline frontend Initial Guard.free (fun _ => True)
      (fun _ s h => ∀ o, h.answered = some o → Event.asked o ∈ s.log) where
  init _ _ := trivial
  spawn w p r _ _ _ := by
    intro o ho
    cases r <;> cases ho
  act w p k h s' l hw _ hp hx := by
    obtain ⟨e, h', hnext, rfl, rfl⟩ := frontend_act hx
    refine ⟨trivial, ?_, ?_⟩
    · intro m hm o ho
      rw [← Option.some.inj hm] at ho
      rcases answered_next hnext ho with hold | hnew
      · exact State.mem_apply_log (hw.local_ p h hp o hold)
      · exact List.mem_append_right _ hnew
    · intro q m _ _ hq o ho
      exact State.mem_apply_log (hq o ho)
  crash w p h _ _ := ⟨trivial, fun q m _ _ hq o ho => die_log (hq o ho)⟩
  env w e s' _ _ hx := by
    have hs' : s' = outside w.shared e := (Option.some.inj hx).symm
    refine ⟨trivial, fun q m _ hq o ho => ?_⟩
    rw [hs', (outside_rows w.shared e).2]
    exact hq o ho

/-- Runs in which clients present what they were given, and `ready` is written
on open orders only. -/
def Orderly : Guard (World State Handler) (Action Choice Request Outside) :=
  fun w a => ReadyOnlyOpen w a ∧ Presents true w a

instance (w : World State Handler) (a : Action Choice Request Outside) :
    Decidable (Orderly w a) :=
  inferInstanceAs (Decidable (_ ∧ _))

section Reachable

variable {w : World State Handler} {p : Pid} {k : Choice} {out : Outcome}

/-- `ClaimOrder`. -/
theorem lives_claim
    (hw : server.Reachable (Presents true) w)
    (hs : Inv false w.shared)
    {acct : Account} {o : Order} {authzs : List Authz} {time : Nat}
    (hp : w.procs p = some (.finalize (.claim acct o authzs time)))
    (hclaim : w.shared.db.orderClaimable o.id time = true) :
    Lives w.shared (w.shared.apply
      { stmt := .claimOrder o.id time, events := [.orderClaimed o.id p] }) := by
  obtain ⟨r, hr, hid, hready, hauthorized⟩ := authorized_of_claimable hw hp hclaim
  have hexpires : r.expires > time := by
    simp only [Db.orderClaimable, List.any_eq_true, Bool.and_eq_true, beq_iff_eq,
      decide_eq_true_eq] at hclaim
    obtain ⟨x, hx, ⟨hxid, _⟩, hexp⟩ := hclaim
    rw [hs.ids.orderKey.eq hr hx (hid.trans hxid.symm)]
    exact hexp
  rw [← hid]
  refine Lives.deed (d := .claims r.id) ?_ (ledger_claim hs hr hready hexpires)
  refine ⟨r.entry, orders_some hs.ids.orderKey hr, ?_, proved_of_authorized hs hauthorized⟩
  simp [Order.entry, hready, OrderStatus.phase]

theorem lives_newOrder
    (hs : Inv false w.shared)
    {pc : NewOrder}
    (hworks : (Handler.newOrder pc).Works k)
    (hx : newOrderStep p k w.shared pc = some out) :
    Lives w.shared (w.shared.apply out.1) := by
  cases newOrder_step hx with
  | inserted horder =>
      subst horder
      exact lives_insert hs rfl rfl _ _
  | refused => exact (silent_refuse _).lives
  | @failed _ pc => cases pc <;> exact hworks.elim
  | _ => exact hworks.elim

theorem lives_challenge
    (hs : Inv false w.shared)
    (hG : Orderly w (.act p k))
    {pc : ChallengePost}
    (hp : w.procs p = some (.challenge pc))
    (hJ : OpenAsserts p w.shared (.challenge pc))
    (hworks : (Handler.challenge pc).Works k)
    (hx : challengeStep p k w.shared pc = some out) :
    Lives w.shared (w.shared.apply out.1) := by
  cases challenge_step hx with
  | won hclaim => exact lives_attempt hs hclaim _
  | proved => exact lives_prove hJ.1.1 _ _ _
  | failOrder => exact lives_fail hs hJ.1 _
  | ready =>
      have hopen := hG.1
      simp only [ReadyOnlyOpen, hp] at hopen
      exact lives_ready hs hopen
  | answered => exact (silent_goto _).lives
  | lost => exact (silent_goto _).lives
  | @skipped _ pc => cases pc <;> exact hworks.elim
  | _ => exact hworks.elim

theorem lives_finalize
    (hw : server.Reachable (Presents true) w)
    (hs : Inv false w.shared)
    {pc : Finalize}
    (hp : w.procs p = some (.finalize pc))
    (hJ : OpenAsserts p w.shared (.finalize pc))
    (hasked : ∀ o, (Handler.finalize pc).answered = some o → Event.asked o ∈ w.shared.log)
    (hworks : (Handler.finalize pc).Works k)
    (hx : finalizeStep p k w.shared pc = some out) :
    Lives w.shared (w.shared.apply out.1) := by
  have hheld : pc.Holding p w.shared := hJ.2
  cases finalize_step hx with
  | claimed hclaim => exact lives_claim hw hs hp hclaim
  | issued => exact lives_ask hheld.1 hheld.2
  | blocked => exact lives_ask hheld.1 hheld.2
  | refused => exact lives_refuse hs hheld _
  | @finished o => exact lives_finish hs hheld (hasked o.id rfl) _
  | answered => exact (silent_goto _).lives
  | _ => exact hworks.elim

/-- A step of a handler. -/
theorem lives_next
    (hw : server.Reachable Orderly w)
    (hG : Orderly w (.act p k))
    {h : Handler}
    (hp : w.procs p = some h)
    (hx : next p k w.shared h = some out) :
    Lives w.shared (w.shared.apply out.1) := by
  have hholds := openOutline.sound (hw.mono fun _ _ hG => hG.1)
  have hs := hholds.shared.1
  have hJ := hholds.local_ p h hp
  by_cases hworks : h.Works k
  · cases h with
    | newOrder pc => exact lives_newOrder hs hworks hx
    | challenge pc => exact lives_challenge hs hG hp hJ hworks hx
    | finalize pc =>
        have hasked := (answeredOutline.sound (hw.mono fun _ _ _ => trivial)).local_ p _ hp
        exact lives_finalize (hw.mono fun _ _ hG => hG.2) hs hp hJ hasked hworks hx
    | gc pc =>
        cases pc with
        | orders cutoff =>
            cases k with
            | ok =>
                cases hx
                exact lives_collect hs cutoff
            | _ => exact hworks.elim
        | _ => exact hworks.elim
    | replied r => exact hworks.elim
  · exact (silent_of_idle hx hworks).lives

end Reachable

theorem ledger_die (h : Handler) (s : State) :
    ledger (die h s) = ledger s := by
  simp only [die]
  split
  · rfl
  · simp [ledger, Event.opens, Event.attempt, Event.proof, Event.claiming, Event.asking]

/-- Every step is lived through. -/
theorem frontend_refines_lifecycle :
    Refinement server Orderly (lifecycle Evidence.Shows) Guard.free
      (fun w => ledger w.shared) where
  init w hw := by
    obtain ⟨⟨horders, _, _, hlog⟩, _⟩ := hw
    show ledger w.shared = Ledger.empty
    simp [ledger, Ledger.empty, Db.orderById, horders, hlog]
  step w a w' hw hG hexec := by
    have hx : frontend.exec w a = some w' := hexec
    cases a with
    | spawn p r =>
        obtain ⟨_, rfl⟩ := Program.exec_spawn hx
        exact Lives.same rfl
    | act p k =>
        obtain ⟨h, s', l, hp, hact, rfl⟩ := Program.exec_act hx
        obtain ⟨e, h', hnext, rfl, rfl⟩ := frontend_act hact
        exact lives_next hw hG hp hnext
    | crash p =>
        obtain ⟨h, _, rfl⟩ := Program.exec_crash hx
        exact Lives.same (ledger_die h w.shared)
    | env e =>
        obtain ⟨s', hs, rfl⟩ := Program.exec_env hx
        have hs' : s' = outside w.shared e := (Option.some.inj hs).symm
        subst hs'
        obtain ⟨hrows, hlog⟩ := outside_rows w.shared e
        exact Lives.same (by simp only [ledger, Db.orderById, hrows.orders, hlog])

/-- In every run in which `ready` is written on open orders only, the orders
live as they should.  The run is one of the ledger; so at its end every
authorization was attempted at most once, the CA was asked at most once for an
order and only for a claimed one, and an order was claimed only when each of its
names was proved by evidence for one of its own authorizations; and an order
that has ended stays as it is until it is removed, and never comes back. -/
theorem orders_live_lawfully
    {w w' : World State Handler}
    {as : List (Action Choice Request Outside)}
    (hw : server.Reachable Orderly w)
    (hrun : server.Run Orderly w as w') :
    (∃ ds, (lifecycle Evidence.Shows).Run Guard.free (ledger w.shared) ds (ledger w'.shared)) ∧
    Lawful Evidence.Shows (ledger w'.shared) ∧
    ∀ o x, (ledger w.shared).orders o = some x → x.phase.Final →
      Ended o x (ledger w'.shared) := by
  obtain ⟨ds, hds⟩ := frontend_refines_lifecycle.run hw hrun
  have hreach := frontend_refines_lifecycle.reachable hw
  refine ⟨⟨ds, hds⟩, lawful_of_reachable (hreach.run hds), ?_⟩
  intro o x hx hfinal
  have hknown := (lawful_of_reachable hreach).known o (by rw [hx]; rfl)
  exact ended_run hfinal ⟨hknown, Or.inl hx⟩ hds

/-- One order taken from newOrder to its certificate, and collected. -/
theorem orders_live_lawfully_sample :
    ∃ w w' : World State Handler,
      (∃ x, (ledger w.shared).orders 1 = some x ∧ x.phase.Final ∧
        (ledger w.shared).Proved Evidence.Shows 1 x ∧ Ended 1 x (ledger w'.shared)) ∧
      (ledger w'.shared).orders 1 = none := by
  let info : CertMeta := ⟨"40", "ari", 0, 1⟩
  have hcheck :
      (server.follow Orderly (World.idle sampleState)
        (sampleOrder ++ .spawn 1 (.challenge 0 3 false) :: oks 1 11 ++
          .spawn 2 (.finalize 0 1 (.csr ⟨"a.ca", [], [], [], []⟩)) :: oks 2 4 ++
          [.act 2 (.issued "chain" "a.ca"), .act 2 (.parsed info)] ++ oks 2 2)).any
        (fun w => decide (w.shared.db.orderById 1 =
            some ⟨1, 0, .valid, ["a.ca"], 86400, some 7, none⟩) &&
          (server.follow Orderly w
            ([.env (.tick (2 * orderTtl)), .spawn 3 (.gc 0)] ++ oks 3 2)).any
            fun w' => (w'.shared.db.orderById 1).isNone) = true := by
    decide
  rcases Automaton.Run.exists_of_follow hcheck with ⟨w, hrun, hw⟩
  rw [Bool.and_eq_true] at hw
  rcases Automaton.Run.exists_of_follow hw.2 with ⟨w', hrun', hw'⟩
  have hreach := Automaton.Reachable.of_run sampleState_init hrun
  have hrow : (ledger w.shared).orders 1 = some ⟨0, ["a.ca"], .valid (some 7)⟩ := by
    show (w.shared.db.orderById 1).map Order.entry = _
    rw [of_decide_eq_true hw.1]
    rfl
  have hgone : (ledger w'.shared).orders 1 = none := by
    show (w'.shared.db.orderById 1).map Order.entry = none
    rw [Option.isNone_iff_eq_none.mp hw']
    rfl
  have hlawful := (orders_live_lawfully hreach (Automaton.Run.nil w)).2.1
  exact ⟨w, w', ⟨_, hrow, trivial, (hlawful.given 1 _ hrow trivial).2,
    (orders_live_lawfully hreach hrun').2.2 1 _ hrow trivial⟩, hgone⟩

end Acme
end Yca
